/-
The values at the points of a drawing on the grid. `Drawing.Carries` says that a
valuation of the points of the plane respects a drawing: a wire has one value at
both ends, a gate puts out what it makes of its inputs, and a leaf has the
value of its literal.

Every such valuation has the value of the tree where the tree puts it out
(`eval_of_carries`), by induction along the wires. That there is one at all
(`carries_signal`) rests on no two symbols sharing a pin: `keepsTo_sketch` keeps
every drawing to its box, and the boxes of the operands of a gate lie apart and
left of its pins, so `GateTree.signal` can find the value of a point from where
it is.
-/
import Schematic.Proofs.GridSheet

namespace Schematic

namespace Catalog

/-- Where a gate on the grid puts out its value. -/
def outPin (s : Int) (kind : NodeKind) : Point :=
  ⟨kind.width * s, (kind.arity / 2 : Nat) * s⟩

theorem map_inputs_gateShape {s : Int} {kind : NodeKind} {f : Point → Bool} {bs : List Bool}
    (hlen : bs.length = kind.arity) (h : ∀ i < kind.arity, f ⟨0, i * s⟩ = bs.getD i false) :
    (gateShape s kind).inputs.map f = bs := by
  refine List.ext_getElem (by simp [hlen, gateShape]) fun i hi hi' => ?_
  have hget : bs[i] = bs.getD i false := List.getElem_eq_getD false
  rw [List.getElem_map, hget, ← h i (hlen ▸ hi')]
  simp [gateShape]

theorem pin_terminal (s : Int) : (terminal s [.origin] none).pin 0 = .origin := rfl

end Catalog

/-! ## Properties of everything drawn -/

namespace Drawing

/-- What holds of every wire, every node and every leaf. -/
structure Every (wire : Wire → Prop) (node : Node → Prop) (leaf : Leaf → Prop) (d : Drawing) : Prop where
  wires : ∀ w ∈ d.circuit.wires, wire w
  nodes : ∀ n ∈ d.circuit.nodes, node n
  leaves : ∀ l ∈ d.leaves, leaf l

variable {W W' : Wire → Prop} {N N' : Node → Prop} {L L' : Leaf → Prop} {d e : Drawing}

@[simp] theorem every_empty : Every W N L {} := by
  constructor <;> simp

@[simp] theorem every_append : Every W N L (d ++ e) ↔ d.Every W N L ∧ e.Every W N L := by
  refine ⟨?_, ?_⟩
  · intro h
    obtain ⟨hw, hn, hl⟩ := h
    simp only [mem_wires_append, mem_nodes_append, mem_leaves_append, or_imp, forall_and] at hw hn hl
    exact ⟨⟨hw.1, hn.1, hl.1⟩, hw.2, hn.2, hl.2⟩
  · intro h
    obtain ⟨⟨hw, hn, hl⟩, hw', hn', hl'⟩ := h
    refine ⟨fun w hmem => ?_, fun n hmem => ?_, fun l hmem => ?_⟩
    · exact (mem_wires_append.1 hmem).elim (hw w) (hw' w)
    · exact (mem_nodes_append.1 hmem).elim (hn n) (hn' n)
    · exact (mem_leaves_append.1 hmem).elim (hl l) (hl' l)

@[simp] theorem every_ofNode {node : Node} : Every W N L (ofNode node) ↔ N node :=
  ⟨fun h => h.nodes node (by simp), fun h => ⟨by simp, by simpa using h, by simp⟩⟩

@[simp] theorem every_ofWire {wire : Wire} : Every W N L (ofWire wire) ↔ W wire :=
  ⟨fun h => h.wires wire (by simp), fun h => ⟨by simpa using h, by simp, by simp⟩⟩

@[simp] theorem every_ofLeaf {leaf : Leaf} : Every W N L (ofLeaf leaf) ↔ L leaf :=
  ⟨fun h => h.leaves leaf (by simp), fun h => ⟨by simp, by simp, by simpa using h⟩⟩

theorem Every.imp₂ {W'' : Wire → Prop} {N'' : Node → Prop} {L'' : Leaf → Prop} (h : d.Every W N L)
    (h' : d.Every W' N' L') (hw : ∀ w, W w → W' w → W'' w) (hn : ∀ n, N n → N' n → N'' n)
    (hl : ∀ l, L l → L' l → L'' l) : d.Every W'' N'' L'' :=
  ⟨fun w hmem => hw w (h.wires w hmem) (h'.wires w hmem),
    fun n hmem => hn n (h.nodes n hmem) (h'.nodes n hmem),
    fun l hmem => hl l (h.leaves l hmem) (h'.leaves l hmem)⟩

variable {s column : Int} {P Q : Point → Prop} {env : Variable → Bool} {val val' : Point → Bool}

/-- A drawing that only reaches points of a kind, the pins of its gates
included, with all leaves in one column. -/
def KeepsTo (s column : Int) (P : Point → Prop) : Drawing → Prop :=
  Every (fun w => P w.p ∧ P w.q)
    (fun n => P n.pos ∧ (n.kind.isGate = true → P (n.pos + Catalog.outPin s n.kind) ∧
      ∀ pin ∈ (Catalog.gateShape s n.kind).inputs, P (n.pos + pin)))
    (fun l => P l.pos ∧ l.pos.x = column)

/-- A valuation that respects a drawing on the grid. -/
def Carries (s : Int) (env : Variable → Bool) (val : Point → Bool) : Drawing → Prop :=
  Every (fun w => val w.p = val w.q)
    (fun n => n.kind.isGate = true → val (n.pos + Catalog.outPin s n.kind) =
      n.kind.combine ((Catalog.gateShape s n.kind).inputs.map fun pin => val (n.pos + pin)))
    (fun l => val l.pos = l.literal.eval env)

theorem KeepsTo.mono (h : d.KeepsTo s column P) (hP : ∀ p, P p → Q p) : d.KeepsTo s column Q :=
  Every.imp₂ h h (fun _ hw _ => ⟨hP _ hw.1, hP _ hw.2⟩)
    (fun _ hn _ => ⟨hP _ hn.1, fun hgate =>
      ⟨hP _ (hn.2 hgate).1, fun pin hpin => hP _ ((hn.2 hgate).2 pin hpin)⟩⟩)
    (fun _ hl _ => ⟨hP _ hl.1, hl.2⟩)

/-- Values elsewhere do not matter. -/
theorem Carries.congr (h : d.Carries s env val) (hd : d.KeepsTo s column P)
    (hval : ∀ p, P p → val' p = val p) : d.Carries s env val' := by
  refine Every.imp₂ h hd (fun w hw hP => ?_) (fun n hn hP hgate => ?_) (fun l hl hP => ?_)
  · rw [hval _ hP.1, hval _ hP.2, hw]
  · rw [hval _ (hP.2 hgate).1, hn hgate]
    exact congrArg _ (List.map_congr_left fun pin hpin => (hval _ ((hP.2 hgate).2 pin hpin)).symm)
  · rw [hval _ hP.1, hl]

end Drawing

/-! ## The box of a drawing -/

theorem Point.add_rows (pos : Point) (y y' : Int) : pos + ⟨0, y + y'⟩ = pos + ⟨0, y⟩ + ⟨0, y'⟩ :=
  ext (by simp) (by simp [Int.add_assoc])

/-- The points of a box that are reached by what is drawn in it, which leaves
the last of its rows free. -/
structure Point.InBox (s : Int) (pos : Point) (span leaves : Nat) (p : Point) : Prop where
  left : pos.x ≤ p.x
  right : p.x ≤ pos.x + (1 + span) * s
  top : pos.y ≤ p.y
  bottom : p.y + 2 * s ≤ pos.y + 2 * leaves * s

/-- The points of a box and of the row above it, up to a terminal on its right. -/
structure Point.InOutputBox (s : Int) (pos : Point) (span leaves : Nat) (p : Point) : Prop where
  left : pos.x ≤ p.x
  right : p.x < pos.x + (3 + span) * s
  top : pos.y ≤ p.y
  bottom : p.y + s ≤ pos.y + 2 * leaves * s

namespace GateTree

open Point (InBox InOutputBox)

variable {s : Int} {pos p : Point} {t : GateTree} {ts : List GateTree}

theorem inBox_head (hs : 0 < s) (h : InBox s pos t.span t.leafCount p) :
    InBox s pos (spanAll (t :: ts)) (leafCountAll (t :: ts)) p := by
  have hspan : ((t.span : Nat) : Int) * s ≤ (spanAll (t :: ts) : Nat) * s :=
    mul_le_mul_of_nonneg_right (Nat.cast_le.2 (Nat.le_max_left _ _)) hs.le
  have hrest : 0 ≤ (leafCountAll ts : Int) * s := mul_nonneg (by omega) hs.le
  obtain ⟨hleft, hright, htop, hbottom⟩ := h
  refine ⟨hleft, by linarith, htop, ?_⟩
  rw [leafCountAll]
  push_cast
  linarith

theorem inBox_tail (hs : 0 < s)
    (h : InBox s (pos + ⟨0, 2 * t.leafCount * s⟩) (spanAll ts) (leafCountAll ts) p) :
    InBox s pos (spanAll (t :: ts)) (leafCountAll (t :: ts)) p := by
  have hspan : ((spanAll ts : Nat) : Int) * s ≤ (spanAll (t :: ts) : Nat) * s :=
    mul_le_mul_of_nonneg_right (Nat.cast_le.2 (Nat.le_max_right _ _)) hs.le
  have hfirst : 0 ≤ (t.leafCount : Int) * s := mul_nonneg (by omega) hs.le
  obtain ⟨hleft, hright, htop, hbottom⟩ := h
  simp only [Point.x_add, Point.y_add] at hleft hright htop hbottom
  refine ⟨by linarith, by linarith, by linarith, ?_⟩
  rw [leafCountAll]
  push_cast
  linarith

theorem inBox_pin (hs : 0 < s) (h : t.Complete) (pos : Point) :
    InBox s pos t.span t.leafCount (pos + (t.plan s).pin) := by
  obtain ⟨htop, hbottom⟩ := Layout.pin_plan_bounds hs h
  have hright : 0 ≤ (t.plan s).pin.x ∧ (t.plan s).pin.x ≤ (1 + t.span) * s := by
    cases t with
    | leaf l => simp [plan, Layout.pin, span, hs.le]
    | gate kind ts =>
      simp only [plan, Layout.pin, span]
      exact ⟨mul_nonneg (by omega) hs.le, by push_cast; linarith⟩
    | output label t => exact h.elim
  refine ⟨?_, ?_, ?_, ?_⟩ <;> simp only [Point.x_add, Point.y_add] <;> linarith

theorem pin_plan_gate (s : Int) (pos : Point) (kind : NodeKind) (ts : List GateTree) :
    pos + (plan s (.gate kind ts)).pin = pos + ⟨(2 + spanAll ts) * s, 0⟩ + Catalog.outPin s kind := by
  refine Point.ext ?_ ?_ <;> simp only [plan, Layout.pin, Catalog.outPin, Point.x_add, Point.y_add] <;> ring

/-- The points of the symbol of a gate that are above its last row. -/
theorem inBox_symbol (hs : 0 < s) {kind : NodeKind} (h : Complete (.gate kind ts)) {q : Point}
    (hx : 0 ≤ q.x) (hx' : q.x ≤ kind.width * s) (hy : 0 ≤ q.y) (hy' : q.y + s ≤ kind.arity * s) :
    InBox s pos (span (.gate kind ts)) (leafCount (.gate kind ts)) (pos + ⟨(2 + spanAll ts) * s, 0⟩ + q) := by
  obtain ⟨hpos, hle⟩ := arity_le_leafCountAll h
  have hcell : s ≤ leafCountAll ts * s := le_mul_of_one_le_left hs.le (by omega)
  have hhigh : (kind.arity : Int) * s ≤ leafCountAll ts * s := mul_le_mul_of_nonneg_right (by omega) hs.le
  have hspan : 0 ≤ (spanAll ts : Int) * s := mul_nonneg (by omega) hs.le
  refine ⟨?_, ?_, ?_, ?_⟩ <;> simp only [Point.x_add, Point.y_add, span, leafCount] <;> push_cast <;> linarith

theorem inBox_outPin (hs : 0 < s) {kind : NodeKind} (h : Complete (.gate kind ts)) :
    InBox s pos (span (.gate kind ts)) (leafCount (.gate kind ts))
      (pos + ⟨(2 + spanAll ts) * s, 0⟩ + Catalog.outPin s kind) := by
  have hpos := (arity_le_leafCountAll h).1
  have hhalf : ((kind.arity / 2 + 1 : Nat) : Int) * s ≤ kind.arity * s :=
    mul_le_mul_of_nonneg_right (by omega) hs.le
  rw [Nat.cast_succ, add_mul, one_mul] at hhalf
  exact inBox_symbol hs h (mul_nonneg (by omega) hs.le) le_rfl (mul_nonneg (by omega) hs.le) hhalf

theorem inBox_inPin (hs : 0 < s) {kind : NodeKind} (h : Complete (.gate kind ts)) {i : Nat}
    (hi : i < kind.arity) : InBox s pos (span (.gate kind ts)) (leafCount (.gate kind ts))
      (pos + ⟨(2 + spanAll ts) * s, 0⟩ + ⟨0, i * s⟩) := by
  have hnext : ((i + 1 : Nat) : Int) * s ≤ kind.arity * s := mul_le_mul_of_nonneg_right (by omega) hs.le
  rw [Nat.cast_succ, add_mul, one_mul] at hnext
  exact inBox_symbol hs h le_rfl (mul_nonneg (by omega) hs.le) (mul_nonneg (by omega) hs.le) hnext

mutual

/-- **What is drawn of a tree keeps to its box**, with the leaves on the left
side. -/
theorem keepsTo_sketch (hs : 0 < s) : (t : GateTree) → t.Complete → ∀ pos : Point,
    ((t.plan s).sketch pos).KeepsTo s pos.x (InBox s pos t.span t.leafCount)
  | .leaf l, h, pos => by
    have hpin := inBox_pin hs h pos
    simp only [plan, Layout.pin, Point.add_origin] at hpin
    simpa [plan, Layout.sketch, Drawing.KeepsTo] using hpin
  | .gate kind ts, h, pos => by
    rw [plan, Layout.sketch, Drawing.KeepsTo, Drawing.every_append, Drawing.every_ofNode]
    refine ⟨⟨?_, fun _ => ⟨inBox_outPin hs h, ?_⟩⟩, ?_⟩
    · have hfirst : InBox s pos _ _ (pos + ⟨(2 + spanAll ts) * s, 0⟩ + ⟨0, (0 : Nat) * s⟩) :=
        inBox_inPin hs h (arity_le_leafCountAll h).1
      have hcorner : (⟨0, (0 : Nat) * s⟩ : Point) = .origin := by simp [Point.origin]
      rwa [hcorner, Point.add_origin] at hfirst
    · intro pin hpin
      simp only [Catalog.gateShape, List.mem_map, List.mem_range] at hpin
      obtain ⟨i, hi, rfl⟩ := hpin
      exact inBox_inPin hs h hi
    · refine keepsTo_sketchAll hs ts h.2.2.2 (fun p hp => ?_) (fun i hi => ?_)
      · obtain ⟨hleft, hright, htop, hbottom⟩ := hp
        have hsymbol : 0 ≤ (kind.width : Int) * s := mul_nonneg (by omega) hs.le
        simp only [Point.x_add, Point.y_add] at hleft hright htop hbottom
        refine ⟨by linarith, ?_, by linarith, by rw [leafCount]; linarith⟩
        rw [span]
        push_cast
        linarith
      · rw [h.2.1] at hi
        rw [Nat.zero_add, Catalog.pin_gateShape hi]
        exact inBox_inPin hs h hi
  | .output _ _, h, _ => h.elim

theorem keepsTo_sketchAll (hs : 0 < s) : (ts : List GateTree) → CompleteAll ts →
    ∀ {pos symbol : Point} {y : Int} {shape : Shape} {pin : Nat} {P : Point → Prop},
      (∀ p, InBox s (pos + ⟨0, y⟩) (spanAll ts) (leafCountAll ts) p → P p) →
      (∀ i < ts.length, P (symbol + shape.pin (pin + i))) →
      (Layout.sketchAll pos symbol shape pin (planAll s y ts)).KeepsTo s pos.x P
  | [], _, _, _, _, _, _, _, _, _ => Drawing.every_empty
  | t :: ts, h, pos, symbol, y, shape, pin, P, hP, hpins => by
    have hoperand := keepsTo_sketch hs t h.1 (pos + ⟨0, y⟩)
    have hcolumn : (pos + ⟨0, y⟩ : Point).x = pos.x := Int.add_zero _
    rw [hcolumn] at hoperand
    rw [planAll, Layout.sketchAll, Drawing.KeepsTo, Drawing.every_append, Drawing.every_append,
      Drawing.every_ofWire]
    refine ⟨hoperand.mono fun p hp => hP p (inBox_head hs hp), ⟨?_, ?_⟩, ?_⟩
    · exact hpins 0 (by simp)
    · exact hP _ (inBox_head hs (inBox_pin hs h.1 _))
    · refine keepsTo_sketchAll hs ts h.2 (fun p hp => hP p (inBox_tail hs ?_)) fun i hi => ?_
      · rwa [Point.add_rows] at hp
      · rw [Nat.add_assoc, Nat.add_comm 1]
        exact hpins (i + 1) (by simpa using hi)

end

/-! ## Values -/

mutual

/-- **A valuation that respects the drawing of a tree** has the value of the
tree where the tree puts it out. -/
theorem eval_of_carries {env : Variable → Bool} {val : Point → Bool} : (t : GateTree) → t.Complete →
    ∀ {pos : Point}, ((t.plan s).sketch pos).Carries s env val → val (pos + (t.plan s).pin) = t.eval env
  | .leaf l, _, pos, hval => by
    rw [plan, Layout.sketch, Drawing.Carries, Drawing.every_ofLeaf] at hval
    simpa [plan, Layout.pin, eval] using hval
  | .gate kind ts, h, pos, hval => by
    rw [plan, Layout.sketch, Drawing.Carries, Drawing.every_append, Drawing.every_ofNode] at hval
    obtain ⟨hgate, hoperands⟩ := hval
    have hlen : (evalAll env ts).length = kind.arity := by rw [evalAll_eq, List.length_map, h.2.1]
    have hpins := evalAll_of_carries ts h.2.2.2 hoperands
    rw [pin_plan_gate, hgate h.1, eval]
    refine congrArg _ (Catalog.map_inputs_gateShape hlen fun i hi => ?_)
    rw [← hpins i (h.2.1 ▸ hi), Nat.zero_add, Catalog.pin_gateShape hi]
  | .output _ _, h, _, _ => h.elim

theorem evalAll_of_carries {env : Variable → Bool} {val : Point → Bool} : (ts : List GateTree) →
    CompleteAll ts → ∀ {pos symbol : Point} {y : Int} {shape : Shape} {pin : Nat},
      (Layout.sketchAll pos symbol shape pin (planAll s y ts)).Carries s env val →
      ∀ i < ts.length, val (symbol + shape.pin (pin + i)) = (evalAll env ts).getD i false
  | [], _, _, _, _, _, _, _, _, hi => absurd hi (Nat.not_lt_zero _)
  | t :: ts, h, pos, symbol, y, shape, pin, hval, i, hi => by
    rw [planAll, Layout.sketchAll, Drawing.Carries, Drawing.every_append, Drawing.every_append,
      Drawing.every_ofWire] at hval
    obtain ⟨hoperand, hwire, hrest⟩ := hval
    cases i with
    | zero =>
      rw [Nat.add_zero, hwire, eval_of_carries t h.1 hoperand]
      rfl
    | succ i =>
      have ih := evalAll_of_carries ts h.2 hrest i (by simpa using hi)
      rw [Nat.add_comm i, ← Nat.add_assoc, ih, Nat.add_comm 1]
      rfl

end

mutual

/-- The value of a point of the drawing of a tree with its corner at `pos`. Left
of the symbol of a gate are the operands, in the column of its corner the input
pins. -/
def signal (s : Int) (env : Variable → Bool) (pos : Point) : GateTree → Point → Bool
  | .leaf l, _ => l.eval env
  | .gate kind ts, p =>
    if p.x < pos.x + (2 + spanAll ts) * s then
      signalAll s env pos ts p
    else if p.x = pos.x + (2 + spanAll ts) * s then
      (evalAll env ts).getD ((p.y - pos.y) / s).toNat false
    else
      kind.combine (evalAll env ts)
  | .output _ t, p =>
    if p.x < pos.x + (2 + t.span) * s then signal s env (pos + ⟨0, s⟩) t p else t.eval env

/-- The value of a point of operands one below the other. -/
def signalAll (s : Int) (env : Variable → Bool) (pos : Point) : List GateTree → Point → Bool
  | [], _ => false
  | t :: ts, p =>
    if p.y < pos.y + 2 * t.leafCount * s then
      signal s env pos t p
    else
      signalAll s env (pos + ⟨0, 2 * t.leafCount * s⟩) ts p

end

theorem signal_pin (hs : 0 < s) (h : t.Complete) (env : Variable → Bool) (pos : Point) :
    signal s env pos t (pos + (t.plan s).pin) = t.eval env := by
  cases t with
  | leaf l => rfl
  | gate kind ts =>
    have hsymbol : 0 < (kind.width : Int) * s := mul_pos (Nat.cast_pos.2 kind.width_pos) hs
    have hright : pos.x + (2 + spanAll ts) * s < (pos + (plan s (.gate kind ts)).pin).x := by
      simp only [plan, Layout.pin, Point.x_add]
      linarith
    rw [signal, if_neg hright.not_gt, if_neg hright.ne', eval]
  | output label t => exact h.elim

theorem signal_inPin (hs : 0 < s) {kind : NodeKind} (env : Variable → Bool) (i : Nat) :
    signal s env pos (.gate kind ts) (pos + ⟨(2 + spanAll ts) * s, 0⟩ + ⟨0, i * s⟩) =
      (evalAll env ts).getD i false := by
  have hx : (pos + ⟨(2 + spanAll ts) * s, 0⟩ + ⟨0, i * s⟩ : Point).x = pos.x + (2 + spanAll ts) * s := by simp
  have hy : ((pos + ⟨(2 + spanAll ts) * s, 0⟩ + ⟨0, i * s⟩ : Point).y - pos.y) / s = i := by
    simp [Int.mul_ediv_cancel _ hs.ne']
  rw [signal, if_neg (by rw [hx]; exact lt_irrefl _), if_pos hx, hy, Int.toNat_natCast]

mutual

/-- **The values respect the drawing of a tree.** -/
theorem carries_signal (hs : 0 < s) (env : Variable → Bool) : (t : GateTree) → t.Complete → ∀ pos : Point,
    ((t.plan s).sketch pos).Carries s env (signal s env pos t)
  | .leaf l, _, pos => by
    rw [plan, Layout.sketch, Drawing.Carries, Drawing.every_ofLeaf, signal]
  | .gate kind ts, h, pos => by
    have hlen : (evalAll env ts).length = kind.arity := by rw [evalAll_eq, List.length_map, h.2.1]
    rw [plan, Layout.sketch, Drawing.Carries, Drawing.every_append, Drawing.every_ofNode]
    refine ⟨fun _ => ?_, ?_⟩
    · rw [← pin_plan_gate, signal_pin hs h, eval]
      exact congrArg _ (Catalog.map_inputs_gateShape hlen fun i _ => signal_inPin hs env i).symm
    · refine carries_signalAll hs env ts h.2.2.2 (fun p hp => ?_) (fun i hi => ?_)
      · have hright : p.x < pos.x + (2 + spanAll ts) * s := by
          have := hp.right
          simp only [Point.x_add] at this
          linarith
        rw [signal, if_pos hright]
        congr 1
        exact (Point.add_origin pos).symm
      · rw [Nat.zero_add, Catalog.pin_gateShape (h.2.1 ▸ hi), signal_inPin hs]
  | .output _ _, h, _ => h.elim

theorem carries_signalAll (hs : 0 < s) (env : Variable → Bool) : (ts : List GateTree) → CompleteAll ts →
    ∀ {pos symbol : Point} {y : Int} {shape : Shape} {pin : Nat} {val : Point → Bool},
      (∀ p, InBox s (pos + ⟨0, y⟩) (spanAll ts) (leafCountAll ts) p →
        val p = signalAll s env (pos + ⟨0, y⟩) ts p) →
      (∀ i < ts.length, val (symbol + shape.pin (pin + i)) = (evalAll env ts).getD i false) →
      (Layout.sketchAll pos symbol shape pin (planAll s y ts)).Carries s env val
  | [], _, _, _, _, _, _, _, _, _ => Drawing.every_empty
  | t :: ts, h, pos, symbol, y, shape, pin, val, hval, hpins => by
    have hoperand : ∀ p, InBox s (pos + ⟨0, y⟩) t.span t.leafCount p →
        val p = signal s env (pos + ⟨0, y⟩) t p := by
      intro p hp
      have hbottom := hp.bottom
      rw [hval p (inBox_head hs hp), signalAll, if_pos (by linarith)]
    rw [planAll, Layout.sketchAll, Drawing.Carries, Drawing.every_append, Drawing.every_append,
      Drawing.every_ofWire]
    refine ⟨?_, ?_, ?_⟩
    · exact (carries_signal hs env t h.1 _).congr (keepsTo_sketch hs t h.1 _) hoperand
    · rw [hoperand _ (inBox_pin hs h.1 _), signal_pin hs h.1]
      exact hpins 0 (by simp)
    · refine carries_signalAll hs env ts h.2 (fun p hp => ?_) fun i hi => ?_
      · rw [Point.add_rows] at hp ⊢
        have htop := hp.top
        rw [Point.y_add (pos + ⟨0, y⟩)] at htop
        rw [hval p (inBox_tail hs hp), signalAll, if_neg htop.not_gt]
      · rw [Nat.add_assoc, Nat.add_comm 1, hpins (i + 1) (by simpa using hi)]
        rfl

end

/-! ## Terminals -/

variable {label : String}

/-- What is drawn of a terminal and its tree keeps to the rows of the tree and
one above. -/
theorem keepsTo_sketch_output (hs : 0 < s) (h : t.Complete) (pos : Point) :
    ((plan s (.output label t)).sketch pos).KeepsTo s pos.x (InOutputBox s pos t.span t.leafCount) := by
  have htree := keepsTo_sketch hs t h (pos + ⟨0, s⟩)
  have hcolumn : (pos + ⟨0, s⟩ : Point).x = pos.x := Int.add_zero _
  have hbox : ∀ p, InBox s (pos + ⟨0, s⟩) t.span t.leafCount p → InOutputBox s pos t.span t.leafCount p := by
    intro p hp
    obtain ⟨hleft, hright, htop, hbottom⟩ := hp
    simp only [Point.x_add, Point.y_add] at hleft hright htop hbottom
    exact ⟨by linarith, by linarith, by linarith, by linarith⟩
  obtain ⟨hpin, hpin'⟩ := Layout.pin_plan_bounds hs h
  have hspan : 0 ≤ (t.span : Int) * s := mul_nonneg (by omega) hs.le
  rw [hcolumn] at htree
  rw [plan, Layout.sketch, Drawing.KeepsTo, Drawing.every_append, Drawing.every_append, Drawing.every_ofNode,
    Drawing.every_ofWire]
  have hterminal : InOutputBox s pos t.span t.leafCount (pos + ⟨(2 + t.span) * s, s + (t.plan s).pin.y⟩) := by
    refine ⟨?_, ?_, ?_, ?_⟩ <;> simp only [Point.x_add, Point.y_add] <;> linarith
  refine ⟨⟨hterminal, nofun⟩, htree.mono hbox, hbox _ (inBox_pin hs h _), ?_⟩
  rwa [Catalog.pin_terminal, Point.add_origin]

theorem carries_signal_output (hs : 0 < s) (env : Variable → Bool) (h : t.Complete) (pos : Point) :
    ((plan s (.output label t)).sketch pos).Carries s env (signal s env pos (.output label t)) := by
  have htree : ∀ p, InBox s (pos + ⟨0, s⟩) t.span t.leafCount p →
      signal s env pos (.output label t) p = signal s env (pos + ⟨0, s⟩) t p := by
    intro p hp
    have hright := hp.right
    simp only [Point.x_add] at hright
    rw [signal, if_pos (by linarith)]
  rw [plan, Layout.sketch, Drawing.Carries, Drawing.every_append, Drawing.every_append, Drawing.every_ofNode,
    Drawing.every_ofWire]
  refine ⟨nofun, ?_, ?_⟩
  · exact (carries_signal hs env t h _).congr (keepsTo_sketch hs t h _) htree
  · rw [htree _ (inBox_pin hs h _), signal_pin hs h, Catalog.pin_terminal, Point.add_origin, signal]
    exact (if_neg (lt_irrefl _)).symm

theorem eval_of_carries_output {env : Variable → Bool} {val : Point → Bool} (h : t.Complete) {pos : Point}
    (hval : ((plan s (.output label t)).sketch pos).Carries s env val) :
    val (pos + ⟨(2 + t.span) * s, s + (t.plan s).pin.y⟩) = t.eval env := by
  rw [plan, Layout.sketch, Drawing.Carries, Drawing.every_append, Drawing.every_append, Drawing.every_ofWire]
    at hval
  obtain ⟨-, htree, hwire⟩ := hval
  rw [← eval_of_carries t h htree, hwire, Catalog.pin_terminal, Point.add_origin]

end GateTree

end Schematic
