/-
How often the points of a circuit on the grid are wired. The pins of a drawing
are those of its nodes and the positions of its leaves. `count_ends_sketch`
counts the wire ends at a point of a tree: as many as pins, less one at the pin
where the tree puts out its value. `Strip.OnGrid.count_ends` closes that gap
with the wire to the terminal, and `Strip.count_ends_drawings` adds up the
strips. The pins are all distinct, because each is in the box of its symbol and
no two boxes meet; so one wire of the trees ends at each, and the taps add one
more at each leaf.
-/
import Schematic.Proofs.Rails

namespace Schematic

open GateTree
open Box (Apart LeftOf Above)

/-! ## Pins -/

/-- The pins of a shape, the output pin last. -/
def Shape.pins (shape : Shape) : List Point :=
  shape.inputs ++ shape.output.toList

/-- Where the pins of a node are. -/
def Catalog.pins (catalog : Catalog) (node : Node) : Except Fault (List Point) := do
  return (← catalog.shape node.kind).pins.map (node.pos + ·)

namespace Drawing

/-- The pins of everything drawn: those of the nodes, then the positions of the
leaves. -/
def pins (catalog : Catalog) (d : Drawing) : Except Fault (List Point) := do
  let nodes ← d.circuit.nodes.toList.mapM catalog.pins
  return nodes.flatten ++ d.leaves.toList.map Leaf.pos

/-- The pins of everything drawn on the grid. -/
def points (s : Int) (d : Drawing) : List Point :=
  (d.circuit.nodes.toList.flatMap fun n => (Catalog.drawnShape s n.kind).pins.map (n.pos + ·)) ++
    d.leaves.toList.map Leaf.pos

end Drawing

/-- The ends of a wire. -/
def Wire.ends (w : Wire) : List Point :=
  [w.p, w.q]

/-- The ends of the wires drawn. -/
def Drawing.ends (d : Drawing) : List Point :=
  d.circuit.wires.toList.flatMap Wire.ends

namespace Drawing

variable {s : Int} {d e : Drawing} {p : Point}

theorem pins_eq_points (h : ∀ n ∈ d.circuit.nodes,
    (Catalog.grid s).shape n.kind = .ok (Catalog.drawnShape s n.kind)) :
    d.pins (.grid s) = .ok (d.points s) := by
  have hnodes : d.circuit.nodes.toList.mapM (Catalog.grid s).pins = .ok (d.circuit.nodes.toList.map
      fun n => (Catalog.drawnShape s n.kind).pins.map (n.pos + ·)) := by
    refine mapM_eq_ok_map fun n hn => ?_
    rw [Catalog.pins, h n (Array.mem_toList_iff.1 hn)]
    rfl
  rw [pins, hnodes, points, List.flatMap_def]
  rfl

@[simp] theorem points_ofWire (s : Int) (wire : Wire) : (ofWire wire).points s = [] := rfl

@[simp] theorem points_ofLeaf (s : Int) (leaf : Leaf) : (ofLeaf leaf).points s = [leaf.pos] := rfl

@[simp] theorem points_ofNode (s : Int) (node : Node) :
    (ofNode node).points s = (Catalog.drawnShape s node.kind).pins.map (node.pos + ·) := by
  simp [points, ofNode, addNode, Circuit.addNode]

theorem count_points_append :
    ((d ++ e).points s).count p = (d.points s).count p + (e.points s).count p := by
  simp only [points, append_eq, Array.toList_append, List.flatMap_append, List.map_append, List.count_append]
  omega

@[simp] theorem ends_ofNode (node : Node) : (ofNode node).ends = [] := rfl

@[simp] theorem ends_ofLeaf (leaf : Leaf) : (ofLeaf leaf).ends = [] := rfl

@[simp] theorem ends_ofWire (wire : Wire) : (ofWire wire).ends = [wire.p, wire.q] := rfl

@[simp] theorem ends_append : (d ++ e).ends = d.ends ++ e.ends := by
  simp [ends, append_eq]

end Drawing

/-! ## Wire ends of a tree -/

namespace GateTree

variable {s : Int} {p : Point}

theorem pins_gateShape (s : Int) (kind : NodeKind) (symbol : Point) :
    (Catalog.gateShape s kind).pins.map (symbol + ·) =
      ((List.range kind.arity).map fun i => symbol + (Catalog.gateShape s kind).pin i) ++
        [symbol + Catalog.outPin s kind] := by
  have hinputs : (Catalog.gateShape s kind).inputs.map (symbol + ·) =
      (List.range kind.arity).map fun i => symbol + (Catalog.gateShape s kind).pin i := by
    rw [Catalog.gateShape, List.map_map]
    refine List.map_congr_left fun i hi => ?_
    rw [← Catalog.gateShape, Catalog.pin_gateShape (List.mem_range.1 hi)]
    rfl
  rw [Shape.pins, List.map_append, hinputs]
  rfl

mutual

/-- **The wires of a tree end once at each of its pins**, except that none ends
where it puts its value out. -/
theorem count_ends_sketch : (t : GateTree) → t.Complete → ∀ pos : Point,
    ((t.plan s).sketch pos).ends.count p + [pos + (t.plan s).pin].count p =
      (((t.plan s).sketch pos).points s).count p
  | .leaf _, _, pos => by
    simp [plan, Layout.sketch, Layout.pin]
  | .gate kind ts, h, pos => by
    have hoperands := count_ends_sketchAll ts h.2.2.2 pos (pos + ⟨(2 + spanAll ts) * s, 0⟩) 0
      (Catalog.gateShape s kind) 0
    rw [h.2.1] at hoperands
    simp only [Nat.zero_add] at hoperands
    -- the wires from the operands take up the input pins, so the output pin is the one left over
    rw [pin_plan_gate, plan, Layout.sketch, Drawing.ends_append, Drawing.count_points_append,
      Drawing.points_ofNode, Drawing.ends_ofNode, List.nil_append, Catalog.drawnShape_of_isGate h.1,
      pins_gateShape, List.count_append, hoperands]
    dsimp only
    omega
  | .output _ _, h, _ => h.elim

theorem count_ends_sketchAll : (ts : List GateTree) → CompleteAll ts →
    ∀ (pos symbol : Point) (y : Int) (shape : Shape) (pin : Nat),
      (Layout.sketchAll pos symbol shape pin (planAll s y ts)).ends.count p =
        ((List.range ts.length).map fun i => symbol + shape.pin (pin + i)).count p +
          ((Layout.sketchAll pos symbol shape pin (planAll s y ts)).points s).count p
  | [], _, _, _, _, _, _ => rfl
  | t :: ts, h, pos, symbol, y, shape, pin => by
    have hoperand := count_ends_sketch t h.1 (pos + ⟨0, y⟩)
    have hrest := count_ends_sketchAll ts h.2 pos symbol (y + 2 * t.leafCount * s) shape (pin + 1)
    have hpins : (List.range (ts.length + 1)).map (fun i => symbol + shape.pin (pin + i)) =
        (symbol + shape.pin pin) :: (List.range ts.length).map fun i => symbol + shape.pin (pin + 1 + i) := by
      rw [List.range_succ_eq_map, List.map_cons, List.map_map, Nat.add_zero]
      refine congrArg _ (List.map_congr_left fun i _ => ?_)
      rw [Function.comp_apply, Nat.succ_eq_add_one, Nat.add_assoc, Nat.add_comm i]
    rw [planAll, Layout.sketchAll, Drawing.ends_append, Drawing.ends_append, Drawing.count_points_append,
      Drawing.count_points_append, Drawing.ends_ofWire, Drawing.points_ofWire, List.length_cons, hpins,
      List.count_append, List.count_append, hrest, ← hoperand]
    simp only [List.count_cons, List.count_nil]
    omega

end

end GateTree

namespace Strip

variable {s : Int} {strip : Strip} {p : Point}

/-- **The wires of a strip end once at each of its pins.** The tree puts its
value out to the terminal. -/
theorem OnGrid.count_ends (h : strip.OnGrid s) : strip.drawing.ends.count p = (strip.drawing.points s).count p := by
  obtain ⟨label, t, hc, hlayout⟩ := h
  have htree := count_ends_sketch (s := s) (p := p) t hc (⟨0, strip.top⟩ + ⟨0, s⟩)
  have hterminal : (Catalog.drawnShape s .output).pins = [.origin] := rfl
  rw [drawing, hlayout, plan, Layout.sketch, Drawing.ends_append, Drawing.ends_append,
    Drawing.count_points_append, Drawing.count_points_append, Drawing.ends_ofNode, Drawing.ends_ofWire,
    Drawing.points_ofNode, Drawing.points_ofWire, List.nil_append, List.count_append, ← htree,
    Catalog.pin_terminal, Node.withAttr_kind, Node.withAttr_pos, hterminal]
  simp only [List.map_cons, List.map_nil, List.count_cons, List.count_nil]
  omega

theorem count_ends_drawings : ∀ {strips : List Strip}, (∀ strip ∈ strips, strip.OnGrid s) →
    (drawings strips).ends.count p = ((drawings strips).points s).count p
  | [], _ => rfl
  | strip :: strips, h => by
    rw [drawings, Drawing.ends_append, Drawing.count_points_append, List.count_append,
      (h strip (by simp)).count_ends, count_ends_drawings fun other hother => h other (by simp [hother])]

end Strip

/-! ## Distinct pins -/

namespace Box

variable {s : Int} {a b : Box} {p : Point}

/-- A point of a box, its edges included. -/
structure Holds (b : Box) (p : Point) : Prop where
  left : b.corner.x ≤ p.x
  right : p.x ≤ b.right
  top : b.corner.y ≤ p.y
  bottom : p.y ≤ b.bottom

theorem Apart.not_holds (hs : 0 < s) (h : Apart s a b) (ha : a.Holds p) : ¬ b.Holds p := by
  intro hb
  obtain ⟨hleft, hright, htop, hbottom⟩ := ha
  obtain ⟨hleft', hright', htop', hbottom'⟩ := hb
  rcases h with (h | h) | h | h
  all_goals simp only [LeftOf, Above] at h
  all_goals omega

end Box

namespace Catalog

variable {s : Int}

theorem holds_of_mem_gateShape (hs : 0 < s) {kind : NodeKind} {q : Point} (hq : q ∈ (gateShape s kind).pins)
    (pos : Point) : Box.Holds ⟨pos, (gateShape s kind).footprint⟩ (pos + q) := by
  have hwidth : 0 ≤ (kind.width : Int) * s := mul_nonneg (by omega) hs.le
  have hheight : 0 ≤ (kind.arity : Int) * s := mul_nonneg (by omega) hs.le
  simp only [Shape.pins, gateShape, Option.toList_some, List.mem_append, List.mem_map, List.mem_range,
    List.mem_singleton] at hq
  rcases hq with ⟨i, hi, rfl⟩ | rfl
  · have hpin : 0 ≤ (i : Int) * s := mul_nonneg (by omega) hs.le
    have hpin' : (i : Int) * s ≤ kind.arity * s := mul_le_mul_of_nonneg_right (by omega) hs.le
    refine ⟨?_, ?_, ?_, ?_⟩ <;> simp only [gateShape, Box.right, Box.bottom, Point.x_add, Point.y_add] <;> linarith
  · have hhalf : 0 ≤ ((kind.arity / 2 : Nat) : Int) * s := mul_nonneg (by omega) hs.le
    have hhalf' : ((kind.arity / 2 : Nat) : Int) * s ≤ kind.arity * s :=
      mul_le_mul_of_nonneg_right (by omega) hs.le
    refine ⟨?_, ?_, ?_, ?_⟩ <;> simp only [gateShape, Box.right, Box.bottom, Point.x_add, Point.y_add] <;> linarith

theorem holds_of_mem_pins (hs : 0 < s) {kind : NodeKind} {q : Point} (hq : q ∈ (drawnShape s kind).pins)
    (pos : Point) : Box.Holds ⟨pos, (drawnShape s kind).footprint⟩ (pos + q) := by
  cases kind with
  | output =>
    obtain rfl := List.mem_singleton.1 hq
    refine ⟨?_, ?_, ?_, ?_⟩ <;>
      simp only [drawnShape, terminal, Box.right, Box.bottom, Point.add_origin] <;> linarith
  | input | not | and | or => exact holds_of_mem_gateShape hs hq pos

theorem nodup_pins_gateShape (hs : 0 < s) (kind : NodeKind) : (gateShape s kind).pins.Nodup := by
  have hwidth : 0 < (kind.width : Int) * s := mul_pos (Nat.cast_pos.2 kind.width_pos) hs
  refine List.nodup_append.2 ⟨?_, List.nodup_singleton _, ?_⟩
  · refine List.nodup_range.map fun i j hij => ?_
    have hrow := congrArg Point.y hij
    exact Nat.cast_injective (Int.eq_of_mul_eq_mul_right hs.ne' hrow)
  · intro q hq out hout heq
    obtain ⟨i, -, rfl⟩ := List.mem_map.1 hq
    obtain rfl := List.mem_singleton.1 hout
    have hcolumn := congrArg Point.x heq
    exact hwidth.ne hcolumn

theorem nodup_pins (hs : 0 < s) (kind : NodeKind) : (drawnShape s kind).pins.Nodup := by
  cases kind with
  | output => exact List.nodup_singleton _
  | input | not | and | or => exact nodup_pins_gateShape hs _

end Catalog

namespace Drawing

variable {s : Int} {d : Drawing} {p : Point}

theorem holds_leaf (hs : 0 < s) (pos : Point) : Box.Holds ⟨pos, ⟨s, s⟩⟩ pos := by
  refine ⟨le_rfl, ?_, le_rfl, ?_⟩ <;> simp only [Box.right, Box.bottom] <;> linarith

/-- **The pins of a drawing are distinct** if its symbols are a cell apart. -/
theorem nodup_points (hs : 0 < s) (h : (d.boxes s).Pairwise (Apart s)) : (d.points s).Nodup := by
  obtain ⟨hleaves, hnodes, hcross⟩ := List.pairwise_append.1 h
  rw [List.pairwise_map] at hleaves hnodes
  -- two pins of one node, of two nodes, of two leaves, and of a node and a leaf
  refine List.nodup_append.2 ⟨List.nodup_flatMap.2 ⟨fun n _ => ?_, ?_⟩, ?_, ?_⟩
  · refine (Catalog.nodup_pins hs n.kind).map fun q q' hq => ?_
    have hx := congrArg Point.x hq
    have hy := congrArg Point.y hq
    exact Point.ext (Int.add_left_cancel hx) (Int.add_left_cancel hy)
  · refine hnodes.imp fun {n n'} hapart p hp hp' => ?_
    obtain ⟨q, hq, rfl⟩ := List.mem_map.1 hp
    obtain ⟨q', hq', heq⟩ := List.mem_map.1 hp'
    refine hapart.not_holds hs (Catalog.holds_of_mem_pins hs hq _) ?_
    rw [← heq]
    exact Catalog.holds_of_mem_pins hs hq' _
  · refine List.pairwise_map.2 (hleaves.imp fun {leaf leaf'} hapart heq => ?_)
    refine hapart.not_holds hs (holds_leaf hs _) ?_
    rw [heq]
    exact holds_leaf hs _
  · intro p hp p' hp' heq
    obtain ⟨n, hn, hp⟩ := List.mem_flatMap.1 hp
    obtain ⟨q, hq, rfl⟩ := List.mem_map.1 hp
    obtain ⟨leaf, hleaf, rfl⟩ := List.mem_map.1 hp'
    have hapart := hcross _ (List.mem_map_of_mem hleaf) _ (List.mem_map_of_mem hn)
    refine hapart.symm.not_holds hs (Catalog.holds_of_mem_pins hs hq _) ?_
    rw [heq]
    exact holds_leaf hs _

end Drawing

/-! ## Wires at a point -/

/-- The number of wires that touch a point, of which none has both ends
there. -/
theorem countP_touches {p : Point} : ∀ {ws : List Wire}, (∀ w ∈ ws, w.p ≠ w.q) →
    ws.countP (·.touches p) = (ws.flatMap Wire.ends).count p
  | [], _ => rfl
  | w :: ws, h => by
    have hw := h w (by simp)
    rw [List.countP_cons, List.flatMap_cons, List.count_append, countP_touches fun w' hw' => h w' (by simp [hw']),
      Wire.ends, Wire.touches]
    by_cases hp : w.p = p
    · have hq : ¬ w.q = p := fun hq => hw (hp.trans hq.symm)
      simp [hp, hq, Nat.add_comm]
    · by_cases hq : w.q = p
      · simp [hp, hq, Nat.add_comm]
      · simp [hp, hq]

theorem Circuit.length_touching (c : Circuit) (p : Point) :
    (c.touching p).length = c.wires.toList.countP (·.touches p) := by
  have hfst : c.wires.toList.countP (·.touches p) =
      (c.wires.toList.zipIdx.map Prod.fst).countP (·.touches p) := by
    rw [List.zipIdx_map_fst]
  rw [hfst, List.countP_map, touching, List.length_map, List.countP_eq_length_filter]
  rfl

namespace Slot

variable {s bottom plain : Int}

theorem not_touches_of_mem_draft (hs : 0 < s) (h : plain + s < 0) {v : Variable} {w : Wire}
    (hw : w ∈ (draft s bottom plain v).wires) {p : Point} (hp : 0 ≤ p.x) : ¬ w.touches p = true := by
  have hends : w.p.x < 0 ∧ w.q.x < 0 := by
    simp only [draft, List.mem_cons, List.not_mem_nil, or_false] at hw
    rcases hw with rfl | rfl | rfl | rfl <;> simp only <;> omega
  intro htouches
  simp only [Wire.touches, Bool.or_eq_true, beq_iff_eq] at htouches
  rcases htouches with rfl | rfl
  · exact hends.1.not_ge hp
  · exact hends.2.not_ge hp

end Slot

namespace Sheet

variable {s : Int} {sheet : Sheet} {outputs : List (String × Expr)} {strips : List Strip} {circuit : Circuit}
  {p : Point}

theorem Run.ends_perm (hs : 0 < s) (hrun : (blank (.grid s)).Run outputs strips sheet) :
    sheet.drawing.ends.Perm (sheet.drawing.points s) := by
  rw [hrun.drawing_of_blank, List.perm_iff_count]
  exact fun p => Strip.count_ends_drawings fun strip hstrip => ((hrun.stacked hs rfl).2.1 strip hstrip).1

/-- **The wires of the trees at a point**: one if it is a pin, else none. -/
theorem Run.countP_trees (hs : 0 < s) (hrun : (blank (.grid s)).Run outputs strips sheet) (p : Point) :
    sheet.drawing.circuit.wires.toList.countP (·.touches p) = (sheet.drawing.points s).count p := by
  have hperm := hrun.ends_perm hs
  have hnodup := hperm.nodup_iff.2 (Drawing.nodup_points hs (hrun.pairwise_boxes hs))
  have hends : ∀ w ∈ sheet.drawing.circuit.wires.toList, w.p ≠ w.q := by
    intro w hw
    have hpair := (List.nodup_flatMap.1 hnodup).1 w hw
    simpa [Wire.ends] using hpair
  rw [countP_touches hends, ← hperm.count_eq]
  rfl

/-- **The taps at a point** of the trees: one for each leaf there. -/
theorem Run.countP_taps (hs : 0 < s) (hrun : (blank (.grid s)).Run outputs strips sheet) (hp : 0 ≤ p.x) :
    (sheet.onBus s).taps.countP (·.touches p) = (sheet.drawing.leaves.toList.map Leaf.pos).count p := by
  have hready := hrun.ready hs
  rw [taps_onBus hs hready, List.countP_map, List.count, List.countP_map]
  refine List.countP_congr fun leaf hleaf => ?_
  have htap := (isTap_tapOf hs hready (Array.mem_toList_iff.1 hleaf)).2
  have hq : (Slot.tapOf s (-(2 * s * sheet.vars.length)) sheet.vars leaf).q ≠ p := by
    intro hq
    rw [hq] at htap
    exact htap.not_ge hp
  rw [Function.comp_apply, Function.comp_apply, Wire.touches, beq_false_of_ne hq, Bool.or_false]
  rfl

theorem wires_onBus_taps (hs : 0 < s) (hready : sheet.Ready s) : (sheet.onBus s).wires.toList =
    sheet.drawing.circuit.wires.toList ++
      (Slot.drafts s sheet.height (-(2 * s * sheet.vars.length)) sheet.vars).flatMap Slot.wires ++
      (sheet.onBus s).taps := by
  rw [wires_onBus hready, taps_onBus hs hready, List.append_assoc]

/-- **The wires at a point** of the trees: one if it is a pin, and one more for
each leaf there. -/
theorem Run.length_touching (hs : 0 < s) (hrun : (blank (.grid s)).Run outputs strips sheet)
    (hp : 0 ≤ p.x) : ((sheet.onBus s).touching p).length =
      (sheet.drawing.points s).count p + (sheet.drawing.leaves.toList.map Leaf.pos).count p := by
  have hslots : ((Slot.drafts s sheet.height (-(2 * s * sheet.vars.length)) sheet.vars).flatMap
      Slot.wires).countP (·.touches p) = 0 := by
    rw [List.countP_eq_zero]
    intro w hw
    obtain ⟨slot, hslot, hw⟩ := List.mem_flatMap.1 hw
    obtain ⟨j, hj, rfl⟩ := Slot.mem_drafts_iff.1 hslot
    exact Slot.not_touches_of_mem_draft hs (Slot.rail_neg hs hj) hw hp
  rw [Circuit.length_touching, wires_onBus_taps hs (hrun.ready hs), List.countP_append, List.countP_append, hslots,
    hrun.countP_trees hs, hrun.countP_taps hs hp, Nat.add_zero]

theorem Run.column_of_mem_points (hs : 0 < s) (hrun : (blank (.grid s)).Run outputs strips sheet)
    (hp : p ∈ sheet.drawing.points s) : 0 ≤ p.x := by
  have hkeeps := hrun.keepsTo hs
  rcases List.mem_append.1 hp with hp | hp
  · obtain ⟨n, hn, hp⟩ := List.mem_flatMap.1 hp
    obtain ⟨q, hq, rfl⟩ := List.mem_map.1 hp
    exact (hkeeps.nodes n (Array.mem_toList_iff.1 hn)).1.1.trans (Catalog.holds_of_mem_pins hs hq _).left
  · obtain ⟨leaf, hleaf, rfl⟩ := List.mem_map.1 hp
    exact (hkeeps.leaves leaf (Array.mem_toList_iff.1 hleaf)).1.1

theorem Run.touching_pin (hs : 0 < s) (hrun : (blank (.grid s)).Run outputs strips sheet)
    {n : Node} (hn : n ∈ sheet.drawing.circuit.nodes) {q : Point}
    (hq : q ∈ (Catalog.drawnShape s n.kind).pins) : ((sheet.onBus s).touching (n.pos + q)).length = 1 := by
  have hnodup := Drawing.nodup_points hs (hrun.pairwise_boxes hs)
  have hnode : n.pos + q ∈ sheet.drawing.circuit.nodes.toList.flatMap fun n =>
      (Catalog.drawnShape s n.kind).pins.map (n.pos + ·) :=
    List.mem_flatMap.2 ⟨n, Array.mem_toList_iff.2 hn, List.mem_map_of_mem hq⟩
  have hpoint : n.pos + q ∈ sheet.drawing.points s := List.mem_append_left _ hnode
  have hleaf : n.pos + q ∉ sheet.drawing.leaves.toList.map Leaf.pos :=
    fun hleaf => (List.nodup_append.1 hnodup).2.2 _ hnode _ hleaf rfl
  rw [hrun.length_touching hs (hrun.column_of_mem_points hs hpoint),
    List.count_eq_one_of_mem hnodup hpoint, List.count_eq_zero.2 hleaf]

theorem Run.touching_leaf (hs : 0 < s) (hrun : (blank (.grid s)).Run outputs strips sheet)
    {leaf : Leaf} (hleaf : leaf ∈ sheet.drawing.leaves) :
    ((sheet.onBus s).touching leaf.pos).length = 2 ∧ (sheet.onBus s).taps.countP (·.touches leaf.pos) = 1 ∧
      sheet.drawing.circuit.wires.toList.countP (·.touches leaf.pos) = 1 := by
  have hnodup := Drawing.nodup_points hs (hrun.pairwise_boxes hs)
  have hmem : leaf.pos ∈ sheet.drawing.leaves.toList.map Leaf.pos :=
    List.mem_map_of_mem (Array.mem_toList_iff.2 hleaf)
  have hpoint : leaf.pos ∈ sheet.drawing.points s := List.mem_append_right _ hmem
  have hcolumn := hrun.column_of_mem_points hs hpoint
  have hone := List.count_eq_one_of_mem (List.nodup_append.1 hnodup).2.1 hmem
  rw [hrun.length_touching hs hcolumn, hrun.countP_trees hs, hrun.countP_taps hs hcolumn, hone,
    List.count_eq_one_of_mem hnodup hpoint]
  exact ⟨rfl, rfl, rfl⟩

/-- **Every pin is wired once.** The pins of the gates and terminals of a circuit
built on the grid and the positions of its leaves are all distinct. One wire of
the circuit ends at each input pin of a gate, one at its output pin and one at an
output terminal; at a leaf two do, its tap and a wire of the trees. All wires but
the four of each slot end at such points, except that a tap ends on a rail. -/
theorem pins_wired_once (hs : 0 < s) (h : (blank (.grid s)).addAll outputs = .ok sheet)
    (hcircuit : sheet.circuit = .ok circuit) :
    ∃ pins, sheet.drawing.pins (.grid s) = .ok pins ∧ pins.Nodup ∧
      (∀ n ∈ sheet.drawing.circuit.nodes,
        (n.kind.isGate = true ∧ ∃ shape out, (Catalog.grid s).shape n.kind = .ok shape ∧
          shape.inputs.length = n.kind.arity ∧ shape.output = some out ∧
          (∀ pin ∈ shape.inputs, (circuit.touching (n.pos + pin)).length = 1) ∧
          (circuit.touching (n.pos + out)).length = 1) ∨
        (n.kind = .output ∧ (circuit.touching n.pos).length = 1)) ∧
      (∀ leaf ∈ sheet.drawing.leaves, (circuit.touching leaf.pos).length = 2 ∧
        circuit.taps.countP (·.touches leaf.pos) = 1 ∧
        sheet.drawing.circuit.wires.toList.countP (·.touches leaf.pos) = 1) ∧
      ∃ slots, sheet.slots = .ok slots ∧ (∀ slot ∈ slots, slot.wires.length = 4) ∧
        circuit.wires.toList = sheet.drawing.circuit.wires.toList ++ slots.flatMap Slot.wires ++ circuit.taps ∧
        (∀ w ∈ sheet.drawing.circuit.wires, w.p ∈ pins ∧ w.q ∈ pins) ∧
        ∀ tap ∈ circuit.taps, tap.p ∈ pins ∧ ∃ rail ∈ circuit.rails sheet.height, rail.Crosses tap.q := by
  obtain ⟨strips, hrun⟩ := exists_run h
  have hready := hrun.ready hs
  obtain ⟨slots, hslots, -⟩ := circuit_eq_finished hready.registered hcircuit
  have hdrafts := slots_eq_drafts hslots
  rw [hready.size] at hdrafts
  obtain rfl := circuit_eq_onBus hready hcircuit
  have hshape : ∀ n ∈ sheet.drawing.circuit.nodes, _ := fun n hn => hrun.shape_of_mem_nodes hs hn
  refine ⟨_, Drawing.pins_eq_points hshape, Drawing.nodup_points hs (hrun.pairwise_boxes hs), fun n hn => ?_,
    fun leaf hleaf => hrun.touching_leaf hs hleaf, slots, hslots,
    fun slot hslot => Slot.length_wires_of_mem_drafts (hdrafts ▸ hslot), ?_, fun w hw => ?_, fun tap htap => ?_⟩
  · rcases hrun.kind_of_mem hn with hgate | houtput
    · have hdrawn : Catalog.drawnShape s n.kind = Catalog.gateShape s n.kind := Catalog.drawnShape_of_isGate hgate
      have hpin : ∀ q ∈ (Catalog.gateShape s n.kind).pins, ((sheet.onBus s).touching (n.pos + q)).length = 1 :=
        fun q hq => hrun.touching_pin hs hn (hdrawn ▸ hq)
      refine .inl ⟨hgate, _, Catalog.outPin s n.kind, hdrawn ▸ hshape n hn,
        Catalog.length_inputs_gateShape s n.kind, rfl, fun pin hin => ?_, ?_⟩
      · exact hpin pin (List.mem_append_left _ hin)
      · exact hpin _ (List.mem_append_right _ (List.mem_singleton.2 rfl))
    · refine .inr ⟨houtput, ?_⟩
      rw [← Point.add_origin n.pos]
      refine hrun.touching_pin hs hn ?_
      rw [houtput]
      exact List.mem_singleton.2 rfl
  · rw [hdrafts, wires_onBus_taps hs hready]
  · have hends : ∀ p ∈ w.ends, p ∈ sheet.drawing.points s := fun p hp =>
      (hrun.ends_perm hs).mem_iff.1 (List.mem_flatMap.2 ⟨w, Array.mem_toList_iff.2 hw, hp⟩)
    exact ⟨hends _ (by simp [Wire.ends]), hends _ (by simp [Wire.ends])⟩
  · rw [taps_onBus hs hready] at htap
    obtain ⟨leaf, hleaf, rfl⟩ := List.mem_map.1 htap
    obtain ⟨rail, hrail, -, hcrosses⟩ := hrun.exists_rail hs (Array.mem_toList_iff.1 hleaf)
    exact ⟨List.mem_append_right _ (List.mem_map_of_mem hleaf), rail, hrail, hcrosses⟩

/-- Two expressions have fourteen pins, and two wires end at each leaf. -/
theorem pins_wired_once_of_two : ∃ circuit pins, twoSheet.circuit = .ok circuit ∧
    twoSheet.drawing.pins (.grid 20) = .ok pins ∧ pins.length = 14 ∧ pins.Nodup ∧
    (∀ leaf ∈ twoSheet.drawing.leaves, (circuit.touching leaf.pos).length = 2) ∧
    ∀ w ∈ twoSheet.drawing.circuit.wires, w.p ∈ pins ∧ w.q ∈ pins := by
  obtain ⟨circuit, hcircuit⟩ := exists_circuit_twoSheet
  obtain ⟨pins, hpins, hnodup, -, hleaves, _, -, -, -, hwires, -⟩ :=
    pins_wired_once (by decide) addAll_twoOutputs hcircuit
  have hcount : pins.length = 14 := by
    cases hpins
    rfl
  exact ⟨circuit, pins, hcircuit, hpins, hcount, hnodup, fun leaf hleaf => (hleaves leaf hleaf).1, hwires⟩

end Sheet

end Schematic
