/-
What a circuit on the grid computes. Its wires and nodes put constraints on the
values of the points of the plane, and the taps tie these to the variables that
label the terminals of the bus. `Circuit.Admits` collects the constraints;
whatever coordinates and labels say is all that it looks at.

`build_grid_computes` says that the constraints of a circuit that was built can
be met under every assignment of the variables, and that whoever meets them
reads the values of the expressions off the output terminals.
-/
import Schematic.Proofs.Capacity
import Schematic.Proofs.Components
import Schematic.Proofs.Signals

namespace Schematic

open GateTree

/-! ## Constraints of a circuit -/

/-- A wire between operands and gates, and not on the bus. -/
def Wire.InTree (w : Wire) : Prop :=
  0 ≤ w.p.x ∧ 0 ≤ w.q.x

/-- A wire from the column of the leaves to the bus. -/
def Wire.IsTap (w : Wire) : Prop :=
  w.p.x = 0 ∧ w.q.x < 0

/-- A gate that is no inverter of the bus. -/
def Node.InTree (n : Node) : Prop :=
  n.kind.isGate = true ∧ 0 ≤ n.pos.y

namespace Circuit

/-- A wire ends on a rail of the input terminal with a label: in its own column
or, for the inverted rail, one cell to the right of it. -/
def Reads (c : Circuit) (s : Int) (w : Wire) (name : String) (negated : Bool) : Prop :=
  ∃ n ∈ c.nodes, n.kind = .input ∧ n.label? = some name ∧ n.pos.x = w.q.x - if negated then s else 0

/-- A valuation of the points of the plane that agrees with a circuit on the
grid and an assignment of the variables by name. -/
structure Admits (c : Circuit) (s : Int) (env : String → Bool) (val : Point → Bool) : Prop where
  wire : ∀ w ∈ c.wires, w.InTree → val w.p = val w.q
  gate : ∀ n ∈ c.nodes, n.InTree → ∃ shape out,
    (Catalog.grid s).shape n.kind = .ok shape ∧ shape.output = some out ∧
      val (n.pos + out) = n.kind.combine (shape.inputs.map fun pin => val (n.pos + pin))
  tap : ∀ w ∈ c.wires, w.IsTap → ∃ name negated, c.Reads s w name negated ∧ val w.p = (env name ^^ negated)

end Circuit

/-! ## Expressions one below the other -/

namespace Drawing

theorem nodesOf_append {d e : Drawing} {kind : NodeKind} :
    (d ++ e).circuit.nodesOf kind = d.circuit.nodesOf kind ++ e.circuit.nodesOf kind := by
  simp [Circuit.nodesOf, append_eq]

theorem nodesOf_ofNode {node : Node} {kind : NodeKind} :
    (ofNode node).circuit.nodesOf kind = if node.kind = kind then [node] else [] := by
  simp [Circuit.nodesOf, ofNode, addNode, Circuit.addNode, List.filter_cons]

theorem nodesOf_ofWire {wire : Wire} {kind : NodeKind} : (ofWire wire).circuit.nodesOf kind = [] := rfl

end Drawing

theorem Expr.nodesOf_output_sketch {e : Expr} (h : e.Supported) (s : Int) (pos : Point) :
    ((e.gates.plan s).sketch pos).circuit.nodesOf .output = [] := by
  have hgate : ∀ p ∈ e.gateKinds.map Component.gate, ¬ (p.kind == .output) = true := by
    intro p hp houtput
    obtain ⟨kind, hkind, rfl⟩ := List.mem_map.1 hp
    have hisGate := isGate_of_mem_gateKinds hkind
    rw [show kind = .output from beq_iff_eq.1 houtput] at hisGate
    cases hisGate
  rw [← List.length_eq_zero_iff, Circuit.length_nodesOf, Layout.components_sketch, tree_plan, components_gates h]
  exact List.countP_eq_zero.2 hgate

namespace Sheet

/-- The drawings of several expressions from row `y` down. -/
def sketches (s : Int) (y : Int) : List (String × Expr) → Drawing
  | [] => {}
  | o :: outputs => (plan s (.output o.1 o.2.gates)).sketch ⟨0, y⟩ ++ sketches s (y + rows o.2 * s) outputs

theorem drawing_drawnAll (s : Int) : ∀ (outputs : List (String × Expr)) (sheet : Sheet),
    (sheet.drawnAll s outputs).drawing = sheet.drawing ++ sketches s sheet.height outputs
  | [], sheet => by rw [drawnAll_nil, sketches, Drawing.append_empty]
  | o :: outputs, sheet => by
    rw [drawnAll_cons, drawing_drawnAll s outputs, sketches, drawn, Drawing.append_assoc]

/-- The value of a point of the drawings of several expressions. -/
def signals (s : Int) (env : Variable → Bool) (y : Int) : List (String × Expr) → Point → Bool
  | [], _ => false
  | o :: outputs, p =>
    if p.y < y + rows o.2 * s then
      signal s env ⟨0, y⟩ (.output o.1 o.2.gates) p
    else
      signals s env (y + rows o.2 * s) outputs p

/-- The points of the plane from row `y` down and from the leaves to the right,
with a cell below. -/
structure Reaches (s y : Int) (p : Point) : Prop where
  left : 0 ≤ p.x
  right : p.x < 2 ^ 31
  top : y ≤ p.y
  bottom : p.y + s < 2 ^ 31

theorem rows_mul (s : Int) {e : Expr} (h : e.Supported) :
    2 * (e.gates.leafCount : Int) * s + s = rows e * s := by
  rw [Expr.leafCount_gates h, rows]
  ring

theorem keepsTo_sketches {s : Int} (hs : 0 < s) : ∀ {outputs : List (String × Expr)} {y : Int},
    (∀ o ∈ outputs, o.2.Supported) → (∀ o ∈ outputs, (3 + o.2.gates.span) * s < 2 ^ 31) →
    y + rowsAll outputs * s < 2 ^ 31 → (sketches s y outputs).KeepsTo s 0 (Reaches s y)
  | [], _, _, _, _ => Drawing.every_empty
  | o :: outputs, y, hall, hwidths, htotal => by
    have ho := hall o (by simp)
    have hwidth := hwidths o (by simp)
    have hrest := mul_nonneg (rowsAll_nonneg outputs) hs.le
    have hrows : 0 ≤ rows o.2 * s := mul_nonneg (by rw [rows]; omega) hs.le
    have hbottom := rows_mul s ho
    rw [rowsAll_cons, add_mul] at htotal
    rw [sketches, Drawing.KeepsTo, Drawing.every_append]
    refine ⟨(keepsTo_sketch_output hs (Expr.complete_gates ho) ⟨0, y⟩).mono fun p hp => ?_, ?_⟩
    · obtain ⟨hleft, hright, htop, hlow⟩ := hp
      simp only at hleft hright htop hlow
      exact ⟨hleft, by linarith, htop, by linarith⟩
    · refine (keepsTo_sketches hs (fun o ho => hall o (by simp [ho])) (fun o ho => hwidths o (by simp [ho]))
        (by linarith)).mono fun p hp => ?_
      have htop := hp.top
      exact ⟨hp.left, hp.right, by linarith, hp.bottom⟩

/-- **The values respect the drawings of several expressions.** -/
theorem carries_signals {s : Int} (hs : 0 < s) (env : Variable → Bool) : ∀ {outputs : List (String × Expr)}
    {y : Int}, (∀ o ∈ outputs, o.2.Supported) → (∀ o ∈ outputs, (3 + o.2.gates.span) * s < 2 ^ 31) →
    y + rowsAll outputs * s < 2 ^ 31 → (sketches s y outputs).Carries s env (signals s env y outputs)
  | [], _, _, _, _ => Drawing.every_empty
  | o :: outputs, y, hall, hwidths, htotal => by
    have ho := hall o (by simp)
    have hc := Expr.complete_gates ho
    have hrows : 0 ≤ rows o.2 * s := mul_nonneg (by rw [rows]; omega) hs.le
    have hbottom := rows_mul s ho
    have hall' : ∀ o ∈ outputs, o.2.Supported := fun o ho => hall o (by simp [ho])
    have hwidths' : ∀ o ∈ outputs, (3 + o.2.gates.span) * s < 2 ^ 31 := fun o ho => hwidths o (by simp [ho])
    have htotal' : y + rows o.2 * s + rowsAll outputs * s < 2 ^ 31 := by
      rw [rowsAll_cons, add_mul] at htotal
      linarith
    rw [sketches, Drawing.Carries, Drawing.every_append]
    refine ⟨?_, ?_⟩
    · have hfirst : ((plan s (.output o.1 o.2.gates)).sketch ⟨0, y⟩).Carries s env _ :=
        carries_signal_output hs env hc ⟨0, y⟩
      refine hfirst.congr (keepsTo_sketch_output hs hc ⟨0, y⟩) fun p hp => ?_
      have hlow : p.y + s ≤ y + 2 * o.2.gates.leafCount * s := hp.bottom
      rw [signals, if_pos (by linarith)]
    · have hrest := carries_signals hs env hall' hwidths' htotal'
      refine hrest.congr (keepsTo_sketches hs hall' hwidths' htotal') fun p hp => ?_
      rw [signals, if_neg hp.top.not_gt]

/-- **A valuation that respects the drawings** has the values of the expressions
at the output terminals, each under its own name. -/
theorem map_nodesOf_sketches {s : Int} {env : Variable → Bool} {val : Point → Bool} :
    ∀ {outputs : List (String × Expr)} {y : Int}, (∀ o ∈ outputs, o.2.Supported) →
      (sketches s y outputs).Carries s env val →
      ((sketches s y outputs).circuit.nodesOf .output).map (fun n => (n.label?, val n.pos)) =
        outputs.map fun o => (some o.1, o.2.eval env)
  | [], _, _, _ => rfl
  | o :: outputs, y, hall, hval => by
    have ho := hall o (by simp)
    have hc := Expr.complete_gates ho
    rw [sketches, Drawing.Carries, Drawing.every_append] at hval
    have hfirst := eval_of_carries_output hc hval.1
    have hrest := map_nodesOf_sketches (fun o ho => hall o (by simp [ho])) hval.2
    rw [Expr.eval_gates ho] at hfirst
    rw [sketches, Drawing.nodesOf_append, List.map_append, hrest, plan, Layout.sketch, Drawing.nodesOf_append,
      Drawing.nodesOf_append, Drawing.nodesOf_ofWire, Expr.nodesOf_output_sketch ho, Drawing.nodesOf_ofNode]
    simpa using hfirst

theorem shape_of_keepsTo {s y : Int} (hs : 0 < s) (hy : 0 ≤ y) {d : Drawing} (h : d.KeepsTo s 0 (Reaches s y))
    {n : Node} (hn : n ∈ d.circuit.nodes) (hgate : n.kind.isGate = true) :
    (Catalog.grid s).shape n.kind = .ok (Catalog.gateShape s n.kind) := by
  obtain ⟨hpos, hpins⟩ := h.nodes n hn
  obtain ⟨hout, hin⟩ := hpins hgate
  have hleft := hpos.left
  have htop := hpos.top
  have hright := hout.right
  simp only [Catalog.outPin, Point.x_add] at hright
  refine Catalog.shape_grid_eq_ok hs hgate (by linarith) ?_
  cases harity : n.kind.arity with
  | zero => simp
  | succ i =>
    have hpin : (⟨0, i * s⟩ : Point) ∈ (Catalog.gateShape s n.kind).inputs :=
      List.mem_map.2 ⟨i, List.mem_range.2 (by omega), rfl⟩
    have hbottom := (hin _ hpin).bottom
    simp only [Point.y_add] at hbottom
    push_cast
    linarith

end Sheet

/-! ## The bus -/

namespace Slot

variable {s bottom plain : Int} {v : Variable}

theorem p_neg_of_mem_draft (hs : 0 < s) (h : plain + s < 0) {w : Wire}
    (hw : w ∈ (draft s bottom plain v).wires) : w.p.x < 0 := by
  simp only [draft, List.mem_cons, List.not_mem_nil, or_false] at hw
  rcases hw with rfl | rfl | rfl | rfl <;> simp only <;> omega

theorem not_inTree_of_mem_draft (hs : 0 < s) {n : Node} (hn : n ∈ (draft s bottom plain v).nodes) :
    ¬ n.InTree := by
  simp only [draft, List.mem_cons, List.not_mem_nil, or_false] at hn
  rcases hn with rfl | rfl
  · intro h
    cases h.1
  · intro h
    have hy := h.2
    simp only [Node.withAttr_pos] at hy
    omega

theorem input_of_mem_draft {n : Node} (hn : n ∈ (draft s bottom plain v).nodes) (hkind : n.kind = .input) :
    n.pos.x = plain ∧ n.label? = some v.name := by
  simp only [draft, List.mem_cons, List.not_mem_nil, or_false] at hn
  rcases hn with rfl | rfl
  · exact ⟨rfl, rfl⟩
  · cases hkind

theorem rail_inj (hs : 0 < s) {i j : Nat} {a b : Bool}
    (h : (2 * s * i + if a then s else 0) = 2 * s * j + if b then s else 0) : i = j ∧ a = b := by
  have hrail : ∀ (k : Nat) (c : Bool),
      (2 * s * k + if c then s else 0) = s * (2 * k + if c then 1 else 0) := by
    intro k c
    cases c <;> simp <;> ring
  rw [hrail, hrail] at h
  have hcell := Int.eq_of_mul_eq_mul_left hs.ne' h
  cases a <;> cases b <;> simp at hcell ⊢ <;> omega

theorem rail_neg (hs : 0 < s) {vars j : Nat} (hj : j < vars) : -(2 * s * vars) + 2 * s * j + s < 0 := by
  have hnext : 2 * s * ((j + 1 : Nat) : Int) ≤ 2 * s * vars :=
    mul_le_mul_of_nonneg_left (Nat.cast_le.2 hj) (by omega)
  push_cast at hnext
  linarith

end Slot

namespace Sheet

variable {s left : Int} {sheet : Sheet}

theorem mem_nodes_finished {n : Node} :
    n ∈ (sheet.finished left).nodes ↔ n ∈ sheet.drawing.circuit.nodes ∨
      ∃ slot ∈ Slot.drafts sheet.catalog.size sheet.height left sheet.vars, n ∈ slot.nodes := by
  simp [finished, ← Array.mem_toList_iff]

theorem mem_wires_finished {w : Wire} :
    w ∈ (sheet.finished left).wires ↔ w ∈ sheet.drawing.circuit.wires ∨
      (∃ slot ∈ Slot.drafts sheet.catalog.size sheet.height left sheet.vars, w ∈ slot.wires) ∨
      ∃ leaf ∈ sheet.drawing.leaves, Slot.tapOf sheet.catalog.size left sheet.vars leaf = w := by
  simp [finished, ← Array.mem_toList_iff]

/-- A sheet on the grid whose leaves are in the first column of the plane and
registered. -/
structure Ready (s : Int) (sheet : Sheet) : Prop where
  size : sheet.catalog.size = s
  registered : sheet.Registered
  keepsTo : sheet.drawing.KeepsTo s 0 (Reaches s 0)

/-- The finished circuit of a sheet, with the bus right of which the leaves
start. -/
def onBus (s : Int) (sheet : Sheet) : Circuit :=
  sheet.finished (-(2 * s * sheet.vars.length))

theorem nodesOf_output_onBus (s : Int) (sheet : Sheet) :
    (sheet.onBus s).nodesOf .output = sheet.drawing.circuit.nodesOf .output := by
  have hbus : (Slot.drafts sheet.catalog.size sheet.height (-(2 * s * sheet.vars.length)) sheet.vars).flatMap
      (fun slot => slot.nodes.filter (·.kind == .output)) = [] := by
    rw [List.flatMap_eq_nil_iff]
    intro slot hslot
    obtain ⟨j, hj, rfl⟩ := Slot.mem_drafts_iff.1 hslot
    rfl
  simp [onBus, finished, Circuit.nodesOf, List.filter_flatMap, hbus]

theorem mem_inputs_onBus (h : sheet.Ready s) {n : Node} (hx : n.pos.x < 0) (hkind : n.kind = .input) :
    n ∈ (sheet.onBus s).nodes → ∃ (j : Nat) (hj : j < sheet.vars.length),
      n.pos.x = -(2 * s * sheet.vars.length) + 2 * s * j ∧ n.label? = some sheet.vars[j].name := by
  intro hn
  rcases mem_nodes_finished.1 hn with hn | ⟨slot, hslot, hn⟩
  · exact absurd hx (h.keepsTo.nodes n hn).1.left.not_gt
  · rw [h.size] at hslot
    obtain ⟨j, hj, rfl⟩ := Slot.mem_drafts_iff.1 hslot
    exact ⟨j, hj, Slot.input_of_mem_draft hn hkind⟩

theorem terminal_mem_onBus (h : sheet.Ready s) {j : Nat} (hj : j < sheet.vars.length) :
    Slot.terminal s (-(2 * s * sheet.vars.length) + 2 * s * j) sheet.vars[j] ∈ (sheet.onBus s).nodes := by
  refine mem_nodes_finished.2 (.inr ⟨_, Slot.mem_drafts_iff.2 ⟨j, hj, rfl⟩, ?_⟩)
  rw [h.size]
  exact List.mem_cons_self

/-- **A tap reads one literal**, that of its leaf. -/
theorem reads_onBus_iff (hs : 0 < s) (h : sheet.Ready s) {leaf : Leaf} (hleaf : leaf ∈ sheet.drawing.leaves)
    {name : String} {negated : Bool} :
    (sheet.onBus s).Reads s (Slot.tapOf s (-(2 * s * sheet.vars.length)) sheet.vars leaf) name negated ↔
      name = leaf.literal.var.name ∧ negated = leaf.literal.negated := by
  have hlt := List.idxOf_lt_length_of_mem (h.registered leaf hleaf)
  have hget : sheet.vars[sheet.vars.idxOf leaf.literal.var] = leaf.literal.var := List.getElem_idxOf hlt
  have hneg := Slot.rail_neg hs hlt
  refine ⟨?_, ?_⟩
  · intro hex
    obtain ⟨n, hn, hkind, hlabel, hx⟩ := hex
    simp only [Slot.tapOf, Slot.railOf] at hx
    have hleft : n.pos.x < 0 := by
      cases hl : leaf.literal.negated <;> cases negated <;> simp [hl] at hx <;> omega
    obtain ⟨j, hj, hcolumn, hname⟩ := mem_inputs_onBus h hleft hkind hn
    have hrail : (2 * s * j + if negated then s else 0) =
        2 * s * sheet.vars.idxOf leaf.literal.var + if leaf.literal.negated then s else 0 := by
      linarith
    obtain ⟨rfl, rfl⟩ := Slot.rail_inj hs hrail
    rw [hlabel, hget, Option.some_inj] at hname
    exact ⟨hname, rfl⟩
  · intro hex
    obtain ⟨rfl, rfl⟩ := hex
    have hterminal := terminal_mem_onBus h hlt
    rw [hget] at hterminal
    exact ⟨_, hterminal, rfl, rfl, by simp [Slot.terminal, Slot.tapOf, Slot.railOf]⟩

theorem tapOf_mem_onBus (h : sheet.Ready s) {leaf : Leaf} (hleaf : leaf ∈ sheet.drawing.leaves) :
    Slot.tapOf s (-(2 * s * sheet.vars.length)) sheet.vars leaf ∈ (sheet.onBus s).wires :=
  mem_wires_finished.2 (.inr (.inr ⟨leaf, hleaf, by rw [h.size]⟩))

theorem isTap_tapOf (hs : 0 < s) (h : sheet.Ready s) {leaf : Leaf} (hleaf : leaf ∈ sheet.drawing.leaves) :
    (Slot.tapOf s (-(2 * s * sheet.vars.length)) sheet.vars leaf).IsTap := by
  have hneg := Slot.rail_neg hs (List.idxOf_lt_length_of_mem (h.registered leaf hleaf))
  refine ⟨(h.keepsTo.leaves leaf hleaf).2, ?_⟩
  simp only [Slot.tapOf, Slot.railOf]
  split <;> omega

/-- A wire is part of a tree, starts on the bus, or belongs to a leaf. -/
theorem mem_wires_onBus (hs : 0 < s) (h : sheet.Ready s) {w : Wire} (hw : w ∈ (sheet.onBus s).wires) :
    (w ∈ sheet.drawing.circuit.wires ∧ w.InTree) ∨ w.p.x < 0 ∨
      ∃ leaf ∈ sheet.drawing.leaves, w = Slot.tapOf s (-(2 * s * sheet.vars.length)) sheet.vars leaf := by
  rcases mem_wires_finished.1 hw with hw | ⟨slot, hslot, hw⟩ | ⟨leaf, hleaf, rfl⟩
  · obtain ⟨hp, hq⟩ := h.keepsTo.wires w hw
    exact .inl ⟨hw, hp.left, hq.left⟩
  · rw [h.size] at hslot
    obtain ⟨j, hj, rfl⟩ := Slot.mem_drafts_iff.1 hslot
    exact .inr (.inl (Slot.p_neg_of_mem_draft hs (Slot.rail_neg hs hj) hw))
  · exact .inr (.inr ⟨leaf, hleaf, by rw [h.size]⟩)

theorem exists_leaf_of_isTap (hs : 0 < s) (h : sheet.Ready s) {w : Wire} (hw : w ∈ (sheet.onBus s).wires)
    (htap : w.IsTap) :
    ∃ leaf ∈ sheet.drawing.leaves, w = Slot.tapOf s (-(2 * s * sheet.vars.length)) sheet.vars leaf := by
  rcases mem_wires_onBus hs h hw with ⟨-, htree⟩ | hneg | hleaf
  · exact absurd htap.2 htree.2.not_gt
  · exact absurd htap.1 hneg.ne
  · exact hleaf

/-- **The constraints of a finished circuit** are those of its drawing. -/
theorem admits_onBus_iff (hs : 0 < s) (h : sheet.Ready s) {env : String → Bool} {val : Point → Bool} :
    (sheet.onBus s).Admits s env val ↔ sheet.drawing.Carries s (fun v => env v.name) val := by
  refine ⟨?_, ?_⟩
  · intro hval
    refine ⟨fun w hw => ?_, fun n hn hgate => ?_, fun leaf hleaf => ?_⟩
    · obtain ⟨hp, hq⟩ := h.keepsTo.wires w hw
      exact hval.wire w (mem_wires_finished.2 (.inl hw)) ⟨hp.left, hq.left⟩
    · obtain ⟨shape, out, hshape, hout, hcombine⟩ :=
        hval.gate n (mem_nodes_finished.2 (.inl hn)) ⟨hgate, (h.keepsTo.nodes n hn).1.top⟩
      rw [shape_of_keepsTo hs le_rfl h.keepsTo hn hgate] at hshape
      cases hshape
      cases hout
      exact hcombine
    · obtain ⟨name, negated, hreads, hvalue⟩ := hval.tap _ (tapOf_mem_onBus h hleaf) (isTap_tapOf hs h hleaf)
      obtain ⟨rfl, rfl⟩ := (reads_onBus_iff hs h hleaf).1 hreads
      exact hvalue
  · intro hval
    refine ⟨fun w hw htree => ?_, fun n hn htree => ?_, fun w hw htap => ?_⟩
    · rcases mem_wires_onBus hs h hw with ⟨hw, -⟩ | hneg | ⟨leaf, hleaf, rfl⟩
      · exact hval.wires w hw
      · exact absurd hneg htree.1.not_gt
      · exact absurd (isTap_tapOf hs h hleaf).2 htree.2.not_gt
    · rcases mem_nodes_finished.1 hn with hn | ⟨slot, hslot, hn⟩
      · exact ⟨_, _, shape_of_keepsTo hs le_rfl h.keepsTo hn htree.1, rfl, hval.nodes n hn htree.1⟩
      · obtain ⟨j, hj, rfl⟩ := Slot.mem_drafts_iff.1 hslot
        rw [h.size] at hn
        exact absurd htree (Slot.not_inTree_of_mem_draft hs hn)
    · obtain ⟨leaf, hleaf, rfl⟩ := exists_leaf_of_isTap hs h hw htap
      exact ⟨_, _, (reads_onBus_iff hs h hleaf).2 ⟨rfl, rfl⟩, hval.leaves leaf hleaf⟩

theorem ready_drawnAll (hs : 0 < s) {outputs : List (String × Expr)} (hall : ∀ o ∈ outputs, o.2.Supported)
    (hwidths : ∀ o ∈ outputs, (3 + o.2.gates.span) * s < 2 ^ 31) (htotal : rowsAll outputs * s < 2 ^ 31) :
    ((blank (.grid s)).drawnAll s outputs).Ready s where
  size := congrArg Catalog.size (catalog_drawnAll s outputs _)
  registered := registered_drawnAll (registered_blank _) hall
  keepsTo := by
    rw [drawing_drawnAll, blank, Drawing.empty_append]
    exact keepsTo_sketches hs hall hwidths (by rwa [zero_add])

/-- **A circuit computes its expressions.** For every assignment of the variables
by name there is a valuation that the circuit admits, and every valuation that
it admits has, at the output terminals in order, the values of the expressions
whose names these show. A tap reads one variable, plain or negated, and no
other. -/
theorem build_grid_computes (hs : 0 < s) {outputs : List (String × Expr)} {circuit : Circuit}
    (h : build (.grid s) outputs = .ok circuit) (env : String → Bool) :
    (∃ val, circuit.Admits s env val) ∧
      (∀ val, circuit.Admits s env val →
        (circuit.nodesOf .output).map (fun n => (n.label?, val n.pos)) =
          outputs.map fun o => (some o.1, o.2.eval fun v => env v.name)) ∧
      ∀ w ∈ circuit.wires, w.IsTap → ∃! reading : String × Bool, circuit.Reads s w reading.1 reading.2 := by
  obtain ⟨hall, hwidths, htotal, -, rfl⟩ := (build_grid_eq_ok_iff hs).1 h
  have hready := ready_drawnAll hs hall hwidths htotal
  have hdrawing : ((blank (.grid s)).drawnAll s outputs).drawing = sketches s 0 outputs := by
    rw [drawing_drawnAll, blank, Drawing.empty_append]
  refine ⟨⟨signals s (fun v => env v.name) 0 outputs, ?_⟩, fun val hval => ?_, fun w hw htap => ?_⟩
  · refine (admits_onBus_iff hs hready).2 ?_
    rw [hdrawing]
    exact carries_signals hs _ hall hwidths (by rwa [zero_add])
  · have hcarries := (admits_onBus_iff hs hready).1 hval
    have hnodes := nodesOf_output_onBus s ((blank (.grid s)).drawnAll s outputs)
    rw [hdrawing] at hcarries hnodes
    rw [← onBus, hnodes]
    exact map_nodesOf_sketches hall hcarries
  · obtain ⟨leaf, hleaf, rfl⟩ := exists_leaf_of_isTap hs hready hw htap
    refine ⟨(leaf.literal.var.name, leaf.literal.negated), (reads_onBus_iff hs hready hleaf).2 ⟨rfl, rfl⟩, ?_⟩
    rintro ⟨name, negated⟩ hreads
    exact Prod.ext_iff.2 ((reads_onBus_iff hs hready hleaf).1 hreads)

/-- The circuit of a conjunction can be built and computes it. -/
theorem build_grid_computes_of_conjunction :
    ∃ circuit, build (.grid 20) [("F", .join .and [.var ⟨"A", by decide⟩, .not (.var ⟨"B", by decide⟩)])] =
        .ok circuit ∧
      ∀ env : String → Bool, (∃ val, circuit.Admits 20 env val) ∧
        ∀ val, circuit.Admits 20 env val →
          (circuit.nodesOf .output).map (fun n => (n.label?, val n.pos)) =
            [(some "F", env "A" && !env "B")] := by
  have hbuild : ∃ circuit, build (.grid 20)
      [("F", .join .and [.var ⟨"A", by decide⟩, .not (.var ⟨"B", by decide⟩)])] = .ok circuit := by
    refine ⟨_, (build_grid_eq_ok_iff (by decide)).2 ⟨?_, ?_, ?_, .inr (by decide), rfl⟩⟩
    · simp [Expr.Supported, Expr.parts, Expr.partsAll]
    · simp [Expr.gates, Expr.gatesAll, Connective.gate?, span, spanAll, NodeKind.width]
    · decide
  obtain ⟨circuit, h⟩ := hbuild
  refine ⟨circuit, h, fun env => ?_⟩
  obtain ⟨hadmits, hvalues, -⟩ := build_grid_computes (by decide) h env
  refine ⟨hadmits, fun val hval => ?_⟩
  simpa [Expr.eval, Expr.evalAll, Connective.combine] using hvalues val hval

end Sheet

end Schematic
