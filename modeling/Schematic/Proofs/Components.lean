/-
What the nodes of a drawing are, wherever they stand. A component is a node
without its position, and `Circuit.components` lists those of a circuit in the
order of its nodes. A layout draws a node for each gate and terminal of its tree
(`components_sketch`) and a wire from each part but the root
(`unwired_sketch`), and the gates of an expression are those that stand for its
parts (`components_gates`).
-/
import Schematic.Proofs.Lowering
import Schematic.Proofs.Sketch

namespace Schematic

/-! ## Components -/

/-- A node wherever it stands: its kind and its attributes. -/
structure Component where
  kind : NodeKind
  attrs : Attrs := {}
  deriving DecidableEq, Repr

/-- What a node is, wherever it stands. -/
def Node.component (n : Node) : Component :=
  ⟨n.kind, n.attrs⟩

namespace Component

/-- The text under the label key, if it is text. -/
def label? (p : Component) : Option String :=
  match p.attrs.label with
  | some (.text s) => some s
  | _ => none

/-- The terminal of an output. -/
def output (label : String) : Component :=
  { kind := .output, attrs := { label := some (.text label) } }

/-- A gate of an expression. -/
def gate (kind : NodeKind) : Component :=
  { kind }

/-- The terminal and the inverter in the slot of a variable. -/
def slot (v : Variable) : List Component :=
  [{ kind := .input, attrs := { label := some (.text v.name), rotation := some (.ofTurns 3) } },
    { kind := .not, attrs := { rotation := some (.ofTurns 3) } }]

end Component

namespace Circuit

/-- The components of a circuit, in the order of its nodes. -/
def components (c : Circuit) : List Component :=
  c.nodes.toList.map Node.component

theorem length_components (c : Circuit) : c.components.length = c.nodes.size := by
  rw [components, List.length_map, Array.length_toList]

theorem map_component_nodesOf (c : Circuit) (kind : NodeKind) :
    (c.nodesOf kind).map Node.component = c.components.filter (·.kind == kind) := by
  rw [nodesOf, components, List.filter_map]
  rfl

theorem map_label?_nodesOf (c : Circuit) (kind : NodeKind) :
    (c.nodesOf kind).map Node.label? = (c.components.filter (·.kind == kind)).map Component.label? := by
  rw [← map_component_nodesOf, List.map_map]
  rfl

theorem length_nodesOf (c : Circuit) (kind : NodeKind) :
    (c.nodesOf kind).length = c.components.countP (·.kind == kind) := by
  rw [← List.length_map Node.component, map_component_nodesOf, List.countP_eq_length_filter]

theorem component_mem_components {c : Circuit} {n : Node} (hn : n ∈ c.nodes) : n.component ∈ c.components :=
  List.mem_map_of_mem (Array.mem_toList_iff.2 hn)

end Circuit

namespace Drawing

@[simp] theorem components_append (d e : Drawing) :
    (d ++ e).circuit.components = d.circuit.components ++ e.circuit.components := by
  simp [Circuit.components, append_eq]

@[simp] theorem components_ofNode (node : Node) : (ofNode node).circuit.components = [node.component] := rfl

@[simp] theorem components_ofWire (wire : Wire) : (ofWire wire).circuit.components = [] := rfl

/-- How many more nodes and leaves than wires a drawing has. -/
def unwired (d : Drawing) : Int :=
  d.circuit.nodes.size + d.leaves.size - d.circuit.wires.size

@[simp] theorem unwired_append (d e : Drawing) : (d ++ e).unwired = d.unwired + e.unwired := by
  simp only [unwired, append_eq, Array.size_append]
  omega

@[simp] theorem unwired_ofNode (node : Node) : (ofNode node).unwired = 1 := rfl

@[simp] theorem unwired_ofWire (wire : Wire) : (ofWire wire).unwired = -1 := rfl

end Drawing

/-! ## Layouts -/

namespace GateTree

/-- The node that stands for the root of a tree. A leaf has none. -/
def component? : GateTree → Option Component
  | .leaf _ => none
  | .gate kind _ => some (.gate kind)
  | .output label _ => some (.output label)

/-- The nodes that stand for the parts of a tree. -/
def components (t : GateTree) : List Component :=
  t.parts.filterMap component?

@[simp] theorem components_leaf (l : Literal) : (leaf l).components = [] := rfl

@[simp] theorem components_gate (kind : NodeKind) (ts : List GateTree) :
    (gate kind ts).components = .gate kind :: ts.flatMap components := by
  rw [components, parts, partsAll_eq, List.filterMap_cons, List.filterMap_flatMap]
  rfl

@[simp] theorem components_output (label : String) (t : GateTree) :
    (output label t).components = .output label :: t.components := rfl

end GateTree

namespace Layout

mutual

/-- **A layout draws the components of its tree**, in order. -/
theorem components_sketch (pos : Point) : (m : Layout) →
    (m.sketch pos).circuit.components = m.tree.components
  | .leaf _ _ => rfl
  | .gate _ _ kind shape symbol operands => by
    rw [sketch, Drawing.components_append, Drawing.components_ofNode, components_sketchAll, tree,
      GateTree.components_gate]
    rfl
  | .output _ label shape symbol offset m => by
    rw [sketch, Drawing.components_append, Drawing.components_append, Drawing.components_ofNode,
      Drawing.components_ofWire, components_sketch (pos + offset) m, List.append_nil, tree,
      GateTree.components_output]
    rfl

theorem components_sketchAll (pos gate : Point) (shape : Shape) (pin : Nat) : (operands : List (Point × Layout)) →
    (sketchAll pos gate shape pin operands).circuit.components = (trees operands).flatMap GateTree.components
  | [] => rfl
  | (offset, m) :: operands => by
    rw [sketchAll, Drawing.components_append, Drawing.components_append, Drawing.components_ofWire, List.nil_append,
      components_sketch (pos + offset) m, components_sketchAll pos gate shape (pin + 1) operands, trees,
      List.flatMap_cons]

end

mutual

/-- **A wire leaves every part of a layout** but the root. -/
theorem unwired_sketch (pos : Point) : (m : Layout) → (m.sketch pos).unwired = 1
  | .leaf _ _ => rfl
  | .gate _ _ kind shape symbol operands => by
    rw [sketch, Drawing.unwired_append, Drawing.unwired_ofNode, unwired_sketchAll]
    rfl
  | .output _ label shape symbol offset m => by
    rw [sketch, Drawing.unwired_append, Drawing.unwired_append, Drawing.unwired_ofNode, Drawing.unwired_ofWire,
      unwired_sketch (pos + offset) m]
    rfl

theorem unwired_sketchAll (pos gate : Point) (shape : Shape) (pin : Nat) : (operands : List (Point × Layout)) →
    (sketchAll pos gate shape pin operands).unwired = 0
  | [] => rfl
  | (offset, m) :: operands => by
    rw [sketchAll, Drawing.unwired_append, Drawing.unwired_append, Drawing.unwired_ofWire,
      unwired_sketch (pos + offset) m, unwired_sketchAll pos gate shape (pin + 1) operands]
    rfl

end

end Layout

/-! ## Expressions -/

namespace Expr

/-- The kind of gate that stands for the root of an expression. A negated
variable has none. -/
def gate? : Expr → Option NodeKind
  | .not e => if e.var?.isNone then some .not else none
  | .join c es => c.gate?.map (· es.length)
  | _ => none

/-- The kinds of the gates that stand for the parts of an expression. -/
def gateKinds (e : Expr) : List NodeKind :=
  e.parts.filterMap gate?

theorem isGate_of_gate? {e : Expr} {kind : NodeKind} (h : e.gate? = some kind) : kind.isGate = true := by
  cases e with
  | var v | const b => cases h
  | not e =>
    rw [gate?] at h
    split at h
    · cases h
      rfl
    · cases h
  | join c es =>
    cases c with
    | and | or =>
      cases h
      rfl
    | xor => cases h

theorem isGate_of_mem_gateKinds {e : Expr} {kind : NodeKind} (h : kind ∈ e.gateKinds) : kind.isGate = true := by
  obtain ⟨p, -, hp⟩ := List.mem_filterMap.1 h
  exact isGate_of_gate? hp

/-- **The gates of the tree stand for the parts of the expression.** -/
theorem components_gates {e : Expr} (h : e.Supported) : e.gates.components = e.gateKinds.map Component.gate := by
  induction h using Supported.induction with
  | var v => rfl
  | notVar v => rfl
  | not e h hv ih =>
    have hgate : gate? (.not e) = some .not := by rw [gate?, hv]; rfl
    rw [gates_not hv, GateTree.components_gate, List.flatMap_singleton, ih, gateKinds, gateKinds, parts,
      List.filterMap_cons, hgate, List.map_cons]
  | join c es h hall hc hes ih =>
    have hops : (gatesAll es).flatMap GateTree.components = (es.flatMap gateKinds).map Component.gate := by
      rw [gatesAll_eq, List.flatMap_map, List.map_flatMap, List.flatMap_def, List.flatMap_def, List.map_congr_left ih]
    have hparts : (partsAll es).filterMap gate? = es.flatMap gateKinds := by
      rw [partsAll_eq, List.filterMap_flatMap]
      rfl
    rw [gates, GateTree.components_gate, hops, gateKinds, parts, List.filterMap_cons, hparts]
    cases c with
    | and | or => rfl
    | xor => exact absurd rfl hc

end Expr

end Schematic
