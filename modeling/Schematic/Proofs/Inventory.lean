/-
What a finished circuit consists of, whatever the catalog: the terminal and the
gates of each expression in turn, then the slots of the bus
(`components_circuit`). The leaves are the references of the expressions
(`Run.map_var_leaves`), and all that a sheet draws but its output terminals has a
wire that leads away from it (`Run.unwired_eq`).
-/
import Schematic.Proofs.Components
import Schematic.Proofs.Supply

namespace Schematic

/-! ## Strips -/

namespace Strip

theorem components_drawings : ∀ strips : List Strip,
    (drawings strips).circuit.components = (strips.map (·.layout.tree)).flatMap GateTree.components
  | [] => rfl
  | strip :: strips => by
    rw [drawings, Drawing.components_append, drawing, Layout.components_sketch, components_drawings strips,
      List.map_cons, List.flatMap_cons]

theorem leaves_drawings : ∀ strips : List Strip,
    (drawings strips).leaves.toList.map Leaf.literal = (strips.map (·.layout.tree)).flatMap GateTree.leaves
  | [] => rfl
  | strip :: strips => by
    rw [drawings, Drawing.leaves_append, Array.toList_append, List.map_append, drawing, Layout.leaves_sketch,
      leaves_drawings strips, List.map_cons, List.flatMap_cons]

theorem unwired_drawings : ∀ strips : List Strip, (drawings strips).unwired = strips.length
  | [] => rfl
  | strip :: strips => by
    rw [drawings, Drawing.unwired_append, drawing, Layout.unwired_sketch, unwired_drawings strips, List.length_cons]
    push_cast
    omega

end Strip

namespace Sheet

variable {catalog : Catalog} {before after sheet : Sheet} {outputs : List (String × Expr)} {strips : List Strip}
  {circuit : Circuit}

theorem Run.map_tree (hrun : Run before outputs strips after) :
    strips.map (·.layout.tree) = outputs.map fun o => .output o.1 o.2.gates := by
  induction hrun with
  | nil => rfl
  | cons hadds _ ih => rw [List.map_cons, List.map_cons, ih, Layout.tree_of_ofTree _ hadds.layout_gates.2]

theorem Run.supported (hrun : Run before outputs strips after) : ∀ o ∈ outputs, o.2.Supported := by
  induction hrun with
  | nil => simp
  | cons hadds _ ih => exact List.forall_mem_cons.2 ⟨hadds.layout_gates.1, ih⟩

/-- What stands for a named expression: its terminal, and its gates. -/
def componentsOf (o : String × Expr) : List Component :=
  .output o.1 :: o.2.gateKinds.map .gate

theorem mem_componentsOf {o : String × Expr} {p : Component} :
    p ∈ componentsOf o ↔ p = .output o.1 ∨ ∃ kind ∈ o.2.gateKinds, p = .gate kind := by
  simp only [componentsOf, List.mem_cons, List.mem_map, eq_comm]

theorem kind_of_mem_componentsOf {o : String × Expr} {p : Component} (h : p ∈ componentsOf o) :
    p.kind.isGate = true ∨ p.kind = .output := by
  rcases mem_componentsOf.1 h with rfl | ⟨kind, hkind, rfl⟩
  · exact .inr rfl
  · exact .inl (Expr.isGate_of_mem_gateKinds hkind)

/-- **The components of a sheet** are those of its expressions, in order. -/
theorem Run.components_eq (hrun : (blank catalog).Run outputs strips sheet) :
    sheet.drawing.circuit.components = outputs.flatMap componentsOf := by
  rw [hrun.drawing_of_blank, Strip.components_drawings, hrun.map_tree, List.flatMap_map, List.flatMap_def,
    List.flatMap_def]
  refine congrArg List.flatten (List.map_congr_left fun o ho => ?_)
  rw [GateTree.components_output, Expr.components_gates (hrun.supported o ho), componentsOf]

theorem Run.kind_of_mem (hrun : (blank catalog).Run outputs strips sheet) {n : Node}
    (hn : n ∈ sheet.drawing.circuit.nodes) : n.kind.isGate = true ∨ n.kind = .output := by
  have hp := Circuit.component_mem_components hn
  rw [hrun.components_eq] at hp
  obtain ⟨o, -, hp⟩ := List.mem_flatMap.1 hp
  exact kind_of_mem_componentsOf hp

/-- **The leaves of a sheet** are the references of its expressions, in order. -/
theorem Run.map_var_leaves (hrun : (blank catalog).Run outputs strips sheet) :
    sheet.drawing.leaves.toList.map (·.literal.var) = outputs.flatMap fun o => o.2.references := by
  have hleaves := Strip.leaves_drawings strips
  rw [← hrun.drawing_of_blank, hrun.map_tree, List.flatMap_map] at hleaves
  have hvars : sheet.drawing.leaves.toList.map (·.literal.var) =
      (sheet.drawing.leaves.toList.map Leaf.literal).map Literal.var := by
    rw [List.map_map]
    rfl
  rw [hvars, hleaves, List.map_flatMap, List.flatMap_def, List.flatMap_def]
  exact congrArg List.flatten (List.map_congr_left fun o ho => Expr.leaves_gates (hrun.supported o ho))

theorem Run.unwired_eq (hrun : (blank catalog).Run outputs strips sheet) :
    sheet.drawing.unwired = outputs.length := by
  have hlen := congrArg List.length hrun.map_tree
  rw [List.length_map, List.length_map] at hlen
  rw [hrun.drawing_of_blank, Strip.unwired_drawings, hlen]

end Sheet

/-! ## Finished circuits -/

theorem Slot.components_drafts (size bottom : Int) : ∀ (vs : List Variable) (plain : Int),
    ((drafts size bottom plain vs).flatMap Slot.nodes).map Node.component = vs.flatMap Component.slot
  | [], _ => rfl
  | v :: vs, plain => by
    rw [drafts, List.flatMap_cons, List.map_append, components_drafts size bottom vs, List.flatMap_cons]
    rfl

namespace Sheet

variable {catalog : Catalog} {outputs : List (String × Expr)} {sheet : Sheet} {circuit : Circuit}

/-- **The components of a circuit**, whatever the catalog: those of its
expressions, then those of the slots. -/
theorem components_circuit (h : (blank catalog).addAll outputs = .ok sheet) (hcircuit : sheet.circuit = .ok circuit) :
    circuit.components = outputs.flatMap componentsOf ++ sheet.vars.flatMap Component.slot := by
  obtain ⟨strips, hrun⟩ := exists_run h
  obtain ⟨slots, -, rfl⟩ := circuit_eq_finished hrun.registered hcircuit
  rw [← hrun.components_eq, ← Slot.components_drafts sheet.catalog.size sheet.height sheet.vars
    (-(2 * sheet.catalog.size * sheet.vars.length))]
  simp [Circuit.components, finished]

end Sheet

end Schematic
