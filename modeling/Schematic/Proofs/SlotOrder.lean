/-
The order of the slots on the bus. A variable is registered up to three times:
in the list of an expression's variables, when the expression becomes a tree,
and when the variables of that tree are merged with those of the sheet. Each
time the first of several references counts (`foldl_register_eq`), and merging
variables that were registered elsewhere is the same as registering their
references here (`foldl_register_foldl`). So the slots stand in the order in
which a walk through all expressions meets their variables.
-/
import Schematic.Proofs.Inventory

namespace Schematic

/-! ## Slots -/

namespace Sheet

variable {catalog : Catalog} {before after sheet : Sheet} {outputs : List (String × Expr)} {strips : List Strip}

/-- **The variables of a sheet** are registered as its expressions refer to
them, one expression after the other. -/
theorem Run.vars_eq (hrun : Run before outputs strips after) :
    after.vars = (outputs.flatMap fun o => o.2.references).foldl register before.vars := by
  induction hrun with
  | nil => rfl
  | @cons before next after o outputs strip strips hadds _ ih =>
    have hnext : next.vars = o.2.references.foldl register before.vars := by
      rw [hadds.vars, Expr.vars, foldl_register_foldl]
      rfl
    rw [ih, hnext, List.flatMap_cons, List.foldl_append]

theorem labels_inputs (outputs : List (String × Expr)) (vars : List Variable) :
    ((outputs.flatMap componentsOf ++ vars.flatMap Component.slot).filter (·.kind == .input)).map Component.label? =
      vars.map fun v => some v.name := by
  have hdrawn : (outputs.flatMap componentsOf).filter (·.kind == .input) = [] := by
    rw [List.filter_eq_nil_iff]
    intro p hp hinput
    obtain ⟨o, -, hp⟩ := List.mem_flatMap.1 hp
    have hkind := kind_of_mem_componentsOf hp
    rw [beq_iff_eq.1 hinput] at hkind
    rcases hkind with hgate | houtput
    · cases hgate
    · cases houtput
  rw [List.filter_append, hdrawn, List.nil_append, List.filter_flatMap, List.map_flatMap, List.map_eq_flatMap]
  rfl

/-- **The slots stand in the order of first references.** Whatever the catalog,
the variables of the expressions added to a sheet are those of their
conjunction: the variables that the walks through the expressions meet, one
after the other, each where it is met first. The input terminals of the finished
circuit carry their names, in that order. -/
theorem vars_first_referenced (h : (blank catalog).addAll outputs = .ok sheet) :
    sheet.vars = (Expr.join .and (outputs.map Prod.snd)).vars ∧
    sheet.vars = ((outputs.flatMap fun o => o.2.parts).filterMap Expr.var?).eraseDups ∧
    ∀ circuit, sheet.circuit = .ok circuit →
      (circuit.nodesOf .input).map Node.label? = sheet.vars.map fun v => some v.name := by
  obtain ⟨strips, hrun⟩ := exists_run h
  have hvars : sheet.vars = (outputs.flatMap fun o => o.2.references).eraseDups := by
    rw [hrun.vars_eq, ← foldl_register_nil]
    rfl
  refine ⟨?_, ?_, fun circuit hcircuit => ?_⟩
  · rw [hvars, Expr.vars_eq_eraseDups, Expr.references_join, List.flatMap_map]
  · rw [hvars, List.filterMap_flatMap]
    rfl
  · have hlabels := congrArg (List.map Component.label?) (circuit.map_component_nodesOf .input)
    rw [components_circuit h hcircuit, labels_inputs, List.map_map] at hlabels
    exact hlabels

/-- The second of two expressions refers to the variables in another order; the
slots keep that of the first. -/
theorem vars_first_referenced_of_two : ∃ circuit, twoSheet.circuit = .ok circuit ∧
    twoSheet.vars = (Expr.join .and (twoOutputs.map Prod.snd)).vars ∧
    (circuit.nodesOf .input).map Node.label? = [some "A", some "B"] := by
  obtain ⟨circuit, hcircuit⟩ := exists_circuit_twoSheet
  obtain ⟨hvars, -, hlabels⟩ := vars_first_referenced addAll_twoOutputs
  exact ⟨circuit, hcircuit, hvars, (hlabels circuit hcircuit).trans (by decide)⟩

end Sheet

end Schematic
