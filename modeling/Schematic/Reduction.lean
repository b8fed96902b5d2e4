/-
The removal of variables that a truth table does not depend on.

One sweep visits the variables from left to right. Each is tested against the
table as it has become so far; the variables kept before it have the ordinals
below it, so its own ordinal is their number. A variable that is removed takes
its digit of the row number with it, and the next one moves to its ordinal.
Variables kept earlier are not tested again.
-/
import Schematic.Variable
import Schematic.Dependence

namespace Schematic

/-- A truth table and its variables, from the most significant digit of the
row number to the least. -/
structure Reduction where
  vars : List Variable
  table : Table
  deriving DecidableEq

namespace Reduction

/-- A copy of a column with its variables, of which there must be as many as
the number of rows calls for. -/
def ofColumn (vars : List Variable) (c : Column) : Except Fault Reduction := do
  let table ← Table.ofColumn c
  if table.vars = vars.length then
    return ⟨vars, table⟩
  else
    throw (.tableMismatch table.size vars.length)

/-- The sweep over the variables still to visit, given the kept ones, the
table so far and whether a variable has gone. -/
def sweepFrom (kept : List Variable) (table : Table) (reduced : Bool) :
    List Variable → Except Fault (Bool × Reduction)
  | [] => return (reduced, ⟨kept, table⟩)
  | v :: rest => do
    if ← table.isIndependent kept.length then
      sweepFrom kept (← table.remove kept.length) true rest
    else
      sweepFrom (kept ++ [v]) table reduced rest

/-- One sweep, and whether it removed a variable. -/
def sweep (r : Reduction) : Except Fault (Bool × Reduction) :=
  sweepFrom [] r.table false r.vars

theorem ofColumn_eq_ok_iff {vars : List Variable} {c : Column} {r : Reduction} :
    ofColumn vars c = .ok r ↔
      Table.ofColumn c = .ok r.table ∧ r.vars = vars ∧ r.table.vars = vars.length := by
  simp only [ofColumn, bind_eq_ok_iff]
  constructor
  · rintro ⟨t, ht, h⟩
    split at h
    · cases h; exact ⟨ht, rfl, ‹_›⟩
    · cases h
  · rintro ⟨ht, rfl, hv⟩
    exact ⟨r.table, ht, by rw [if_pos hv]; rfl⟩

end Reduction

end Schematic
