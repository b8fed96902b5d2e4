/-
Boolean variables. A variable is its name, which is never empty; where it
stands in a list of variables is the list's affair.
-/
import Schematic.Fault

namespace Schematic

/-- A named Boolean variable. -/
structure Variable where
  name : String
  name_ne_empty : name ≠ ""
  deriving DecidableEq

namespace Variable

/-- The variable of a name, unless the name is empty. -/
def ofName (name : String) : Except Fault Variable :=
  if h : name ≠ "" then .ok ⟨name, h⟩ else .error .emptyName

/-- Variables are ordered as their names are, code point by code point. -/
instance : Ord Variable where
  compare a b := compare a.name b.name

end Variable

/-- Appends a variable to a list of variables, unless it is there already. -/
def register (vars : List Variable) (v : Variable) : List Variable :=
  if v ∈ vars then vars else vars ++ [v]

theorem mem_register {vars : List Variable} {v w : Variable} :
    w ∈ register vars v ↔ w ∈ vars ∨ w = v := by
  unfold register
  split <;> grind

theorem nodup_register {vars : List Variable} (h : vars.Nodup) (v : Variable) :
    (register vars v).Nodup := by
  unfold register
  split
  · exact h
  · rw [List.nodup_append]
    grind

end Schematic
