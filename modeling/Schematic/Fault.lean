/-
Every way an operation of this library can be refused, each with its cause,
and the one place where a cause is put into words.
-/
import Schematic.Kind

namespace Schematic

/-- The operations on coordinates that can leave the range of the plane. -/
inductive Arithmetic where
  | add
  | subtract
  | multiply
  | negate
  deriving DecidableEq, Repr

/-- The word for an operation on coordinates in messages. -/
def Arithmetic.name : Arithmetic → String
  | .add => "add"
  | .subtract => "subtract"
  | .multiply => "multiply"
  | .negate => "negate"

/-- Why an operation was refused. -/
inductive Fault where
  /-- A coordinate would leave the plane. -/
  | overflow (op : Arithmetic)
  /-- A variable was to have the empty name. -/
  | emptyName
  /-- A row was read that the table does not have. -/
  | rowOutOfRange (rows row : Nat)
  /-- A table was to have a number of rows that no set of variables gives. -/
  | rowsNotPowerOfTwo (rows : Nat)
  /-- A table was to span more variables than its rows can be counted for. -/
  | tooManyVariables (vars : Nat)
  /-- A variable was named by an ordinal that the table does not have. -/
  | variableOutOfRange (ordinal vars : Nat)
  /-- A table was paired with the wrong number of variables. -/
  | tableMismatch (rows vars : Nat)
  /-- A gate was to have no inputs. -/
  | gateWithoutInputs (connective : Connective)
  /-- A pin was asked for that the shape does not have. -/
  | missingPin (pins pin : Nat)
  /-- A grid was to have cells of no size. -/
  | gridNotPositive (size : Int)
  /-- The catalog lets no output terminal carry its name. -/
  | outputsUnlabelled
  /-- The catalog lets no node of this kind carry the attribute. -/
  | unsupportedAttr (kind : NodeKind) (key : AttrKey)
  /-- No gates stand for an expression of this kind. -/
  | unsupportedExpr (kind : ExprKind) (text : String)
  /-- A connective without operands has no gate. -/
  | emptyOperation (kind : ExprKind)
  /-- A leaf's variable has no slot on the input bus. -/
  | unregisteredVariable (name : String)
  deriving DecidableEq, Repr

/-- What a fault says. -/
def Fault.message : Fault → String
  | .overflow op => "attempt to " ++ op.name ++ " with overflow"
  | .emptyName => "Variable name must not be empty"
  | .rowOutOfRange rows row =>
    "index out of bounds: the len is " ++ toString rows ++ " but the index is " ++ toString row
  | .rowsNotPowerOfTwo rows => "Table size must be a power of two, got " ++ toString rows
  | .tooManyVariables vars => "Too many variables: " ++ toString vars
  | .variableOutOfRange ordinal vars =>
    "Variable " ++ toString ordinal ++ " out of range for " ++ toString vars ++ "-variable table"
  | .tableMismatch rows vars =>
    "Table with " ++ toString rows ++ " rows does not match " ++ toString vars ++ " variables"
  | .gateWithoutInputs c => c.gateName ++ " gate needs at least one input"
  | .missingPin pins pin =>
    "Shape has " ++ toString pins ++ " inputs, requested pin " ++ toString pin
  | .gridNotPositive size => "Grid size must be positive, got " ++ toString size
  | .outputsUnlabelled => "Shape catalog cannot label output terminals"
  | .unsupportedAttr kind key => kind.text ++ " does not support " ++ key.name
  | .unsupportedExpr kind text =>
    "Cannot lower '" ++ kind.name ++ "' expression `" ++ text ++ "` to gates"
  | .emptyOperation kind => "Operator '" ++ kind.name ++ "' has no operands"
  | .unregisteredVariable name =>
    "Variable '" ++ name ++ "' is used by a gate but has no input bus slot"

theorem bind_eq_ok_iff {α β : Type} {x : Except Fault α} {f : α → Except Fault β} {b : β} :
    x >>= f = .ok b ↔ ∃ a, x = .ok a ∧ f a = .ok b := by
  cases x <;> simp [bind, Except.bind]

theorem bind_eq_error_iff {α β : Type} {x : Except Fault α} {f : α → Except Fault β} {fault : Fault} :
    x >>= f = .error fault ↔ x = .error fault ∨ ∃ a, x = .ok a ∧ f a = .error fault := by
  cases x <;> simp [bind, Except.bind]

theorem bind_ne_error {α β : Type} {x : Except Fault α} {f : α → Except Fault β} {fault : Fault}
    (hx : x ≠ .error fault) (hf : ∀ a, x = .ok a → f a ≠ .error fault) : x >>= f ≠ .error fault := by
  cases x with
  | error e => exact fun h => hx (by cases h; rfl)
  | ok a => exact hf a rfl

theorem mapM_eq_ok_map {α β : Type} {f : α → Except Fault β} {g : α → β} :
    ∀ {l : List α}, (∀ a ∈ l, f a = .ok (g a)) → l.mapM f = .ok (l.map g)
  | [], _ => rfl
  | a :: l, h => by
    rw [List.mapM_cons, h a (by simp), mapM_eq_ok_map fun b hb => h b (by simp [hb])]
    rfl

end Schematic
