/-
The kinds of things the library speaks about: what stands at the root of an
expression, what a node of a circuit is, and which attributes a node can
carry. Everything else imports them, the faults first of all, because a
fault's message names the kind it concerns.
-/

namespace Schematic

/-! ## Expressions -/

/-- A connective joins any number of operands. -/
inductive Connective where
  | and
  | or
  | xor
  deriving DecidableEq, Repr

namespace Connective

/-- The word for a connective in messages about expressions. -/
def name : Connective → String
  | .and => "and"
  | .or => "or"
  | .xor => "xor"

/-- The word for a connective in messages about gates. -/
def gateName : Connective → String
  | .and => "AND"
  | .or => "OR"
  | .xor => "XOR"

/-- The sign written between two operands. -/
def sign : Connective → String
  | .and => "&"
  | .or => "|"
  | .xor => "^"

end Connective

/-- The kind of an expression is what stands at its root. -/
inductive ExprKind where
  | var
  | const
  | not
  | join (connective : Connective)
  deriving DecidableEq, Repr

/-- The word for a kind of expression in messages. -/
def ExprKind.name : ExprKind → String
  | .var => "variable"
  | .const => "constant"
  | .not => "not"
  | .join c => c.name

/-! ## Nodes of a circuit -/

/-- A node is a terminal or a gate. Conjunction and disjunction gates carry
the number of their inputs. -/
inductive NodeKind where
  | input
  | output
  | not
  | and (arity : Nat)
  | or (arity : Nat)
  deriving DecidableEq, Repr

namespace NodeKind

/-- How many input pins a node of this kind has. -/
def arity : NodeKind → Nat
  | .input => 0
  | .output => 1
  | .not => 1
  | .and n => n
  | .or n => n

/-- Every node drives an output pin, the output terminal excepted. -/
def hasOutput (kind : NodeKind) : Bool :=
  kind != .output

/-- Terminals are not gates. -/
def isGate : NodeKind → Bool
  | .input => false
  | .output => false
  | .not => true
  | .and _ => true
  | .or _ => true

/-- The written form: the kind's name, for a gate of any number of inputs
followed by that number. -/
def text : NodeKind → String
  | .input => "In"
  | .output => "Out"
  | .not => "Not"
  | .and n => "And" ++ toString n
  | .or n => "Or" ++ toString n

end NodeKind

/-! ## Attributes -/

/-- The attributes a node can carry, in the order they are listed. -/
inductive AttrKey where
  | label
  | rotation
  deriving DecidableEq, Repr

/-- The word for an attribute in messages. -/
def AttrKey.name : AttrKey → String
  | .label => "Label"
  | .rotation => "Rotation"

end Schematic
