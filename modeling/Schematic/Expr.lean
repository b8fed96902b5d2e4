/-
Boolean expressions: variables, constants, negations, and connectives that
join any number of operands, none included.

An expression holds a list of expressions, so each function over expressions
comes with one over lists of them. `Expr.induction` proves a property of all
expressions with the operands' share of it at hand, and the `…All_eq` lemmas
turn the second function of each pair into one over lists.
-/
import Schematic.Variable

namespace Schematic

/-- A Boolean expression. -/
inductive Expr where
  | var (v : Variable)
  | const (b : Bool)
  | not (e : Expr)
  | join (c : Connective) (operands : List Expr)

namespace Expr

/-- What holds of an expression when it holds of its parts holds of all
expressions. -/
@[induction_eliminator]
theorem induction {motive : Expr → Prop} (var : ∀ v, motive (.var v)) (const : ∀ b, motive (.const b))
    (not : ∀ e, motive e → motive (.not e))
    (join : ∀ c operands, (∀ e ∈ operands, motive e) → motive (.join c operands)) :
    ∀ e, motive e
  | .var v => var v
  | .const b => const b
  | .not e => not e (induction var const not join e)
  | .join c operands => join c operands fun e _ => induction var const not join e

/-! ## Equality -/

mutual

/-- Whether two expressions are written alike, operand by operand. -/
def same : Expr → Expr → Bool
  | .var v, .var w => v == w
  | .const b, .const b' => b == b'
  | .not e, .not e' => e.same e'
  | .join c es, .join c' es' => c == c' && sameAll es es'
  | _, _ => false

def sameAll : List Expr → List Expr → Bool
  | [], [] => true
  | e :: es, e' :: es' => e.same e' && sameAll es es'
  | _, _ => false

end

mutual

theorem same_iff : (e e' : Expr) → (e.same e' = true ↔ e = e')
  | .var v, e' => by cases e' <;> simp [same]
  | .const b, e' => by cases e' <;> simp [same]
  | .not e, e' => by cases e' <;> simp [same, same_iff e]
  | .join c es, e' => by cases e' <;> simp [same, sameAll_iff es]

theorem sameAll_iff : (es es' : List Expr) → (sameAll es es' = true ↔ es = es')
  | [], es' => by cases es' <;> simp [sameAll]
  | e :: es, es' => by cases es' <;> simp [sameAll, same_iff e, sameAll_iff es]

end

instance : DecidableEq Expr := fun e e' =>
  decidable_of_iff (e.same e' = true) (same_iff e e')

/-! ## Parts -/

/-- What stands at the root of an expression. -/
def kind : Expr → ExprKind
  | .var _ => .var
  | .const _ => .const
  | .not _ => .not
  | .join c _ => .join c

/-- The variable that an expression is, if it is one. -/
def var? : Expr → Option Variable
  | .var v => some v
  | _ => none

theorem var?_eq_some_iff {e : Expr} {v : Variable} : e.var? = some v ↔ e = .var v := by
  cases e <;> simp [var?]

mutual

/-- An expression and everything inside it, each part before its own parts,
operands in order. -/
def parts : Expr → List Expr
  | .var v => [.var v]
  | .const b => [.const b]
  | .not e => .not e :: e.parts
  | .join c es => .join c es :: partsAll es

def partsAll : List Expr → List Expr
  | [] => []
  | e :: es => e.parts ++ partsAll es

end

theorem partsAll_eq : ∀ es : List Expr, partsAll es = es.flatMap parts
  | [] => rfl
  | e :: es => by simp [partsAll, partsAll_eq es]

/-- The variables that an expression refers to, once for each reference. -/
def references (e : Expr) : List Variable :=
  e.parts.filterMap var?

/-- How often an expression refers to a variable. -/
def occurrences (e : Expr) : Nat :=
  e.references.length

/-- The variables of an expression, each where it is first referred to. -/
def vars (e : Expr) : List Variable :=
  e.references.foldl register []

/-! ## Written form -/

mutual

/-- The written form: a negation is its sign before the operand, and a
connective joins its operands with its sign between parentheses. -/
def text : Expr → String
  | .var v => v.name
  | .const false => "0"
  | .const true => "1"
  | .not e => "!" ++ e.text
  | .join _ [] => "()"
  | .join c (e :: es) => "(" ++ e.text ++ textRest c es ++ ")"

/-- The operands after the first. -/
def textRest (c : Connective) : List Expr → String
  | [] => ""
  | e :: es => " " ++ c.sign ++ " " ++ e.text ++ textRest c es

end

/-! ## Truth -/

end Expr

/-- The truth value of joined operands. -/
def Connective.combine : Connective → List Bool → Bool
  | .and, bs => bs.all id
  | .or, bs => bs.any id
  | .xor, bs => bs.foldl Bool.xor false

namespace Expr

mutual

/-- The truth value of an expression under an assignment of its variables. -/
def eval (env : Variable → Bool) : Expr → Bool
  | .var v => env v
  | .const b => b
  | .not e => !e.eval env
  | .join c es => c.combine (evalAll env es)

def evalAll (env : Variable → Bool) : List Expr → List Bool
  | [] => []
  | e :: es => e.eval env :: evalAll env es

end

theorem evalAll_eq (env : Variable → Bool) : ∀ es : List Expr, evalAll env es = es.map (eval env)
  | [] => rfl
  | e :: es => by simp [evalAll, evalAll_eq env es]

end Expr

end Schematic
