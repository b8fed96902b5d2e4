/-
Trees of gates over variables and negated variables, and how an expression
becomes one.

A negation right above a variable is taken into the leaf, since the input bus
supplies every variable both plain and inverted; any other negation becomes an
inverter. Constants and exclusive disjunctions have no gates, and neither has
a connective without operands: the first of these that a walk from the root
meets is the one reported. Variables are registered as they are met, and stay
registered when a fault follows.
-/
import Schematic.Expr

namespace Schematic

/-! ## Gates by their number of inputs -/

/-- A conjunction gate is made for at least one input. -/
def NodeKind.andOf (arity : Nat) : Except Fault NodeKind :=
  if arity = 0 then .error (.gateWithoutInputs .and) else .ok (.and arity)

/-- A disjunction gate is made for at least one input. -/
def NodeKind.orOf (arity : Nat) : Except Fault NodeKind :=
  if arity = 0 then .error (.gateWithoutInputs .or) else .ok (.or arity)

/-- The gates that stand for a connective, by number of operands. No gate
stands for an exclusive disjunction. The numbers that `NodeKind.andOf` and
`NodeKind.orOf` refuse are not refused here again: no connective without
operands gets as far as its gate. -/
def Connective.gate? : Connective → Option (Nat → NodeKind)
  | .and => some .and
  | .or => some .or
  | .xor => none

/-! ## Trees -/

/-- A variable or its negation. -/
structure Literal where
  var : Variable
  negated : Bool
  deriving DecidableEq

/-- A tree of gates. An output terminal carries a label and stands above the
tree that drives it. -/
inductive GateTree where
  | leaf (l : Literal)
  | gate (kind : NodeKind) (operands : List GateTree)
  | output (label : String) (tree : GateTree)

namespace GateTree

/-- What holds of a tree when it holds of its parts holds of all trees. -/
@[induction_eliminator]
theorem induction {motive : GateTree → Prop} (leaf : ∀ l, motive (.leaf l))
    (gate : ∀ kind operands, (∀ t ∈ operands, motive t) → motive (.gate kind operands))
    (output : ∀ label t, motive t → motive (.output label t)) : ∀ t, motive t
  | .leaf l => leaf l
  | .gate kind operands => gate kind operands fun t _ => induction leaf gate output t
  | .output label t => output label t (induction leaf gate output t)

/-! ## Parts -/

mutual

/-- A tree and everything inside it, each part before its own parts, operands
in order. -/
def parts : GateTree → List GateTree
  | .leaf l => [.leaf l]
  | .gate kind ts => .gate kind ts :: partsAll ts
  | .output label t => .output label t :: t.parts

def partsAll : List GateTree → List GateTree
  | [] => []
  | t :: ts => t.parts ++ partsAll ts

end

theorem partsAll_eq : ∀ ts : List GateTree, partsAll ts = ts.flatMap parts
  | [] => rfl
  | t :: ts => by simp [partsAll, partsAll_eq ts]

mutual

/-- The leaves of a tree in order, each as often as it occurs. -/
def leaves : GateTree → List Literal
  | .leaf l => [l]
  | .gate _ ts => leavesAll ts
  | .output _ t => t.leaves

def leavesAll : List GateTree → List Literal
  | [] => []
  | t :: ts => t.leaves ++ leavesAll ts

end

theorem leavesAll_eq : ∀ ts : List GateTree, leavesAll ts = ts.flatMap leaves
  | [] => rfl
  | t :: ts => by simp [leavesAll, leavesAll_eq ts]

mutual

/-- The number of leaves. -/
def leafCount : GateTree → Nat
  | .leaf _ => 1
  | .gate _ ts => leafCountAll ts
  | .output _ t => t.leafCount

def leafCountAll : List GateTree → Nat
  | [] => 0
  | t :: ts => t.leafCount + leafCountAll ts

end

mutual

theorem length_leaves : (t : GateTree) → t.leaves.length = t.leafCount
  | .leaf _ => rfl
  | .gate _ ts => length_leavesAll ts
  | .output _ t => length_leaves t

theorem length_leavesAll : (ts : List GateTree) → (leavesAll ts).length = leafCountAll ts
  | [] => rfl
  | t :: ts => by simp [leavesAll, leafCountAll, length_leaves t, length_leavesAll ts]

end

/-! ## From expressions -/

/-- A step that registers variables, whether or not it succeeds. -/
abbrev Registering :=
  ExceptT Fault (StateM (List Variable))

/-- A leaf, whose variable is registered. -/
def ofLiteral (l : Literal) : Registering GateTree := do
  modify (register · l.var)
  return .leaf l

mutual

/-- The tree of gates that an expression stands for. A connective without
operands is refused before its gate is made, so a gate is only made for a number
of inputs that `NodeKind.andOf` and `NodeKind.orOf` allow. -/
def ofExpr : Expr → Registering GateTree
  | .var v => ofLiteral ⟨v, false⟩
  | .const b => throw (.unsupportedExpr .const (Expr.const b).text)
  | .not (.var v) => ofLiteral ⟨v, true⟩
  | .not e => return .gate .not [← ofExpr e]
  | .join c es =>
    match c.gate? with
    | none => throw (.unsupportedExpr (.join c) (Expr.join c es).text)
    | some kind =>
      if es.isEmpty then
        throw (.emptyOperation (.join c))
      else
        return .gate (kind es.length) (← ofExprs es)

def ofExprs : List Expr → Registering (List GateTree)
  | [] => return []
  | e :: es => return (← ofExpr e) :: (← ofExprs es)

end

end GateTree

/-- What becomes of an expression, and which variables are registered after
it, given those registered before. -/
def Expr.toGateTree (e : Expr) (registered : List Variable) :
    Except Fault GateTree × List Variable :=
  (GateTree.ofExpr e).run.run registered

/-! ## Truth -/

/-- The truth value of a literal under an assignment of the variables. -/
def Literal.eval (env : Variable → Bool) (l : Literal) : Bool :=
  env l.var ^^ l.negated

/-- The value that a node puts out, given those on its input pins. -/
def NodeKind.combine : NodeKind → List Bool → Bool
  | .input, _ => false
  | .output, bs => bs.headD false
  | .not, bs => !bs.headD false
  | .and _, bs => bs.all id
  | .or _, bs => bs.any id

namespace GateTree

mutual

/-- The truth value of a tree under an assignment of the variables. -/
def eval (env : Variable → Bool) : GateTree → Bool
  | .leaf l => l.eval env
  | .gate kind ts => kind.combine (evalAll env ts)
  | .output _ t => t.eval env

def evalAll (env : Variable → Bool) : List GateTree → List Bool
  | [] => []
  | t :: ts => t.eval env :: evalAll env ts

end

theorem evalAll_eq (env : Variable → Bool) :
    ∀ ts : List GateTree, evalAll env ts = ts.map (eval env)
  | [] => rfl
  | t :: ts => by simp [evalAll, evalAll_eq env ts]

end GateTree

end Schematic
