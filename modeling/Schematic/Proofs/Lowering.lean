/-
Which expressions have a tree of gates, and what that tree is.

An expression is supported if it has no constants, no exclusive disjunctions
and no connectives without operands in it. `toGateTree_of_supported` says that
a supported expression becomes `e.gates` and registers its references in order.
The rest says that the tree keeps its value, and that it is complete, with an
operand on every input pin of every gate.
-/
import Schematic.GateTree
import Schematic.Proofs.Registration

namespace Schematic

/-! ## Connectives with gates -/

theorem Connective.exists_gate? {c : Connective} (h : c ≠ .xor) : ∃ kind, c.gate? = some kind := by
  cases c with
  | and => exact ⟨.and, rfl⟩
  | or => exact ⟨.or, rfl⟩
  | xor => exact absurd rfl h

theorem Connective.ne_xor_of_gate? {c : Connective} {kind : Nat → NodeKind} (h : c.gate? = some kind) : c ≠ .xor := by
  rintro rfl
  cases h

/-! ## Supported expressions -/

namespace Expr

/-- An expression without constants, exclusive disjunctions and connectives
without operands. -/
def Supported (e : Expr) : Prop :=
  ∀ p ∈ e.parts, (∀ b, p ≠ .const b) ∧ (∀ es, p ≠ .join .xor es) ∧ ∀ c, p ≠ .join c []

theorem supported_var (v : Variable) : Supported (.var v) := by simp [Supported, parts]

theorem not_supported_const (b : Bool) : ¬ Supported (.const b) := by simp [Supported, parts]

theorem supported_not {e : Expr} : Supported (.not e) ↔ e.Supported := by
  simp [Supported, parts]

theorem supported_join {c : Connective} {es : List Expr} :
    Supported (.join c es) ↔ c ≠ .xor ∧ es ≠ [] ∧ ∀ e ∈ es, e.Supported := by
  simp only [Supported, parts, partsAll_eq, List.mem_cons, forall_eq_or_imp, List.mem_flatMap]
  refine ⟨?_, ?_⟩
  · intro h
    obtain ⟨⟨-, hxor, hempty⟩, hall⟩ := h
    refine ⟨?_, ?_, fun e he p hp => hall p ⟨e, he, hp⟩⟩
    · intro h
      subst h
      exact hxor es rfl
    · intro h
      subst h
      exact hempty c rfl
  · intro h
    obtain ⟨hc, hes, hall⟩ := h
    refine ⟨⟨nofun, ?_, ?_⟩, fun p ⟨e, he, hp⟩ => hall e he p hp⟩
    · rintro es' ⟨⟩
      exact hc rfl
    · rintro c' ⟨⟩
      exact hes rfl

/-- What holds of a supported expression when it holds of its operands. A
negated variable is a case of its own, as it has no gate. -/
theorem Supported.induction {motive : (e : Expr) → e.Supported → Prop}
    (var : ∀ v, motive (.var v) (supported_var v))
    (notVar : ∀ v, motive (.not (.var v)) (supported_not.2 (supported_var v)))
    (not : ∀ e (h : e.Supported), e.var? = none → motive e h → motive (.not e) (supported_not.2 h))
    (join : ∀ c es (h : Supported (.join c es)) (hall : ∀ e ∈ es, e.Supported), c ≠ .xor → es ≠ [] →
      (∀ e (he : e ∈ es), motive e (hall e he)) → motive (.join c es) h)
    {e : Expr} (h : e.Supported) : motive e h := by
  induction e with
  | var v => exact var v
  | const b => exact absurd h (not_supported_const b)
  | not e ih =>
    cases hv : e.var? with
    | some v =>
      obtain rfl := var?_eq_some_iff.1 hv
      exact notVar v
    | none => exact not e (supported_not.1 h) hv (ih _)
  | join c es ih =>
    obtain ⟨hc, hes, hall⟩ := supported_join.1 h
    exact join c es h hall hc hes fun e he => ih e he (hall e he)

/-! ## The tree of an expression -/

mutual

/-- The tree of gates of a supported expression. -/
def gates : Expr → GateTree
  | .var v => .leaf ⟨v, false⟩
  | .const _ => .gate (.or 0) []
  | .not (.var v) => .leaf ⟨v, true⟩
  | .not e => .gate .not [e.gates]
  | .join c es => .gate ((c.gate?.getD .or) es.length) (gatesAll es)

def gatesAll : List Expr → List GateTree
  | [] => []
  | e :: es => e.gates :: gatesAll es

end

theorem gatesAll_eq : ∀ es : List Expr, gatesAll es = es.map gates
  | [] => rfl
  | e :: es => by simp [gatesAll, gatesAll_eq es]

theorem length_gatesAll (es : List Expr) : (gatesAll es).length = es.length := by
  rw [gatesAll_eq, List.length_map]

theorem gates_not {e : Expr} (h : e.var? = none) : gates (.not e) = .gate .not [e.gates] := by
  cases e with
  | var v => simp [var?] at h
  | const | not | join => rfl

theorem gates_join {c : Connective} {kind : Nat → NodeKind} (hc : c.gate? = some kind) (es : List Expr) :
    gates (.join c es) = .gate (kind es.length) (gatesAll es) := by
  rw [gates, hc, Option.getD_some]

end Expr

namespace GateTree

theorem ofExpr_not {e : Expr} (h : e.var? = none) :
    ofExpr (.not e) = (do return .gate .not [← ofExpr e]) := by
  cases e with
  | var v => simp [Expr.var?] at h
  | const | not | join => rfl

theorem ofExpr_join {c : Connective} {kind : Nat → NodeKind} {es : List Expr} (hc : c.gate? = some kind)
    (hes : es ≠ []) : ofExpr (.join c es) = (do return .gate (kind es.length) (← ofExprs es)) := by
  have hempty : es.isEmpty = false := by simpa using hes
  simp only [ofExpr, hc, hempty, Bool.false_eq_true, if_false]

theorem Registering.run_bind_ok {α β : Type} {x : Registering α} {f : α → Registering β} {a : α}
    {registered after : List Variable} (h : x.run.run registered = (.ok a, after)) :
    (x >>= f).run.run registered = (f a).run.run after := by
  simp only [ExceptT.run_bind, StateT.run_bind, h]
  rfl

open Registering (run_bind_ok)

theorem ofExprs_of_supported : ∀ {es : List Expr},
    (∀ e ∈ es, ∀ registered,
      e.toGateTree registered = (.ok e.gates, e.references.foldl register registered)) →
    ∀ registered, (ofExprs es).run.run registered =
      (.ok (Expr.gatesAll es), (es.flatMap Expr.references).foldl register registered)
  | [], _, _ => rfl
  | e :: es, h, registered => by
    have hes : ∀ e ∈ es, ∀ registered,
        e.toGateTree registered = (.ok e.gates, e.references.foldl register registered) :=
      fun e he => h e (by simp [he])
    have htail := ofExprs_of_supported hes (e.references.foldl register registered)
    rw [ofExprs, run_bind_ok (h e (by simp) registered), run_bind_ok htail, List.flatMap_cons,
      List.foldl_append]
    rfl

end GateTree

namespace Expr

open GateTree.Registering (run_bind_ok)

theorem references_not (e : Expr) : references (.not e) = e.references := rfl

theorem references_join (c : Connective) (es : List Expr) :
    references (.join c es) = es.flatMap references := by
  simp only [references, parts, partsAll_eq, List.filterMap_cons, var?, List.filterMap_flatMap]
  rfl

/-- **A supported expression becomes its tree**, and its references are
registered in order. -/
theorem toGateTree_of_supported {e : Expr} (h : e.Supported) (registered : List Variable) :
    e.toGateTree registered = (.ok e.gates, e.references.foldl register registered) := by
  induction h using Supported.induction generalizing registered with
  | var v => rfl
  | notVar v => rfl
  | not e h hv ih =>
    rw [toGateTree, GateTree.ofExpr_not hv, run_bind_ok (ih registered), gates_not hv, references_not]
    rfl
  | join c es h hall hc hes ih =>
    have hops := GateTree.ofExprs_of_supported ih registered
    obtain ⟨kind, hkind⟩ := Connective.exists_gate? hc
    rw [references_join, toGateTree, GateTree.ofExpr_join hkind hes, run_bind_ok hops, gates_join hkind]
    rfl

end Expr

/-! ## Complete trees -/

namespace GateTree

mutual

/-- A tree without terminals, whose gates have an operand on every input pin,
and at least one. -/
def Complete : GateTree → Prop
  | .leaf _ => True
  | .gate kind ts => kind.isGate = true ∧ ts.length = kind.arity ∧ ts ≠ [] ∧ CompleteAll ts
  | .output _ _ => False

def CompleteAll : List GateTree → Prop
  | [] => True
  | t :: ts => t.Complete ∧ CompleteAll ts

end

theorem completeAll_iff {ts : List GateTree} : CompleteAll ts ↔ ∀ t ∈ ts, t.Complete := by
  induction ts with
  | nil => simp [CompleteAll]
  | cons t ts ih => simp [CompleteAll, ih]

mutual

theorem leafCount_pos : (t : GateTree) → t.Complete → 0 < t.leafCount
  | .leaf _, _ => Nat.one_pos
  | .gate _ ts, h => by
    have hlen := length_le_leafCountAll ts h.2.2.2
    have hpos := List.length_pos_iff.2 h.2.2.1
    rw [leafCount]
    omega

theorem length_le_leafCountAll : (ts : List GateTree) → CompleteAll ts → ts.length ≤ leafCountAll ts
  | [], _ => Nat.le_refl 0
  | t :: ts, h => by
    have ht := leafCount_pos t h.1
    have hts := length_le_leafCountAll ts h.2
    rw [List.length_cons, leafCountAll]
    omega

end

end GateTree

/-! ## What the tree keeps -/

namespace Expr

theorem complete_gates {e : Expr} (h : e.Supported) : e.gates.Complete := by
  induction h using Supported.induction with
  | var v => trivial
  | notVar v => trivial
  | not e h hv ih =>
    rw [gates_not hv]
    exact ⟨rfl, rfl, by simp, ih, trivial⟩
  | join c es h hall hc hes ih =>
    have hops : GateTree.CompleteAll (gatesAll es) := by
      rw [GateTree.completeAll_iff, gatesAll_eq]
      simpa using ih
    have hne : gatesAll es ≠ [] := by simpa [gatesAll_eq] using hes
    cases c with
    | and | or => exact ⟨rfl, length_gatesAll es, hne, hops⟩
    | xor => exact absurd rfl hc

/-- **The tree has the value of the expression.** -/
theorem eval_gates {e : Expr} (h : e.Supported) (env : Variable → Bool) :
    e.gates.eval env = e.eval env := by
  induction h using Supported.induction with
  | var v => simp [gates, GateTree.eval, Literal.eval, eval]
  | notVar v => simp [gates, GateTree.eval, Literal.eval, eval]
  | not e h hv ih =>
    rw [gates_not hv, eval, ← ih]
    rfl
  | join c es h hall hc hes ih =>
    have hops : GateTree.evalAll env (gatesAll es) = evalAll env es := by
      rw [GateTree.evalAll_eq, gatesAll_eq, evalAll_eq, List.map_map]
      exact List.map_congr_left ih
    cases c with
    | and | or =>
      rw [gates, GateTree.eval, hops]
      rfl
    | xor => exact absurd rfl hc

end Expr

end Schematic
