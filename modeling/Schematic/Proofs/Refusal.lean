/-
Which expressions have no tree of gates, what they are refused for, and what
has been registered by then.

`Expr.fault?` says what is wrong with the root of an expression, if anything
is. A walk through an expression meets its parts in order, and a faulty part
ends it: `refused_ofExpr` says that every expression that is not supported is
refused for the first faulty part in it, with the references before that part
registered and none after it.
-/
import Schematic.Proofs.Lowering

namespace Schematic

namespace Expr

/-! ## Faulty parts -/

/-- Why no gates stand for the root of an expression, if none do: constants and
exclusive disjunctions are not supported, and a conjunction or a disjunction
needs an operand. -/
def fault? (e : Expr) : Option Fault :=
  match e with
  | .const _ | .join .xor _ => some (.unsupportedExpr e.kind e.text)
  | .join _ [] => some (.emptyOperation e.kind)
  | _ => none

theorem fault?_eq_none_iff {e : Expr} :
    e.fault? = none ↔ (∀ b, e ≠ .const b) ∧ (∀ es, e ≠ .join .xor es) ∧ ∀ c, e ≠ .join c [] := by
  cases e with
  | var v | const b | not e => simp [fault?]
  | join c es => cases c <;> cases es <;> simp [fault?]

/-- An expression is supported if none of its parts is faulty. -/
theorem supported_iff_fault? {e : Expr} : e.Supported ↔ ∀ p ∈ e.parts, p.fault? = none := by
  simp only [Supported, fault?_eq_none_iff]

/-- The first faulty part of a list has this fault, and comes after these
parts. -/
def FirstFault (parts before : List Expr) (fault : Fault) : Prop :=
  ∃ p after, parts = before ++ p :: after ∧ (∀ q ∈ before, q.fault? = none) ∧ p.fault? = some fault

namespace FirstFault

variable {ps qs before : List Expr} {p : Expr} {fault : Fault}

theorem head (h : p.fault? = some fault) (ps : List Expr) : FirstFault (p :: ps) [] fault :=
  ⟨p, ps, rfl, by simp, h⟩

theorem append_left (h : FirstFault ps before fault) (qs : List Expr) : FirstFault (ps ++ qs) before fault := by
  obtain ⟨p, after, rfl, hbefore, hp⟩ := h
  exact ⟨p, after ++ qs, by simp, hbefore, hp⟩

theorem append_right (h : FirstFault qs before fault) (hps : ∀ p ∈ ps, p.fault? = none) :
    FirstFault (ps ++ qs) (ps ++ before) fault := by
  obtain ⟨q, after, rfl, hbefore, hq⟩ := h
  exact ⟨q, after, by simp, List.forall_mem_append.2 ⟨hps, hbefore⟩, hq⟩

end FirstFault

/-! ## Refused walks -/

/-- A walk through these parts is refused for the first faulty one, with the
references before it registered. -/
def Refused {α : Type} (x : GateTree.Registering α) (parts : List Expr) : Prop :=
  ∃ before fault, FirstFault parts before fault ∧
    ∀ registered, x.run.run registered = (.error fault, (before.filterMap var?).foldl register registered)

namespace Refused

open GateTree (Registering)

variable {α β : Type} {x : Registering α} {ps qs : List Expr} {p : Expr}

/-- Nothing follows a walk that is refused. -/
theorem bind (h : Refused x ps) (f : α → Registering β) : Refused (x >>= f) ps := by
  obtain ⟨before, fault, hfirst, hrun⟩ := h
  refine ⟨before, fault, hfirst, fun registered => ?_⟩
  simp only [ExceptT.run_bind, StateT.run_bind, hrun registered]
  rfl

theorem append_left (h : Refused x ps) (qs : List Expr) : Refused x (ps ++ qs) := by
  obtain ⟨before, fault, hfirst, hrun⟩ := h
  exact ⟨before, fault, hfirst.append_left qs, hrun⟩

/-- A walk that goes on after parts without fault. -/
theorem append_right (h : Refused x qs) (hps : ∀ p ∈ ps, p.fault? = none) {x' : Registering α}
    (hx : ∀ registered, x'.run.run registered = x.run.run ((ps.filterMap var?).foldl register registered)) :
    Refused x' (ps ++ qs) := by
  obtain ⟨before, fault, hfirst, hrun⟩ := h
  refine ⟨ps ++ before, fault, hfirst.append_right hps, fun registered => ?_⟩
  rw [hx, hrun, List.filterMap_append, List.foldl_append]

theorem cons (hp : p.fault? = none) (hvar : p.var? = none) (h : Refused x ps) : Refused x (p :: ps) := by
  have hps : ∀ q ∈ [p], q.fault? = none := by simpa using hp
  exact (h.append_right hps (fun registered => by simp [hvar]) : Refused x ([p] ++ ps))

end Refused

/-! ## Refused expressions -/

open GateTree.Registering (run_bind_ok)

theorem refused_ofExprs : ∀ {es : List Expr}, (∀ e ∈ es, ¬ e.Supported → Refused (GateTree.ofExpr e) e.parts) →
    (∃ e ∈ es, ¬ e.Supported) → Refused (GateTree.ofExprs es) (es.flatMap parts)
  | [], _, h => by simp at h
  | e :: es, hops, h => by
    rw [GateTree.ofExprs, List.flatMap_cons]
    by_cases he : e.Supported
    · have hrest : ∃ e ∈ es, ¬ e.Supported := by
        obtain ⟨e', he', hnot⟩ := h
        rcases List.mem_cons.1 he' with rfl | he'
        · exact absurd he hnot
        · exact ⟨e', he', hnot⟩
      have htail := (refused_ofExprs (fun e he => hops e (by simp [he])) hrest).bind fun ts => return e.gates :: ts
      exact htail.append_right (supported_iff_fault?.1 he) fun registered =>
        run_bind_ok (toGateTree_of_supported he registered)
    · exact ((hops e (by simp) he).bind _).append_left _

/-- **An expression that is not supported is refused** for the first faulty
part that a walk through it meets. -/
theorem refused_ofExpr {e : Expr} (h : ¬ e.Supported) : Refused (GateTree.ofExpr e) e.parts := by
  induction e with
  | var v => exact absurd (supported_var v) h
  | const b => exact ⟨[], _, .head rfl _, fun _ => rfl⟩
  | not e ih =>
    rw [supported_not] at h
    cases hv : e.var? with
    | some v =>
      rw [var?_eq_some_iff.1 hv] at h
      exact absurd (supported_var v) h
    | none =>
      rw [GateTree.ofExpr_not hv]
      exact ((ih h).bind _).cons rfl rfl
  | join c es ih =>
    by_cases hes : es = []
    · subst hes
      cases c <;> exact ⟨[], _, .head rfl _, fun _ => rfl⟩
    cases hc : c.gate? with
    | none =>
      cases c with
      | and | or => cases hc
      | xor => exact ⟨[], _, .head rfl _, fun _ => rfl⟩
    | some kind =>
      have hxor := Connective.ne_xor_of_gate? hc
      have hbad : ∃ e ∈ es, ¬ e.Supported := by
        rw [supported_join] at h
        simpa [hes, hxor] using h
      rw [GateTree.ofExpr_join hc hes, parts, partsAll_eq]
      have hroot : (join c es).fault? = none := fault?_eq_none_iff.2 ⟨by simp, by simp [hxor], by simpa using hes⟩
      exact ((refused_ofExprs ih hbad).bind _).cons hroot rfl

theorem toGateTree_of_not_supported {e : Expr} (h : ¬ e.Supported) (registered : List Variable) :
    ∃ fault after, e.toGateTree registered = (.error fault, after) := by
  obtain ⟨before, fault, -, hrun⟩ := refused_ofExpr h
  exact ⟨fault, _, hrun registered⟩

/-- **What becomes a tree**, and which. -/
theorem toGateTree_eq_ok_iff {e : Expr} {t : GateTree} {registered after : List Variable} :
    e.toGateTree registered = (.ok t, after) ↔
      e.Supported ∧ e.gates = t ∧ e.references.foldl register registered = after := by
  by_cases he : e.Supported
  · rw [toGateTree_of_supported he]
    simp [he]
  · obtain ⟨fault, after', hfault⟩ := toGateTree_of_not_supported he registered
    simp [hfault, he]

/-- **The first faulty part decides.** An expression is refused exactly if a
constant, an exclusive disjunction or a connective without operands is among
its parts. It is refused for the first of these that a walk through it meets,
and the variables referred to before that part are then registered, each at its
first reference unless it was registered already. -/
theorem refused_for_first_fault (e : Expr) (registered : List Variable) :
    ((∃ fault, (e.toGateTree registered).1 = .error fault) ↔
      ∃ p ∈ e.parts, (∃ b, p = .const b) ∨ (∃ es, p = .join .xor es) ∨ ∃ c, p = .join c []) ∧
    ∀ fault after, e.toGateTree registered = (.error fault, after) → ∃ before p rest,
      e.parts = before ++ p :: rest ∧ (∀ q ∈ before, q.fault? = none) ∧ p.fault? = some fault ∧
      after = registered ++ ((before.filterMap var?).filter (· ∉ registered)).eraseDups := by
  have hiff : ¬ e.Supported ↔
      ∃ p ∈ e.parts, (∃ b, p = .const b) ∨ (∃ es, p = .join .xor es) ∨ ∃ c, p = .join c [] := by
    simp only [Supported, not_forall, not_and_or, not_not, exists_prop]
  have hfails : ∀ {fault}, (e.toGateTree registered).1 = .error fault → ¬ e.Supported := by
    intro fault hfault h
    rw [toGateTree_of_supported h] at hfault
    cases hfault
  rw [← hiff]
  refine ⟨⟨fun h => ?_, fun h => ?_⟩, fun fault after hfault => ?_⟩
  · obtain ⟨fault, hfault⟩ := h
    exact hfails hfault
  · obtain ⟨fault, after, hfault⟩ := toGateTree_of_not_supported h registered
    exact ⟨fault, by rw [hfault]⟩
  · obtain ⟨before, fault', ⟨p, rest, hparts, hbefore, hp⟩, hrun⟩ := refused_ofExpr (hfails (by rw [hfault]))
    cases (hrun registered).symm.trans hfault
    exact ⟨before, p, rest, hparts, hbefore, hp, foldl_register_eq _ _⟩

/-- An expression with two faulty parts. -/
def nested : Expr :=
  .join .and [.var ⟨"P", by decide⟩, .not (.join .or [.var ⟨"Q", by decide⟩, .const true, .var ⟨"R", by decide⟩]),
    .join .xor []]

/-- The constant comes first; `R` is not met, and `Q` was registered before. -/
theorem refused_for_first_fault_of_nested :
    nested.toGateTree [⟨"Q", by decide⟩] =
      (.error (.unsupportedExpr .const "1"), [⟨"Q", by decide⟩, ⟨"P", by decide⟩]) ∧
    ∃ before p rest, nested.parts = before ++ p :: rest ∧ (∀ q ∈ before, q.fault? = none) ∧
      p.fault? = some (.unsupportedExpr .const "1") := by
  have hrun : nested.toGateTree [⟨"Q", by decide⟩] =
      (.error (.unsupportedExpr .const "1"), [⟨"Q", by decide⟩, ⟨"P", by decide⟩]) := rfl
  obtain ⟨before, p, rest, hparts, hbefore, hp, -⟩ := (refused_for_first_fault nested _).2 _ _ hrun
  exact ⟨hrun, before, p, rest, hparts, hbefore, hp⟩

end Expr

end Schematic
