/-
One sweep is enough. After it the table depends on every variable that is left,
so a second sweep removes nothing.

A variable kept early is not tested again, although later steps merge the rows
that it was tested on. It still matters at the end: if it could go after the
variables that a later step removes, it could have gone before them
(`not_independentOf_forget`).
-/
import Schematic.Proofs.Sweep
import Schematic.Proofs.Exchange

namespace Schematic

theorem not_independentOf_iff {vars ordinal : Nat} {f : List Bool → Value} :
    ¬ IndependentOf vars ordinal f ↔ ∃ a c : List Bool, a.length = ordinal ∧
      a.length + c.length + 1 = vars ∧ (f (a ++ false :: c)).compatible (f (a ++ true :: c)) = false := by
  simp only [IndependentOf, not_forall, exists_prop, Bool.not_eq_true]

/-- **Forgetting a variable that does not matter frees none before it.** -/
theorem not_independentOf_forget {vars i k : Nat} {f : List Bool → Value} (hik : i < k) (hk : k ≤ vars)
    (hf : IndependentOf (vars + 1) k f) (hi : ¬ IndependentOf (vars + 1) i f) :
    ¬ IndependentOf vars i (forget k f) := by
  intro hfree
  have hafter : ordinalAfter k i = i := if_pos hik
  have hremovable : Removable (vars + 1) k i f := ⟨hf, hafter.symm ▸ hfree⟩
  exact hi ((removable_comm (by omega) (by omega) hik.ne).2 hremovable).1

namespace Reduction

/-! ## Histories -/

/-- What can be done with a reduction: a sweep, or taking it apart and making a
new one of its parts. -/
inductive Step where
  | sweep
  | rebuild
  deriving DecidableEq

/-- A step, with what a sweep answers. -/
def step (r : Reduction) : Step → Except Fault (Option Bool × Reduction)
  | .sweep => do
    let (reduced, r) ← r.sweep
    return (some reduced, r)
  | .rebuild => do
    return (none, ← ofColumn r.vars r.table.column)

/-- The answer and the reduction after each of several steps. -/
def history (r : Reduction) : List Step → Except Fault (List (Option Bool × Reduction))
  | [] => return []
  | s :: steps => do
    let (answer, r) ← r.step s
    return (answer, r) :: (← r.history steps)

/-- The answer of a step that changes nothing. -/
def Step.idle : Step → Option Bool
  | .sweep => some false
  | .rebuild => none

theorem step_sweep {r r' : Reduction} {reduced : Bool} (h : r.sweep = .ok (reduced, r')) :
    r.step .sweep = .ok (some reduced, r') := by
  rw [step, h]
  rfl

theorem step_rebuild {r : Reduction} (h : r.table.vars = r.vars.length) :
    r.step .rebuild = .ok (none, r) := by
  have hcopy : ofColumn r.vars r.table.column = .ok r :=
    ofColumn_eq_ok_iff.2 ⟨Table.ofColumn_column _, rfl, h⟩
  rw [step, hcopy]
  rfl

theorem history_cons {r r' : Reduction} {s : Step} {answer : Option Bool} {steps : List Step}
    {l : List (Option Bool × Reduction)} (hstep : r.step s = .ok (answer, r')) (hl : r'.history steps = .ok l) :
    r.history (s :: steps) = .ok ((answer, r') :: l) := by
  rw [history, hstep]
  simp only [bind, Except.bind, hl]
  rfl

/-- Rebuilding changes nothing for the steps that follow. -/
theorem history_rebuild {r : Reduction} (h : r.table.vars = r.vars.length) {steps : List Step}
    {l : List (Option Bool × Reduction)} (hl : r.history steps = .ok l) :
    ∀ {before : List Step}, (∀ s ∈ before, s = .rebuild) →
      r.history (before ++ steps) = .ok (before.map (fun _ => (none, r)) ++ l)
  | [], _ => hl
  | s :: before, hbefore => by
    obtain rfl := hbefore s (by simp)
    have hrest : ∀ s ∈ before, s = .rebuild := fun s hs => hbefore s (by simp [hs])
    exact history_cons (step_rebuild h) (history_rebuild h hl hrest)

/-- A reduction that a sweep leaves alone is left alone by every step. -/
theorem history_idle {r : Reduction} (h : r.table.vars = r.vars.length) (hsweep : r.sweep = .ok (false, r)) :
    ∀ steps : List Step, r.history steps = .ok (steps.map fun s => (s.idle, r))
  | [] => rfl
  | s :: steps => by
    have hstep : r.step s = .ok (s.idle, r) := by
      cases s with
      | sweep => exact step_sweep hsweep
      | rebuild => exact step_rebuild h
    exact history_cons hstep (history_idle h hsweep steps)

/-! ## The fixed point -/

theorem sweepFrom_of_dependent {table : Table} {reduced : Bool} {f : List Bool → Value} :
    ∀ {rest kept : List Variable}, table.column.Tabulates (kept.length + rest.length) f →
      (∀ i < kept.length + rest.length, ¬ IndependentOf (kept.length + rest.length) i f) →
      sweepFrom kept table reduced rest = .ok (reduced, ⟨kept ++ rest, table⟩)
  | [], kept, _, _ => by
    rw [List.append_nil]
    rfl
  | v :: rest, kept, htab, hdep => by
    have hlen : (kept ++ [v]).length + rest.length = kept.length + (v :: rest).length := by
      simp only [List.length_append, List.length_cons, List.length_nil]
      omega
    rw [sweepFrom_keep htab (hdep kept.length (by simp)),
      sweepFrom_of_dependent (hlen ▸ htab) (hlen ▸ hdep), List.append_assoc, List.singleton_append]

theorem exists_dependent {vars : List Variable} {table : Table} {f : List Bool → Value}
    (h : table.column.Tabulates vars.length f) :
    ∃ reduced r g, sweep ⟨vars, table⟩ = .ok (reduced, r) ∧ r.table.column.Tabulates r.vars.length g ∧
      ∀ i < r.vars.length, ¬ IndependentOf r.vars.length i g := by
  obtain ⟨reduced, r, g, hr, htab, hdep⟩ :=
    sweepFrom_eq_ok (P := fun kept f _ rest =>
        ∀ i < kept.length, ¬ IndependentOf (kept.length + rest.length) i f)
      (fun hP hf i hi => not_independentOf_forget hi (by omega) hf (hP i hi))
      (fun {kept f reduced v rest} hP hf i hi => by
        rw [List.length_append, List.length_singleton] at hi ⊢
        rw [show kept.length + 1 + rest.length = kept.length + rest.length + 1 by omega]
        rcases Nat.lt_succ_iff_lt_or_eq.1 hi with hi | rfl
        · exact hP i hi
        · exact hf)
      vars [] table false (by simpa using h) (by simp)
  exact ⟨reduced, r, g, hr, htab, hdep⟩

/-- **One sweep reaches a fixed point.** The table it leaves depends on every
variable left, and whatever history of sweeps and rebuildings goes on from
there, no sweep removes anything and no step changes anything. -/
theorem sweep_reaches_fixed_point {vars : List Variable} {c : Column} {start : Reduction}
    (h : ofColumn vars c = .ok start) :
    ∃ reduced r, start.sweep = .ok (reduced, r) ∧ r.table.vars = r.vars.length ∧
      (∀ ordinal < r.vars.length, r.table.isIndependent ordinal = .ok false) ∧
      ∀ before after, (∀ s ∈ before, s = .rebuild) →
        start.history (before ++ .sweep :: after) =
          .ok (before.map (fun _ => (none, start)) ++ (some reduced, r) :: after.map fun s => (s.idle, r)) := by
  obtain ⟨-, rfl, hvars⟩ := ofColumn_eq_ok_iff.1 h
  obtain ⟨reduced, r, g, hr, htab, hdep⟩ := exists_dependent (hvars ▸ start.table.tabulates)
  have hcount := Table.vars_eq htab
  have hidle : r.sweep = .ok (false, r) := sweepFrom_of_dependent (by simpa using htab) (by simpa using hdep)
  refine ⟨reduced, r, hr, hcount, fun i hi => ?_, fun before after hbefore => ?_⟩
  · obtain ⟨m, hm⟩ := Nat.exists_eq_add_of_lt hi
    rw [hm] at htab hdep
    obtain ⟨b, hb, hiff⟩ := htab.isIndependent_eq_ok
    obtain rfl : b = false := by simpa [← hiff] using hdep i (by omega)
    exact hb
  · have hafter := history_cons (step_sweep hr) (history_idle hcount hidle after)
    exact history_rebuild hvars hafter hbefore

/-- Two variables, the entries 0, x, 1, x: the first is kept, and removing the
second merges the very rows it was tested on. -/
theorem sweep_reaches_fixed_point_of_two :
    ∃ start, ofColumn [⟨"A", by decide⟩, ⟨"B", by decide⟩]
        (.ofArray #[.zero, .dontCare, .one, .dontCare]) = .ok start ∧
      ∃ reduced r, start.sweep = .ok (reduced, r) ∧ r.table.vars = r.vars.length ∧
        (∀ ordinal < r.vars.length, r.table.isIndependent ordinal = .ok false) ∧
        ∀ before after, (∀ s ∈ before, s = .rebuild) →
          start.history (before ++ .sweep :: after) =
            .ok (before.map (fun _ => (none, start)) ++ (some reduced, r) :: after.map fun s => (s.idle, r)) := by
  have h : ofColumn [⟨"A", by decide⟩, ⟨"B", by decide⟩] (.ofArray #[.zero, .dontCare, .one, .dontCare]) =
      .ok ⟨[⟨"A", by decide⟩, ⟨"B", by decide⟩], ⟨#[.zero, .dontCare, .one, .dontCare], ⟨2, rfl⟩⟩⟩ := by
    rfl
  exact ⟨_, h, sweep_reaches_fixed_point h⟩

end Reduction

end Schematic
