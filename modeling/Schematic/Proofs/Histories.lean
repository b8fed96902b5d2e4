/-
A reduction never fails once it is made. A table with a row for each assignment
of its variables, and none but variables it was given, is a reduct
(`Reduct`); a reduction that is made is one (`reduct_of_ofColumn`), every step
leaves one (`Reduct.step`), so a history of steps runs to its end and meets
nothing else (`Reduct.history`). That a reduction is made at all takes as many
rows as the variables have assignments, and that each can be read.
-/
import Schematic.Proofs.FixedPoint

namespace Schematic

/-! ## Copies of a column -/

theorem length_of_mapM_eq_ok {α β : Type} {f : α → Except Fault β} : ∀ {l : List α} {l' : List β},
    l.mapM f = .ok l' → l'.length = l.length
  | [], _, h => by
    cases h
    rfl
  | a :: l, l', h => by
    rw [List.mapM_cons] at h
    simp only [bind_eq_ok_iff] at h
    obtain ⟨b, -, bs, hbs, ⟨⟩⟩ := h
    rw [List.length_cons, List.length_cons, length_of_mapM_eq_ok hbs]

theorem Column.exists_get_ofArray {values : Array Value} {row : Nat} (h : row < values.size) :
    ∃ v, (ofArray values).get row = .ok v :=
  ⟨values[row], by simp [ofArray, h]⟩

namespace Table

theorem size_eq_two_pow_iff {t : Table} {n : Nat} : t.size = 2 ^ n ↔ t.vars = n := by
  rw [size_eq, Nat.one_shiftLeft, Nat.pow_right_inj (by decide)]

theorem size_of_ofColumn {c : Column} {t : Table} (h : ofColumn c = .ok t) : t.size = c.size := by
  simp only [ofColumn, bind_eq_ok_iff] at h
  obtain ⟨values, hvalues, h⟩ := h
  unfold ofArray at h
  split at h
  · cases h
    rw [size, List.size_toArray, length_of_mapM_eq_ok hvalues, List.length_range]
  · cases h

end Table

namespace Reduction

/-- What is left of `vars`, with a row for each assignment. -/
structure Reduct (vars : List Variable) (r : Reduction) : Prop where
  rows : r.table.size = 2 ^ r.vars.length
  sublist : r.vars.Sublist vars

variable {vars : List Variable} {c : Column} {r : Reduction}

theorem reduct_of_ofColumn (h : ofColumn vars c = .ok r) : Reduct vars r := by
  obtain ⟨-, rfl, hvars⟩ := ofColumn_eq_ok_iff.1 h
  exact ⟨Table.size_eq_two_pow_iff.2 hvars, List.Sublist.refl _⟩

/-- **A reduction is made** from a column that can be read if and only if there
is a row for each assignment. -/
theorem exists_ofColumn_iff (hget : ∀ row < c.size, ∃ v, c.get row = .ok v) :
    (∃ r, ofColumn vars c = .ok r) ↔ c.size = 2 ^ vars.length := by
  constructor
  · intro hex
    obtain ⟨r, h⟩ := hex
    obtain ⟨hcopy, rfl, hvars⟩ := ofColumn_eq_ok_iff.1 h
    rw [← Table.size_of_ofColumn hcopy, Table.size_eq_two_pow_iff.2 hvars]
  · intro hsize
    have : Nonempty Value := ⟨.dontCare⟩
    choose! entry hentry using hget
    obtain ⟨t, ht, -⟩ := ofColumn_eq_ok (Column.Tabulates.of_get hsize (hsize ▸ hentry))
    exact ⟨_, ht⟩

/-! ## Steps -/

theorem Reduct.sweep (h : Reduct vars r) : ∃ reduced r', r.sweep = .ok (reduced, r') ∧ Reduct vars r' := by
  have hvars : r.table.vars = r.vars.length := Table.size_eq_two_pow_iff.1 h.rows
  obtain ⟨reduced, r', g, hr', htab, hsub⟩ :=
    sweepFrom_eq_ok (P := fun kept _ _ rest => (kept ++ rest).Sublist vars)
      (fun {kept f reduced v rest} hP _ => ((List.sublist_cons_self v rest).append_left kept).trans hP)
      (fun hP _ => by rwa [List.append_assoc, List.singleton_append])
      r.vars [] r.table false (by simpa [hvars] using r.table.tabulates) (by simpa using h.sublist)
  exact ⟨reduced, r', hr', htab.size_eq, by simpa using hsub⟩

/-- **A step succeeds** and leaves a reduct. -/
theorem Reduct.step (h : Reduct vars r) (s : Step) : ∃ answer r', r.step s = .ok (answer, r') ∧ Reduct vars r' := by
  cases s with
  | sweep =>
    obtain ⟨reduced, r', hr', h'⟩ := h.sweep
    exact ⟨some reduced, r', step_sweep hr', h'⟩
  | rebuild => exact ⟨none, r, step_rebuild (Table.size_eq_two_pow_iff.1 h.rows), h⟩

/-- **A history runs to its end**, through reducts. -/
theorem Reduct.history : ∀ {r : Reduction}, Reduct vars r → ∀ steps : List Step,
    ∃ l, r.history steps = .ok l ∧ l.length = steps.length ∧ ∀ p ∈ l, Reduct vars p.2
  | r, _, [] => ⟨[], rfl, rfl, List.forall_mem_nil _⟩
  | r, h, s :: steps => by
    obtain ⟨answer, r', hstep, h'⟩ := h.step s
    obtain ⟨l, hl, hlen, hall⟩ := h'.history steps
    refine ⟨(answer, r') :: l, history_cons hstep hl, ?_, List.forall_mem_cons.2 ⟨h', hall⟩⟩
    rw [List.length_cons, List.length_cons, hlen]

/-- **Making a reduction is all that can fail.** From a column whose rows can
all be read, a reduction is made if and only if there are as many rows as the
variables have assignments. Every history of sweeps and rebuildings runs from
there, and after each step the table has a row for each assignment of the
variables left, which are some of those given, in the same order. -/
theorem histories_run (hget : ∀ row < c.size, ∃ v, c.get row = .ok v) :
    ((∃ start, ofColumn vars c = .ok start) ↔ c.size = 2 ^ vars.length) ∧
    ∀ start, ofColumn vars c = .ok start →
      start.vars = vars ∧ start.table.size = 2 ^ vars.length ∧
      ∀ steps, ∃ l, start.history steps = .ok l ∧ l.length = steps.length ∧
        ∀ p ∈ l, p.2.table.size = 2 ^ p.2.vars.length ∧ p.2.vars.Sublist vars := by
  refine ⟨exists_ofColumn_iff hget, fun start h => ?_⟩
  have hstart := reduct_of_ofColumn h
  obtain ⟨-, hvars, -⟩ := ofColumn_eq_ok_iff.1 h
  refine ⟨hvars, hvars ▸ hstart.rows, fun steps => ?_⟩
  obtain ⟨l, hl, hlen, hall⟩ := hstart.history steps
  exact ⟨l, hl, hlen, fun p hp => ⟨(hall p hp).rows, (hall p hp).sublist⟩⟩

/-- Two variables that vanish one after the other, down to a table of one row;
and no reduction of no rows. -/
theorem histories_run_of_two :
    (∃ start, ofColumn [⟨"A", by decide⟩, ⟨"B", by decide⟩] (.ofArray #[.dontCare, .one, .one, .dontCare]) =
        .ok start ∧ start.table.size = 4 ∧
      ∀ steps, ∃ l, start.history steps = .ok l ∧ l.length = steps.length ∧
        ∀ p ∈ l, p.2.table.size = 2 ^ p.2.vars.length ∧
          p.2.vars.Sublist [⟨"A", by decide⟩, ⟨"B", by decide⟩]) ∧
    ¬ ∃ start, ofColumn [⟨"A", by decide⟩] (.ofArray #[]) = .ok start := by
  obtain ⟨hmade, hrun⟩ := @histories_run [⟨"A", by decide⟩, ⟨"B", by decide⟩]
    (.ofArray #[.dontCare, .one, .one, .dontCare]) fun row hrow => Column.exists_get_ofArray hrow
  obtain ⟨hempty, -⟩ := @histories_run [⟨"A", by decide⟩] (.ofArray #[]) fun row hrow => Column.exists_get_ofArray hrow
  obtain ⟨start, hstart⟩ := hmade.2 rfl
  obtain ⟨-, hsize, hsteps⟩ := hrun start hstart
  exact ⟨⟨start, hstart, hsize, hsteps⟩, fun hex => absurd (hempty.1 hex) (by decide)⟩

end Reduction

end Schematic
