/-
The sweep on functions of the assignment. The table of a sweep under way
tabulates a function of the variables kept and those still to visit, and a step
either forgets the variable it visits, when the function is independent of it,
or keeps it. No step can fail.

`sweepFrom_eq_ok` is the induction that all statements about sweeps go through:
what holds at the start and is preserved by both kinds of step holds at the end.
-/
import Schematic.Reduction
import Schematic.Proofs.Removal

namespace Schematic.Reduction

variable {vars : List Variable} {c : Column} {f : List Bool → Value}

theorem ofColumn_eq_ok (h : c.Tabulates vars.length f) :
    ∃ t, ofColumn vars c = .ok ⟨vars, t⟩ ∧ t.column.Tabulates vars.length f := by
  have hread : (List.range c.size).mapM c.get =
      .ok ((List.range (2 ^ vars.length)).map fun row => f (digits vars.length row)) := by
    rw [h.size_eq]
    exact mapM_eq_ok_map fun row hrow => h.get_digits (List.mem_range.1 hrow)
  obtain ⟨t, ht, htab⟩ := Column.Tabulates.ofArray vars.length f
  refine ⟨t, ofColumn_eq_ok_iff.2 ⟨?_, rfl, Table.vars_eq htab⟩, htab⟩
  rw [Table.ofColumn, hread]
  exact ht

/-- A step that forgets the variable visited. -/
theorem sweepFrom_drop {kept rest : List Variable} (v : Variable) {table : Table} (reduced : Bool)
    (h : table.column.Tabulates (kept.length + rest.length + 1) f)
    (hf : IndependentOf (kept.length + rest.length + 1) kept.length f) :
    ∃ t, sweepFrom kept table reduced (v :: rest) = sweepFrom kept t true rest ∧
      t.column.Tabulates (kept.length + rest.length) (forget kept.length f) := by
  have htest := (h.isIndependent_eq_true_iff (k := kept.length) (by omega)).2 hf
  obtain ⟨t, ht, htab⟩ := h.remove_eq_ok
  refine ⟨t, ?_, htab⟩
  rw [sweepFrom, Table.isIndependent, htest, Table.remove, ht]
  rfl

/-- A step that keeps the variable visited. -/
theorem sweepFrom_keep {kept rest : List Variable} {v : Variable} {table : Table} {reduced : Bool}
    (h : table.column.Tabulates (kept.length + rest.length + 1) f)
    (hf : ¬ IndependentOf (kept.length + rest.length + 1) kept.length f) :
    sweepFrom kept table reduced (v :: rest) = sweepFrom (kept ++ [v]) table reduced rest := by
  have htest := (h.isIndependent_eq_false_iff (k := kept.length) (by omega)).2 hf
  rw [sweepFrom, Table.isIndependent, htest]
  rfl

/-- **What the steps of a sweep preserve holds at its end**, and it ends. -/
theorem sweepFrom_eq_ok {P : List Variable → (List Bool → Value) → Bool → List Variable → Prop}
    (drop : ∀ {kept f reduced v rest}, P kept f reduced (v :: rest) →
      IndependentOf (kept.length + rest.length + 1) kept.length f →
      P kept (forget kept.length f) true rest)
    (keep : ∀ {kept f reduced v rest}, P kept f reduced (v :: rest) →
      ¬ IndependentOf (kept.length + rest.length + 1) kept.length f → P (kept ++ [v]) f reduced rest) :
    ∀ (rest kept table reduced) {f}, table.column.Tabulates (kept.length + rest.length) f →
      P kept f reduced rest →
      ∃ reduced' r g, sweepFrom kept table reduced rest = .ok (reduced', r) ∧
        r.table.column.Tabulates r.vars.length g ∧ P r.vars g reduced' []
  | [], kept, table, reduced, f, h, hP => ⟨reduced, ⟨kept, table⟩, f, rfl, h, hP⟩
  | v :: rest, kept, table, reduced, f, h, hP => by
    by_cases hf : IndependentOf (kept.length + rest.length + 1) kept.length f
    · obtain ⟨t, hstep, htab⟩ := sweepFrom_drop v reduced h hf
      rw [hstep]
      exact sweepFrom_eq_ok (P := P) drop keep rest kept t true htab (drop hP hf)
    · rw [sweepFrom_keep h hf]
      refine sweepFrom_eq_ok (P := P) drop keep rest (kept ++ [v]) table reduced ?_ (keep hP hf)
      rwa [List.length_append, List.length_singleton, Nat.add_assoc, Nat.add_comm 1]

end Schematic.Reduction
