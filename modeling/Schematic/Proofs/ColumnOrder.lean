/-
The order of the columns. When every entry matters, the sweep keeps the
variables that the table depends on, however they are ordered
(`greedy_eq_essentials`), so a table with its columns in another order loses the
same variables and keeps the same entries.

An entry that does not matter breaks this: of the two variables of the entries
0, x, x, 1 the one that comes first is dropped.
-/
import Schematic.Proofs.Greedy
import Mathlib.Data.Fin.VecNotation
import Mathlib.Data.List.NodupEquivFin
import Mathlib.Logic.Equiv.Fin.Rotate

namespace Schematic

/-! ## Columns in another order -/

/-- The row of the assignment that gives variable `e j` the digit which `row`
gives variable `j`. -/
def reorderRow {m n : Nat} (e : Fin m ≃ Fin n) (row : Nat) : Nat :=
  rowOf (List.ofFn fun i : Fin n => digit m row (e.symm i))

/-- The column that has variable `e j` of `c` in the place of variable `j`. -/
def Column.reorder {m n : Nat} (c : Column) (e : Fin m ≃ Fin n) : Column where
  size := c.size
  get row := c.get (reorderRow e row)

variable {m n : Nat}

theorem reorderRow_lt (e : Fin m ≃ Fin n) (row : Nat) : reorderRow e row < 2 ^ n := by
  have hlt := rowOf_lt (List.ofFn fun i : Fin n => digit m row (e.symm i))
  rwa [List.length_ofFn] at hlt

theorem digit_reorderRow_symm (e : Fin m ≃ Fin n) (row : Nat) (i : Fin n) :
    digit n (reorderRow e row) i = digit m row (e.symm i) := by
  rw [reorderRow, digit_rowOf_eq_getD (by simp) i.isLt]
  simp

theorem digit_reorderRow (e : Fin m ≃ Fin n) (row : Nat) (j : Fin m) :
    digit n (reorderRow e row) (e j) = digit m row j := by
  rw [digit_reorderRow_symm, Equiv.symm_apply_apply]

theorem row_ext {row row' : Nat} (hrow : row < 2 ^ n) (hrow' : row' < 2 ^ n)
    (h : ∀ i : Fin n, digit n row i = digit n row' i) : row = row' := by
  have hdigits : digits n row = digits n row' :=
    List.map_congr_left fun k hk => h ⟨k, List.mem_range.1 hk⟩
  rw [← rowOf_digits hrow, hdigits, rowOf_digits hrow']

theorem exists_reorderRow (e : Fin m ≃ Fin n) {row : Nat} (hrow : row < 2 ^ n) :
    ∃ row' < 2 ^ m, reorderRow e row' = row := by
  refine ⟨reorderRow e.symm row, reorderRow_lt _ _, row_ext (reorderRow_lt _ _) hrow fun i => ?_⟩
  rw [digit_reorderRow_symm, digit_reorderRow_symm, Equiv.symm_symm, Equiv.apply_symm_apply]

/-! ## Variables that a table depends on -/

/-- Some two rows that differ in one variable alone have different entries. -/
def Essential (vars : Nat) (entry : Nat → Value) (i : Nat) : Prop :=
  ∃ row < 2 ^ vars, ∃ row' < 2 ^ vars,
    (∀ k < vars, k ≠ i → digit vars row k = digit vars row' k) ∧ entry row ≠ entry row'

instance {vars : Nat} {entry : Nat → Value} {i : Nat} : Decidable (Essential vars entry i) :=
  inferInstanceAs (Decidable (∃ row, row < _ ∧ ∃ row', row' < _ ∧ _))

variable {entry : Nat → Value}

theorem essential_reorder (p : Equiv.Perm (Fin n)) (j : Fin n) :
    Essential n (fun row => entry (reorderRow p row)) j ↔ Essential n entry (p j) := by
  have hother : ∀ i : Fin n, (i : Nat) ≠ p j ↔ (p.symm i : Nat) ≠ j := fun i => by
    rw [Fin.val_ne_iff, Fin.val_ne_iff, Ne, Ne, Equiv.symm_apply_eq]
  refine ⟨?_, ?_⟩
  · intro h
    obtain ⟨row, hrow, row', hrow', hagree, hne⟩ := h
    refine ⟨_, reorderRow_lt p row, _, reorderRow_lt p row', fun k hk hkj => ?_, hne⟩
    have hdigit := hagree _ (p.symm ⟨k, hk⟩).isLt ((hother ⟨k, hk⟩).1 hkj)
    rwa [← digit_reorderRow_symm, ← digit_reorderRow_symm] at hdigit
  · intro h
    obtain ⟨row, hrow, row', hrow', hagree, hne⟩ := h
    obtain ⟨source, hsource, rfl⟩ := exists_reorderRow p hrow
    obtain ⟨source', hsource', rfl⟩ := exists_reorderRow p hrow'
    refine ⟨source, hsource, source', hsource', fun k hk hkj => ?_, hne⟩
    have hdigit := hagree (p ⟨k, hk⟩) (p ⟨k, hk⟩).isLt ((hother (p ⟨k, hk⟩)).2 (by simpa using hkj))
    rwa [digit_reorderRow, digit_reorderRow] at hdigit

/-! ## Tables in which every entry matters -/

theorem essential_iff_clash (hcare : ∀ row < 2 ^ n, entry row ≠ .dontCare) {i : Nat} :
    Essential n entry i ↔ Clash n entry (· ≠ i) := by
  refine ⟨?_, ?_⟩
  · intro h
    obtain ⟨row, hrow, row', hrow', hagree, hne⟩ := h
    have hcare₁ := hcare row hrow
    have hcare₂ := hcare row' hrow'
    -- Of the pairs of values two are left: both matter, and they differ.
    cases h₁ : entry row <;> cases h₂ : entry row' <;>
      simp only [h₁, h₂, ne_eq, not_true] at hne hcare₁ hcare₂
    · exact ⟨row, hrow, row', hrow', hagree, h₁, h₂⟩
    · exact ⟨row', hrow', row, hrow, fun k hk hki => (hagree k hk hki).symm, h₂, h₁⟩
  · intro h
    obtain ⟨row, hrow, row', hrow', hagree, hzero, hone⟩ := h
    exact ⟨row, hrow, row', hrow', hagree, by simp [hzero, hone]⟩

/-- **When every entry matters, an ordinal is kept because of rows that differ in
it alone.** Of the rows that made the greedy choice keep it, the false one with
the digit of the other has the entry of the other. -/
theorem clash_greedy_iff (hcare : ∀ row < 2 ^ n, entry row ≠ .dontCare) {v : Nat} :
    Clash n entry (fun k => k ∈ greedy n entry v ∨ v < k) ↔ Clash n entry (· ≠ v) := by
  refine ⟨?_, ?_⟩
  · intro h
    obtain ⟨x, x', hx, hx', hagree, hzero, hone⟩ := clash_iff.1 h
    have hlen : (x.set v (x'.getD v false)).length = n := by rw [List.length_set, hx]
    have hset : ∀ k < n, (x.set v (x'.getD v false)).getD k false =
        if v = k then x'.getD v false else x.getD k false := by
      intro k hk
      rw [List.getD_eq_getElem?_getD, List.getElem?_set]
      split
      · simp [hx, hk, ‹v = k›]
      · rw [List.getD_eq_getElem?_getD]
    have hone' : entry (rowOf (x.set v (x'.getD v false))) = .one := by
      cases hentry : entry (rowOf (x.set v (x'.getD v false))) with
      | one => rfl
      | dontCare => exact absurd hentry (hcare _ (hlen ▸ rowOf_lt _))
      | zero =>
        refine absurd (clash_iff.2 ⟨_, x', hlen, hx', fun k hk hsame => ?_, hentry, hone⟩)
          (not_clash_greedy_or_le n entry v)
        rw [hset k hk]
        split
        · rw [‹v = k›]
        · exact hagree k hk (hsame.imp_right (lt_of_le_of_ne · ‹_›))
    refine clash_iff.2 ⟨x, _, hx, hlen, fun k hk hne => ?_, hzero, hone'⟩
    rw [hset k hk, if_neg (Ne.symm hne)]
  · intro h
    refine h.mono fun k _ hk => ?_
    rcases hk with hk | hk
    · exact (lt_of_mem_greedy hk).ne
    · exact hk.ne'

theorem greedy_eq_filter (hcare : ∀ row < 2 ^ n, entry row ≠ .dontCare) (v : Nat) :
    greedy n entry v = (List.range v).filter (Essential n entry) := by
  induction v with
  | zero => rfl
  | succ v ih =>
    rw [List.range_succ, List.filter_append, ← ih]
    by_cases h : Essential n entry v
    · rw [greedy_keep ((clash_greedy_iff hcare).2 ((essential_iff_clash hcare).1 h))]
      simp [h]
    · rw [greedy_drop (mt (clash_greedy_iff hcare).1 (mt (essential_iff_clash hcare).2 h))]
      simp [h]

/-- The ordinals at which a table depends on its variable, in order. -/
def essentials (n : Nat) (entry : Nat → Value) : List (Fin n) :=
  (List.finRange n).filter fun i : Fin n => Essential n entry i

/-- **When every entry matters, the variables kept are the essential ones.** -/
theorem greedy_eq_essentials (hcare : ∀ row < 2 ^ n, entry row ≠ .dontCare) :
    greedy n entry n = (essentials n entry).map Fin.val := by
  rw [greedy_eq_filter hcare, essentials, ← List.map_coe_finRange_eq_range, List.filter_map]
  rfl

/-! ## Rows of some of the variables -/

/-- The row that has, in order, the digits of a row at some of its variables. -/
def spell (l : List (Fin n)) (row : Nat) : Nat :=
  rowOf (l.map fun i : Fin n => digit n row i)

theorem digit_spell {l : List (Fin n)} (row : Nat) (i : Fin l.length) :
    digit l.length (spell l row) i = digit n row l[i] := by
  rw [spell, digit_rowOf_eq_getD (by simp) i.isLt]
  simp

theorem exists_spell_eq {l : List (Fin n)} (hl : l.Nodup) {q : Nat} (hq : q < 2 ^ l.length) :
    ∃ row < 2 ^ n, spell l row = q := by
  have hlt := rowOf_lt (List.ofFn fun i : Fin n => digit l.length q (l.idxOf i))
  rw [List.length_ofFn] at hlt
  refine ⟨_, hlt, row_ext (by simpa [spell] using rowOf_lt (l.map _)) hq fun i => ?_⟩
  rw [digit_spell, digit_rowOf_eq_getD (by simp) l[i].isLt]
  simp [hl.idxOf_getElem]

/-- Variables in another order correspond one to one, place by place. -/
theorem exists_places {l l' : List (Fin n)} (hl : l.Nodup) (hl' : l'.Nodup) {p : Equiv.Perm (Fin n)}
    (h : ∀ j, j ∈ l' ↔ p j ∈ l) : ∃ e : Fin l'.length ≃ Fin l.length, ∀ j, l[e j] = p l'[j] := by
  refine ⟨(hl'.getEquiv l').trans ((p.subtypeEquiv h).trans (hl.getEquiv l).symm), fun j => ?_⟩
  simp

theorem reorderRow_spell {l l' : List (Fin n)} {p : Equiv.Perm (Fin n)}
    {e : Fin l'.length ≃ Fin l.length} (he : ∀ j, l[e j] = p l'[j]) (row : Nat) :
    reorderRow e (spell l' row) = spell l (reorderRow p row) := by
  refine row_ext (reorderRow_lt _ _) (by simpa [spell] using rowOf_lt (l.map _)) fun i => ?_
  obtain ⟨j, rfl⟩ := e.surjective i
  rw [digit_reorderRow, digit_spell, digit_spell, he, digit_reorderRow]

/-! ## The sweep of a table in which every entry matters -/

namespace Reduction

theorem exists_sweep_essentials {v : Fin n → Variable} {c : Column} (hsize : c.size = 2 ^ n)
    (hget : ∀ row < 2 ^ n, c.get row = .ok (entry row)) (hcare : ∀ row < 2 ^ n, entry row ≠ .dontCare) :
    ∃ start reduced r, ofColumn (List.ofFn v) c = .ok start ∧ start.sweep = .ok (reduced, r) ∧
      r.vars = (essentials n entry).map v ∧ r.table.size = 2 ^ (essentials n entry).length ∧
      ∀ row < 2 ^ n, r.table.get (spell (essentials n entry) row) = .ok (entry row) := by
  have hlen : (List.ofFn v).length = n := List.length_ofFn
  have hsize' : c.size = 2 ^ (List.ofFn v).length := by rw [hlen, hsize]
  obtain ⟨start, reduced, r, g, hstart, hr, htab, hgreedily⟩ :=
    exists_sweep_greedy hsize' (hlen.symm ▸ hget)
  rw [hlen, greedy_eq_essentials hcare] at htab
  rw [Greedily, hlen, greedy_eq_essentials hcare] at hgreedily
  refine ⟨start, reduced, r, hstart, hr, ?_, ?_, fun row hrow => ?_⟩
  · have hkept := hgreedily.kept_eq
    rw [List.map_map] at hkept
    refine (List.map_injective_iff.2 (Option.some_injective _)) (hkept.trans ?_)
    rw [List.map_map]
    exact List.map_congr_left fun i _ => by simp
  · rw [← List.length_map Fin.val]
    exact htab.size_eq
  · have hbits : spell (essentials n entry) row =
        rowOf (((essentials n entry).map Fin.val).map (digit n row)) := by rw [spell, List.map_map]; rfl
    have hdigits := digits_rowOf (((essentials n entry).map Fin.val).map (digit n row))
    rw [List.length_map] at hdigits
    have hentry := (hgreedily.digits_iff (hcare row hrow)).2
      ⟨row, ⟨hlen.symm ▸ hrow, by rw [hdigits, hlen]⟩, rfl⟩
    rw [hdigits] at hentry
    rw [hbits, ← hentry]
    exact htab.get_eq _ (List.length_map _)

/-- **The order of the columns does not matter when every entry does.** Of a
table and of the same with its columns in another order, a sweep keeps the
essential variables, each in its own order, and what it leaves of the second is
what it leaves of the first with its columns in the corresponding order. -/
theorem sweep_reorder {n : Nat} (v : Fin n → Variable) (p : Equiv.Perm (Fin n)) {c : Column}
    {entry : Nat → Value} (hsize : c.size = 2 ^ n) (hget : ∀ row < 2 ^ n, c.get row = .ok (entry row))
    (hcare : ∀ row < 2 ^ n, entry row ≠ .dontCare) :
    ∃ start reduced r start' reduced' r', ∃ kept kept' : List (Fin n),
      ofColumn (List.ofFn v) c = .ok start ∧ start.sweep = .ok (reduced, r) ∧
      ofColumn (List.ofFn (v ∘ p)) (c.reorder p) = .ok start' ∧ start'.sweep = .ok (reduced', r') ∧
      kept = (List.finRange n).filter (fun i : Fin n => Essential n entry i) ∧ r.vars = kept.map v ∧
      kept' = (List.finRange n).filter (fun j => Essential n entry (p j)) ∧ r'.vars = kept'.map (v ∘ p) ∧
      ∃ e : Fin kept'.length ≃ Fin kept.length, (∀ j, kept[e j] = p kept'[j]) ∧
        Table.ofColumn (r.table.column.reorder e) = .ok r'.table := by
  obtain ⟨start, reduced, r, hstart, hr, hvars, hrows, hentries⟩ :=
    exists_sweep_essentials (v := v) hsize hget hcare
  obtain ⟨start', reduced', r', hstart', hr', hvars', hrows', hentries'⟩ :=
    exists_sweep_essentials (v := v ∘ p) (c := c.reorder p) hsize (fun row _ => hget _ (reorderRow_lt p row))
      fun row _ => hcare _ (reorderRow_lt p row)
  have hkept' : essentials n (fun row => entry (reorderRow p row)) =
      (List.finRange n).filter fun j => Essential n entry (p j) :=
    List.filter_congr fun j _ => by simp [essential_reorder p j]
  rw [hkept'] at hvars' hrows' hentries'
  have hplaces : ∀ j, j ∈ (List.finRange n).filter (fun j => Essential n entry (p j)) ↔
      p j ∈ essentials n entry := fun j => by simp [essentials]
  obtain ⟨e, he⟩ :=
    exists_places ((List.nodup_finRange n).filter _) ((List.nodup_finRange n).filter _) hplaces
  refine ⟨start, reduced, r, start', reduced', r', _, _, hstart, hr, hstart', hr', rfl, hvars, rfl, hvars', e, he,
    Table.ofColumn_eq_ok ?_ fun q hq => ?_⟩
  · change r.table.size = r'.table.size
    rw [hrows, hrows', Fin.equiv_iff_eq.1 ⟨e⟩, essentials]
  · rw [hrows'] at hq
    obtain ⟨row, hrow, rfl⟩ := exists_spell_eq ((List.nodup_finRange n).filter _) hq
    change r.table.get (reorderRow e _) = r'.table.get _
    rw [reorderRow_spell he]
    exact (hentries _ (reorderRow_lt p row)).trans (hentries' row hrow).symm

/-- The conjunction of A and C, over A, B, C and over B, C, A. -/
theorem sweep_reorder_of_three :
    ∃ start reduced r start' reduced' r',
      ofColumn [⟨"A", by decide⟩, ⟨"B", by decide⟩, ⟨"C", by decide⟩]
        ⟨8, fun row => .ok (.ofBool (row.testBit 2 && row.testBit 0))⟩ = .ok start ∧
      start.sweep = .ok (reduced, r) ∧
      ofColumn [⟨"B", by decide⟩, ⟨"C", by decide⟩, ⟨"A", by decide⟩]
        (Column.reorder ⟨8, fun row => .ok (.ofBool (row.testBit 2 && row.testBit 0))⟩ (finRotate 3)) =
          .ok start' ∧
      start'.sweep = .ok (reduced', r') ∧
      r.vars = [⟨"A", by decide⟩, ⟨"C", by decide⟩] ∧ r'.vars = [⟨"C", by decide⟩, ⟨"A", by decide⟩] ∧
      ∃ e : Fin 2 ≃ Fin 2, (∀ j, ([0, 2] : List (Fin 3))[e j] = finRotate 3 ([1, 2] : List (Fin 3))[j]) ∧
        Table.ofColumn (r.table.column.reorder e) = .ok r'.table := by
  obtain ⟨start, reduced, r, start', reduced', r', kept, kept', hstart, hr, hstart', hr', hkept, hvars, hkept',
      hvars', e, he, htable⟩ :=
    sweep_reorder ![⟨"A", by decide⟩, ⟨"B", by decide⟩, ⟨"C", by decide⟩] (finRotate 3)
      (c := ⟨8, fun row => .ok (.ofBool (row.testBit 2 && row.testBit 0))⟩) rfl (fun _ _ => rfl) (by decide)
  obtain rfl : kept = [0, 2] := hkept.trans (by decide)
  obtain rfl : kept' = [1, 2] := hkept'.trans (by decide)
  exact ⟨start, reduced, r, start', reduced', r', hstart, hr, hstart', hr', hvars, hvars', e, he, htable⟩

/-- In either order of the two columns of 0, x, x, 1 the first one goes. -/
example :
    greedy 2 (fun row => #[.zero, .dontCare, .dontCare, .one].getD row .dontCare) 2 = [1] ∧
      greedy 2 (fun row => #[.zero, .dontCare, .dontCare, .one].getD
        (reorderRow (Equiv.swap (0 : Fin 2) 1) row) .dontCare) 2 = [1] := by
  decide

end Reduction

end Schematic
