/-
What testing and removing a variable means for the entries of a table, which
are a function of the assignment.

`Column.Tabulates` says which function that is. On columns that tabulate one,
no test and no removal fails (`isIndependent_eq_ok`, `remove_eq_ok`): the test
tells whether the two entries of every pair agree, and the removal leaves the
function that merges them.
-/
import Schematic.Proofs.Row

namespace Schematic

theorem allM_map_eq_ok {α β : Type} {f : β → Except Fault Bool} {r : α → β} {g : α → Bool} :
    ∀ {l : List α}, (∀ a ∈ l, f (r a) = .ok (g a)) → (l.map r).allM f = .ok (l.all g)
  | [], _ => rfl
  | a :: l, h => by
    rw [List.map_cons, List.allM_cons, h a (by simp), List.all_cons]
    cases g a with
    | false => rfl
    | true => exact allM_map_eq_ok fun b hb => h b (by simp [hb])

/-! ## Entries as a function of the assignment -/

/-- Whether the entries of the assignments of `vars` variables that differ in
one variable alone all agree. -/
def IndependentOf (vars ordinal : Nat) (f : List Bool → Value) : Prop :=
  ∀ a c : List Bool, a.length = ordinal → a.length + c.length + 1 = vars →
    (f (a ++ false :: c)).compatible (f (a ++ true :: c)) = true

/-- The entries without a variable: those that differ in it alone are merged. -/
def forget (ordinal : Nat) (f : List Bool → Value) (bits : List Bool) : Value :=
  (f (insertDigit ordinal false bits)).merge (f (insertDigit ordinal true bits))

theorem forget_append {ordinal : Nat} {f : List Bool → Value} {a : List Bool} (h : a.length = ordinal)
    (c : List Bool) : forget ordinal f (a ++ c) = (f (a ++ false :: c)).merge (f (a ++ true :: c)) := by
  rw [forget, insertDigit_append h, insertDigit_append h]

theorem independentOf_iff {k m : Nat} {f : List Bool → Value} :
    IndependentOf (k + m + 1) k f ↔ ∀ bits : List Bool, bits.length = k + m →
      (f (insertDigit k false bits)).compatible (f (insertDigit k true bits)) = true := by
  refine ⟨?_, ?_⟩
  · intro h bits hbits
    exact h (bits.take k) (bits.drop k) (by simp; omega) (by simp; omega)
  · intro h a c ha hac
    have := h (a ++ c) (by simp; omega)
    rwa [insertDigit_append ha, insertDigit_append ha] at this

/-! ## Columns -/

namespace Column

/-- A column has a row for each assignment of `vars` variables, and in it the
entry that `f` gives the assignment. -/
structure Tabulates (c : Column) (vars : Nat) (f : List Bool → Value) : Prop where
  size_eq : c.size = 2 ^ vars
  get_eq : ∀ bits : List Bool, bits.length = vars → c.get (rowOf bits) = .ok (f bits)

variable {c : Column} {vars : Nat} {f : List Bool → Value}

theorem Tabulates.of_get {entry : Nat → Value} (hsize : c.size = 2 ^ vars)
    (hget : ∀ row < 2 ^ vars, c.get row = .ok (entry row)) :
    c.Tabulates vars fun bits => entry (rowOf bits) := by
  refine ⟨hsize, fun bits hbits => hget _ ?_⟩
  subst hbits
  exact rowOf_lt bits

theorem Tabulates.get_digits (h : c.Tabulates vars f) {row : Nat} (hrow : row < 2 ^ vars) :
    c.get row = .ok (f (digits vars row)) := by
  have := h.get_eq (digits vars row) (by simp)
  rwa [rowOf_digits hrow] at this

theorem Tabulates.span_eq (h : c.Tabulates vars f) : c.span = .ok vars := by
  rw [span, h.size_eq, if_pos ⟨vars, rfl⟩, Column.vars, h.size_eq, ← Nat.one_shiftLeft,
    trailingZeros_one_shiftLeft]

theorem Tabulates.bit_eq {k m : Nat} (h : c.Tabulates (k + m + 1) f) : c.bit k = .ok (2 ^ m) := by
  simp only [bit, h.span_eq, bind, Except.bind, if_pos (show k < k + m + 1 by omega)]
  rw [show k + m + 1 - k - 1 = m by omega, Nat.one_shiftLeft]
  rfl

theorem Tabulates.ofArray (vars : Nat) (f : List Bool → Value) :
    ∃ t, Table.ofArray ((List.range (2 ^ vars)).map fun row => f (digits vars row)).toArray = .ok t ∧
      t.column.Tabulates vars f := by
  have hpow : ((List.range (2 ^ vars)).map fun row => f (digits vars row)).toArray.size.isPowerOfTwo :=
    ⟨vars, by simp⟩
  refine ⟨⟨_, hpow⟩, dif_pos hpow, by simp [Table.column, Column.ofArray], fun bits hbits => ?_⟩
  subst hbits
  refine Table.get_eq_ok_iff.2 ?_
  simp only [List.getElem?_toArray, List.getElem?_map, List.getElem?_range (rowOf_lt bits),
    Option.map_some, digits_rowOf]

/-- The two rows of a pair. -/
theorem Tabulates.get_pair {k m : Nat} (h : c.Tabulates (k + m + 1) f) (row : Nat) :
    c.get (rowOf (insertDigit k false (digits (k + m) row))) =
        .ok (f (insertDigit k false (digits (k + m) row))) ∧
      c.get (rowOf (insertDigit k false (digits (k + m) row)) ||| 2 ^ m) =
        .ok (f (insertDigit k true (digits (k + m) row))) := by
  rw [rowOf_insertDigit_or (length_digits _ _)]
  exact ⟨h.get_eq _ (by simp [length_insertDigit]), h.get_eq _ (by simp [length_insertDigit])⟩

/-- **The test of a variable** answers whether the entries of every pair agree. -/
theorem Tabulates.isIndependent_eq_ok {k m : Nat} (h : c.Tabulates (k + m + 1) f) :
    ∃ b, c.isIndependent k = .ok b ∧ (b = true ↔ IndependentOf (k + m + 1) k f) := by
  refine ⟨(List.range (2 ^ (k + m))).all fun row =>
    (f (insertDigit k false (digits (k + m) row))).compatible
      (f (insertDigit k true (digits (k + m) row))), ?_, ?_⟩
  · simp only [isIndependent, h.bit_eq, h.size_eq, lowRows_eq, bind, Except.bind]
    refine allM_map_eq_ok fun row _ => ?_
    obtain ⟨hlow, hhigh⟩ := h.get_pair row
    rw [hlow, hhigh]
    rfl
  · simp only [independentOf_iff, List.all_eq_true, List.mem_range]
    refine ⟨?_, ?_⟩
    · intro hall bits hbits
      have := hall (rowOf bits) (hbits ▸ rowOf_lt bits)
      rwa [← hbits, digits_rowOf] at this
    · intro hall row _
      exact hall _ (by simp)

/-- **The removal of a variable** leaves the merged entries, whether or not the
variable matters. -/
theorem Tabulates.remove_eq_ok {k m : Nat} (h : c.Tabulates (k + m + 1) f) :
    ∃ t, c.remove k = .ok t ∧ t.column.Tabulates (k + m) (forget k f) := by
  have hrows : (lowRows (2 ^ (k + m + 1)) (2 ^ m)).mapM
      (fun row => do return (← c.get row).merge (← c.get (row ||| 2 ^ m))) =
      .ok ((List.range (2 ^ (k + m))).map fun row => forget k f (digits (k + m) row)) := by
    rw [lowRows_eq, List.mapM_map]
    refine mapM_eq_ok_map fun row _ => ?_
    obtain ⟨hlow, hhigh⟩ := h.get_pair row
    simp only [Function.comp_apply, hlow, hhigh]
    rfl
  obtain ⟨t, ht, htab⟩ := Tabulates.ofArray (k + m) (forget k f)
  refine ⟨t, ?_, htab⟩
  rw [remove, h.bit_eq, h.size_eq]
  change (lowRows (2 ^ (k + m + 1)) (2 ^ m)).mapM _ >>= (fun values => Table.ofArray values.toArray) = _
  rw [hrows]
  exact ht

theorem Tabulates.isIndependent_eq_true_iff {k : Nat} (h : c.Tabulates vars f) (hk : k < vars) :
    c.isIndependent k = .ok true ↔ IndependentOf vars k f := by
  obtain ⟨m, rfl⟩ := Nat.exists_eq_add_of_lt hk
  obtain ⟨b, hb, hiff⟩ := h.isIndependent_eq_ok
  rw [hb, Except.ok.injEq, hiff]

theorem Tabulates.isIndependent_eq_false_iff {k : Nat} (h : c.Tabulates vars f) (hk : k < vars) :
    c.isIndependent k = .ok false ↔ ¬ IndependentOf vars k f := by
  obtain ⟨m, rfl⟩ := Nat.exists_eq_add_of_lt hk
  obtain ⟨b, hb, hiff⟩ := h.isIndependent_eq_ok
  rw [hb, Except.ok.injEq, ← hiff, Bool.not_eq_true]

theorem Tabulates.exists_remove {k : Nat} (h : c.Tabulates (vars + 1) f) (hk : k ≤ vars) :
    ∃ t, c.remove k = .ok t ∧ t.column.Tabulates vars (forget k f) := by
  obtain ⟨m, rfl⟩ := Nat.exists_eq_add_of_le hk
  exact h.remove_eq_ok

end Column

namespace Table

theorem tabulates (t : Table) :
    t.column.Tabulates t.vars fun bits => t.values.getD (rowOf bits) .dontCare := by
  have hsize : t.values.size = 2 ^ t.vars := t.size_eq.trans (Nat.one_shiftLeft _)
  refine ⟨hsize, fun bits hbits => get_eq_ok_iff.2 ?_⟩
  have hlt : rowOf bits < t.values.size := by
    have := rowOf_lt bits
    rwa [hbits, ← hsize] at this
  rw [Array.getD_eq_getD_getElem?, Array.getElem?_eq_getElem hlt, Option.getD_some]

theorem vars_eq {t : Table} {vars : Nat} {f : List Bool → Value} (h : t.column.Tabulates vars f) :
    t.vars = vars := by
  have := h.span_eq
  rw [span_column] at this
  exact Except.ok.inj this

theorem eq_of_tabulates {t t' : Table} {vars : Nat} {f g : List Bool → Value} (h : t.column.Tabulates vars f)
    (h' : t'.column.Tabulates vars g) (hfg : ∀ bits : List Bool, bits.length = vars → f bits = g bits) : t = t' := by
  have hsize : t.size = 2 ^ vars := h.size_eq
  have hcopy : ofColumn t'.column = .ok t := by
    refine ofColumn_eq_ok (h'.size_eq.trans h.size_eq.symm) fun row hrow => ?_
    rw [hsize] at hrow
    rw [h'.get_digits hrow, ← hfg _ (length_digits _ _), ← h.get_digits hrow]
    rfl
  rw [ofColumn_column] at hcopy
  exact (Except.ok.inj hcopy).symm

end Table

end Schematic
