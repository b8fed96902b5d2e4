/-
Testing and removing one variable, told by assignments. The rows of a column
stand for the assignments of its variables, and the two rows of a pair are those
of one assignment of the other variables, with each digit inserted in turn
(`insertDigit`). The test asks whether all pairs agree, and the removal leaves
each of them merged, in the row of the assignment without the digit.

Inserting a digit moves the ordinals behind it up by one, so removing the
variable moves them down again (`RowExtends`). Neither operation reads a row that
the column does not have: columns that differ in nothing else are told apart by
neither of them.
-/
import Schematic.Proofs.Removal

namespace Schematic

/-! ## Where the digits of a row go -/

/-- The ordinal that a variable has while the one with ordinal `v` is there: the
variables before that one keep theirs, and those behind it move down by one when
it goes. -/
def ordinalBefore (v i : Nat) : Nat :=
  if i < v then i else i + 1

/-- The row, of `n` variables, that gives `b` to the variable with ordinal `v`
and to each of the others what `row` gives it without that variable. -/
structure RowExtends (n v : Nat) (b : Bool) (row extended : Nat) : Prop where
  lt : extended < 2 ^ n
  digit_self : digit n extended v = b
  digit_other : ∀ i < n - 1, digit n extended (ordinalBefore v i) = digit (n - 1) row i

section

variable {v i : Nat} {b : Bool} {bits : List Bool}

theorem digit_rowOf_of_getElem? (h : bits[i]? = some b) : digit bits.length (rowOf bits) i = b := by
  obtain ⟨hi, rfl⟩ := List.getElem?_eq_some_iff.1 h
  exact digit_rowOf hi

theorem getElem?_insertDigit_self (hv : v ≤ bits.length) (b : Bool) : (insertDigit v b bits)[v]? = some b := by
  rw [insertDigit, List.getElem?_append_right (by simp), List.length_take, Nat.min_eq_left hv, Nat.sub_self]
  rfl

theorem getElem?_insertDigit_other (hv : v ≤ bits.length) (b : Bool) (i : Nat) :
    (insertDigit v b bits)[ordinalBefore v i]? = bits[i]? := by
  have hlen : (bits.take v).length = v := by rw [List.length_take, Nat.min_eq_left hv]
  unfold insertDigit ordinalBefore
  by_cases h : i < v
  · rw [if_pos h, List.getElem?_append_left (by omega), List.getElem?_take_of_lt h]
  · rw [if_neg h, List.getElem?_append_right (by omega), hlen, show i + 1 - v = i - v + 1 by omega,
      List.getElem?_cons_succ, List.getElem?_drop, show v + (i - v) = i by omega]

theorem rowExtends_insertDigit {n : Nat} (hv : v < n) (hbits : bits.length = n - 1) (b : Bool) :
    RowExtends n v b (rowOf bits) (rowOf (insertDigit v b bits)) := by
  have hv : v ≤ bits.length := by omega
  have hlen : (insertDigit v b bits).length = n := by rw [length_insertDigit]; omega
  have hself := digit_rowOf_of_getElem? (getElem?_insertDigit_self hv b)
  have hlt := rowOf_lt (insertDigit v b bits)
  rw [hlen] at hself hlt
  refine ⟨hlt, hself, fun i hi => ?_⟩
  rw [← hbits] at hi ⊢
  have hother := (getElem?_insertDigit_other hv b i).trans (List.getElem?_eq_getElem hi)
  rw [digit_rowOf hi, ← digit_rowOf_of_getElem? hother, hlen]

end

namespace Column

variable {c c' : Column} {f : List Bool → Value} {vars k : Nat}

/-! ## Columns with the same rows -/

theorem Tabulates.isIndependent_congr (h : c.Tabulates vars f) (h' : c'.Tabulates vars f) (hk : k < vars) :
    c'.isIndependent k = c.isIndependent k := by
  obtain ⟨m, rfl⟩ := Nat.exists_eq_add_of_lt hk
  obtain ⟨b, hb, hiff⟩ := h.isIndependent_eq_ok
  obtain ⟨b', hb', hiff'⟩ := h'.isIndependent_eq_ok
  rw [hb, hb', Bool.eq_iff_iff.2 (hiff'.trans hiff.symm)]

theorem Tabulates.remove_congr (h : c.Tabulates vars f) (h' : c'.Tabulates vars f) (hk : k < vars) :
    c'.remove k = c.remove k := by
  obtain ⟨m, rfl⟩ := Nat.exists_eq_add_of_lt hk
  obtain ⟨t, ht, htab⟩ := h.remove_eq_ok
  obtain ⟨t', ht', htab'⟩ := h'.remove_eq_ok
  rw [ht, ht', Table.eq_of_tabulates htab' htab fun _ _ => rfl]

/-! ## Assignments -/

/-- What comes of testing and of removing the variable with ordinal `v`, one of
`n`, when the rows have these entries. -/
structure Elimination (n v : Nat) (entry : Nat → Value) (independent : Bool) (t : Table) : Prop where
  /-- The test asks of every assignment of the other variables whether its two
  rows agree. -/
  independent_iff : independent = true ↔ ∀ a : List Bool, a.length = n - 1 →
    (entry (rowOf (insertDigit v false a))).compatible (entry (rowOf (insertDigit v true a))) = true
  /-- Half of the rows are left. -/
  size_eq : t.size = 2 ^ (n - 1)
  /-- In the row of an assignment stand its two rows merged, whether or not they
  agree. -/
  get_eq : ∀ a : List Bool, a.length = n - 1 → t.get (rowOf a) =
    .ok ((entry (rowOf (insertDigit v false a))).merge (entry (rowOf (insertDigit v true a))))

/-- **Testing and removing a variable, on assignments.** Both succeed for every
variable of a column, whether or not the column depends on it, the variables
behind it move down by one ordinal, and no row is read but those of the
column. -/
theorem removal_on_assignments {entry : Nat → Value} {n v : Nat} (hsize : c.size = 2 ^ n)
    (hget : ∀ row < 2 ^ n, c.get row = .ok (entry row)) (hv : v < n) :
    ∃ independent t, c.isIndependent v = .ok independent ∧ c.remove v = .ok t ∧
      Elimination n v entry independent t ∧
      (∀ (a : List Bool) (b : Bool), a.length = n - 1 → RowExtends n v b (rowOf a) (rowOf (insertDigit v b a))) ∧
      ∀ c' : Column, c'.size = c.size → (∀ row < c.size, c'.get row = c.get row) →
        c'.isIndependent v = c.isIndependent v ∧ c'.remove v = c.remove v := by
  have hc := Tabulates.of_get hsize hget
  have hothers : ∀ c' : Column, c'.size = c.size → (∀ row < c.size, c'.get row = c.get row) →
      c'.isIndependent v = c.isIndependent v ∧ c'.remove v = c.remove v := by
    intro c' hsize' hget'
    rw [hsize] at hget'
    have hc' := Tabulates.of_get (hsize'.trans hsize) fun row hrow => (hget' row hrow).trans (hget row hrow)
    exact ⟨hc.isIndependent_congr hc' hv, hc.remove_congr hc' hv⟩
  have hrows : ∀ (a : List Bool) (b : Bool), a.length = n - 1 →
      RowExtends n v b (rowOf a) (rowOf (insertDigit v b a)) := fun a b ha => rowExtends_insertDigit hv ha b
  obtain ⟨m, rfl⟩ := Nat.exists_eq_add_of_lt hv
  obtain ⟨independent, htest, hiff⟩ := hc.isIndependent_eq_ok
  obtain ⟨t, hremove, ht⟩ := hc.remove_eq_ok
  refine ⟨independent, t, htest, hremove, ⟨?_, ?_, fun a ha => ?_⟩, hrows, hothers⟩
  · rw [hiff, independentOf_iff, Nat.add_sub_cancel]
  · exact ht.size_eq
  · exact ht.get_eq a ha

/-- Three variables, the entries x, 0, 1, 0 and 1, x, 0, 1, which depend on all
of them. -/
def mixedRows : Column :=
  .ofArray #[.dontCare, .zero, .one, .zero, .one, .dontCare, .zero, .one]

/-- The variable in the middle is tested and removed. -/
theorem removal_on_assignments_of_mixedRows :
    mixedRows.size = 2 ^ 3 ∧ ∃ independent t, mixedRows.isIndependent 1 = .ok independent ∧
      mixedRows.remove 1 = .ok t ∧
      Elimination 3 1
        (fun row => #[.dontCare, .zero, .one, .zero, .one, .dontCare, .zero, .one].getD row .dontCare) independent t ∧
      (∀ (a : List Bool) (b : Bool), a.length = 2 → RowExtends 3 1 b (rowOf a) (rowOf (insertDigit 1 b a))) ∧
      ∀ c' : Column, c'.size = mixedRows.size → (∀ row < mixedRows.size, c'.get row = mixedRows.get row) →
        c'.isIndependent 1 = mixedRows.isIndependent 1 ∧ c'.remove 1 = mixedRows.remove 1 :=
  ⟨rfl, removal_on_assignments rfl (by decide) (by decide)⟩

end Column

end Schematic
