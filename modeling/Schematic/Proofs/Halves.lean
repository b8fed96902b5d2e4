/-
The rows of a table in two halves. A digit of the row number is clear in one
half of the rows and set in the other, and `lowRows` lists the first half: in
ascending order, every row once (`mem_lowRows_iff`). Setting the digit leads from
there to each row of the other half (`exists_low_of_lt`).

`lowRows` counts in numbers that have room for any digit. On words of 64 digits
the same rows are made by masks, a complement and a shift, which drops whatever
leaves the word. For a table whose rows a word can count nothing is lost: the
words are those numbers (`map_toNat_lowWords`).
-/
import Schematic.Proofs.Row
import Mathlib.Data.Set.Image
import Mathlib.Data.Nat.Bitwise
import Mathlib.Data.List.Basic

namespace Schematic

variable {n k row : Nat}

/-! ## In order -/

/-- Making room for a digit adds once more what stands at it and above. -/
theorem openBit_eq_add (bit i : Nat) : openBit bit i = i + i / bit * bit := by
  have hsplit := Nat.mod_add_div i bit
  rw [Nat.mul_comm bit] at hsplit
  calc openBit bit i = i % bit + i / bit * bit + i / bit * bit := by rw [openBit]; ring
    _ = i + i / bit * bit := by rw [hsplit]

theorem openBit_lt_openBit (bit : Nat) {i j : Nat} (hij : i < j) : openBit bit i < openBit bit j := by
  rw [openBit_eq_add, openBit_eq_add]
  have hdiv : i / bit * bit ≤ j / bit * bit := Nat.mul_le_mul_right bit (Nat.div_le_div_right hij.le)
  omega

theorem pairwise_lowRows (size bit : Nat) : (lowRows size bit).Pairwise (· < ·) :=
  List.pairwise_lt_range.map _ fun _ _ hij => openBit_lt_openBit bit hij

/-! ## Every row in one half -/

theorem testBit_rowOf (a c : List Bool) (b : Bool) : (rowOf (a ++ b :: c)).testBit c.length = b := by
  have hlen : (a ++ b :: c).length = a.length + 1 + c.length := by
    rw [List.length_append, List.length_cons]
    omega
  have hdigit : digit (a ++ b :: c).length (rowOf (a ++ b :: c)) a.length = b := by
    rw [digit_rowOf (by omega)]
    simp
  unfold digit at hdigit
  rwa [hlen, show a.length + 1 + c.length - a.length - 1 = c.length by omega] at hdigit

theorem exists_rowOf_eq (hk : k < n) (hrow : row < 2 ^ n) :
    ∃ a b c, a.length + 1 + c.length = n ∧ c.length = k ∧ row = rowOf (a ++ b :: c) := by
  obtain ⟨a, b, c, ha, hc, hbits⟩ :=
    exists_eq_append_cons (x := digits n row) (m := n - k - 1) (n := k) (by rw [length_digits]; omega)
  exact ⟨a, b, c, by omega, hc, by rw [← hbits, rowOf_digits hrow]⟩

theorem rowOf_lt_of_length {a c : List Bool} (b : Bool) (h : a.length + 1 + c.length = n) :
    rowOf (a ++ b :: c) < 2 ^ n := by
  have hlen : (a ++ b :: c).length = n := by
    rw [List.length_append, List.length_cons]
    omega
  exact hlen ▸ rowOf_lt (a ++ b :: c)

theorem rowOf_mem_lowRows {a c : List Bool} (h : a.length + 1 + c.length = n) :
    rowOf (a ++ false :: c) ∈ lowRows (2 ^ n) (2 ^ c.length) := by
  have hhalf : 2 ^ n / 2 = 2 ^ (a ++ c).length := by
    rw [← h, List.length_append, show a.length + 1 + c.length = a.length + c.length + 1 by omega, pow_succ]
    omega
  rw [lowRows, hhalf]
  exact List.mem_map.2 ⟨rowOf (a ++ c), List.mem_range.2 (rowOf_lt _), openBit_rowOf a c⟩

theorem exists_of_mem_lowRows (hk : k < n) (h : row ∈ lowRows (2 ^ n) (2 ^ k)) :
    ∃ a c, a.length + 1 + c.length = n ∧ c.length = k ∧ row = rowOf (a ++ false :: c) := by
  obtain ⟨m, rfl⟩ : ∃ m, n = m + k + 1 := ⟨n - k - 1, by omega⟩
  rw [lowRows_eq] at h
  obtain ⟨i, -, rfl⟩ := List.mem_map.1 h
  obtain ⟨a, c, ha, hc, hbits⟩ := exists_eq_append (length_digits (m + k) i)
  exact ⟨a, c, by omega, hc, by rw [hbits, insertDigit_append ha]⟩

theorem and_two_pow_eq_zero_iff : row &&& 2 ^ k = 0 ↔ row.testBit k = false := by
  rw [Nat.and_two_pow]
  cases row.testBit k <;> simp

/-- **The rows listed are those with the digit clear.** -/
theorem mem_lowRows_iff (hk : k < n) :
    row ∈ lowRows (2 ^ n) (2 ^ k) ↔ row < 2 ^ n ∧ row &&& 2 ^ k = 0 := by
  rw [and_two_pow_eq_zero_iff]
  constructor
  · intro h
    obtain ⟨a, c, hlen, rfl, rfl⟩ := exists_of_mem_lowRows hk h
    exact ⟨rowOf_lt_of_length false hlen, testBit_rowOf a c false⟩
  · rintro ⟨hrow, hclear⟩
    obtain ⟨a, b, c, hlen, rfl, rfl⟩ := exists_rowOf_eq hk hrow
    rw [testBit_rowOf] at hclear
    subst hclear
    exact rowOf_mem_lowRows hlen

theorem or_lt_of_mem_lowRows (hk : k < n) (h : row ∈ lowRows (2 ^ n) (2 ^ k)) : row ||| 2 ^ k < 2 ^ n := by
  obtain ⟨a, c, hlen, rfl, rfl⟩ := exists_of_mem_lowRows hk h
  rw [rowOf_or]
  exact rowOf_lt_of_length true hlen

theorem or_not_mem_lowRows (hk : k < n) (row : Nat) : row ||| 2 ^ k ∉ lowRows (2 ^ n) (2 ^ k) := by
  rw [mem_lowRows_iff hk, and_two_pow_eq_zero_iff, Nat.testBit_or, Nat.testBit_two_pow_self, Bool.or_true]
  exact fun h => Bool.noConfusion h.2

/-- **Every row is listed, or comes of one that is by setting the digit.** -/
theorem exists_low_of_lt (hk : k < n) (hrow : row < 2 ^ n) :
    row ∈ lowRows (2 ^ n) (2 ^ k) ∨ ∃ low ∈ lowRows (2 ^ n) (2 ^ k), low ||| 2 ^ k = row := by
  obtain ⟨a, b, c, hlen, rfl, rfl⟩ := exists_rowOf_eq hk hrow
  cases b with
  | false => exact .inl (rowOf_mem_lowRows hlen)
  | true => exact .inr ⟨_, rowOf_mem_lowRows hlen, rowOf_or a c⟩

/-! ## On words -/

/-- `openBit` on words: one mask takes the digits below `bit`, and its complement
the others, which are shifted up by one place. -/
def openWord (bit i : UInt64) : UInt64 :=
  let mask := bit - 1
  (i &&& mask) ||| (i &&& ~~~mask) <<< 1

/-- `lowRows` on words. -/
def lowWords (size bit : UInt64) : List UInt64 :=
  (List.range (size / 2).toNat).map fun i => openWord bit (.ofNat i)

section

variable {bit i : UInt64}

theorem toNat_mask (hbit : bit.toNat = 2 ^ k) : (bit - 1).toNat = 2 ^ k - 1 := by
  have hone : (1 : UInt64) ≤ bit := by
    rw [UInt64.le_iff_toNat_le, hbit]
    exact Nat.one_le_two_pow
  rw [UInt64.toNat_sub_of_le _ _ hone, hbit]
  rfl

theorem toNat_and_mask (hbit : bit.toNat = 2 ^ k) : (i &&& (bit - 1)).toNat = i.toNat % 2 ^ k := by
  rw [UInt64.toNat_and, toNat_mask hbit, Nat.and_two_pow_sub_one_eq_mod]

/-- The complement of the mask keeps the digits from `bit` on. -/
theorem toNat_and_not_mask (hbit : bit.toNat = 2 ^ k) :
    (i &&& ~~~(bit - 1)).toNat = i.toNat / 2 ^ k * 2 ^ k := by
  have hmask : 2 ^ k - 1 < 2 ^ 64 := by
    rw [← toNat_mask hbit]
    exact UInt64.toNat_lt _
  rw [UInt64.toNat_and, UInt64.toNat_not, toNat_mask hbit,
    show UInt64.size - 1 - (2 ^ k - 1) = 2 ^ 64 - (2 ^ k - 1 + 1) by rw [UInt64.size]; omega]
  apply Nat.eq_of_testBit_eq
  intro j
  rw [Nat.testBit_and, Nat.testBit_two_pow_sub_succ hmask, Nat.testBit_two_pow_sub_one, Nat.testBit_mul_two_pow,
    Nat.testBit_div_two_pow]
  by_cases hj : k ≤ j
  · rw [Nat.sub_add_cancel hj]
    by_cases hword : j < 64
    · simp [hj, hword]
    · -- past the end of the word the complement has no digits, but neither has `i`
      have hlt : i.toNat < 2 ^ j :=
        (UInt64.toNat_lt i).trans_le (Nat.pow_le_pow_right (by decide) (by omega))
      simp [Nat.testBit_lt_two_pow hlt]
  · simp [hj, Nat.lt_of_not_le hj]

/-- **Making room on a word makes room in its number**, if the highest digit of the
word is free. -/
theorem toNat_openWord (hbit : bit.toNat = 2 ^ k) (hi : i.toNat < 2 ^ 63) :
    (openWord bit i).toNat = openBit (2 ^ k) i.toNat := by
  have hle : i.toNat / 2 ^ k * 2 ^ k ≤ i.toNat := Nat.div_mul_le_self _ _
  have hshift : ((i &&& ~~~(bit - 1)) <<< 1).toNat = 2 ^ k * (2 * (i.toNat / 2 ^ k)) := by
    rw [UInt64.toNat_shiftLeft, toNat_and_not_mask hbit]
    change (i.toNat / 2 ^ k * 2 ^ k) <<< 1 % 2 ^ 64 = _
    -- the highest digit of `i` is clear, so the shift drops none that is set
    rw [Nat.shiftLeft_eq, pow_one, Nat.mod_eq_of_lt (by omega)]
    ring
  have hlow : i.toNat % 2 ^ k < 2 ^ k := Nat.mod_lt _ (Nat.two_pow_pos k)
  rw [openWord, UInt64.toNat_or, toNat_and_mask hbit, hshift, Nat.or_comm,
    ← Nat.two_pow_add_eq_or_of_lt hlow, openBit]
  ring

end

section

variable {size bit row : UInt64}

/-- **The words listed are the rows listed.** -/
theorem map_toNat_lowWords (hsize : size.toNat = 2 ^ n) (hbit : bit.toNat = 2 ^ k) :
    (lowWords size bit).map UInt64.toNat = lowRows (2 ^ n) (2 ^ k) := by
  have hhalf : (size / 2).toNat = 2 ^ n / 2 := by
    rw [UInt64.toNat_div, hsize]
    rfl
  rw [lowWords, lowRows, List.map_map, hhalf]
  apply List.map_congr_left
  intro i hi
  have hlt : i < 2 ^ 63 := by
    have hword := UInt64.toNat_lt size
    rw [List.mem_range] at hi
    omega
  have hi : (UInt64.ofNat i).toNat = i := UInt64.toNat_ofNat_of_lt' (hlt.trans (by decide))
  rw [Function.comp_apply, toNat_openWord hbit (by rwa [hi]), hi]

theorem pairwise_lowWords (hsize : size.toNat = 2 ^ n) (hbit : bit.toNat = 2 ^ k) :
    (lowWords size bit).Pairwise (· < ·) := by
  have hrows := pairwise_lowRows (2 ^ n) (2 ^ k)
  rwa [← map_toNat_lowWords hsize hbit, List.pairwise_map] at hrows

theorem toNat_mem_lowRows_iff (hsize : size.toNat = 2 ^ n) (hbit : bit.toNat = 2 ^ k) :
    row.toNat ∈ lowRows (2 ^ n) (2 ^ k) ↔ row ∈ lowWords size bit := by
  rw [← map_toNat_lowWords hsize hbit]
  exact List.mem_map_of_injective fun _ _ => UInt64.toNat_inj.1

theorem mem_lowWords_iff (hsize : size.toNat = 2 ^ n) (hbit : bit.toNat = 2 ^ k) (hk : k < n) :
    row ∈ lowWords size bit ↔ row < size ∧ row &&& bit = 0 := by
  rw [← toNat_mem_lowRows_iff hsize hbit, mem_lowRows_iff hk, UInt64.lt_iff_toNat_lt, ← UInt64.toNat_inj,
    UInt64.toNat_and, hsize, hbit]
  rfl

theorem or_lt_of_mem_lowWords (hsize : size.toNat = 2 ^ n) (hbit : bit.toNat = 2 ^ k) (hk : k < n)
    (h : row ∈ lowWords size bit) : row ||| bit < size := by
  rw [UInt64.lt_iff_toNat_lt, UInt64.toNat_or, hsize, hbit]
  exact or_lt_of_mem_lowRows hk ((toNat_mem_lowRows_iff hsize hbit).2 h)

theorem or_not_mem_lowWords (hsize : size.toNat = 2 ^ n) (hbit : bit.toNat = 2 ^ k) (hk : k < n) (row : UInt64) :
    row ||| bit ∉ lowWords size bit := by
  rw [← toNat_mem_lowRows_iff hsize hbit, UInt64.toNat_or, hbit]
  exact or_not_mem_lowRows hk row.toNat

theorem exists_lowWord_of_lt (hsize : size.toNat = 2 ^ n) (hbit : bit.toNat = 2 ^ k) (hk : k < n)
    (hrow : row < size) : row ∈ lowWords size bit ∨ ∃ low ∈ lowWords size bit, low ||| bit = row := by
  rw [UInt64.lt_iff_toNat_lt, hsize] at hrow
  rcases exists_low_of_lt hk hrow with hlow | ⟨low, hlow, hrow⟩
  · exact .inl ((toNat_mem_lowRows_iff hsize hbit).1 hlow)
  · rw [← map_toNat_lowWords hsize hbit] at hlow
    obtain ⟨word, hword, rfl⟩ := List.mem_map.1 hlow
    exact .inr ⟨word, hword, UInt64.toNat_inj.1 (by rw [UInt64.toNat_or, hbit, hrow])⟩

end

/-- A list of those rows, of `size` many, in which the digit `bit` is clear. With
the digit set they are all the others. -/
structure Halves (size bit : UInt64) (rows : List UInt64) : Prop where
  /-- In this order no row comes twice. -/
  ascending : rows.Pairwise (· < ·)
  mem_iff : ∀ row, row ∈ rows ↔ row < size ∧ row &&& bit = 0
  or_lt : ∀ row ∈ rows, row ||| bit < size
  inter_eq : {row | row ∈ rows} ∩ (· ||| bit) '' {row | row ∈ rows} = ∅
  union_eq : {row | row ∈ rows} ∪ (· ||| bit) '' {row | row ∈ rows} = {row | row < size}

/-- **The rows with a digit clear, listed on words**, are half of all rows, and the
other half when the digit is set. They are the rows that are listed as numbers. -/
theorem halves_lowWords (hn : n ≤ 63) (hk : k < n) :
    Halves (.ofNat (2 ^ n)) (.ofNat (2 ^ k)) (lowWords (.ofNat (2 ^ n)) (.ofNat (2 ^ k))) ∧
      (lowWords (.ofNat (2 ^ n)) (.ofNat (2 ^ k))).map UInt64.toNat = lowRows (2 ^ n) (2 ^ k) := by
  have hword : ∀ j ≤ 63, (UInt64.ofNat (2 ^ j)).toNat = 2 ^ j := fun j hj =>
    UInt64.toNat_ofNat_of_lt' (Nat.pow_lt_pow_right (by decide) (show j < 64 by omega))
  have hsize := hword n hn
  have hbit := hword k (by omega)
  refine ⟨⟨pairwise_lowWords hsize hbit, fun row => mem_lowWords_iff hsize hbit hk,
    fun row => or_lt_of_mem_lowWords hsize hbit hk, ?_, ?_⟩, map_toNat_lowWords hsize hbit⟩
  · rw [Set.eq_empty_iff_forall_notMem]
    rintro _ ⟨hlow, low, -, rfl⟩
    exact or_not_mem_lowWords hsize hbit hk low hlow
  · ext row
    constructor
    · rintro (hlow | ⟨low, hlow, rfl⟩)
      · exact ((mem_lowWords_iff hsize hbit hk).1 hlow).1
      · exact or_lt_of_mem_lowWords hsize hbit hk hlow
    · exact fun hrow => exists_lowWord_of_lt hsize hbit hk hrow

/-- The largest table of which a word can count the rows, and its most significant
digit. -/
theorem halves_lowWords_of_widest :
    (63 ≤ 63 ∧ 62 < 63) ∧
      Halves (.ofNat (2 ^ 63)) (.ofNat (2 ^ 62)) (lowWords (.ofNat (2 ^ 63)) (.ofNat (2 ^ 62))) ∧
      (lowWords (.ofNat (2 ^ 63)) (.ofNat (2 ^ 62))).map UInt64.toNat = lowRows (2 ^ 63) (2 ^ 62) :=
  ⟨by decide, halves_lowWords (by decide) (by decide)⟩

/-- Of eight rows, those without the middle one of three digits. -/
example : lowWords 8 2 = [0, 1, 4, 5] := by decide

end Schematic
