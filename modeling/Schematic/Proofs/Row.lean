/-
Row numbers as assignments. The row of an assignment is the number whose
binary digits it lists, the first variable being the most significant, so an
assignment `a ++ b :: c` gives `b` to the variable with ordinal `a.length`.

`openBit_rowOf` and `rowOf_or` say what the arithmetic on row numbers does to
assignments: the first inserts a clear digit, the second sets it.
-/
import Schematic.Dependence
import Mathlib.Tactic.Ring

namespace Schematic

/-- The row of an assignment. -/
def rowOf : List Bool → Nat
  | [] => 0
  | b :: bits => b.toNat * 2 ^ bits.length + rowOf bits

/-- The digit of a row number that stands for the variable with the given
ordinal, one of `vars`. -/
def digit (vars row ordinal : Nat) : Bool :=
  row.testBit (vars - ordinal - 1)

/-- The assignment of a row. -/
def digits (vars row : Nat) : List Bool :=
  (List.range vars).map (digit vars row)

@[simp] theorem length_digits (vars row : Nat) : (digits vars row).length = vars := by
  simp [digits]

theorem rowOf_lt : ∀ bits : List Bool, rowOf bits < 2 ^ bits.length
  | [] => by simp [rowOf]
  | b :: bits => by
    have ih := rowOf_lt bits
    have hb : b.toNat ≤ 1 := b.toNat_le
    calc b.toNat * 2 ^ bits.length + rowOf bits
        < b.toNat * 2 ^ bits.length + 2 ^ bits.length := by omega
      _ ≤ 1 * 2 ^ bits.length + 2 ^ bits.length := by
        have := Nat.mul_le_mul_right (2 ^ bits.length) hb
        omega
      _ = 2 ^ (b :: bits).length := by rw [List.length_cons, pow_succ]; omega

theorem rowOf_append : ∀ a c : List Bool, rowOf (a ++ c) = rowOf a * 2 ^ c.length + rowOf c
  | [], c => by simp [rowOf]
  | b :: a, c => by
    simp only [List.cons_append, rowOf, rowOf_append a c, List.length_append, pow_add]
    ring

theorem exists_eq_append {x : List Bool} {m n : Nat} (h : x.length = m + n) :
    ∃ p c, p.length = m ∧ c.length = n ∧ x = p ++ c :=
  ⟨x.take m, x.drop m, by simp; omega, by simp; omega, (List.take_append_drop m x).symm⟩

theorem exists_eq_append_cons {x : List Bool} {m n : Nat} (h : x.length = m + 1 + n) :
    ∃ p b c, p.length = m ∧ c.length = n ∧ x = p ++ b :: c :=
  ⟨x.take m, x[m], x.drop (m + 1), by simp; omega, by simp; omega, by
    rw [List.getElem_cons_drop, List.take_append_drop]⟩

/-! ## Digits -/

theorem digit_rowOf {bits : List Bool} {k : Nat} (h : k < bits.length) :
    digit bits.length (rowOf bits) k = bits[k] := by
  unfold digit
  induction bits generalizing k with
  | nil => simp at h
  | cons b bits ih =>
    have hlt := rowOf_lt bits
    simp only [rowOf, List.length_cons, Nat.mul_comm b.toNat]
    cases k with
    | zero =>
      rw [show bits.length + 1 - 0 - 1 = bits.length by omega, Nat.testBit_two_pow_mul_add _ hlt]
      cases b <;> simp
    | succ k =>
      rw [show bits.length + 1 - (k + 1) - 1 = bits.length - k - 1 by omega,
        Nat.testBit_two_pow_mul_add _ hlt, if_pos (by simp at h; omega), List.getElem_cons_succ]
      exact ih (by simpa using h)

theorem digits_rowOf (bits : List Bool) : digits bits.length (rowOf bits) = bits := by
  apply List.ext_getElem (by simp)
  intro k _ hk
  simp [digits, digit_rowOf hk]

theorem rowOf_digits {vars row : Nat} (h : row < 2 ^ vars) : rowOf (digits vars row) = row := by
  have hlen := length_digits vars row
  have hlt := rowOf_lt (digits vars row)
  apply Nat.eq_of_testBit_eq
  intro i
  rw [hlen] at hlt
  by_cases hi : i < vars
  · have hk : vars - i - 1 < (digits vars row).length := by omega
    have := digit_rowOf hk
    rw [hlen] at this
    simp only [digits, List.getElem_map, List.getElem_range, digit] at this
    rwa [show vars - (vars - i - 1) - 1 = i by omega] at this
  · have hpow : 2 ^ vars ≤ 2 ^ i := Nat.pow_le_pow_right (by omega) (by omega)
    rw [Nat.testBit_lt_two_pow (by omega), Nat.testBit_lt_two_pow (by omega)]

/-! ## Inserting a digit -/

/-- Making room for a digit inserts a clear one. -/
theorem openBit_rowOf (a c : List Bool) :
    openBit (2 ^ c.length) (rowOf (a ++ c)) = rowOf (a ++ false :: c) := by
  have hlt := rowOf_lt c
  have hpos : 0 < 2 ^ c.length := Nat.two_pow_pos _
  have hmod : rowOf (a ++ c) % 2 ^ c.length = rowOf c := by
    rw [rowOf_append, Nat.mul_comm, Nat.mul_add_mod, Nat.mod_eq_of_lt hlt]
  have hdiv : rowOf (a ++ c) / 2 ^ c.length = rowOf a := by
    rw [rowOf_append, Nat.mul_comm, Nat.mul_add_div hpos, Nat.div_eq_of_lt hlt, Nat.add_zero]
  rw [openBit, hmod, hdiv, rowOf_append]
  simp only [rowOf, List.length_cons, Bool.toNat_false, pow_succ]
  ring

/-- Setting the digit that was made room for inserts a set one. -/
theorem rowOf_or (a c : List Bool) :
    rowOf (a ++ false :: c) ||| 2 ^ c.length = rowOf (a ++ true :: c) := by
  have hlt := rowOf_lt c
  have hsucc : 2 ^ (c.length + 1) = 2 ^ c.length + 2 ^ c.length := by rw [pow_succ]; omega
  have hset : 2 ^ c.length * 1 + rowOf c = 2 ^ c.length * 1 ||| rowOf c :=
    Nat.two_pow_add_eq_or_of_lt hlt 1
  simp only [rowOf_append, rowOf, List.length_cons, Bool.toNat_false, Bool.toNat_true, Nat.zero_mul,
    Nat.zero_add, Nat.mul_comm (rowOf a)]
  rw [Nat.two_pow_add_eq_or_of_lt (by omega), Nat.two_pow_add_eq_or_of_lt (by omega), Nat.one_mul]
  rw [Nat.mul_one] at hset
  rw [hset, Nat.or_assoc, Nat.or_comm (rowOf c)]

/-- An assignment with one digit more, in front of the one with ordinal `k`. -/
def insertDigit (k : Nat) (b : Bool) (bits : List Bool) : List Bool :=
  bits.take k ++ b :: bits.drop k

theorem insertDigit_append {k : Nat} {a : List Bool} (h : a.length = k) (b : Bool) (c : List Bool) :
    insertDigit k b (a ++ c) = a ++ b :: c := by
  subst h
  simp [insertDigit]

theorem length_insertDigit {k : Nat} {bits : List Bool} (b : Bool) :
    (insertDigit k b bits).length = bits.length + 1 := by
  simp only [insertDigit, List.length_append, List.length_take, List.length_cons, List.length_drop]
  omega

/-- The rows with a digit clear are the rows without that digit, in order, each
with a clear one inserted. -/
theorem lowRows_eq (k m : Nat) :
    lowRows (2 ^ (k + m + 1)) (2 ^ m) =
      (List.range (2 ^ (k + m))).map fun row => rowOf (insertDigit k false (digits (k + m) row)) := by
  have hhalf : 2 ^ (k + m + 1) / 2 = 2 ^ (k + m) := by rw [pow_succ]; omega
  rw [lowRows, hhalf]
  apply List.map_congr_left
  intro row hrow
  rw [List.mem_range] at hrow
  have hopen := openBit_rowOf ((digits (k + m) row).take k) ((digits (k + m) row).drop k)
  rwa [List.take_append_drop, rowOf_digits hrow, List.length_drop, length_digits,
    show k + m - k = m by omega] at hopen

theorem rowOf_insertDigit_or {k m : Nat} {bits : List Bool} (h : bits.length = k + m) :
    rowOf (insertDigit k false bits) ||| 2 ^ m = rowOf (insertDigit k true bits) := by
  have hor := rowOf_or (bits.take k) (bits.drop k)
  rwa [List.length_drop, h, show k + m - k = m by omega] at hor

end Schematic
