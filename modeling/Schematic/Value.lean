/-
The entries of a truth table: false, true, and "does not matter". Two entries
agree unless one is false and the other true, and two that agree merge into
one that keeps whatever either of them cares about.
-/

namespace Schematic

/-- An entry of a truth table. -/
inductive Value where
  | zero
  | one
  | dontCare
  deriving DecidableEq, Repr

namespace Value

/-- The entry for a truth value. -/
def ofBool : Bool → Value
  | false => .zero
  | true => .one

/-- Nothing is asked of such a row. -/
def isDontCare : Value → Bool
  | .dontCare => true
  | _ => false

/-- Entries that one function can satisfy: equal, or one of them does not
matter. -/
def compatible (a b : Value) : Bool :=
  a == b || a.isDontCare || b.isDontCare

/-- The first entry, or the second where the first does not matter. -/
def merge (a b : Value) : Value :=
  if a.isDontCare then b else a

/-- The written form of an entry. -/
def char : Value → Char
  | .zero => '0'
  | .one => '1'
  | .dontCare => 'x'

theorem compatible_comm (a b : Value) : a.compatible b = b.compatible a := by
  cases a <;> cases b <;> rfl

theorem compatible_refl (a : Value) : a.compatible a = true := by
  simp [compatible]

theorem compatible_eq_false_iff {a b : Value} :
    a.compatible b = false ↔ a = .zero ∧ b = .one ∨ a = .one ∧ b = .zero := by
  cases a <;> cases b <;> decide

theorem compatible_iff_eq {a b : Value} (ha : a ≠ .dontCare) (hb : b ≠ .dontCare) :
    a.compatible b = true ↔ a = b := by
  cases a <;> cases b <;> simp_all [compatible, isDontCare]

/-- Of entries that agree, the merged one is false or true when either is. -/
theorem merge_eq_iff {a b v : Value} (h : a.compatible b = true) (hv : v ≠ .dontCare) :
    a.merge b = v ↔ a = v ∨ b = v := by
  cases a <;> cases b <;> cases v <;> simp_all [merge, isDontCare, compatible]

theorem merge_compatible_iff {a b : Value} (h : a.compatible b = true) (c : Value) :
    (a.merge b).compatible c = true ↔ a.compatible c = true ∧ b.compatible c = true := by
  cases a <;> cases b <;> cases c <;> simp_all [merge, isDontCare, compatible]

theorem merge_compatible_merge_iff {a b c d : Value} (hab : a.compatible b = true) (hcd : c.compatible d = true) :
    (a.merge b).compatible (c.merge d) = true ↔
      (a.compatible c = true ∧ a.compatible d = true) ∧ b.compatible c = true ∧ b.compatible d = true := by
  rw [merge_compatible_iff hab, compatible_comm a, compatible_comm b, merge_compatible_iff hcd,
    merge_compatible_iff hcd, compatible_comm c, compatible_comm d, compatible_comm c, compatible_comm d]

theorem merge_assoc (a b c : Value) : (a.merge b).merge c = a.merge (b.merge c) := by
  cases a <;> rfl

theorem merge_comm {a b : Value} (h : a.compatible b = true) : a.merge b = b.merge a := by
  cases a <;> cases b <;> simp_all [merge, isDontCare, compatible]

end Value

end Schematic
