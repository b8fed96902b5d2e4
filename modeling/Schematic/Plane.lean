/-
Points and sizes on the drawing plane. Coordinates are whole numbers of 32
bits, sign included, and arithmetic on them never leaves that range: an
operation whose result lies outside is refused. An operation on points works
on the horizontal coordinate first, so of two faults that one is reported.

`Coord.add_eq_ok_iff` and its companions say what each operation returns and
when; nothing below them needs to look inside.
-/
import Schematic.Fault

namespace Schematic

/-! ## Coordinates -/

/-- The coordinates that the plane has, those from -2^31 up to 2^31. -/
def InRange (n : Int) : Prop :=
  -2147483648 ≤ n ∧ n < 2147483648

instance (n : Int) : Decidable (InRange n) :=
  inferInstanceAs (Decidable (_ ∧ _))

namespace Coord

/-- The outcome of an operation: its result, if the plane has it. -/
def checked (op : Arithmetic) (n : Int) : Except Fault Int :=
  if InRange n then .ok n else .error (.overflow op)

/-- The sum, if the plane has it. -/
def add (a b : Int) : Except Fault Int :=
  checked .add (a + b)

/-- The difference, if the plane has it. -/
def sub (a b : Int) : Except Fault Int :=
  checked .subtract (a - b)

/-- The product, if the plane has it. -/
def mul (a b : Int) : Except Fault Int :=
  checked .multiply (a * b)

/-- The opposite, if the plane has it. -/
def neg (a : Int) : Except Fault Int :=
  checked .negate (-a)

/-- A count as a coordinate: its low 32 bits, read with their sign. Counts
below 2^31 stand for themselves. -/
def ofCount (n : Nat) : Int :=
  Int.bmod n 4294967296

theorem checked_eq_ok_iff {op : Arithmetic} {n m : Int} :
    checked op n = .ok m ↔ InRange n ∧ n = m := by
  unfold checked
  split <;> simp_all

theorem checked_eq_error_iff {op : Arithmetic} {n : Int} {f : Fault} :
    checked op n = .error f ↔ ¬ InRange n ∧ .overflow op = f := by
  unfold checked
  split <;> simp_all

theorem add_eq_ok_iff {a b c : Int} : add a b = .ok c ↔ InRange (a + b) ∧ a + b = c :=
  checked_eq_ok_iff

theorem sub_eq_ok_iff {a b c : Int} : sub a b = .ok c ↔ InRange (a - b) ∧ a - b = c :=
  checked_eq_ok_iff

theorem mul_eq_ok_iff {a b c : Int} : mul a b = .ok c ↔ InRange (a * b) ∧ a * b = c :=
  checked_eq_ok_iff

theorem neg_eq_ok_iff {a c : Int} : neg a = .ok c ↔ InRange (-a) ∧ -a = c :=
  checked_eq_ok_iff

theorem inRange_ofCount (n : Nat) : InRange (ofCount n) := by
  have low := Int.le_bmod (x := n) (m := 4294967296) (by decide)
  have high := Int.bmod_lt (x := n) (m := 4294967296) (by decide)
  unfold InRange ofCount
  exact ⟨by simpa using low, by simpa using high⟩

theorem ofCount_eq {n : Nat} (h : n < 2147483648) : ofCount n = n := by
  apply Int.bmod_eq_of_le_mul_two <;> simp <;> omega

end Coord

/-! ## Points -/

/-- A point of the plane. Points are ordered from left to right, those of one
column by height. -/
structure Point where
  x : Int
  y : Int
  deriving DecidableEq, Repr, Ord

namespace Point

/-- Where the axes meet. -/
def origin : Point := ⟨0, 0⟩

/-- Coordinates added one by one. -/
def add (p q : Point) : Except Fault Point := do
  return ⟨← Coord.add p.x q.x, ← Coord.add p.y q.y⟩

/-- Coordinates subtracted one by one. -/
def sub (p q : Point) : Except Fault Point := do
  return ⟨← Coord.sub p.x q.x, ← Coord.sub p.y q.y⟩

/-- The point `dx` further right. -/
def addX (p : Point) (dx : Int) : Except Fault Point := do
  return ⟨← Coord.add p.x dx, p.y⟩

/-- The point `dy` further down. -/
def addY (p : Point) (dy : Int) : Except Fault Point := do
  return ⟨p.x, ← Coord.add p.y dy⟩

/-- The written form of a point. -/
def text (p : Point) : String :=
  "(" ++ toString p.x ++ ", " ++ toString p.y ++ ")"

theorem add_eq_ok_iff {p q r : Point} :
    p.add q = .ok r ↔
      InRange (p.x + q.x) ∧ InRange (p.y + q.y) ∧ ⟨p.x + q.x, p.y + q.y⟩ = r := by
  simp only [add, bind_eq_ok_iff, Coord.add_eq_ok_iff]
  constructor
  · rintro ⟨x, ⟨hx, rfl⟩, y, ⟨hy, rfl⟩, ⟨⟩⟩
    exact ⟨hx, hy, rfl⟩
  · rintro ⟨hx, hy, rfl⟩
    exact ⟨_, ⟨hx, rfl⟩, _, ⟨hy, rfl⟩, rfl⟩

end Point

/-! ## Sizes -/

/-- The size of a box. -/
structure Extent where
  width : Int
  height : Int
  deriving DecidableEq, Repr

end Schematic
