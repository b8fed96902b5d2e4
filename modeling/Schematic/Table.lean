/-
Truth tables. A `Column` is any source of rows: how many there are, and what
stands in each. A `Table` holds its rows, and there are as many of them as its
variables have assignments, which is a power of two; read as a binary number,
the row of an assignment has the first variable as its most significant digit.

`Table.size_eq` ties the number of rows to the number of variables, and
`Table.get_eq_ok_iff` says that exactly the rows of a table can be read.
-/
import Schematic.Value
import Schematic.Fault

namespace Schematic

/-! ## Columns -/

/-- The place of the lowest digit set in a binary number. A word without any
has all its 64 digits clear. -/
def trailingZeros (n : Nat) : Nat :=
  ((List.range (n.log2 + 1)).find? n.testBit).getD 64

theorem trailingZeros_one_shiftLeft (k : Nat) : trailingZeros (1 <<< k) = k := by
  have h : (List.range ((2 ^ k).log2 + 1)).find? (2 ^ k).testBit = some k := by
    rw [List.find?_range_eq_some]
    refine ⟨by simp, by simp, fun j hj => ?_⟩
    simp [Nat.testBit_two_pow]
    omega
  rw [trailingZeros, Nat.one_shiftLeft, h, Option.getD_some]

/-- A source of rows. Reading one can be refused. -/
structure Column where
  size : Nat
  get : Nat → Except Fault Value

namespace Column

/-- The rows of an array. -/
def ofArray (values : Array Value) : Column where
  size := values.size
  get row :=
    match values[row]? with
    | some v => .ok v
    | none => .error (.rowOutOfRange values.size row)

/-- The number of variables, told from the number of rows. -/
def vars (c : Column) : Nat :=
  trailingZeros c.size

/-- The number of variables of a column that has a row for each of their
assignments. -/
def span (c : Column) : Except Fault Nat :=
  if c.size.isPowerOfTwo then .ok c.vars else .error (.rowsNotPowerOfTwo c.size)

end Column

/-! ## Tables -/

/-- A truth table: one entry for each assignment of its variables. -/
structure Table where
  values : Array Value
  isPowerOfTwo_size : values.size.isPowerOfTwo
  deriving DecidableEq

namespace Table

/-- The table with the given rows. -/
def ofArray (values : Array Value) : Except Fault Table :=
  if h : values.size.isPowerOfTwo then .ok ⟨values, h⟩ else .error (.rowsNotPowerOfTwo values.size)

/-- The table whose rows are computed from their numbers. -/
def ofFn (vars : Nat) (f : Nat → Value) : Except Fault Table :=
  if vars < 64 then
    .ok ⟨(Array.range (1 <<< vars)).map f, ⟨vars, by simp [Nat.one_shiftLeft]⟩⟩
  else
    .error (.tooManyVariables vars)

/-- A copy of a column, read from the first row to the last. -/
def ofColumn (c : Column) : Except Fault Table := do
  ofArray (← (List.range c.size).mapM c.get).toArray

/-- The rows of a table. -/
def column (t : Table) : Column :=
  .ofArray t.values

/-- The number of rows. -/
def size (t : Table) : Nat :=
  t.values.size

/-- The entry of a row. -/
def get (t : Table) (row : Nat) : Except Fault Value :=
  t.column.get row

/-- The number of variables. -/
def vars (t : Table) : Nat :=
  t.column.vars

/-- The written form of a table: its entries from the first row to the last. -/
def text (t : Table) : String :=
  String.ofList (t.values.toList.map Value.char)

theorem size_eq (t : Table) : t.size = 1 <<< t.vars := by
  obtain ⟨k, hk⟩ := t.isPowerOfTwo_size
  rw [← Nat.one_shiftLeft] at hk
  simp only [size, vars, Column.vars, column, Column.ofArray, hk, trailingZeros_one_shiftLeft]

theorem get_eq_ok_iff {t : Table} {row : Nat} {v : Value} :
    t.get row = .ok v ↔ t.values[row]? = some v := by
  unfold get column Column.ofArray
  cases h : t.values[row]? <;> simp [h]

theorem get_eq_ok {t : Table} {row : Nat} (h : row < t.values.size) :
    t.get row = .ok t.values[row] :=
  get_eq_ok_iff.2 (Array.getElem?_eq_getElem h)

theorem ofColumn_eq_ok {t : Table} {c : Column} (hsize : c.size = t.size)
    (hget : ∀ row < t.size, c.get row = t.get row) : ofColumn c = .ok t := by
  have h : (List.range c.size).mapM c.get = .ok t.values.toList := by
    rw [hsize, mapM_eq_ok_map (g := fun row => t.values.getD row .dontCare)]
    · congr 1
      apply List.ext_getElem <;> simp +contextual [size]
    · intro row hrow
      rw [List.mem_range] at hrow
      rw [hget row hrow, get_eq_ok hrow, Array.getD_eq_getD_getElem?, Array.getElem?_eq_getElem hrow]
      rfl
  change (List.range c.size).mapM c.get >>= (fun values => ofArray values.toArray) = _
  rw [h]
  exact dif_pos t.isPowerOfTwo_size

theorem ofColumn_column (t : Table) : ofColumn t.column = .ok t :=
  ofColumn_eq_ok rfl fun _ _ => rfl

end Table

end Schematic
