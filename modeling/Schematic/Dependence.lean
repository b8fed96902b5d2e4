/-
Which variables a column of values depends on, and how one that it does not
depend on is removed.

A variable is one binary digit of the row number. The rows that differ in that
digit alone come in pairs, one with the digit clear and one with it set:
`lowRows` lists the first members in order, and setting the digit gives the
second. The column is independent of the variable if the entries of every pair
agree, and removing the variable merges each pair into one row.
-/
import Schematic.Table

namespace Schematic

/-! ## Pairs of rows -/

/-- Makes room for a clear digit: the digits of `i` below `bit`, a power of
two, stay where they are and the others move up by one place. -/
def openBit (bit i : Nat) : Nat :=
  i % bit + i / bit * (2 * bit)

/-- The rows, of `size` many, in which the digit `bit` is clear, in ascending
order. -/
def lowRows (size bit : Nat) : List Nat :=
  (List.range (size / 2)).map (openBit bit)

/-! ## Columns -/

namespace Column

/-- The digit of the row number that stands for the variable with the given
ordinal. The first variable has the most significant one. -/
def bit (c : Column) (ordinal : Nat) : Except Fault Nat := do
  let vars ← c.span
  if ordinal < vars then
    return 1 <<< (vars - ordinal - 1)
  else
    throw (.variableOutOfRange ordinal vars)

/-- Whether no row's entry speaks for the variable: rows that differ in it
alone have entries that agree. Rows are read in pairs, up to the first pair
that does not agree. -/
def isIndependent (c : Column) (ordinal : Nat) : Except Fault Bool := do
  let bit ← c.bit ordinal
  (lowRows c.size bit).allM fun row => do
    return (← c.get row).compatible (← c.get (row ||| bit))

/-- The answer of `isIndependent` for each variable in turn. -/
def independences (c : Column) : Except Fault (List Bool) := do
  (List.range (← c.span)).mapM c.isIndependent

/-- The table without the variable: rows that differ in it alone are merged,
whether or not their entries agree. -/
def remove (c : Column) (ordinal : Nat) : Except Fault Table := do
  let bit ← c.bit ordinal
  let values ← (lowRows c.size bit).mapM fun row => do
    return (← c.get row).merge (← c.get (row ||| bit))
  Table.ofArray values.toArray

end Column

/-! ## Tables -/

namespace Table

def isIndependent (t : Table) (ordinal : Nat) : Except Fault Bool :=
  t.column.isIndependent ordinal

def remove (t : Table) (ordinal : Nat) : Except Fault Table :=
  t.column.remove ordinal

theorem span_column (t : Table) : t.column.span = .ok t.vars :=
  if_pos t.isPowerOfTwo_size

end Table

end Schematic
