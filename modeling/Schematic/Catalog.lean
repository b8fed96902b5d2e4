/-
Shapes of nodes. A shape says where the pins of a node are, relative to the
node's own position, and how much room its symbol takes. A catalog supplies the
shape of every kind of node, the size of a grid cell, and the attributes that
nodes can carry.

`Catalog.grid` is the catalog in which every pin stands on the corner of a
cell; any other can take its place.
-/
import Schematic.Plane

namespace Schematic

/-! ## Shapes -/

/-- The pins and the room of a node, relative to its position. -/
structure Shape where
  inputs : List Point
  output : Option Point
  footprint : Extent
  deriving DecidableEq, Repr

namespace Shape

/-- Where an input pin is, the first one being number 0. -/
def input (shape : Shape) (pin : Nat) : Except Fault Point :=
  match shape.inputs[pin]? with
  | some p => .ok p
  | none => .error (.missingPin shape.inputs.length pin)

theorem input_eq_ok_iff {shape : Shape} {pin : Nat} {p : Point} :
    shape.input pin = .ok p ↔ shape.inputs[pin]? = some p := by
  unfold input
  split <;> simp_all

theorem input_eq_error_iff {shape : Shape} {pin : Nat} {f : Fault} :
    shape.input pin = .error f ↔
      shape.inputs.length ≤ pin ∧ .missingPin shape.inputs.length pin = f := by
  unfold input
  split <;> grind

end Shape

/-! ## Catalogs -/

/-- What a drawing takes from its symbols. -/
structure Catalog where
  /-- The width and height of a grid cell. -/
  size : Int
  shape : NodeKind → Except Fault Shape
  supports : NodeKind → AttrKey → Bool

namespace Catalog

/-- A terminal takes one cell and has its only pin in the corner. -/
def terminal (size : Int) (inputs : List Point) (output : Option Point) : Shape :=
  ⟨inputs, output, ⟨size, size⟩⟩

/-- An inverter is two cells wide. -/
def inverter (size : Int) : Except Fault Shape := do
  let width ← Coord.mul 2 size
  return ⟨[.origin], some ⟨width, 0⟩, ⟨width, size⟩⟩

/-- A gate of `n` inputs is three cells wide. Its input pins stand one cell
apart, from the top down, and the output pin is halfway. All pins lie within
the height of the symbol, so the plane has them when it has the symbol. -/
def gate (size n : Int) : Except Fault Shape := do
  let width ← Coord.mul 3 size
  let middle ← Coord.mul (n.tdiv 2) size
  let height ← Coord.mul n size
  let inputs := (List.range n.toNat).map fun (i : Nat) => Point.mk 0 (i * size)
  return ⟨inputs, some ⟨width, middle⟩, ⟨width, height⟩⟩

/-- The catalog in which every pin stands on the corner of a grid cell.
Terminals carry labels, and every node can be rotated. -/
def grid (size : Int) : Catalog where
  size
  shape
    | .input => .ok (terminal size [] (some .origin))
    | .output => .ok (terminal size [.origin] none)
    | .not => inverter size
    | .and n => gate size (Coord.ofCount n)
    | .or n => gate size (Coord.ofCount n)
  supports kind
    | .label => kind == .input || kind == .output
    | .rotation => true

/-- The grid catalog for cells of a given size, which must be positive. -/
def ofSize (size : Int) : Except Fault Catalog :=
  if 0 < size then .ok (grid size) else .error (.gridNotPositive size)

/-- The grid catalog for cells of the usual size. -/
def standard : Catalog :=
  grid 20

end Catalog

end Schematic
