/-
Gate trees with the size of every subtree and the place of every part in it,
relative to the subtree's own corner.

A layout grows to the right. Leaves take a cell; the operands of a gate are
stacked from the top down, one cell between them, and the gate's symbol stands
one cell to the right of the widest. The symbol of an output terminal stands
one cell to the right of its tree, level with the tree's pin; its label takes
the row above, so the tree starts one cell further down.

Sizes are worked out from the leaves up, in a fixed order, so that of several
numbers too large for the plane the same one is always reported.
-/
import Schematic.GateTree
import Schematic.Catalog

namespace Schematic

/-- A gate tree whose parts have been given their places. The symbol of a gate
or an output terminal, and every operand, stand at an offset from the corner of
the box they are part of. -/
inductive Layout where
  | leaf (extent : Extent) (l : Literal)
  | gate (extent : Extent) (pin : Point) (kind : NodeKind) (shape : Shape) (symbol : Point)
    (operands : List (Point × Layout))
  | output (extent : Extent) (label : String) (shape : Shape) (symbol : Point) (offset : Point)
    (tree : Layout)

namespace Layout

/-- The size of the box around a layout. -/
def extent : Layout → Extent
  | .leaf extent _ => extent
  | .gate extent .. => extent
  | .output extent .. => extent

/-- Where a layout puts out its value. An output terminal does so at its
symbol. -/
def pin : Layout → Point
  | .leaf .. => .origin
  | .gate _ pin .. => pin
  | .output _ _ _ symbol .. => symbol

/-- Operands with their offsets, and what they take up: the row below the last
one and its gap, and the width of the widest. -/
structure Stack where
  operands : List (Point × Layout)
  bottom : Int
  width : Int

mutual

/-- The layout of a tree with the shapes of a catalog. -/
def ofTree (catalog : Catalog) : GateTree → Except Fault Layout
  | .leaf l => return .leaf ⟨catalog.size, catalog.size⟩ l
  | .gate kind ts => do
    let shape ← catalog.shape kind
    let stack ← ofTrees catalog 0 0 ts
    let height ← Coord.sub stack.bottom catalog.size
    let column ← Coord.add stack.width catalog.size
    let pin ← Point.add ⟨column, 0⟩ (shape.output.getD .origin)
    let width ← Coord.add column shape.footprint.width
    return .gate ⟨width, max height shape.footprint.height⟩ pin kind shape ⟨column, 0⟩ stack.operands
  | .output label t =>
    if catalog.supports .output .label then do
      let shape ← catalog.shape .output
      let tree ← ofTree catalog t
      let column ← Coord.add tree.extent.width catalog.size
      let row ← Coord.add catalog.size tree.pin.y
      let width ← Coord.add column shape.footprint.width
      let height ← Coord.add tree.extent.height catalog.size
      return .output ⟨width, height⟩ label shape ⟨column, row⟩ ⟨0, catalog.size⟩ tree
    else
      throw .outputsUnlabelled

/-- The operands of a gate stacked from row `y` down, the widest so far being
`width` wide. -/
def ofTrees (catalog : Catalog) (y width : Int) : List GateTree → Except Fault Stack
  | [] => return ⟨[], y, width⟩
  | t :: ts => do
    let operand ← ofTree catalog t
    let below ← Coord.add y (← Coord.add operand.extent.height catalog.size)
    let stack ← ofTrees catalog below (max width operand.extent.width) ts
    return { stack with operands := (⟨0, y⟩, operand) :: stack.operands }

end

end Layout

end Schematic
