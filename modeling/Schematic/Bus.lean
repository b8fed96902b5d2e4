/-
The input bus, which supplies every variable both plain and inverted.

Each variable has a slot on it: an input terminal and an inverter, each driving
a vertical rail down to the bottom of the sheet. The inverted rail stands one
cell to the right of the plain one, and the next slot one cell further. A leaf
takes its value from a rail by a horizontal wire, its tap.
-/
import Schematic.Drawing

namespace Schematic

/-- A node with an attribute that the catalog lets it carry. -/
def Catalog.attach (catalog : Catalog) (node : Node) (key : AttrKey) (value : AttrValue) :
    Except Fault Node :=
  if catalog.supports node.kind key then
    return node.withAttr key value
  else
    throw (.unsupportedAttr node.kind key)

/-- The place of a variable on the input bus: the columns of its two rails, and
what is drawn there. -/
structure Slot where
  var : Variable
  plain : Int
  inverted : Int
  nodes : List Node
  wires : List Wire
  deriving DecidableEq

namespace Slot

/-- The slot of a variable whose plain rail is in column `plain`, for a sheet
that ends at `bottom`. The terminal and the inverter point down. -/
def ofVariable (catalog : Catalog) (bottom plain : Int) (v : Variable) : Except Fault Slot := do
  let top ← Coord.mul (-5) catalog.size
  let terminal ← catalog.attach { kind := .input, pos := ⟨plain, top⟩ } .rotation (.ofTurns 3)
  let terminal ← catalog.attach terminal .label (.text v.name)
  let inverted ← Coord.add plain catalog.size
  let middle ← Coord.mul (-3) catalog.size
  let inverter ← catalog.attach { kind := .not, pos := ⟨inverted, middle⟩ } .rotation (.ofTurns 3)
  let branch ← Coord.mul (-4) catalog.size
  let below ← Coord.neg catalog.size
  return {
    var := v, plain, inverted,
    nodes := [terminal, inverter],
    wires := [
      ⟨⟨plain, branch⟩, ⟨inverted, branch⟩⟩,
      ⟨⟨inverted, middle⟩, ⟨inverted, branch⟩⟩,
      ⟨⟨plain, top⟩, ⟨plain, bottom⟩⟩,
      ⟨⟨inverted, below⟩, ⟨inverted, bottom⟩⟩] }

/-- The slots of a list of variables, from column `plain` to the right. -/
def ofVariables (catalog : Catalog) (bottom plain : Int) : List Variable → Except Fault (List Slot)
  | [] => return []
  | v :: vs => do
    let slot ← ofVariable catalog bottom plain v
    let next ← Coord.add plain (← Coord.mul 2 catalog.size)
    return slot :: (← ofVariables catalog bottom next vs)

/-- The wire from a leaf to the rail of its literal. -/
def tap (slots : List Slot) (leaf : Leaf) : Except Fault Wire :=
  match slots.find? (·.var == leaf.literal.var) with
  | some slot =>
    return ⟨leaf.pos, ⟨if leaf.literal.negated then slot.inverted else slot.plain, leaf.pos.y⟩⟩
  | none => throw (.unregisteredVariable leaf.literal.var.name)

end Slot

end Schematic
