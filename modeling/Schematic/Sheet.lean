/-
Sheets: the drawings of several named expressions, one below the other, and the
input bus to their left that supplies their leaves. The bus ends one cell short
of the leaves, and its rails reach from above the first drawing to below the
last.
-/
import Schematic.Bus

namespace Schematic

/-- Expressions drawn so far, from the top of the sheet to `height`. -/
structure Sheet where
  catalog : Catalog
  drawing : Drawing := {}
  height : Int := 0
  vars : List Variable := []

namespace Sheet

/-- A sheet without expressions. -/
def blank (catalog : Catalog) : Sheet :=
  { catalog }

/-- Draws an expression under its name, one cell below those drawn so far. -/
def add (sheet : Sheet) (name : String) (e : Expr) : Except Fault Sheet := do
  let (tree, vars) := e.toGateTree []
  let layout ← Layout.ofTree sheet.catalog (.output name (← tree))
  let (_, drawing) ← layout.draw ⟨0, sheet.height⟩ sheet.drawing
  let height ← Coord.add sheet.height (← Coord.add layout.extent.height sheet.catalog.size)
  return { sheet with drawing, height, vars := vars.foldl register sheet.vars }

/-- Draws several expressions in turn. -/
def addAll (sheet : Sheet) (outputs : List (String × Expr)) : Except Fault Sheet :=
  outputs.foldlM (fun sheet (name, e) => sheet.add name e) sheet

/-- The slots of the input bus. The first stands far enough to the left for all
of them. -/
def slots (sheet : Sheet) : Except Fault (List Slot) := do
  let left ← Coord.mul (← Coord.mul (← Coord.neg (Coord.ofCount sheet.vars.length)) sheet.catalog.size) 2
  Slot.ofVariables sheet.catalog sheet.height left sheet.vars

/-- The finished circuit: the drawings, the input bus, and the taps. -/
def circuit (sheet : Sheet) : Except Fault Circuit := do
  let slots ← sheet.slots
  let taps ← sheet.drawing.leaves.toList.mapM (Slot.tap slots)
  let circuit := sheet.drawing.circuit
  return {
    nodes := circuit.nodes ++ slots.flatMap Slot.nodes,
    wires := circuit.wires ++ (slots.flatMap Slot.wires ++ taps) }

end Sheet

end Schematic
