/-
Drawings: a circuit under construction, with the leaves whose wires to the
input bus are still missing.

`Layout.draw` draws a layout at a position. A node comes before its operands,
and each operand is followed by the wire from it to its pin, so a pin that a
shape does not have is noticed only once the operand has been drawn.
-/
import Schematic.Layout
import Schematic.Circuit

namespace Schematic

/-- A leaf at its final position. -/
structure Leaf where
  literal : Literal
  pos : Point
  deriving DecidableEq

/-- A circuit and the leaves placed in it, in order. -/
structure Drawing where
  circuit : Circuit := {}
  leaves : Array Leaf := #[]
  deriving DecidableEq

namespace Drawing

/-- The drawing with one more node. -/
def addNode (d : Drawing) (node : Node) : Drawing :=
  { d with circuit := d.circuit.addNode node }

/-- The drawing with one more wire. -/
def addWire (d : Drawing) (wire : Wire) : Drawing :=
  { d with circuit := d.circuit.addWire wire }

/-- The drawing with one more leaf. -/
def addLeaf (d : Drawing) (leaf : Leaf) : Drawing :=
  { d with leaves := d.leaves.push leaf }

/-- One drawing, then another. -/
instance : Append Drawing where
  append d e :=
    { circuit := {
        nodes := d.circuit.nodes ++ e.circuit.nodes,
        wires := d.circuit.wires ++ e.circuit.wires },
      leaves := d.leaves ++ e.leaves }

theorem append_eq (d e : Drawing) :
    d ++ e = ⟨⟨d.circuit.nodes ++ e.circuit.nodes, d.circuit.wires ++ e.circuit.wires⟩,
      d.leaves ++ e.leaves⟩ :=
  rfl

theorem append_empty (d : Drawing) : d ++ ({} : Drawing) = d := by
  simp [append_eq]

theorem append_addNode (d e : Drawing) (node : Node) :
    d ++ e.addNode node = (d ++ e).addNode node := by
  simp [append_eq, addNode, Circuit.addNode]

theorem append_addWire (d e : Drawing) (wire : Wire) :
    d ++ e.addWire wire = (d ++ e).addWire wire := by
  simp [append_eq, addWire, Circuit.addWire]

theorem append_addLeaf (d e : Drawing) (leaf : Leaf) :
    d ++ e.addLeaf leaf = (d ++ e).addLeaf leaf := by
  simp [append_eq, addLeaf]

end Drawing

namespace Layout

mutual

/-- Draws a layout with its corner at `pos`, and returns where its value is put
out. -/
def draw (pos : Point) : Layout → Drawing → Except Fault (Point × Drawing)
  | .leaf _ l, d => do
    let out ← pos.add .origin
    return (out, d.addLeaf ⟨l, pos⟩)
  | .gate _ pin kind shape symbol operands, d => do
    let gate ← pos.add symbol
    let d ← drawAll pos gate shape 0 operands (d.addNode { kind, pos := gate })
    let out ← pos.add pin
    return (out, d)
  | .output _ label shape symbol offset tree, d => do
    let terminal ← pos.add symbol
    let node : Node := { kind := .output, pos := terminal }
    let (source, d) ← tree.draw (← pos.add offset) (d.addNode (node.withAttr .label (.text label)))
    let target ← terminal.add (← shape.input 0)
    return (terminal, d.addWire ⟨source, target⟩)

/-- Draws the operands of a gate whose symbol is at `gate`, and wires each to
the input pin of its number, the first being number `pin`. -/
def drawAll (pos gate : Point) (shape : Shape) (pin : Nat) :
    List (Point × Layout) → Drawing → Except Fault Drawing
  | [], d => return d
  | (offset, operand) :: operands, d => do
    let (source, d) ← operand.draw (← pos.add offset) d
    let target ← gate.add (← shape.input pin)
    drawAll pos gate shape (pin + 1) operands (d.addWire ⟨target, source⟩)

end

end Layout

end Schematic
