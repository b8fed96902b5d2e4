/-
Drawings moved as a whole. `Drawing.move f` puts every point of a drawing where
`f` sends it. Drawing a layout elsewhere is drawing it here and moving the
result (`Layout.sketch_move`): the offsets in a layout are all relative, and
what is drawn already does not matter. So two runs of a drawing, on different
sheets and from different corners, differ only by the distance of the corners.
-/
import Schematic.Proofs.Sketch

namespace Schematic

/-! ## Moved drawings -/

/-- The node put where `f` sends it. -/
def Node.move (f : Point → Point) (node : Node) : Node :=
  { node with pos := f node.pos }

/-- The wire between the places where `f` sends its ends. -/
def Wire.move (f : Point → Point) (wire : Wire) : Wire :=
  ⟨f wire.p, f wire.q⟩

/-- The leaf put where `f` sends it. -/
def Leaf.move (f : Point → Point) (leaf : Leaf) : Leaf :=
  { leaf with pos := f leaf.pos }

namespace Drawing

/-- The drawing with every point put where `f` sends it. -/
def move (f : Point → Point) (d : Drawing) : Drawing where
  circuit := {
    nodes := d.circuit.nodes.map (Node.move f),
    wires := d.circuit.wires.map (Wire.move f) }
  leaves := d.leaves.map (Leaf.move f)

variable (f : Point → Point)

@[simp] theorem move_empty : ({} : Drawing).move f = {} := by
  simp [move]

@[simp] theorem move_append (d e : Drawing) : (d ++ e).move f = d.move f ++ e.move f := by
  simp [move, append_eq]

@[simp] theorem move_ofNode (node : Node) : (ofNode node).move f = ofNode (node.move f) := by
  simp [move, ofNode, addNode, Circuit.addNode]

@[simp] theorem move_ofWire (wire : Wire) : (ofWire wire).move f = ofWire (wire.move f) := by
  simp [move, ofWire, addWire, Circuit.addWire]

@[simp] theorem move_ofLeaf (leaf : Leaf) : (ofLeaf leaf).move f = ofLeaf (leaf.move f) := by
  simp [move, ofLeaf, addLeaf]

end Drawing

/-! ## Translations -/

namespace Point

/-- Coordinates subtracted one by one, wherever the difference lies. -/
instance : Sub Point where
  sub p q := ⟨p.x - q.x, p.y - q.y⟩

theorem add_right_comm (p q r : Point) : p + q + r = p + r + q :=
  ext (Int.add_right_comm ..) (Int.add_right_comm ..)

theorem add_sub_cancel (p q : Point) : q + (p - q) = p := by
  refine ext ?_ ?_
  · show q.x + (p.x - q.x) = p.x
    omega
  · show q.y + (p.y - q.y) = p.y
    omega

end Point

namespace Layout

mutual

/-- **A layout drawn elsewhere** is the same drawing, moved. -/
theorem sketch_move (pos v : Point) : (m : Layout) → m.sketch (pos + v) = (m.sketch pos).move (· + v)
  | .leaf _ l => (Drawing.move_ofLeaf (· + v) ⟨l, pos⟩).symm
  | .gate _ _ kind shape symbol operands => by
    simp only [sketch, Point.add_right_comm pos v, sketchAll_move pos (pos + symbol) v shape 0 operands,
      Drawing.move_append, Drawing.move_ofNode]
    rfl
  | .output _ label shape symbol offset m => by
    simp only [sketch, Point.add_right_comm _ v, sketch_move (pos + offset) v m, Drawing.move_append,
      Drawing.move_ofNode, Drawing.move_ofWire]
    rfl

theorem sketchAll_move (pos gate v : Point) (shape : Shape) (pin : Nat) : (operands : List (Point × Layout)) →
    sketchAll (pos + v) (gate + v) shape pin operands = (sketchAll pos gate shape pin operands).move (· + v)
  | [] => (Drawing.move_empty (· + v)).symm
  | (offset, m) :: operands => by
    simp only [sketchAll, Point.add_right_comm _ v, sketch_move (pos + offset) v m,
      sketchAll_move pos gate v shape (pin + 1) operands, Drawing.move_append, Drawing.move_ofWire]
    rfl

end

/-- **Drawing only appends, and what it appends depends on the corner only by
translation.** A layout drawn at `p` leaves the nodes, wires and leaves drawn
before as they were, and adds what drawing it at `q` on an empty sheet gives,
every point moved by the distance from `q` to `p`; so is the point where the
value is put out, which is the layout's pin. -/
theorem draw_moved {m : Layout} {p q out out' : Point} {d d' e : Drawing} (hp : m.draw p d = .ok (out, d'))
    (hq : m.draw q {} = .ok (out', e)) :
    d'.circuit.nodes = d.circuit.nodes ++ e.circuit.nodes.map (Node.move (· + (p - q))) ∧
    d'.circuit.wires = d.circuit.wires ++ e.circuit.wires.map (Wire.move (· + (p - q))) ∧
    d'.leaves = d.leaves ++ e.leaves.map (Leaf.move (· + (p - q))) ∧
    out = out' + (p - q) ∧ out = p + m.pin := by
  obtain ⟨-, hfirst⟩ := (draw_eq_ok_iff p m).1 hp
  obtain ⟨-, hsecond⟩ := (draw_eq_ok_iff q m).1 hq
  cases hfirst
  cases hsecond
  have hmove : m.sketch p = (m.sketch q).move (· + (p - q)) := by
    rw [← sketch_move, Point.add_sub_cancel]
  have hpin : p + m.pin = q + m.pin + (p - q) := by
    rw [Point.add_right_comm, Point.add_sub_cancel]
  rw [hmove, Drawing.empty_append]
  exact ⟨rfl, rfl, rfl, hpin, rfl⟩

/-- The layout of a terminal over an inverted disjunction. -/
def signed : GateTree :=
  .output "Y" (.gate .not [.gate (.or 2) [.leaf ⟨⟨"K", by decide⟩, false⟩, .leaf ⟨⟨"L", by decide⟩, true⟩]])

/-- It is drawn in opposite corners of the plane, which are further apart than
the plane has coordinates, and over itself. -/
theorem draw_moved_of_signed : ∃ m out out' d d', ofTree (.grid 20) signed = .ok m ∧
    m.draw ⟨-2147483648, -2147483648⟩ {} = .ok (out, d) ∧ m.draw ⟨2147483000, 2147483500⟩ d = .ok (out', d') ∧
    d.circuit.wires.size = 4 ∧
    d'.circuit.wires = d.circuit.wires ++ d.circuit.wires.map (Wire.move (· + ⟨4294966648, 4294967148⟩)) ∧
    out' = out + ⟨4294966648, 4294967148⟩ := by
  obtain ⟨m, hm⟩ : ∃ m, ofTree (.grid 20) signed = .ok m := ⟨_, rfl⟩
  obtain ⟨⟨out, d⟩, hd⟩ : ∃ r, m.draw ⟨-2147483648, -2147483648⟩ {} = .ok r := by
    cases hm
    exact ⟨_, rfl⟩
  obtain ⟨⟨out', d'⟩, hd'⟩ : ∃ r, m.draw ⟨2147483000, 2147483500⟩ d = .ok r := by
    cases hm
    cases hd
    exact ⟨_, rfl⟩
  obtain ⟨-, hwires, -, hout, -⟩ := draw_moved hd' hd
  refine ⟨m, out, out', d, d', hm, hd, hd', ?_, hwires, hout⟩
  cases hm
  cases hd
  rfl

end Layout

end Schematic
