/-
What a layout draws, computed on unbounded coordinates. `Layout.sketch` is the
drawing of a layout alone, and `Layout.Fits` says that the plane has all its
points and the shapes all the pins asked for. `draw_eq_ok_iff` ties both to
`Layout.draw`: it succeeds exactly on layouts that fit, and then adds the
sketch to what was drawn before. Statements about drawings need not mention
overflow from here on.
-/
import Schematic.Drawing

namespace Schematic

/-! ## Points -/

namespace Point

/-- Coordinates added one by one, wherever the sum lies. -/
instance : Add Point where
  add p q := ⟨p.x + q.x, p.y + q.y⟩

@[simp] theorem x_add (p q : Point) : (p + q).x = p.x + q.x := rfl

@[simp] theorem y_add (p q : Point) : (p + q).y = p.y + q.y := rfl

@[simp] theorem x_origin : origin.x = 0 := rfl

@[simp] theorem y_origin : origin.y = 0 := rfl

theorem ext {p q : Point} (hx : p.x = q.x) (hy : p.y = q.y) : p = q := by
  cases p
  cases q
  simp_all

@[simp] theorem add_origin (p : Point) : p + origin = p :=
  ext (Int.add_zero _) (Int.add_zero _)

@[simp] theorem origin_add (p : Point) : origin + p = p :=
  ext (Int.zero_add _) (Int.zero_add _)

/-- Whether the plane has a point. -/
def InPlane (p : Point) : Prop :=
  InRange p.x ∧ InRange p.y

theorem add_eq_ok_iff_inPlane {p q r : Point} : p.add q = .ok r ↔ (p + q).InPlane ∧ p + q = r := by
  rw [add_eq_ok_iff, ← and_assoc]
  rfl

end Point

/-- Where an input pin is. -/
def Shape.pin (shape : Shape) (i : Nat) : Point :=
  shape.inputs.getD i .origin

theorem Shape.input_eq_ok_iff_pin {shape : Shape} {i : Nat} {p : Point} :
    shape.input i = .ok p ↔ i < shape.inputs.length ∧ shape.pin i = p := by
  rw [input_eq_ok_iff, pin, List.getD_eq_getElem?_getD, List.getElem?_eq_some_iff]
  refine ⟨?_, ?_⟩
  · intro h
    obtain ⟨hi, rfl⟩ := h
    exact ⟨hi, by rw [List.getElem?_eq_getElem hi, Option.getD_some]⟩
  · intro h
    obtain ⟨hi, rfl⟩ := h
    exact ⟨hi, by rw [List.getElem?_eq_getElem hi, Option.getD_some]⟩

/-! ## Drawings put together -/

namespace Drawing

theorem append_assoc (d e f : Drawing) : d ++ e ++ f = d ++ (e ++ f) := by
  simp [append_eq]

theorem empty_append (d : Drawing) : ({} : Drawing) ++ d = d := by
  simp [append_eq]

/-- A drawing of one node. -/
def ofNode (node : Node) : Drawing :=
  ({} : Drawing).addNode node

/-- A drawing of one wire. -/
def ofWire (wire : Wire) : Drawing :=
  ({} : Drawing).addWire wire

/-- A drawing of one leaf. -/
def ofLeaf (leaf : Leaf) : Drawing :=
  ({} : Drawing).addLeaf leaf

theorem addNode_eq (d : Drawing) (node : Node) : d.addNode node = d ++ ofNode node := by
  rw [ofNode, append_addNode, append_empty]

theorem addWire_eq (d : Drawing) (wire : Wire) : d.addWire wire = d ++ ofWire wire := by
  rw [ofWire, append_addWire, append_empty]

theorem addLeaf_eq (d : Drawing) (leaf : Leaf) : d.addLeaf leaf = d ++ ofLeaf leaf := by
  rw [ofLeaf, append_addLeaf, append_empty]

variable {d e : Drawing} {node node' : Node} {wire wire' : Wire} {leaf leaf' : Leaf}

@[simp] theorem leaves_append : (d ++ e).leaves = d.leaves ++ e.leaves := rfl

@[simp] theorem leaves_ofNode : (ofNode node).leaves = #[] := rfl

@[simp] theorem leaves_ofWire : (ofWire wire).leaves = #[] := rfl

@[simp] theorem mem_nodes_append :
    node ∈ (d ++ e).circuit.nodes ↔ node ∈ d.circuit.nodes ∨ node ∈ e.circuit.nodes :=
  Array.mem_append

@[simp] theorem mem_wires_append :
    wire ∈ (d ++ e).circuit.wires ↔ wire ∈ d.circuit.wires ∨ wire ∈ e.circuit.wires :=
  Array.mem_append

@[simp] theorem mem_leaves_append : leaf ∈ (d ++ e).leaves ↔ leaf ∈ d.leaves ∨ leaf ∈ e.leaves :=
  Array.mem_append

@[simp] theorem mem_nodes_ofNode : node ∈ (ofNode node').circuit.nodes ↔ node = node' := by
  simp [ofNode, addNode, Circuit.addNode]

@[simp] theorem not_mem_wires_ofNode : wire ∉ (ofNode node).circuit.wires := Array.not_mem_empty _

@[simp] theorem not_mem_nodes_ofWire : node ∉ (ofWire wire).circuit.nodes := Array.not_mem_empty _

@[simp] theorem mem_wires_ofWire : wire ∈ (ofWire wire').circuit.wires ↔ wire = wire' := by
  simp [ofWire, addWire, Circuit.addWire]

@[simp] theorem not_mem_nodes_ofLeaf : node ∉ (ofLeaf leaf).circuit.nodes := Array.not_mem_empty _

@[simp] theorem not_mem_wires_ofLeaf : wire ∉ (ofLeaf leaf).circuit.wires := Array.not_mem_empty _

@[simp] theorem mem_leaves_ofLeaf : leaf ∈ (ofLeaf leaf').leaves ↔ leaf = leaf' := by
  simp [ofLeaf, addLeaf]

end Drawing

/-! ## Layouts and their trees -/

namespace Layout

section

variable {catalog : Catalog} {kind : NodeKind} {label : String} {t : GateTree} {ts : List GateTree} {m : Layout}
  {y width : Int} {stack : Stack}

/-- **What the layout of a gate consists of**: its shape, and its operands
stacked to the left of its symbol. -/
theorem exists_of_ofTree_gate (h : ofTree catalog (.gate kind ts) = .ok m) :
    ∃ shape stack, catalog.shape kind = .ok shape ∧ ofTrees catalog 0 0 ts = .ok stack ∧
      m = .gate ⟨stack.width + catalog.size + shape.footprint.width,
          max (stack.bottom - catalog.size) shape.footprint.height⟩
        (⟨stack.width + catalog.size, 0⟩ + shape.output.getD .origin) kind shape
        ⟨stack.width + catalog.size, 0⟩ stack.operands := by
  simp only [ofTree, bind_eq_ok_iff, Coord.sub_eq_ok_iff, Coord.add_eq_ok_iff, Point.add_eq_ok_iff_inPlane] at h
  obtain ⟨shape, hshape, stack, hstack, _, ⟨-, rfl⟩, _, ⟨-, rfl⟩, _, ⟨-, rfl⟩, _, ⟨-, rfl⟩, ⟨⟩⟩ := h
  exact ⟨shape, stack, hshape, hstack, rfl⟩

/-- **What the layout of an output terminal consists of**: its shape, and its
tree a row below the corner, if terminals carry labels. -/
theorem exists_of_ofTree_output (h : ofTree catalog (.output label t) = .ok m) :
    ∃ shape tree, catalog.supports .output .label = true ∧ catalog.shape .output = .ok shape ∧
      ofTree catalog t = .ok tree ∧
      m = .output ⟨tree.extent.width + catalog.size + shape.footprint.width, tree.extent.height + catalog.size⟩
        label shape ⟨tree.extent.width + catalog.size, catalog.size + tree.pin.y⟩ ⟨0, catalog.size⟩ tree := by
  unfold ofTree at h
  split at h
  next hlabel =>
    simp only [bind_eq_ok_iff, Coord.add_eq_ok_iff] at h
    obtain ⟨shape, hshape, tree, htree, _, ⟨-, rfl⟩, _, ⟨-, rfl⟩, _, ⟨-, rfl⟩, _, ⟨-, rfl⟩, ⟨⟩⟩ := h
    exact ⟨shape, tree, hlabel, hshape, htree, rfl⟩
  next => cases h

/-- **What a stack consists of**: its first operand, and the others from the row
below it and its gap. -/
theorem exists_of_ofTrees_cons (h : ofTrees catalog y width (t :: ts) = .ok stack) :
    ∃ operand rest, ofTree catalog t = .ok operand ∧
      ofTrees catalog (y + (operand.extent.height + catalog.size)) (max width operand.extent.width) ts = .ok rest ∧
      stack = { rest with operands := (⟨0, y⟩, operand) :: rest.operands } := by
  simp only [ofTrees, bind_eq_ok_iff, Coord.add_eq_ok_iff] at h
  obtain ⟨operand, hoperand, _, ⟨-, rfl⟩, _, ⟨-, rfl⟩, rest, hrest, ⟨⟩⟩ := h
  exact ⟨operand, rest, hoperand, hrest, rfl⟩

end

mutual

/-- The tree that is laid out. -/
def tree : Layout → GateTree
  | .leaf _ l => .leaf l
  | .gate _ _ kind _ _ operands => .gate kind (trees operands)
  | .output _ label _ _ _ m => .output label m.tree

def trees : List (Point × Layout) → List GateTree
  | [] => []
  | (_, m) :: operands => m.tree :: trees operands

end

mutual

theorem tree_of_ofTree {catalog : Catalog} : (t : GateTree) → ∀ {m : Layout},
    ofTree catalog t = .ok m → m.tree = t
  | .leaf l, m, h => by
    cases h
    rfl
  | .gate kind ts, m, h => by
    obtain ⟨shape, stack, -, hstack, rfl⟩ := exists_of_ofTree_gate h
    rw [tree, trees_of_ofTrees ts hstack]
  | .output label t, m, h => by
    obtain ⟨shape, tree, -, -, htree, rfl⟩ := exists_of_ofTree_output h
    rw [Layout.tree, tree_of_ofTree t htree]

theorem trees_of_ofTrees {catalog : Catalog} : (ts : List GateTree) → ∀ {y width : Int} {stack : Stack},
    ofTrees catalog y width ts = .ok stack → trees stack.operands = ts
  | [], y, width, stack, h => by
    cases h
    rfl
  | t :: ts, y, width, stack, h => by
    obtain ⟨operand, rest, hoperand, hrest, rfl⟩ := exists_of_ofTrees_cons h
    rw [trees, tree_of_ofTree t hoperand, trees_of_ofTrees ts hrest]

end

/-! ## Sketches -/

mutual

/-- The drawing of a layout with its corner at `pos`. -/
def sketch (pos : Point) : Layout → Drawing
  | .leaf _ l => .ofLeaf ⟨l, pos⟩
  | .gate _ _ kind shape symbol operands =>
    .ofNode { kind, pos := pos + symbol } ++ sketchAll pos (pos + symbol) shape 0 operands
  | .output _ label shape symbol offset tree =>
    .ofNode (({ kind := .output, pos := pos + symbol } : Node).withAttr .label (.text label)) ++
      (tree.sketch (pos + offset) ++
        .ofWire ⟨pos + offset + tree.pin, pos + symbol + shape.pin 0⟩)

/-- The operands of a gate whose symbol is at `gate`, each with the wire to its
pin, the first being number `pin`. -/
def sketchAll (pos gate : Point) (shape : Shape) (pin : Nat) : List (Point × Layout) → Drawing
  | [] => {}
  | (offset, operand) :: operands =>
    operand.sketch (pos + offset) ++
      (.ofWire ⟨gate + shape.pin pin, pos + offset + operand.pin⟩ ++
        sketchAll pos gate shape (pin + 1) operands)

end

mutual

/-- The plane has every point of a layout with its corner at `pos`, and the
shapes have every pin that something is wired to. -/
def Fits (pos : Point) : Layout → Prop
  | .leaf _ _ => pos.InPlane
  | .gate _ pin _ shape symbol operands =>
    (pos + symbol).InPlane ∧ FitsAll pos (pos + symbol) shape 0 operands ∧ (pos + pin).InPlane
  | .output _ _ shape symbol offset tree =>
    (pos + symbol).InPlane ∧ (pos + offset).InPlane ∧ tree.Fits (pos + offset) ∧
      0 < shape.inputs.length ∧ (pos + symbol + shape.pin 0).InPlane

def FitsAll (pos gate : Point) (shape : Shape) (pin : Nat) : List (Point × Layout) → Prop
  | [] => True
  | (offset, operand) :: operands =>
    (pos + offset).InPlane ∧ operand.Fits (pos + offset) ∧ pin < shape.inputs.length ∧
      (gate + shape.pin pin).InPlane ∧ FitsAll pos gate shape (pin + 1) operands

end

mutual

/-- **A layout is drawn exactly when it fits**, and then its sketch is what
comes after the drawing so far. -/
theorem draw_eq_ok_iff (pos : Point) : (m : Layout) → ∀ {d : Drawing} {r : Point × Drawing},
    m.draw pos d = .ok r ↔ m.Fits pos ∧ r = (pos + m.pin, d ++ m.sketch pos)
  | .leaf _ l, d, r => by
    simp only [draw, bind_eq_ok_iff, Point.add_eq_ok_iff_inPlane, Point.add_origin, Fits, pin, sketch,
      Drawing.addLeaf_eq]
    refine ⟨?_, ?_⟩
    · intro h
      obtain ⟨_, ⟨hpos, rfl⟩, ⟨⟩⟩ := h
      exact ⟨hpos, rfl⟩
    · intro h
      obtain ⟨hpos, rfl⟩ := h
      exact ⟨_, ⟨hpos, rfl⟩, rfl⟩
  | .gate _ pin kind shape symbol operands, d, r => by
    simp only [draw, bind_eq_ok_iff, Point.add_eq_ok_iff_inPlane, drawAll_eq_ok_iff, Fits, sketch,
      Layout.pin, Drawing.addNode_eq, Drawing.append_assoc]
    refine ⟨?_, ?_⟩
    · intro h
      obtain ⟨_, ⟨hgate, rfl⟩, _, ⟨hoperands, rfl⟩, _, ⟨hpin, rfl⟩, ⟨⟩⟩ := h
      exact ⟨⟨hgate, hoperands, hpin⟩, rfl⟩
    · intro h
      obtain ⟨⟨hgate, hoperands, hpin⟩, rfl⟩ := h
      exact ⟨_, ⟨hgate, rfl⟩, _, ⟨hoperands, rfl⟩, _, ⟨hpin, rfl⟩, rfl⟩
  | .output _ label shape symbol offset tree, d, r => by
    simp only [draw, bind_eq_ok_iff, Point.add_eq_ok_iff_inPlane, Shape.input_eq_ok_iff_pin, Fits, sketch,
      Drawing.addNode_eq, Drawing.addWire_eq]
    refine ⟨?_, ?_⟩
    · intro h
      obtain ⟨_, ⟨hsymbol, rfl⟩, _, ⟨hoffset, rfl⟩, ⟨source, d'⟩, htree, _, ⟨hpin, rfl⟩, _, ⟨htarget, rfl⟩,
        ⟨⟩⟩ := h
      obtain ⟨hfits, heq⟩ := (draw_eq_ok_iff (pos + offset) tree).1 htree
      cases heq
      exact ⟨⟨hsymbol, hoffset, hfits, hpin, htarget⟩, by simp only [Drawing.append_assoc]; rfl⟩
    · intro h
      obtain ⟨⟨hsymbol, hoffset, htree, hpin, htarget⟩, rfl⟩ := h
      exact ⟨_, ⟨hsymbol, rfl⟩, _, ⟨hoffset, rfl⟩, _, (draw_eq_ok_iff (pos + offset) tree).2 ⟨htree, rfl⟩,
        _, ⟨hpin, rfl⟩, _, ⟨htarget, rfl⟩, by simp only [Drawing.append_assoc]; rfl⟩

theorem drawAll_eq_ok_iff (pos gate : Point) (shape : Shape) (pin : Nat) :
    (operands : List (Point × Layout)) → ∀ {d d' : Drawing},
      drawAll pos gate shape pin operands d = .ok d' ↔
        FitsAll pos gate shape pin operands ∧ d' = d ++ sketchAll pos gate shape pin operands
  | [], d, d' => by
    simp only [drawAll, FitsAll, sketchAll, Drawing.append_empty, true_and]
    refine ⟨?_, ?_⟩
    · intro h
      cases h
      rfl
    · intro h
      subst h
      rfl
  | (offset, operand) :: operands, d, d' => by
    simp only [drawAll, bind_eq_ok_iff, Point.add_eq_ok_iff_inPlane, Shape.input_eq_ok_iff_pin, FitsAll,
      sketchAll, drawAll_eq_ok_iff pos gate shape (pin + 1) operands, Drawing.addWire_eq]
    refine ⟨?_, ?_⟩
    · intro h
      obtain ⟨_, ⟨hoffset, rfl⟩, ⟨source, e⟩, hoperand, _, ⟨hpin, rfl⟩, _, ⟨htarget, rfl⟩, hrest, rfl⟩ := h
      obtain ⟨hfits, heq⟩ := (draw_eq_ok_iff (pos + offset) operand).1 hoperand
      cases heq
      exact ⟨⟨hoffset, hfits, hpin, htarget, hrest⟩, by simp only [Drawing.append_assoc]⟩
    · intro h
      obtain ⟨⟨hoffset, hoperand, hpin, htarget, hrest⟩, rfl⟩ := h
      exact ⟨_, ⟨hoffset, rfl⟩, _, (draw_eq_ok_iff (pos + offset) operand).2 ⟨hoperand, rfl⟩,
        _, ⟨hpin, rfl⟩, _, ⟨htarget, rfl⟩, hrest, by simp only [Drawing.append_assoc]⟩

end

mutual

theorem leaves_sketch (pos : Point) : (m : Layout) →
    (m.sketch pos).leaves.toList.map Leaf.literal = m.tree.leaves
  | .leaf _ _ => rfl
  | .gate _ _ _ shape symbol operands => by
    have hrest := leaves_sketchAll pos (pos + symbol) shape 0 operands
    simpa [sketch, tree, GateTree.leaves] using hrest
  | .output _ _ _ _ offset m => by
    have htree := leaves_sketch (pos + offset) m
    simpa [sketch, tree, GateTree.leaves] using htree

theorem leaves_sketchAll (pos gate : Point) (shape : Shape) (pin : Nat) : (operands : List (Point × Layout)) →
    (sketchAll pos gate shape pin operands).leaves.toList.map Leaf.literal = GateTree.leavesAll (trees operands)
  | [] => rfl
  | (offset, m) :: operands => by
    have hfirst := leaves_sketch (pos + offset) m
    have hrest := leaves_sketchAll pos gate shape (pin + 1) operands
    simp [sketchAll, trees, GateTree.leavesAll, hfirst, hrest]

end

end Layout

end Schematic
