/-
The size of a grid cell only scales a drawing. Drawing goes along with scaling
for any layout (`Layout.sketch_scale`), and the layout on cells of size `s` is
the one on unit cells scaled by `s` (`Layout.plan_scale`): every number in a
shape, an extent or an offset is a multiple of the cell. The slots of the bus
are too, so the whole circuit is the circuit on unit cells with every point
scaled, down to the order of its nodes and wires.
-/
import Schematic.Proofs.Motion
import Schematic.Proofs.Supply

namespace Schematic

open GateTree

/-! ## Scaled drawings -/

/-- The point whose coordinates are `s` times those of a point. -/
def Point.scale (s : Int) (p : Point) : Point :=
  ⟨s * p.x, s * p.y⟩

theorem Point.scale_add (s : Int) (p q : Point) : (p + q).scale s = p.scale s + q.scale s :=
  Point.ext (Int.mul_add ..) (Int.mul_add ..)

@[simp] theorem Point.scale_origin (s : Int) : Point.origin.scale s = .origin :=
  Point.ext (Int.mul_zero s) (Int.mul_zero s)

/-- The node of the same kind and attributes at the scaled position. -/
def Node.scale (s : Int) (node : Node) : Node :=
  { node with pos := node.pos.scale s }

/-- The wire between the scaled ends. -/
def Wire.scale (s : Int) (wire : Wire) : Wire :=
  ⟨wire.p.scale s, wire.q.scale s⟩

/-- The circuit with every point scaled. -/
def Circuit.scale (s : Int) (c : Circuit) : Circuit where
  nodes := c.nodes.map (Node.scale s)
  wires := c.wires.map (Wire.scale s)

/-- The leaf at the scaled position. -/
def Leaf.scale (s : Int) (leaf : Leaf) : Leaf :=
  { leaf with pos := leaf.pos.scale s }

namespace Drawing

/-- The drawing with every point scaled. -/
def scale (s : Int) (d : Drawing) : Drawing where
  circuit := d.circuit.scale s
  leaves := d.leaves.map (Leaf.scale s)

@[simp] theorem scale_empty (s : Int) : ({} : Drawing).scale s = {} :=
  move_empty (Point.scale s)

@[simp] theorem scale_append (s : Int) (d e : Drawing) : (d ++ e).scale s = d.scale s ++ e.scale s :=
  move_append (Point.scale s) d e

@[simp] theorem scale_ofNode (s : Int) (node : Node) : (ofNode node).scale s = ofNode (node.scale s) :=
  move_ofNode (Point.scale s) node

@[simp] theorem scale_ofWire (s : Int) (wire : Wire) : (ofWire wire).scale s = ofWire (wire.scale s) :=
  move_ofWire (Point.scale s) wire

@[simp] theorem scale_ofLeaf (s : Int) (leaf : Leaf) : (ofLeaf leaf).scale s = ofLeaf (leaf.scale s) :=
  move_ofLeaf (Point.scale s) leaf

end Drawing

/-! ## Scaled layouts -/

/-- The box with both sides scaled. -/
def Extent.scale (s : Int) (e : Extent) : Extent :=
  ⟨s * e.width, s * e.height⟩

/-- The shape with every pin and its room scaled. -/
def Shape.scale (s : Int) (shape : Shape) : Shape where
  inputs := shape.inputs.map (Point.scale s)
  output := shape.output.map (Point.scale s)
  footprint := shape.footprint.scale s

theorem Shape.pin_scale (s : Int) (shape : Shape) (i : Nat) : (shape.scale s).pin i = (shape.pin i).scale s := by
  rw [pin, pin, scale, List.getD_eq_getElem?_getD, List.getD_eq_getElem?_getD, List.getElem?_map]
  cases shape.inputs[i]? <;> simp

theorem Catalog.gateShape_scale (s : Int) (kind : NodeKind) : gateShape s kind = (gateShape 1 kind).scale s := by
  simp [gateShape, Shape.scale, Point.scale, Extent.scale, mul_comm s]

namespace Layout

mutual

/-- The layout with every length scaled. -/
def scale (s : Int) : Layout → Layout
  | .leaf extent l => .leaf (extent.scale s) l
  | .gate extent pin kind shape symbol operands =>
    .gate (extent.scale s) (pin.scale s) kind (shape.scale s) (symbol.scale s) (scaleAll s operands)
  | .output extent label shape symbol offset m =>
    .output (extent.scale s) label (shape.scale s) (symbol.scale s) (offset.scale s) (m.scale s)

def scaleAll (s : Int) : List (Point × Layout) → List (Point × Layout)
  | [] => []
  | (offset, m) :: operands => (offset.scale s, m.scale s) :: scaleAll s operands

end

theorem pin_scale (s : Int) (m : Layout) : (m.scale s).pin = m.pin.scale s := by
  cases m with
  | leaf => exact (Point.scale_origin s).symm
  | gate | output => rfl

mutual

/-- **A scaled layout is drawn as the layout is, scaled.** -/
theorem sketch_scale (s : Int) (pos : Point) : (m : Layout) →
    (m.scale s).sketch (pos.scale s) = (m.sketch pos).scale s
  | .leaf _ l => (Drawing.scale_ofLeaf s ⟨l, pos⟩).symm
  | .gate _ _ kind shape symbol operands => by
    simp only [scale, sketch, ← Point.scale_add, sketchAll_scale s pos (pos + symbol) shape 0 operands,
      Drawing.scale_append, Drawing.scale_ofNode]
    rfl
  | .output _ label shape symbol offset m => by
    simp only [scale, sketch, pin_scale, Shape.pin_scale, ← Point.scale_add, sketch_scale s (pos + offset) m,
      Drawing.scale_append, Drawing.scale_ofNode, Drawing.scale_ofWire]
    rfl

theorem sketchAll_scale (s : Int) (pos gate : Point) (shape : Shape) (pin : Nat) :
    (operands : List (Point × Layout)) →
      sketchAll (pos.scale s) (gate.scale s) (shape.scale s) pin (scaleAll s operands) =
        (sketchAll pos gate shape pin operands).scale s
  | [] => (Drawing.scale_empty s).symm
  | (offset, m) :: operands => by
    simp only [scaleAll, sketchAll, pin_scale, Shape.pin_scale, ← Point.scale_add,
      sketch_scale s (pos + offset) m, sketchAll_scale s pos gate shape (pin + 1) operands,
      Drawing.scale_append, Drawing.scale_ofWire]
    rfl

end

mutual

/-- **The layout on the grid is the one on unit cells, scaled.** -/
theorem plan_scale (s : Int) : (t : GateTree) → t.plan s = (t.plan 1).scale s
  | .leaf l => by simp [plan, scale, Extent.scale]
  | .gate kind ts => by
    have hops := planAll_scale s 0 ts
    rw [mul_zero] at hops
    simp only [plan, scale, hops, Catalog.gateShape_scale s, Point.scale, Extent.scale]
    simp [mul_comm s]
  | .output label t => by
    have hpin : (t.plan s).pin = (t.plan 1).pin.scale s := by rw [plan_scale s t, pin_scale]
    simp only [plan, scale, hpin, ← plan_scale s t, Point.scale, Extent.scale, Shape.scale, Catalog.terminal]
    simp [mul_comm s, one_add_mul]

theorem planAll_scale (s y : Int) : (ts : List GateTree) → planAll s (s * y) ts = scaleAll s (planAll 1 y ts)
  | [] => rfl
  | t :: ts => by
    have hnext : s * y + 2 * t.leafCount * s = s * (y + 2 * t.leafCount * 1) := by ring
    rw [planAll, planAll, scaleAll, ← plan_scale s t, hnext, planAll_scale s _ ts]
    simp [Point.scale]

end

end Layout

/-! ## Scaled buses -/

namespace Slot

/-- The slot with every point scaled. -/
def scale (s : Int) (slot : Slot) : Slot where
  var := slot.var
  plain := s * slot.plain
  inverted := s * slot.inverted
  nodes := slot.nodes.map (Node.scale s)
  wires := slot.wires.map (Wire.scale s)

theorem draft_scale (s bottom plain : Int) (v : Variable) :
    draft s (s * bottom) (s * plain) v = (draft 1 bottom plain v).scale s := by
  simp [draft, scale, terminal, Node.scale, Wire.scale, Point.scale, Node.withAttr, mul_comm s, add_mul]

theorem drafts_scale (s bottom : Int) : ∀ (plain : Int) (vs : List Variable),
    drafts s (s * bottom) (s * plain) vs = (drafts 1 bottom plain vs).map (scale s)
  | _, [] => rfl
  | plain, v :: vs => by
    have hnext : s * plain + 2 * s = s * (plain + 2 * 1) := by ring
    rw [drafts, drafts, draft_scale, hnext, drafts_scale s bottom _ vs, List.map_cons]

theorem tapOf_scale (s left : Int) (vars : List Variable) (leaf : Leaf) :
    tapOf s (s * left) vars (leaf.scale s) = (tapOf 1 left vars leaf).scale s := by
  have hrail : railOf s (s * left) vars leaf.literal = s * railOf 1 left vars leaf.literal := by
    simp only [railOf, mul_add, mul_ite, mul_one, mul_zero]
    ring
  rw [tapOf, tapOf, Wire.scale, Leaf.scale, hrail]
  rfl

end Slot

/-! ## Scaled sheets -/

theorem map_appendList {α β : Type} (f : α → β) (xs : Array α) (l : List α) :
    (xs ++ l).map f = xs.map f ++ l.map f :=
  Array.ext' (by simp)

namespace Sheet

variable {s : Int} {unit sheet : Sheet}

/-- A sheet with cells of size `s` shows what one with unit cells does,
scaled. -/
structure Scales (s : Int) (unit sheet : Sheet) : Prop where
  unit_size : unit.catalog.size = 1
  size : sheet.catalog.size = s
  drawing : sheet.drawing = unit.drawing.scale s
  height : sheet.height = s * unit.height
  vars : sheet.vars = unit.vars

theorem Scales.blank (s : Int) : Scales s (blank (.grid 1)) (blank (.grid s)) where
  unit_size := rfl
  size := rfl
  drawing := (Drawing.scale_empty s).symm
  height := (mul_zero s).symm
  vars := rfl

theorem Scales.drawn (h : Scales s unit sheet) (name : String) (e : Expr) :
    Scales s (unit.drawn 1 name e) (sheet.drawn s name e) where
  unit_size := h.unit_size
  size := h.size
  drawing := by
    have hcorner : Point.mk 0 sheet.height = Point.scale s ⟨0, unit.height⟩ := by
      rw [Point.scale, h.height, mul_zero]
    simp only [Sheet.drawn, h.drawing, hcorner, Layout.plan_scale s, Layout.sketch_scale, Drawing.scale_append]
  height := by
    simp only [Sheet.drawn, h.height]
    ring
  vars := by simp only [Sheet.drawn, h.vars]

theorem Scales.drawnAll : ∀ (outputs : List (String × Expr)) {unit sheet : Sheet}, Scales s unit sheet →
    Scales s (unit.drawnAll 1 outputs) (sheet.drawnAll s outputs)
  | [], _, _, h => h
  | o :: outputs, _, _, h => Scales.drawnAll outputs (h.drawn o.1 o.2)

theorem Scales.finished (h : Scales s unit sheet) (left : Int) :
    sheet.finished (s * left) = (unit.finished left).scale s := by
  have htap : Slot.tapOf s (s * left) unit.vars ∘ Leaf.scale s = Wire.scale s ∘ Slot.tapOf 1 left unit.vars :=
    funext (Slot.tapOf_scale s left unit.vars)
  simp only [Sheet.finished, h.unit_size, h.size, h.drawing, h.height, h.vars, Slot.drafts_scale, Drawing.scale]
  simp [Circuit.scale, Slot.scale, map_appendList, List.flatMap_map, List.map_flatMap, htap]

/-- The plane that has the boxes and rows of expressions has those on unit
cells. -/
theorem room_unit (hs : 0 < s) {outputs : List (String × Expr)}
    (hwidths : ∀ o ∈ outputs, (3 + o.2.gates.span) * s < 2 ^ 31) (htotal : rowsAll outputs * s < 2 ^ 31) :
    (∀ o ∈ outputs, (3 + (o.2.gates.span : Int)) * 1 < 2 ^ 31) ∧ rowsAll outputs * 1 < 2 ^ 31 := by
  refine ⟨fun o ho => ?_, ?_⟩
  · exact (mul_le_mul_of_nonneg_left hs (by omega)).trans_lt (hwidths o ho)
  · exact (mul_le_mul_of_nonneg_left hs (rowsAll_nonneg outputs)).trans_lt htotal

/-- What is added on the grid is added on unit cells, and scaled. -/
theorem addAll_grid_scales (hs : 0 < s) {outputs : List (String × Expr)}
    (h : (Sheet.blank (.grid s)).addAll outputs = .ok sheet) :
    ∃ unit, (Sheet.blank (.grid 1)).addAll outputs = .ok unit ∧ Scales s unit sheet := by
  obtain ⟨hall, hwidths, htotal, rfl⟩ := (addAll_blank_eq_ok_iff hs).1 h
  obtain ⟨hwidths', htotal'⟩ := room_unit hs hwidths htotal
  exact ⟨_, (addAll_blank_eq_ok_iff Int.one_pos).2 ⟨hall, hwidths', htotal', rfl⟩,
    (Scales.blank s).drawnAll outputs⟩

/-- **The size of a cell only scales the drawing.** What is built on the grid is
built on unit cells too, and is the circuit built there with every coordinate
`s` times as large; so is the height of the sheet after each expression. -/
theorem build_grid_scales {s : Int} (hs : 0 < s) {outputs : List (String × Expr)} {circuit : Circuit}
    (h : build (.grid s) outputs = .ok circuit) :
    (∃ unit, build (.grid 1) outputs = .ok unit ∧ circuit = unit.scale s) ∧
      ∀ before after, outputs = before ++ after → ∃ sheet unit,
        (blank (.grid s)).addAll before = .ok sheet ∧ (blank (.grid 1)).addAll before = .ok unit ∧
        sheet.height = s * unit.height := by
  refine ⟨?_, fun before after hsplit => ?_⟩
  · obtain ⟨hall, hwidths, htotal, -, rfl⟩ := (build_grid_eq_ok_iff hs).1 h
    obtain ⟨hwidths', htotal'⟩ := room_unit hs hwidths htotal
    have hscales := (Scales.blank s).drawnAll outputs
    refine ⟨_, (build_grid_eq_ok_iff Int.one_pos).2 ⟨hall, hwidths', htotal', .inr (by norm_num), rfl⟩, ?_⟩
    rw [← hscales.finished, hscales.vars]
    congr 1
    ring
  · obtain ⟨_, hsheet, -⟩ := bind_eq_ok_iff.1 h
    rw [hsplit, addAll, List.foldlM_append] at hsheet
    obtain ⟨sheet, hbefore, -⟩ := bind_eq_ok_iff.1 hsheet
    obtain ⟨unit, hunit, hscales⟩ := addAll_grid_scales hs hbefore
    exact ⟨sheet, unit, hbefore, hunit, hscales.height⟩

/-- Two outputs on cells of the usual size. -/
theorem build_grid_scales_of_two :
    ∃ circuit, build (.grid 20) twoOutputs = .ok circuit ∧
      (∃ unit, build (.grid 1) twoOutputs = .ok unit ∧ circuit = unit.scale 20) ∧
      ∀ before after, twoOutputs = before ++ after → ∃ sheet unit,
        (blank (.grid 20)).addAll before = .ok sheet ∧ (blank (.grid 1)).addAll before = .ok unit ∧
        sheet.height = 20 * unit.height := by
  obtain ⟨circuit, hcircuit⟩ := exists_circuit_twoSheet
  have hbuild : build (.grid 20) twoOutputs = .ok circuit :=
    bind_eq_ok_iff.2 ⟨_, addAll_twoOutputs, hcircuit⟩
  exact ⟨circuit, hbuild, build_grid_scales (by decide) hbuild⟩

end Sheet

end Schematic
