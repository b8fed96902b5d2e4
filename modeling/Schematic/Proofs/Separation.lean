/-
No two symbols of a sheet on the grid overlap. A symbol is the cell of a leaf or
the room that the shape of a node takes. The layout of a complete tree is
spaced (`spaced_plan`), so its symbols are a cell apart; the terminal of an
expression stands a cell to the right of its tree; and the strips of a sheet are
a cell apart because each addition starts a cell below the one before
(`Run.stacked`). The input bus is above them all.
-/
import Schematic.Proofs.Netlist
import Schematic.Proofs.Inventory

namespace Schematic

open GateTree
open Box (Inside LeftOf Above Apart)

/-! ## Shapes of what is drawn -/

namespace Catalog

/-- The shape of a gate or an output terminal on the grid. -/
def drawnShape (s : Int) : NodeKind → Shape
  | .output => terminal s [.origin] none
  | kind => gateShape s kind

theorem drawnShape_of_isGate {s : Int} {kind : NodeKind} (h : kind.isGate = true) :
    drawnShape s kind = gateShape s kind := by
  cases kind with
  | output => cases h
  | input | not | and | or => rfl

/-- The box that the symbol of a node takes. -/
def symbol (catalog : Catalog) (node : Node) : Except Fault Box := do
  return ⟨node.pos, (← catalog.shape node.kind).footprint⟩

end Catalog

namespace Drawing

/-- The boxes of everything drawn: a cell for each leaf, and the symbols of the
nodes. -/
def symbols (catalog : Catalog) (d : Drawing) : Except Fault (List Box) := do
  let nodes ← d.circuit.nodes.toList.mapM catalog.symbol
  return d.leaves.toList.map (fun leaf => ⟨leaf.pos, ⟨catalog.size, catalog.size⟩⟩) ++ nodes

/-- The boxes of everything drawn on the grid. -/
def boxes (s : Int) (d : Drawing) : List Box :=
  d.leaves.toList.map (fun leaf => ⟨leaf.pos, ⟨s, s⟩⟩) ++
    d.circuit.nodes.toList.map fun n => ⟨n.pos, (Catalog.drawnShape s n.kind).footprint⟩

variable {s : Int} {d e : Drawing}

theorem symbols_eq_boxes (h : ∀ n ∈ d.circuit.nodes,
    (Catalog.grid s).shape n.kind = .ok (Catalog.drawnShape s n.kind)) :
    d.symbols (.grid s) = .ok (d.boxes s) := by
  have hnodes : d.circuit.nodes.toList.mapM (Catalog.grid s).symbol = .ok (d.circuit.nodes.toList.map
      fun n => ⟨n.pos, (Catalog.drawnShape s n.kind).footprint⟩) := by
    refine mapM_eq_ok_map fun n hn => ?_
    rw [Catalog.symbol, h n (Array.mem_toList_iff.1 hn)]
    rfl
  rw [symbols, hnodes]
  rfl

@[simp] theorem boxes_ofWire (s : Int) (wire : Wire) : (ofWire wire).boxes s = [] := rfl

@[simp] theorem boxes_ofNode (s : Int) (node : Node) :
    (ofNode node).boxes s = [⟨node.pos, (Catalog.drawnShape s node.kind).footprint⟩] := rfl

theorem boxes_append (s : Int) (d e : Drawing) : ((d ++ e).boxes s).Perm (d.boxes s ++ e.boxes s) := by
  refine List.perm_iff_count.2 fun b => ?_
  simp only [boxes, append_eq, Array.toList_append, List.map_append, List.count_append]
  omega

end Drawing

/-! ## Trees -/

namespace GateTree

variable {s : Int}

mutual

/-- **The layout of a complete tree is spaced.** -/
theorem spaced_plan (hs : 0 < s) : (t : GateTree) → t.Complete → (t.plan s).Spaced s
  | .leaf _, _ => trivial
  | .gate kind ts, h => by
    obtain ⟨hpos, hle⟩ := arity_le_leafCountAll h
    have hhigh : (kind.arity : Int) * s ≤ leafCountAll ts * s := mul_le_mul_of_nonneg_right (by omega) hs.le
    have hcell : s ≤ leafCountAll ts * s := le_mul_of_one_le_left hs.le (by omega)
    have hspan : 0 ≤ (spanAll ts : Int) * s := mul_nonneg (by omega) hs.le
    have hsymbol : 0 ≤ (kind.width : Int) * s := mul_nonneg (by omega) hs.le
    refine ⟨⟨?_, ?_, ?_, ?_⟩, ?_, ?_⟩
    · simp only [Point.x_origin]
      linarith
    · simp only [Box.right, Catalog.gateShape, Point.x_origin]
      linarith
    · exact le_rfl
    · simp only [Box.bottom, Catalog.gateShape, Point.y_origin]
      linarith
    · simp only
      linarith
    · refine spacedAll_planAll hs ts h.2.2.2 le_rfl (fun _ => ?_) ?_ <;> simp only <;> linarith
  | .output _ _, h => h.elim

theorem spacedAll_planAll (hs : 0 < s) : (ts : List GateTree) → CompleteAll ts →
    ∀ {y top : Int} {room : Extent}, top ≤ y → (ts ≠ [] → y + 2 * leafCountAll ts * s - s ≤ room.height) →
      (1 + spanAll ts) * s ≤ room.width → Layout.SpacedAll s top room (planAll s y ts)
  | [], _, _, _, _, _, _, _ => trivial
  | t :: ts, h, y, top, room, htop, hheight, hwidth => by
    have hheight := hheight (by simp)
    rw [leafCountAll] at hheight
    push_cast at hheight
    rw [spanAll, ← max_span_mul hs.le, max_le_iff] at hwidth
    have hrest : 0 ≤ (leafCountAll ts : Int) * s := mul_nonneg (by omega) hs.le
    have hcell : s ≤ t.leafCount * s := le_mul_of_one_le_left hs.le (by have := leafCount_pos t h.1; omega)
    refine ⟨⟨le_rfl, ?_, htop, ?_⟩, ?_, spaced_plan hs t h.1, ?_⟩
    · simp only [Layout.box, Box.right, extent_plan h.1]
      linarith
    · simp only [Layout.box, Box.bottom, extent_plan h.1]
      linarith
    · simp only [extent_plan h.1]
      linarith
    · refine spacedAll_planAll hs ts h.2 ?_ (fun _ => ?_) hwidth.2
      · simp only [extent_plan h.1]
        linarith
      · linarith

end

mutual

/-- **The boxes of a tree drawn on the grid** are the symbols of its layout. -/
theorem boxes_sketch : (t : GateTree) → t.Complete → ∀ pos : Point,
    (((t.plan s).sketch pos).boxes s).Perm ((t.plan s).symbols pos)
  | .leaf _, _, _ => .refl _
  | .gate kind ts, h, pos => by
    rw [plan, Layout.sketch, Layout.symbols, ← Catalog.drawnShape_of_isGate h.1]
    exact (Drawing.boxes_append s _ _).trans
      ((boxes_sketchAll ts h.2.2.2 pos _ 0 _ 0).cons _)
  | .output _ _, h, _ => h.elim

theorem boxes_sketchAll : (ts : List GateTree) → CompleteAll ts →
    ∀ (pos symbol : Point) (y : Int) (shape : Shape) (pin : Nat),
      ((Layout.sketchAll pos symbol shape pin (planAll s y ts)).boxes s).Perm
        (Layout.symbolsAll pos (planAll s y ts))
  | [], _, _, _, _, _, _ => .refl _
  | t :: ts, h, pos, symbol, y, shape, pin => by
    rw [planAll, Layout.sketchAll, Layout.symbolsAll]
    refine (Drawing.boxes_append s _ _).trans ((boxes_sketch t h.1 _).append ?_)
    exact (Drawing.boxes_append s _ _).trans (boxes_sketchAll ts h.2 pos symbol _ shape (pin + 1))

end

end GateTree

/-! ## Strips on the grid -/

namespace Strip

/-- A strip of a complete tree and its terminal. -/
def OnGrid (s : Int) (strip : Strip) : Prop :=
  ∃ label t, Complete t ∧ strip.layout = plan s (.output label t)

variable {s : Int} {strip : Strip}

/-- The symbol of the terminal, right of the tree and level with its output
pin. -/
def terminalBox (s top : Int) (t : GateTree) : Box :=
  ⟨⟨(2 + t.span) * s, top + (s + (t.plan s).pin.y)⟩, ⟨s, s⟩⟩

theorem boxes_drawing {label : String} {t : GateTree} (h : t.Complete) (top : Int) :
    ((Strip.mk top (plan s (.output label t))).drawing.boxes s).Perm
      (terminalBox s top t :: (t.plan s).symbols (⟨0, top⟩ + ⟨0, s⟩)) := by
  rw [drawing, plan, Layout.sketch]
  refine (Drawing.boxes_append s _ _).trans ?_
  have hterminal : (Drawing.ofNode (({ kind := .output, pos := ⟨0, top⟩ +
      ⟨(2 + t.span) * s, s + (t.plan s).pin.y⟩ } : Node).withAttr .label (.text label))).boxes s =
        [terminalBox s top t] := by
    rw [Drawing.boxes_ofNode, terminalBox, List.singleton_inj, Box.mk.injEq]
    exact ⟨Point.ext (by simp) (by simp), rfl⟩
  rw [hterminal]
  refine List.Perm.cons _ ((Drawing.boxes_append s _ _).trans ?_)
  rw [Drawing.boxes_ofWire, List.append_nil]
  exact boxes_sketch t h _

theorem box_eq (s top : Int) (label : String) (t : GateTree) :
    (Strip.mk top (plan s (.output label t))).box = ⟨⟨0, top⟩, ⟨(3 + t.span) * s, 2 * t.leafCount * s⟩⟩ :=
  rfl

/-- The tree of a strip is in the box of the strip, and the terminal too. -/
theorem inside_box (hs : 0 < s) (label : String) {t : GateTree} (h : t.Complete) (top : Int) :
    ((t.plan s).box (⟨0, top⟩ + ⟨0, s⟩)).Inside (Strip.mk top (plan s (.output label t))).box ∧
      (terminalBox s top t).Inside (Strip.mk top (plan s (.output label t))).box := by
  obtain ⟨hpin, hpin'⟩ := Layout.pin_plan_bounds hs h
  have hspan : 0 ≤ (t.span : Int) * s := mul_nonneg (by omega) hs.le
  rw [box_eq, Layout.box, extent_plan h]
  refine ⟨⟨?_, ?_, ?_, ?_⟩, ?_, ?_, ?_, ?_⟩ <;>
    simp only [terminalBox, Box.right, Box.bottom, Point.x_add, Point.y_add] <;> linarith

theorem OnGrid.inside (hs : 0 < s) (h : strip.OnGrid s) : ∀ b ∈ strip.drawing.boxes s, b.Inside strip.box := by
  obtain ⟨top, layout⟩ := strip
  obtain ⟨label, t, hc, rfl⟩ := h
  obtain ⟨htree, hterminal⟩ := inside_box hs label hc top
  intro b hb
  rcases List.mem_cons.1 ((boxes_drawing hc top).mem_iff.1 hb) with rfl | hb
  · exact hterminal
  · exact (Layout.inside_of_mem_symbols hs.le _ (spaced_plan hs t hc) hb).trans htree

theorem OnGrid.pairwise (hs : 0 < s) (h : strip.OnGrid s) : (strip.drawing.boxes s).Pairwise (Apart s) := by
  obtain ⟨top, layout⟩ := strip
  obtain ⟨label, t, hc, rfl⟩ := h
  have hspaced := spaced_plan hs t hc
  rw [(boxes_drawing hc top).pairwise_iff Apart.symm, List.pairwise_cons]
  refine ⟨fun b hb => .inl (.inr ?_), Layout.pairwise_symbols hs.le _ hspaced _⟩
  have hbox : LeftOf s ((t.plan s).box (⟨0, top⟩ + ⟨0, s⟩)) (terminalBox s top t) := by
    simp only [LeftOf, terminalBox, Layout.box, Box.right, extent_plan hc, Point.x_add]
    linarith
  exact hbox.mono (Layout.inside_of_mem_symbols hs.le _ hspaced hb) (Inside.refl _)

theorem OnGrid.top_le_bottom (hs : 0 < s) (h : strip.OnGrid s) : strip.top ≤ strip.box.bottom := by
  obtain ⟨top, layout⟩ := strip
  obtain ⟨label, t, -, rfl⟩ := h
  have hpos : 0 ≤ (t.leafCount : Int) * s := mul_nonneg (by omega) hs.le
  rw [box_eq, Box.bottom]
  linarith

theorem boxes_drawings (s : Int) : ∀ strips : List Strip,
    ((drawings strips).boxes s).Perm (strips.flatMap fun strip => strip.drawing.boxes s)
  | [] => .refl _
  | strip :: strips => by
    rw [drawings, List.flatMap_cons]
    exact (Drawing.boxes_append s _ _).trans ((List.Perm.refl _).append (boxes_drawings s strips))

end Strip

/-! ## Sheets -/

theorem Slot.y_neg_of_mem_draft {s bottom plain : Int} {v : Variable} (hs : 0 < s) {n : Node}
    (hn : n ∈ (draft s bottom plain v).nodes) : n.pos.y < 0 := by
  simp only [draft, List.mem_cons, List.not_mem_nil, or_false] at hn
  rcases hn with rfl | rfl <;> simp only [terminal, Node.withAttr_pos] <;> omega

namespace Sheet

variable {s : Int} {before after sheet : Sheet} {o : String × Expr} {outputs : List (String × Expr)}
  {strip : Strip} {strips : List Strip}

theorem Adds.onGrid (hs : 0 < s) (h : before.Adds o strip after) (hcatalog : before.catalog = .grid s) :
    strip.OnGrid s := by
  obtain ⟨he, hlayout⟩ := h.layout_gates
  have hc := Expr.complete_gates he
  rw [hcatalog] at hlayout
  exact ⟨o.1, o.2.gates, hc, ((Layout.ofTree_output_eq_ok_iff hs hc).1 hlayout).2.2⟩

/-- **The strips of a run** come one after the other, a cell apart, in the rows
that the run adds to the sheet. -/
theorem Run.stacked (hs : 0 < s) (hrun : Run before outputs strips after) (hcatalog : before.catalog = .grid s) :
    before.height ≤ after.height ∧
      (∀ strip ∈ strips, strip.OnGrid s ∧ before.height ≤ strip.top ∧ strip.box.bottom + s ≤ after.height) ∧
      strips.Pairwise fun a b => Above s a.box b.box := by
  induction hrun with
  | nil => exact ⟨le_rfl, by simp, .nil⟩
  | @cons before next after o outputs strip strips hadds _ ih =>
    have hgrid := hadds.onGrid hs hcatalog
    have htop := hgrid.top_le_bottom hs
    have hnext : next.height = strip.box.bottom + s := by
      rw [hadds.height, hcatalog]
      rfl
    obtain ⟨hheight, hmem, hpairwise⟩ := ih (hadds.catalog.trans hcatalog)
    rw [hadds.top] at htop
    refine ⟨by linarith, ?_, List.pairwise_cons.2 ⟨fun later hlater => ?_, hpairwise⟩⟩
    · intro other hother
      rcases List.mem_cons.1 hother with rfl | hother
      · exact ⟨hgrid, hadds.top.ge, by linarith⟩
      · obtain ⟨hother', htop', hbottom'⟩ := hmem other hother
        exact ⟨hother', by linarith, hbottom'⟩
    · have hlow := (hmem later hlater).2.1
      rw [hnext] at hlow
      exact hlow

/-- **The symbols of a sheet are a cell apart**, any two of them. -/
theorem Run.pairwise_boxes (hs : 0 < s) (hrun : (blank (.grid s)).Run outputs strips sheet) :
    (sheet.drawing.boxes s).Pairwise (Apart s) := by
  obtain ⟨-, hmem, habove⟩ := hrun.stacked hs rfl
  rw [hrun.drawing_of_blank, (Strip.boxes_drawings s strips).pairwise_iff Apart.symm, List.pairwise_flatMap]
  refine ⟨fun strip hstrip => (hmem strip hstrip).1.pairwise hs, habove.imp_of_mem ?_⟩
  -- symbols in different strips are as far apart as the boxes of the strips
  intro a b ha hb hab x hx y hy
  exact .inr (.inl (hab.mono ((hmem a ha).1.inside hs x hx) ((hmem b hb).1.inside hs y hy)))

theorem Run.exists_strip_of_mem_boxes (hs : 0 < s) (hrun : (blank (.grid s)).Run outputs strips sheet) {b : Box}
    (hb : b ∈ sheet.drawing.boxes s) : ∃ strip ∈ strips, b.Inside strip.box := by
  rw [hrun.drawing_of_blank, (Strip.boxes_drawings s strips).mem_iff, List.mem_flatMap] at hb
  obtain ⟨strip, hstrip, hb⟩ := hb
  exact ⟨strip, hstrip, ((hrun.stacked hs rfl).2.1 strip hstrip).1.inside hs b hb⟩

theorem Run.ready (hs : 0 < s) (hrun : (blank (.grid s)).Run outputs strips sheet) : sheet.Ready s := by
  obtain ⟨hall, hwidths, htotal, rfl⟩ := (addAll_blank_eq_ok_iff hs).1 hrun.addAll_eq_ok
  exact ready_drawnAll hs hall hwidths htotal

theorem Run.shape_of_mem_nodes (hs : 0 < s) (hrun : (blank (.grid s)).Run outputs strips sheet) {n : Node}
    (hn : n ∈ sheet.drawing.circuit.nodes) :
    (Catalog.grid s).shape n.kind = .ok (Catalog.drawnShape s n.kind) := by
  rcases hrun.kind_of_mem hn with hgate | houtput
  · rw [Catalog.drawnShape_of_isGate hgate]
    exact shape_of_keepsTo hs le_rfl (hrun.ready hs).keepsTo hn hgate
  · rw [houtput]
    rfl

/-- **Nothing overlaps.** Every expression added to a sheet on the grid has a
strip, with the box of its layout from the first free row down, and its symbols
in that box; the boxes are a cell apart, each below the ones before. Any two
symbols of the sheet are a cell apart. When the circuit is finished, the nodes of
the bus are added above the first row, and the symbols are below it. -/
theorem addAll_grid_apart (hs : 0 < s) (h : (blank (.grid s)).addAll outputs = .ok sheet) :
    (∃ strips, (blank (.grid s)).Run outputs strips sheet ∧
      (∀ strip ∈ strips, ∃ symbols, strip.drawing.symbols (.grid s) = .ok symbols ∧
        ∀ b ∈ symbols, b.Inside strip.box) ∧
      strips.Pairwise fun a b => Above s a.box b.box) ∧
    (∃ symbols, sheet.drawing.symbols (.grid s) = .ok symbols ∧ symbols.Pairwise (Apart s) ∧
      ∀ b ∈ symbols, 0 ≤ b.corner.y) ∧
    ∀ circuit, sheet.circuit = .ok circuit → ∃ slots, sheet.slots = .ok slots ∧
      circuit.nodes = sheet.drawing.circuit.nodes ++ slots.flatMap Slot.nodes ∧
      ∀ n ∈ slots.flatMap Slot.nodes, n.pos.y < 0 := by
  obtain ⟨strips, hrun⟩ := exists_run h
  obtain ⟨-, hmem, habove⟩ := hrun.stacked hs rfl
  have hshape : ∀ n ∈ sheet.drawing.circuit.nodes, _ := fun n hn => hrun.shape_of_mem_nodes hs hn
  refine ⟨⟨strips, hrun, fun strip hstrip => ?_, habove⟩, ?_, fun circuit hcircuit => ?_⟩
  · refine ⟨_, Drawing.symbols_eq_boxes fun n hn => hshape n ?_, (hmem strip hstrip).1.inside hs⟩
    rw [hrun.drawing_of_blank]
    exact Strip.mem_nodes_drawings.2 ⟨strip, hstrip, hn⟩
  · refine ⟨_, Drawing.symbols_eq_boxes hshape, hrun.pairwise_boxes hs, fun b hb => ?_⟩
    obtain ⟨strip, hstrip, hin⟩ := hrun.exists_strip_of_mem_boxes hs hb
    exact (hmem strip hstrip).2.1.trans hin.top
  · have hready := hrun.ready hs
    obtain ⟨slots, hslots, rfl⟩ := circuit_eq_finished hready.registered hcircuit
    have hdrafts := slots_eq_drafts hslots
    refine ⟨slots, hslots, by rw [finished, hdrafts], fun n hn => ?_⟩
    obtain ⟨slot, hslot, hn⟩ := List.mem_flatMap.1 hn
    rw [hdrafts, hready.size] at hslot
    obtain ⟨j, hj, rfl⟩ := Slot.mem_drafts_iff.1 hslot
    exact Slot.y_neg_of_mem_draft hs hn

/-- Two expressions have two strips, and nine symbols that are a cell apart. -/
theorem addAll_grid_apart_of_two : ∃ strips symbols, (blank (.grid 20)).Run twoOutputs strips twoSheet ∧
    (strips.Pairwise fun a b => Above 20 a.box b.box) ∧
    twoSheet.drawing.symbols (.grid 20) = .ok symbols ∧ symbols.length = 9 ∧ symbols.Pairwise (Apart 20) ∧
    ∃ slots, twoSheet.slots = .ok slots ∧ ∀ n ∈ slots.flatMap Slot.nodes, n.pos.y < 0 := by
  obtain ⟨circuit, hcircuit⟩ := exists_circuit_twoSheet
  obtain ⟨⟨strips, hrun, -, habove⟩, ⟨symbols, hsymbols, hapart, -⟩, hfinished⟩ :=
    addAll_grid_apart (by decide) addAll_twoOutputs
  obtain ⟨slots, hslots, -, hbus⟩ := hfinished circuit hcircuit
  have hnine : symbols.length = 9 := by
    cases hsymbols
    rfl
  exact ⟨strips, symbols, hrun, habove, hsymbols, hnine, hapart, slots, hslots, hbus⟩

end Sheet

end Schematic
