/-
Boxes nest, whatever the catalog. All that is asked of a catalog is that cells
and symbols take no negative room; its pins may be anywhere, and a gate may have
any number of operands, none included. The layout of any tree is then spaced
(`spaced_of_ofTree`): a stack only grows downwards, a box is at least as high as
the stack in it, and a symbol starts right of the widest operand. Since every
part is the layout of its own tree, this holds at every depth.
-/
import Schematic.Proofs.Parts
import Mathlib.Data.Set.Prod
import Mathlib.Algebra.Order.Field.Rat

namespace Schematic

/-! ## Interiors -/

namespace Box

/-- What lies strictly inside a box. -/
def interior (b : Box) : Set (ℚ × ℚ) :=
  Set.Ioo (b.corner.x : ℚ) b.right ×ˢ Set.Ioo (b.corner.y : ℚ) b.bottom

variable {gap : Int} {a b : Box}

theorem LeftOf.interior_inter (hgap : 0 ≤ gap) (h : LeftOf gap a b) : a.interior ∩ b.interior = ∅ := by
  have hle : a.right ≤ b.corner.x := (Int.le_add_of_nonneg_right hgap).trans h
  refine Set.eq_empty_iff_forall_notMem.2 fun p hp => ?_
  obtain ⟨⟨⟨-, hright⟩, -⟩, ⟨hleft, -⟩, -⟩ := hp
  have hcast : (a.right : ℚ) ≤ b.corner.x := by exact_mod_cast hle
  exact absurd (hright.trans_le hcast) hleft.not_gt

theorem Above.interior_inter (hgap : 0 ≤ gap) (h : Above gap a b) : a.interior ∩ b.interior = ∅ := by
  have hle : a.bottom ≤ b.corner.y := (Int.le_add_of_nonneg_right hgap).trans h
  refine Set.eq_empty_iff_forall_notMem.2 fun p hp => ?_
  obtain ⟨⟨-, -, hbottom⟩, -, htop, -⟩ := hp
  have hcast : (a.bottom : ℚ) ≤ b.corner.y := by exact_mod_cast hle
  exact absurd (hbottom.trans_le hcast) htop.not_gt

theorem Apart.interior_inter (hgap : 0 ≤ gap) (h : a.Apart gap b) : a.interior ∩ b.interior = ∅ := by
  rcases h with (h | h) | h | h
  · exact h.interior_inter hgap
  · rw [Set.inter_comm]
    exact h.interior_inter hgap
  · exact h.interior_inter hgap
  · rw [Set.inter_comm]
    exact h.interior_inter hgap

end Box

/-- Neither the cells of a catalog nor its symbols take negative room. -/
structure Catalog.Roomy (catalog : Catalog) : Prop where
  size : 0 ≤ catalog.size
  footprint : ∀ kind shape, catalog.shape kind = .ok shape →
    0 ≤ shape.footprint.width ∧ 0 ≤ shape.footprint.height

namespace Layout

open Box (Inside LeftOf Above Apart)

/-! ## Layouts of trees are spaced -/

variable {catalog : Catalog}

mutual

/-- **The layout of any tree is spaced**, and not upside down. -/
theorem spaced_of_ofTree (hc : catalog.Roomy) : (t : GateTree) → ∀ {m : Layout}, ofTree catalog t = .ok m →
    0 ≤ m.extent.height ∧ m.Spaced catalog.size
  | .leaf l, m, h => by
    cases h
    exact ⟨hc.size, trivial⟩
  | .gate kind ts, m, h => by
    obtain ⟨shape, stack, hshape, hstack, rfl⟩ := exists_of_ofTree_gate h
    obtain ⟨hwide, hhigh⟩ := hc.footprint kind shape hshape
    obtain ⟨hwidth, -, hspaced⟩ := spacedAll_of_ofTrees hc ts hstack
    have hsize := hc.size
    refine ⟨hhigh.trans (le_max_right ..), ⟨?_, ?_, ?_, ?_⟩, ?_, ?_⟩
    · simp only [Point.x_origin]
      omega
    · simp only [Box.right, Point.x_origin]
      omega
    · exact le_rfl
    · simp only [Box.bottom, Point.y_origin, zero_add]
      exact le_max_right ..
    · simp only
      omega
    · exact hspaced _ (by simp only; omega) (le_max_left ..)
  | .output label t, m, h => by
    obtain ⟨shape, tree, -, hshape, htree, rfl⟩ := exists_of_ofTree_output h
    obtain ⟨hwide, -⟩ := hc.footprint .output shape hshape
    obtain ⟨hheight, hspaced⟩ := spaced_of_ofTree hc t htree
    have hsize := hc.size
    refine ⟨Int.add_nonneg hheight hsize, ⟨le_rfl, ?_, ?_, ?_⟩, hspaced⟩
    · simp only [box, Box.right, Point.x_origin]
      omega
    · simp only [box, Point.y_origin]
      omega
    · simp only [box, Box.bottom, Point.y_origin]
      omega

/-- A stack grows downwards and to the right, and its operands keep to any room
that has its width and ends no higher. -/
theorem spacedAll_of_ofTrees (hc : catalog.Roomy) : (ts : List GateTree) → ∀ {y width : Int} {stack : Stack},
    ofTrees catalog y width ts = .ok stack → width ≤ stack.width ∧ y ≤ stack.bottom ∧
      ∀ room : Extent, stack.width ≤ room.width → stack.bottom - catalog.size ≤ room.height →
        SpacedAll catalog.size y room stack.operands
  | [], y, width, stack, h => by
    cases h
    exact ⟨le_rfl, le_rfl, fun _ _ _ => trivial⟩
  | t :: ts, y, width, stack, h => by
    obtain ⟨operand, rest, hoperand, hrest, rfl⟩ := exists_of_ofTrees_cons h
    obtain ⟨hheight, hspaced⟩ := spaced_of_ofTree hc t hoperand
    obtain ⟨hwidth, hbottom, hbelow⟩ := spacedAll_of_ofTrees hc ts hrest
    have hsize := hc.size
    obtain ⟨hwidth', hoperand'⟩ := max_le_iff.1 hwidth
    refine ⟨hwidth', by simp only; omega, fun room hroom hlow => ⟨⟨le_rfl, ?_, le_rfl, ?_⟩, hheight, hspaced, ?_⟩⟩
    · simp only [box, Box.right] at hroom ⊢
      omega
    · simp only [box, Box.bottom] at hlow ⊢
      omega
    · rw [add_assoc]
      exact hbelow room hroom hlow

end

/-! ## Operands of a spaced gate -/

/-- A part with its corner at `pos` keeps order. The operands of a gate are in
its box and a gap apart, one below the other; its symbol is in the box too, and
starts a gap to the right of them all. The tree of an output terminal is in the
terminal's box. -/
def Orderly (gap : Int) (pos : Point) : Layout → Prop
  | .leaf .. => True
  | .gate extent _ _ shape symbol operands =>
    (∀ o ∈ operands, (o.2.box (pos + o.1)).Inside ⟨pos, extent⟩ ∧
      LeftOf gap (o.2.box (pos + o.1)) ⟨pos + symbol, shape.footprint⟩) ∧
    (operands.Pairwise fun a b => Above gap (a.2.box (pos + a.1)) (b.2.box (pos + b.1))) ∧
    Inside ⟨pos + symbol, shape.footprint⟩ ⟨pos, extent⟩
  | .output extent _ _ _ offset m => (m.box (pos + offset)).Inside ⟨pos, extent⟩

variable {gap : Int}

theorem inside_of_mem_operands (hgap : 0 ≤ gap) : ∀ {operands : List (Point × Layout)} {y : Int} {room : Extent},
    SpacedAll gap y room operands → ∀ o ∈ operands,
      (o.2.box o.1).Inside ⟨⟨0, y⟩, ⟨room.width, room.height - y⟩⟩
  | [], _, _, _, o, ho => absurd ho List.not_mem_nil
  | p :: operands, y, room, h, o, ho => by
    obtain ⟨hbox, hheight, -, hrest⟩ := h
    rcases List.mem_cons.1 ho with rfl | ho
    · exact hbox
    · exact (inside_of_mem_operands hgap hrest o ho).trans (inside_below hgap hbox hheight)

theorem pairwise_operands (hgap : 0 ≤ gap) (pos : Point) : ∀ {operands : List (Point × Layout)} {y : Int}
    {room : Extent}, SpacedAll gap y room operands →
      operands.Pairwise fun a b => Above gap (a.2.box (pos + a.1)) (b.2.box (pos + b.1))
  | [], _, _, _ => List.Pairwise.nil
  | p :: operands, y, room, h => by
    obtain ⟨-, -, -, hrest⟩ := h
    refine List.pairwise_cons.2 ⟨fun o ho => ?_, pairwise_operands hgap pos hrest⟩
    have htop := (inside_of_mem_operands hgap hrest o ho).top
    simp only [box] at htop
    simp only [Above, Box.bottom, box, Point.y_add]
    omega

/-- **A spaced layout keeps order**, wherever its corner is. -/
theorem Spaced.orderly (hgap : 0 ≤ gap) {m : Layout} (h : m.Spaced gap) (pos : Point) : m.Orderly gap pos := by
  cases m with
  | leaf extent l => trivial
  | gate extent pin kind shape symbol operands =>
    obtain ⟨hsymbol, hcolumn, hoperands⟩ := h
    refine ⟨fun o ho => ?_, pairwise_operands hgap pos hoperands, ?_⟩
    · have hin : (o.2.box o.1).Inside ⟨⟨0, 0⟩, ⟨symbol.x - gap, extent.height - 0⟩⟩ :=
        inside_of_mem_operands hgap hoperands o ho
      refine ⟨?_, ?_⟩
      · have hbox := (hin.trans (room_inside hcolumn)).shift pos
        rwa [Point.add_origin] at hbox
      · have hright := hin.right
        simp only [box, Box.right] at hright
        simp only [LeftOf, box, Box.right, Point.x_add]
        omega
    · have hbox := hsymbol.shift pos
      rwa [Point.add_origin] at hbox
  | output extent label shape symbol offset m =>
    have hbox := h.1.shift pos
    rwa [Point.add_origin] at hbox

/-- **Boxes nest, whatever the catalog.** When a tree of any kind is laid out and
drawn, its parts stand where the list of parts says, each with the box measured
for it, and each part keeps order there. So no two leaf cells or gate symbols
of a drawing overlap; they are a cell apart. -/
theorem draw_orderly (hc : catalog.Roomy) {t : GateTree} {m : Layout} (hm : ofTree catalog t = .ok m)
    {pos out : Point} {d d' : Drawing} (hdraw : m.draw pos d = .ok (out, d')) :
    ((m.partsAt pos).map fun p => p.2.tree) = t.parts ∧
    (d'.leaves.toList = d.leaves.toList ++ (m.partsAt pos).filterMap leaf? ∧
      d'.circuit.nodes.toList = d.circuit.nodes.toList ++ (m.partsAt pos).filterMap node?) ∧
    (∀ p ∈ m.partsAt pos, ofTree catalog p.2.tree = .ok p.2 ∧ p.2.Orderly catalog.size p.1) ∧
    ((m.partsAt pos).filterMap symbol?).Pairwise fun a b =>
      a.Apart catalog.size b ∧ a.interior ∩ b.interior = ∅ := by
  refine ⟨?_, drawn_of_draw hdraw, fun p hp => ?_, ?_⟩
  · rw [map_tree_partsAt, tree_of_ofTree t hm]
  · have hpart := ofTree_of_mem_partsAt t hm hp
    exact ⟨hpart, (spaced_of_ofTree hc _ hpart).2.orderly hc.size p.1⟩
  · rw [← symbols_eq]
    have hapart := pairwise_symbols hc.size m (spaced_of_ofTree hc t hm).2 pos
    exact hapart.imp fun h => ⟨h, h.interior_inter hc.size⟩

end Layout

/-- A catalog whose symbols are alike, whatever the kind of node, and whose pins
lie outside them. -/
def Catalog.uniform : Catalog where
  size := 10
  shape _ := .ok ⟨[⟨-3, 0⟩, ⟨-3, 40⟩, ⟨-3, 80⟩], some ⟨50, -70⟩, ⟨15, 4⟩⟩
  supports _ _ := true

namespace Layout

/-- A gate of more inputs than operands, with a gate that has no operands and
an output terminal among them. -/
def crowded : GateTree :=
  .gate (.and 7) [.gate .not [], .output "inner" (.gate (.or 1) [.leaf ⟨⟨"U", by decide⟩, false⟩]),
    .leaf ⟨⟨"V", by decide⟩, true⟩]

/-- Its five symbols do not overlap, though a terminal stands outside the box
around it. -/
theorem draw_orderly_of_crowded : Catalog.uniform.Roomy ∧ ∃ m out d,
    ofTree .uniform crowded = .ok m ∧ m.draw ⟨-5, 7⟩ {} = .ok (out, d) ∧
    (∀ p ∈ m.partsAt ⟨-5, 7⟩, p.2.Orderly 10 p.1) ∧ ((m.partsAt ⟨-5, 7⟩).filterMap symbol?).length = 5 ∧
    ((m.partsAt ⟨-5, 7⟩).filterMap symbol?).Pairwise fun a b => a.interior ∩ b.interior = ∅ := by
  have hc : Catalog.uniform.Roomy := by
    refine ⟨by decide, fun kind shape h => ?_⟩
    cases h
    exact ⟨by decide, by decide⟩
  obtain ⟨m, hm⟩ : ∃ m, ofTree .uniform crowded = .ok m := ⟨_, rfl⟩
  obtain ⟨⟨out, d⟩, hd⟩ : ∃ r, m.draw ⟨-5, 7⟩ {} = .ok r := by
    cases hm
    exact ⟨_, rfl⟩
  obtain ⟨-, -, hparts, hsymbols⟩ := draw_orderly hc hm hd
  refine ⟨hc, m, out, d, hm, hd, fun p hp => (hparts p hp).2, ?_, hsymbols.imp And.right⟩
  cases hm
  rfl

end Layout

end Schematic
