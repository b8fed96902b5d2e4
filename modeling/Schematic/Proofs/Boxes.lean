/-
The boxes of a layout. A layout is `Spaced` when its parts keep to its box and
a gap apart: the operands of a gate one below the other, its symbol to the right
of them all. Then every leaf and every gate is in the box
(`inside_of_mem_symbols`) and any two of them are a gap apart
(`pairwise_symbols`), by induction along the layout, since what is in one of two
boxes keeps the distance that the boxes keep.

Nothing here knows a catalog or looks at a pin.
-/
import Schematic.Layout
import Schematic.Proofs.Sketch
import Mathlib.Tactic.Linarith

namespace Schematic

/-! ## Boxes -/

/-- A box by its upper left corner and its size. -/
structure Box where
  corner : Point
  extent : Extent
  deriving DecidableEq, Repr

namespace Box

/-- The column in which a box ends. -/
def right (b : Box) : Int :=
  b.corner.x + b.extent.width

/-- The row in which a box ends. -/
def bottom (b : Box) : Int :=
  b.corner.y + b.extent.height

/-- One box lies in another. -/
structure Inside (a b : Box) : Prop where
  left : b.corner.x ≤ a.corner.x
  right : a.right ≤ b.right
  top : b.corner.y ≤ a.corner.y
  bottom : a.bottom ≤ b.bottom

/-- The first box ends at least `gap` left of the second. -/
def LeftOf (gap : Int) (a b : Box) : Prop :=
  a.right + gap ≤ b.corner.x

/-- The first box ends at least `gap` above the second. -/
def Above (gap : Int) (a b : Box) : Prop :=
  a.bottom + gap ≤ b.corner.y

/-- There is a gap between two boxes, from side to side or from top to
bottom. -/
def Apart (gap : Int) (a b : Box) : Prop :=
  (LeftOf gap a b ∨ LeftOf gap b a) ∨ Above gap a b ∨ Above gap b a

variable {gap : Int} {a a' b b' c : Box}

theorem Inside.refl (a : Box) : a.Inside a :=
  ⟨le_rfl, le_rfl, le_rfl, le_rfl⟩

theorem Inside.trans (h : a.Inside b) (h' : b.Inside c) : a.Inside c :=
  ⟨h'.left.trans h.left, h.right.trans h'.right, h'.top.trans h.top, h.bottom.trans h'.bottom⟩

theorem Inside.shift {p q : Point} {e f : Extent} (h : Inside ⟨p, e⟩ ⟨q, f⟩) (pos : Point) :
    Inside ⟨pos + p, e⟩ ⟨pos + q, f⟩ := by
  obtain ⟨hleft, hright, htop, hbottom⟩ := h
  simp only [Box.right, Box.bottom] at hleft hright htop hbottom
  refine ⟨?_, ?_, ?_, ?_⟩ <;> simp only [Box.right, Box.bottom, Point.x_add, Point.y_add] <;> linarith

theorem Apart.symm (h : a.Apart gap b) : b.Apart gap a := by
  rcases h with (h | h) | h | h
  · exact .inl (.inr h)
  · exact .inl (.inl h)
  · exact .inr (.inr h)
  · exact .inr (.inl h)

theorem LeftOf.mono (h : LeftOf gap a' b') (ha : a.Inside a') (hb : b.Inside b') : LeftOf gap a b :=
  (Int.add_le_add_right ha.right gap).trans (Int.le_trans h hb.left)

theorem Above.mono (h : Above gap a' b') (ha : a.Inside a') (hb : b.Inside b') : Above gap a b :=
  (Int.add_le_add_right ha.bottom gap).trans (Int.le_trans h hb.top)

end Box

/-! ## Symbols of a layout -/

namespace Layout

/-- The box around a layout with its corner at `pos`. -/
def box (pos : Point) (m : Layout) : Box :=
  ⟨pos, m.extent⟩

mutual

/-- The boxes of the leaves and gates of a layout with its corner at `pos`. -/
def symbols (pos : Point) : Layout → List Box
  | .leaf extent _ => [⟨pos, extent⟩]
  | .gate _ _ _ shape symbol operands => ⟨pos + symbol, shape.footprint⟩ :: symbolsAll pos operands
  | .output _ _ _ _ offset m => m.symbols (pos + offset)

def symbolsAll (pos : Point) : List (Point × Layout) → List Box
  | [] => []
  | (offset, m) :: operands => m.symbols (pos + offset) ++ symbolsAll pos operands

end

mutual

/-- A layout whose parts keep to its box, and a gap apart. The operands of a
gate keep to the columns that end a gap left of its symbol. -/
def Spaced (gap : Int) : Layout → Prop
  | .leaf .. => True
  | .gate extent _ _ shape symbol operands =>
    Box.Inside ⟨symbol, shape.footprint⟩ ⟨.origin, extent⟩ ∧ symbol.x - gap ≤ extent.width ∧
      SpacedAll gap 0 ⟨symbol.x - gap, extent.height⟩ operands
  | .output extent _ _ _ offset m => (m.box offset).Inside ⟨.origin, extent⟩ ∧ m.Spaced gap

/-- Operands one below the other in the rows of a room from `y` down. -/
def SpacedAll (gap y : Int) (room : Extent) : List (Point × Layout) → Prop
  | [] => True
  | (offset, m) :: operands =>
    (m.box offset).Inside ⟨⟨0, y⟩, ⟨room.width, room.height - y⟩⟩ ∧ 0 ≤ m.extent.height ∧ m.Spaced gap ∧
      SpacedAll gap (offset.y + m.extent.height + gap) room operands

end

open Box (Inside LeftOf Above Apart)

variable {gap : Int}

/-- The rows of a room below its first operand. -/
theorem inside_below (hgap : 0 ≤ gap) {y : Int} {room : Extent} {offset : Point} {m : Layout}
    (h : (m.box offset).Inside ⟨⟨0, y⟩, ⟨room.width, room.height - y⟩⟩) (hheight : 0 ≤ m.extent.height) :
    Inside ⟨⟨0, offset.y + m.extent.height + gap⟩,
      ⟨room.width, room.height - (offset.y + m.extent.height + gap)⟩⟩
      ⟨⟨0, y⟩, ⟨room.width, room.height - y⟩⟩ := by
  have htop : y ≤ offset.y := h.top
  refine ⟨le_rfl, le_rfl, ?_, ?_⟩
  · simp only
    linarith
  · simp only [Box.bottom]
    linarith

/-- The columns left of a gate's symbol are in the gate's box. -/
theorem room_inside {width : Int} {extent : Extent} (h : width ≤ extent.width) :
    Inside ⟨⟨0, 0⟩, ⟨width, extent.height - 0⟩⟩ ⟨.origin, extent⟩ := by
  refine ⟨le_rfl, ?_, le_rfl, ?_⟩
  · simpa [Box.right] using h
  · simp [Box.bottom]

mutual

/-- **Leaves and gates are in the box of their layout.** -/
theorem inside_of_mem_symbols (hgap : 0 ≤ gap) : (m : Layout) → m.Spaced gap → ∀ {pos : Point} {b : Box},
    b ∈ m.symbols pos → b.Inside (m.box pos)
  | .leaf extent _, _, pos, b, hb => by
    rw [symbols, List.mem_singleton] at hb
    rw [hb]
    exact Inside.refl _
  | .gate extent _ _ shape symbol operands, h, pos, b, hb => by
    obtain ⟨hsymbol, hcolumn, hoperands⟩ := h
    rw [symbols, List.mem_cons] at hb
    rcases hb with rfl | hb
    · have hin := hsymbol.shift pos
      rwa [Point.add_origin] at hin
    · have hin := inside_of_mem_symbolsAll hgap operands hoperands hb
      have hbox := (room_inside hcolumn).shift pos
      rw [Point.add_origin] at hbox
      exact hin.trans hbox
  | .output extent _ _ _ offset m, h, pos, b, hb => by
    have hin := inside_of_mem_symbols hgap m h.2 hb
    have hbox := h.1.shift pos
    rw [Point.add_origin] at hbox
    exact hin.trans hbox

theorem inside_of_mem_symbolsAll (hgap : 0 ≤ gap) : (operands : List (Point × Layout)) →
    ∀ {y : Int} {room : Extent}, SpacedAll gap y room operands → ∀ {pos : Point} {b : Box},
      b ∈ symbolsAll pos operands → b.Inside ⟨pos + ⟨0, y⟩, ⟨room.width, room.height - y⟩⟩
  | [], _, _, _, _, _, hb => absurd hb List.not_mem_nil
  | (offset, m) :: operands, y, room, h, pos, b, hb => by
    obtain ⟨hbox, hheight, hm, hrest⟩ := h
    rw [symbolsAll, List.mem_append] at hb
    rcases hb with hb | hb
    · exact (inside_of_mem_symbols hgap m hm hb).trans (hbox.shift pos)
    · exact (inside_of_mem_symbolsAll hgap operands hrest hb).trans ((inside_below hgap hbox hheight).shift pos)

end

mutual

/-- **Leaves and gates are a gap apart**, any two of them. -/
theorem pairwise_symbols (hgap : 0 ≤ gap) : (m : Layout) → m.Spaced gap → ∀ pos : Point,
    (m.symbols pos).Pairwise (Apart gap)
  | .leaf .., _, _ => List.pairwise_singleton _ _
  | .gate extent _ _ shape symbol operands, h, pos => by
    obtain ⟨-, -, hoperands⟩ := h
    rw [symbols, List.pairwise_cons]
    refine ⟨fun b hb => .inl (.inr ?_), pairwise_symbolsAll hgap operands hoperands pos⟩
    have hright := (inside_of_mem_symbolsAll hgap operands hoperands hb).right
    simp only [Box.right, Point.x_add] at hright
    simp only [LeftOf, Box.right, Point.x_add]
    linarith
  | .output _ _ _ _ offset m, h, pos => pairwise_symbols hgap m h.2 (pos + offset)

theorem pairwise_symbolsAll (hgap : 0 ≤ gap) : (operands : List (Point × Layout)) →
    ∀ {y : Int} {room : Extent}, SpacedAll gap y room operands → ∀ pos : Point,
      (symbolsAll pos operands).Pairwise (Apart gap)
  | [], _, _, _, _ => List.Pairwise.nil
  | (offset, m) :: operands, y, room, h, pos => by
    obtain ⟨-, -, hm, hrest⟩ := h
    rw [symbolsAll, List.pairwise_append]
    refine ⟨pairwise_symbols hgap m hm _, pairwise_symbolsAll hgap operands hrest pos, ?_⟩
    intro a ha b hb
    -- the later operands keep to the rows below the box of this one
    have habove : Above gap (m.box (pos + offset)) ⟨pos + ⟨0, offset.y + m.extent.height + gap⟩,
        ⟨room.width, room.height - (offset.y + m.extent.height + gap)⟩⟩ := by
      simp only [Above, Box.bottom, box, Point.y_add]
      linarith
    exact .inr (.inl (habove.mono (inside_of_mem_symbols hgap m hm ha)
      (inside_of_mem_symbolsAll hgap operands hrest hb)))

end

end Layout

end Schematic
