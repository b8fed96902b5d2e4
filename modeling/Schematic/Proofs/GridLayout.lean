/-
The layout of a complete tree on the grid, in closed form. Its box is as high as
its leaves need, a row for each and one between any two; its width grows with
the widest way from the root to a leaf. No symbol makes a box higher, because a
gate has no more inputs than leaves below it.

`ofTree_grid_eq_plan` says that a layout made on the grid is `GateTree.plan`,
and `ofTree_grid_eq_ok` that one is made whenever the plane has the box.
-/
import Schematic.Layout
import Schematic.Proofs.Lowering
import Schematic.Proofs.Sketch
import Mathlib.Tactic.Ring
import Mathlib.Tactic.Linarith

namespace Schematic

/-! ## Shapes of gates -/

/-- How many cells wide the symbol of a kind of node is. -/
def NodeKind.width : NodeKind → Nat
  | .input => 1
  | .output => 1
  | .not => 2
  | .and _ => 3
  | .or _ => 3

theorem NodeKind.width_pos (kind : NodeKind) : 0 < kind.width := by
  cases kind <;> simp [NodeKind.width]

namespace Catalog

/-- The shape of a gate on the grid: an input pin at the corner of each cell on
its left side, the output pin halfway down its right side. -/
def gateShape (s : Int) (kind : NodeKind) : Shape where
  inputs := (List.range kind.arity).map fun (i : Nat) => Point.mk 0 (i * s)
  output := some ⟨kind.width * s, (kind.arity / 2 : Nat) * s⟩
  footprint := ⟨kind.width * s, kind.arity * s⟩

theorem pin_gateShape {s : Int} {kind : NodeKind} {i : Nat} (h : i < kind.arity) :
    (gateShape s kind).pin i = ⟨0, i * s⟩ := by
  simp [Shape.pin, gateShape, List.getElem?_range h]

theorem length_inputs_gateShape (s : Int) (kind : NodeKind) :
    (gateShape s kind).inputs.length = kind.arity := by
  simp [gateShape]

theorem gate_eq_ok_iff {s : Int} {n : Nat} {shape : Shape} :
    gate s n = .ok shape ↔ InRange (3 * s) ∧ InRange ((n / 2 : Nat) * s) ∧ InRange (n * s) ∧
      shape = ⟨(List.range n).map fun (i : Nat) => Point.mk 0 (i * s),
        some ⟨3 * s, (n / 2 : Nat) * s⟩, ⟨3 * s, n * s⟩⟩ := by
  have hdiv : (n : Int).tdiv 2 = (n / 2 : Nat) := by
    rw [Int.tdiv_eq_ediv_of_nonneg (by omega)]
    rfl
  simp only [gate, bind_eq_ok_iff, Coord.mul_eq_ok_iff, hdiv, Int.toNat_natCast]
  refine ⟨?_, ?_⟩
  · intro h
    obtain ⟨_, ⟨hwidth, rfl⟩, _, ⟨hmiddle, rfl⟩, _, ⟨hheight, rfl⟩, ⟨⟩⟩ := h
    exact ⟨hwidth, hmiddle, hheight, rfl⟩
  · intro h
    obtain ⟨hwidth, hmiddle, hheight, rfl⟩ := h
    exact ⟨_, ⟨hwidth, rfl⟩, _, ⟨hmiddle, rfl⟩, _, ⟨hheight, rfl⟩, rfl⟩

theorem shape_grid_eq {s : Int} {kind : NodeKind} {shape : Shape} (hgate : kind.isGate = true)
    (harity : kind.arity < 2 ^ 31) (h : (grid s).shape kind = .ok shape) : shape = gateShape s kind := by
  cases kind with
  | input | output => cases hgate
  | not =>
    simp only [grid, inverter, bind_eq_ok_iff, Coord.mul_eq_ok_iff] at h
    obtain ⟨_, ⟨-, rfl⟩, ⟨⟩⟩ := h
    simp [gateShape, NodeKind.arity, NodeKind.width, Point.origin]
  | and n | or n =>
    simp only [NodeKind.arity] at harity
    simp only [grid, Coord.ofCount_eq harity] at h
    obtain ⟨-, -, -, rfl⟩ := gate_eq_ok_iff.1 h
    rfl

theorem shape_grid_eq_ok {s : Int} {kind : NodeKind} (hs : 0 < s) (hgate : kind.isGate = true)
    (hwidth : kind.width * s < 2 ^ 31) (hheight : kind.arity * s < 2 ^ 31) :
    (grid s).shape kind = .ok (gateShape s kind) := by
  cases kind with
  | input | output => cases hgate
  | not =>
    have hmul : Coord.mul 2 s = .ok (2 * s) :=
      Coord.mul_eq_ok_iff.2 ⟨⟨by omega, hwidth⟩, rfl⟩
    simp only [grid, inverter, hmul, bind, Except.bind]
    simp [gateShape, NodeKind.arity, NodeKind.width, Point.origin]
    rfl
  | and n | or n =>
    simp only [NodeKind.arity, NodeKind.width] at hwidth hheight
    have hle : (n : Int) ≤ n * s := le_mul_of_one_le_right (by omega) hs
    have hhalf : ((n / 2 : Nat) : Int) * s ≤ n * s := mul_le_mul_of_nonneg_right (by omega) hs.le
    have hpos : 0 ≤ ((n / 2 : Nat) : Int) * s := mul_nonneg (by omega) hs.le
    have hcount : Coord.ofCount n = n := Coord.ofCount_eq (by omega)
    simp only [grid, hcount]
    exact gate_eq_ok_iff.2 ⟨⟨by omega, hwidth⟩, ⟨by omega, by omega⟩, ⟨by omega, hheight⟩, rfl⟩

end Catalog

/-! ## Closed form -/

namespace GateTree

mutual

/-- The cells that the gates on the widest way from the root to a leaf take,
each with the gap on its left. -/
def span : GateTree → Nat
  | .leaf _ => 0
  | .gate kind ts => kind.width + 1 + spanAll ts
  | .output _ t => t.span

def spanAll : List GateTree → Nat
  | [] => 0
  | t :: ts => max t.span (spanAll ts)

end

mutual

/-- The layout of a complete tree on a grid with cells of size `s`, or of an
output terminal above one. -/
def plan (s : Int) : GateTree → Layout
  | .leaf l => .leaf ⟨s, s⟩ l
  | .gate kind ts =>
    .gate ⟨(kind.width + 2 + spanAll ts) * s, (2 * leafCountAll ts - 1) * s⟩
      ⟨(kind.width + 2 + spanAll ts) * s, (kind.arity / 2 : Nat) * s⟩ kind (Catalog.gateShape s kind)
      ⟨(2 + spanAll ts) * s, 0⟩ (planAll s 0 ts)
  | .output label t =>
    .output ⟨(3 + t.span) * s, 2 * t.leafCount * s⟩ label (Catalog.terminal s [.origin] none)
      ⟨(2 + t.span) * s, s + (t.plan s).pin.y⟩ ⟨0, s⟩ (t.plan s)

/-- Operands one below the other from row `y` down. -/
def planAll (s y : Int) : List GateTree → List (Point × Layout)
  | [] => []
  | t :: ts => (⟨0, y⟩, t.plan s) :: planAll s (y + 2 * t.leafCount * s) ts

end

mutual

theorem tree_plan (s : Int) : (t : GateTree) → (t.plan s).tree = t
  | .leaf _ => rfl
  | .gate _ ts => by rw [plan, Layout.tree, trees_planAll s 0 ts]
  | .output _ t => by rw [plan, Layout.tree, tree_plan s t]

theorem trees_planAll (s y : Int) : (ts : List GateTree) → Layout.trees (planAll s y ts) = ts
  | [] => rfl
  | t :: ts => by rw [planAll, Layout.trees, tree_plan s t, trees_planAll s _ ts]

end

theorem extent_plan {s : Int} {t : GateTree} (h : t.Complete) :
    (t.plan s).extent = ⟨(1 + t.span) * s, (2 * t.leafCount - 1) * s⟩ := by
  cases t with
  | leaf l => simp [plan, Layout.extent, span, leafCount]
  | gate kind ts =>
    simp only [plan, Layout.extent, span, leafCount, Extent.mk.injEq, and_true]
    push_cast
    ring
  | output label t => exact h.elim

theorem max_span_mul {s : Int} (hs : 0 ≤ s) (m n : Nat) :
    max ((1 + m) * s) ((1 + n) * s) = (1 + (max m n : Nat)) * s := by
  rw [← max_mul_of_nonneg _ _ hs, Nat.cast_max, max_add_add_left]

theorem cell_le_width {s : Int} (hs : 0 < s) (t : GateTree) : s ≤ (1 + t.span) * s :=
  le_mul_of_one_le_left hs.le (by omega)

theorem arity_le_leafCountAll {kind : NodeKind} {ts : List GateTree} (h : Complete (.gate kind ts)) :
    1 ≤ kind.arity ∧ kind.arity ≤ leafCountAll ts := by
  obtain ⟨-, hlen, hne, hall⟩ := h
  rw [← hlen]
  exact ⟨List.length_pos_iff.2 hne, length_le_leafCountAll ts hall⟩

end GateTree

/-! ## Layouts on the grid -/

namespace Layout

open GateTree

theorem stack_eq_planAll {s : Int} (hs : 0 < s) {t : GateTree} {ts : List GateTree} {y width : Int} :
    Stack.mk ((⟨0, y⟩, t.plan s) :: planAll s (y + ((2 * t.leafCount - 1) * s + s)) ts)
        (y + ((2 * t.leafCount - 1) * s + s) + 2 * leafCountAll ts * s)
        (max (max width ((1 + t.span) * s)) ((1 + spanAll ts) * s)) =
      ⟨planAll s y (t :: ts), y + 2 * leafCountAll (t :: ts) * s,
        max width ((1 + spanAll (t :: ts)) * s)⟩ := by
  have hrow : y + ((2 * (t.leafCount : Int) - 1) * s + s) = y + 2 * t.leafCount * s := by ring
  simp only [planAll, leafCountAll, spanAll, hrow, Stack.mk.injEq, true_and]
  refine ⟨by push_cast; ring, ?_⟩
  rw [max_assoc, max_span_mul hs.le]

theorem gate_eq_plan {s : Int} (hs : 0 < s) {kind : NodeKind} {ts : List GateTree}
    (h : Complete (.gate kind ts)) :
    gate ⟨max 0 ((1 + spanAll ts) * s) + s + kind.width * s,
        max (0 + 2 * leafCountAll ts * s - s) (kind.arity * s)⟩
      ⟨max 0 ((1 + spanAll ts) * s) + s + kind.width * s, 0 + (kind.arity / 2 : Nat) * s⟩ kind
      (Catalog.gateShape s kind) ⟨max 0 ((1 + spanAll ts) * s) + s, 0⟩ (planAll s 0 ts) =
      plan s (.gate kind ts) := by
  obtain ⟨hpos, hle⟩ := arity_le_leafCountAll h
  have hwide : max 0 ((1 + spanAll ts : Int) * s) = (1 + spanAll ts) * s :=
    max_eq_right (mul_nonneg (by omega) hs.le)
  have hcell : s ≤ leafCountAll ts * s := le_mul_of_one_le_left hs.le (by omega)
  have hhigh : (kind.arity : Int) * s ≤ leafCountAll ts * s := mul_le_mul_of_nonneg_right (by omega) hs.le
  have hmax : max (2 * (leafCountAll ts : Int) * s - s) (kind.arity * s) = (2 * leafCountAll ts - 1) * s := by
    rw [max_eq_left (by linarith)]
    ring
  simp only [plan, hwide, Int.zero_add, hmax, gate.injEq, Extent.mk.injEq, Point.mk.injEq, and_true,
    true_and]
  exact ⟨by ring, by ring, by ring⟩

mutual

/-- **A layout made on the grid** is the one in closed form. -/
theorem ofTree_grid_eq_plan {s : Int} (hs : 0 < s) : (t : GateTree) → t.Complete → ∀ {m : Layout},
    ofTree (.grid s) t = .ok m → m = t.plan s
  | .leaf l, _, m, h => by
    cases h
    rfl
  | .gate kind ts, hc, m, h => by
    simp only [ofTree, bind_eq_ok_iff, Coord.sub_eq_ok_iff, Coord.add_eq_ok_iff, Point.add_eq_ok_iff] at h
    obtain ⟨shape, hshape, stack, hstack, _, ⟨hheight, rfl⟩, _, ⟨-, rfl⟩, _, ⟨-, -, rfl⟩, _, ⟨-, rfl⟩, ⟨⟩⟩ := h
    obtain rfl := ofTrees_grid_eq_planAll hs ts hc.2.2.2 (fun h => absurd h hc.2.2.1) hstack
    obtain ⟨hpos, hle⟩ := arity_le_leafCountAll hc
    -- The rows of the operands are on the plane, so their number is its own coordinate.
    have hrows : (leafCountAll ts : Int) ≤ leafCountAll ts * s := le_mul_of_one_le_right (by omega) hs
    have hcell : s ≤ leafCountAll ts * s := le_mul_of_one_le_left hs.le (by omega)
    have hlow := hheight.2
    simp only [Catalog.grid, Int.zero_add, Int.mul_assoc] at hlow
    obtain rfl := Catalog.shape_grid_eq hc.1 (by omega) hshape
    exact gate_eq_plan hs hc
  | .output _ _, hc, _, _ => hc.elim

/-- The operands from row `y` down, the widest so far being `width` wide. -/
theorem ofTrees_grid_eq_planAll {s : Int} (hs : 0 < s) : (ts : List GateTree) → CompleteAll ts →
    ∀ {y width : Int} {stack : Stack}, (ts = [] → s ≤ width) → ofTrees (.grid s) y width ts = .ok stack →
      stack = ⟨planAll s y ts, y + 2 * leafCountAll ts * s, max width ((1 + spanAll ts) * s)⟩
  | [], _, y, width, stack, hwidth, h => by
    cases h
    simp [planAll, leafCountAll, spanAll, hwidth rfl]
  | t :: ts, hc, y, width, stack, hwidth, h => by
    obtain ⟨operand, rest, hoperand, hrest, rfl⟩ := exists_of_ofTrees_cons h
    obtain rfl := ofTree_grid_eq_plan hs t hc.1 hoperand
    rw [extent_plan hc.1] at hrest
    obtain rfl := ofTrees_grid_eq_planAll hs ts hc.2 (fun _ => le_max_of_le_right (cell_le_width hs t)) hrest
    rw [Catalog.grid, stack_eq_planAll hs]

end

mutual

/-- **A layout is made on the grid** when the plane has its width, and its
height with one more cell. -/
theorem ofTree_grid_eq_ok {s : Int} (hs : 0 < s) : (t : GateTree) → t.Complete →
    2 * t.leafCount * s < 2 ^ 31 → (1 + t.span) * s < 2 ^ 31 → ofTree (.grid s) t = .ok (t.plan s)
  | .leaf l, _, _, _ => rfl
  | .gate kind ts, hc, hheight, hwidth => by
    obtain ⟨hpos, hle⟩ := arity_le_leafCountAll hc
    rw [leafCount] at hheight
    have hwide : kind.width * s + (2 + spanAll ts) * s < 2 ^ 31 := by
      rw [span] at hwidth
      push_cast at hwidth
      linarith
    have hcell : s ≤ leafCountAll ts * s := le_mul_of_one_le_left hs.le (by omega)
    have hhigh : (kind.arity : Int) * s ≤ leafCountAll ts * s := mul_le_mul_of_nonneg_right (by omega) hs.le
    have hhalf : 0 ≤ ((kind.arity / 2 : Nat) : Int) * s := mul_nonneg (by omega) hs.le
    have hhalf' : ((kind.arity / 2 : Nat) : Int) * s ≤ kind.arity * s :=
      mul_le_mul_of_nonneg_right (by omega) hs.le
    have hsymbol : 0 ≤ (kind.width : Int) * s := mul_nonneg (by omega) hs.le
    have hspan : 0 ≤ (spanAll ts : Int) * s := mul_nonneg (by omega) hs.le
    have hmax : max 0 ((1 + spanAll ts : Int) * s) = (1 + spanAll ts) * s := max_eq_right (by linarith)
    have hshape := Catalog.shape_grid_eq_ok hs hc.1 (by linarith) (by linarith)
    have hnonempty : ts = [] → s ≤ 0 := fun h => absurd h hc.2.2.1
    have hstack := ofTrees_grid_eq_ok hs ts hc.2.2.2 hnonempty (le_refl 0) (by linarith) (by linarith)
    rw [← gate_eq_plan hs hc]
    simp only [ofTree, bind_eq_ok_iff, Coord.sub_eq_ok_iff, Coord.add_eq_ok_iff, Point.add_eq_ok_iff]
    refine ⟨_, hshape, _, hstack, _, ⟨?_, rfl⟩, _, ⟨?_, rfl⟩, _, ⟨?_, ?_, rfl⟩, _, ⟨?_, rfl⟩, rfl⟩ <;>
      simp only [Catalog.grid, Catalog.gateShape, Option.getD_some, hmax] <;>
      exact ⟨by linarith, by linarith⟩
  | .output _ _, hc, _, _ => hc.elim

theorem ofTrees_grid_eq_ok {s : Int} (hs : 0 < s) : (ts : List GateTree) → CompleteAll ts →
    ∀ {y width : Int}, (ts = [] → s ≤ width) → 0 ≤ y → y + 2 * leafCountAll ts * s < 2 ^ 31 →
      (1 + spanAll ts) * s < 2 ^ 31 →
      ofTrees (.grid s) y width ts =
        .ok ⟨planAll s y ts, y + 2 * leafCountAll ts * s, max width ((1 + spanAll ts) * s)⟩
  | [], _, y, width, hwidth, _, _, _ => by
    simp [ofTrees, planAll, leafCountAll, spanAll, hwidth rfl]
    rfl
  | t :: ts, hc, y, width, hwidth, hy, hheight, hspan => by
    have hleaves : y + 2 * t.leafCount * s + 2 * leafCountAll ts * s < 2 ^ 31 := by
      rw [leafCountAll] at hheight
      push_cast at hheight
      linarith
    have hpos : 0 ≤ (leafCountAll ts : Int) * s := mul_nonneg (by omega) hs.le
    have hcell : s ≤ t.leafCount * s := le_mul_of_one_le_left hs.le (by have := leafCount_pos t hc.1; omega)
    rw [spanAll, ← max_span_mul hs.le, max_lt_iff] at hspan
    have hoperand := ofTree_grid_eq_ok hs t hc.1 (by linarith) hspan.1
    have hwide : ts = [] → s ≤ max width ((1 + t.span) * s) :=
      fun _ => le_max_of_le_right (cell_le_width hs t)
    have hlow : 0 ≤ y + ((2 * t.leafCount - 1) * s + s) := by linarith
    have hrest := ofTrees_grid_eq_ok hs ts hc.2 hwide hlow (by linarith) hspan.2
    rw [← stack_eq_planAll hs]
    simp only [ofTrees, bind_eq_ok_iff, Coord.add_eq_ok_iff]
    refine ⟨_, hoperand, _, ⟨?_, rfl⟩, _, ⟨?_, rfl⟩, _, by rw [extent_plan hc.1]; exact hrest, rfl⟩ <;>
      simp only [Catalog.grid, extent_plan hc.1] <;>
      exact ⟨by linarith, by linarith⟩

end

end Layout

end Schematic
