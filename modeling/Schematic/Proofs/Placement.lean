/-
Where the grid puts things. Leaves stand in one column, a row for each and one
between any two, in the order of a walk from the root; a gate stands level with
the first leaf below it, as far to the right as the gates between it and its
leaves need. `GateTree.partsFrom` lists the parts of a tree, each with the
number of leaves before it, and that number alone decides a part's row
(`partsAt_plan`). How far to the right a part reaches is the cells on the
widest route from it to a leaf (`widest_routes`).

On the grid, a tree is refused for overflow and for nothing else
(`OnlyOverflows`), so every tree that the plane has room for is drawn like
this: `draw_grid_placed`.
-/
import Schematic.Proofs.MissingPins
import Schematic.Proofs.Capacity

namespace Schematic

/-! ## Routes -/

/-- The cells that a gate takes, with the gap on its left. -/
def NodeKind.cells : NodeKind → Nat
  | .input => 0
  | .output => 0
  | .not => 3
  | .and _ => 4
  | .or _ => 4

theorem NodeKind.cells_eq {kind : NodeKind} (h : kind.isGate = true) : kind.cells = kind.width + 1 := by
  cases kind with
  | input | output => cases h
  | not | and n | or n => rfl

/-- The cells of the gates on the widest of several routes. -/
def widest (routes : List (List NodeKind)) : Nat :=
  (routes.map fun route => (route.map NodeKind.cells).sum).foldr max 0

theorem widest_append (routes routes' : List (List NodeKind)) :
    widest (routes ++ routes') = max (widest routes) (widest routes') := by
  rw [widest, List.map_append, foldr_max_append]
  rfl

theorem widest_map_cons (kind : NodeKind) {routes : List (List NodeKind)} (h : routes ≠ []) :
    widest (routes.map (kind :: ·)) = kind.cells + widest routes := by
  have hne : (routes.map fun route => (route.map NodeKind.cells).sum) ≠ [] := by simpa using h
  rw [widest, widest, ← foldr_max_map_add _ hne, List.map_map, List.map_map]
  rfl

namespace GateTree

mutual

/-- The gates on the way from the root to each leaf. -/
def routes : GateTree → List (List NodeKind)
  | .leaf _ => [[]]
  | .gate kind ts => (routesAll ts).map (kind :: ·)
  | .output _ t => t.routes

def routesAll : List GateTree → List (List NodeKind)
  | [] => []
  | t :: ts => t.routes ++ routesAll ts

end

mutual

theorem length_routes : (t : GateTree) → t.routes.length = t.leafCount
  | .leaf _ => rfl
  | .gate _ ts => by rw [routes, List.length_map, length_routesAll ts, leafCount]
  | .output _ t => length_routes t

theorem length_routesAll : (ts : List GateTree) → (routesAll ts).length = leafCountAll ts
  | [] => rfl
  | t :: ts => by rw [routesAll, List.length_append, length_routes t, length_routesAll ts, leafCountAll]

end

mutual

/-- A complete tree spans the cells of its widest route. -/
theorem widest_routes : (t : GateTree) → t.Complete → widest t.routes = t.span
  | .leaf _, _ => rfl
  | .gate kind ts, hc => by
    -- without a leaf below it a gate would be on no route
    have hne : routesAll ts ≠ [] := by
      have hpos := leafCount_pos (.gate kind ts) hc
      rw [leafCount, ← length_routesAll] at hpos
      exact List.ne_nil_of_length_pos hpos
    rw [routes, widest_map_cons kind hne, widest_routesAll ts hc.2.2.2, NodeKind.cells_eq hc.1, span]
  | .output _ _, hc => hc.elim

theorem widest_routesAll : (ts : List GateTree) → CompleteAll ts → widest (routesAll ts) = spanAll ts
  | [], _ => rfl
  | t :: ts, hc => by
    rw [routesAll, widest_append, widest_routes t hc.1, widest_routesAll ts hc.2, spanAll]

end

/-! ## Leaves before a part -/

mutual

/-- A tree with `n` leaves before it and everything inside it, each part with the
number of leaves before it, in the order of a walk from the root. -/
def partsFrom (n : Nat) : GateTree → List (Nat × GateTree)
  | .leaf l => [(n, .leaf l)]
  | .gate kind ts => (n, .gate kind ts) :: partsAllFrom n ts
  | .output label t => (n, .output label t) :: t.partsFrom n

def partsAllFrom (n : Nat) : List GateTree → List (Nat × GateTree)
  | [] => []
  | t :: ts => t.partsFrom n ++ partsAllFrom (n + t.leafCount) ts

end

mutual

theorem map_snd_partsFrom (n : Nat) : (t : GateTree) → (t.partsFrom n).map Prod.snd = t.parts
  | .leaf _ => rfl
  | .gate _ ts => by rw [partsFrom, List.map_cons, map_snd_partsAllFrom n ts, parts]
  | .output _ t => by rw [partsFrom, List.map_cons, map_snd_partsFrom n t, parts]

theorem map_snd_partsAllFrom (n : Nat) : (ts : List GateTree) → (partsAllFrom n ts).map Prod.snd = partsAll ts
  | [] => rfl
  | t :: ts => by
    rw [partsAllFrom, List.map_append, map_snd_partsFrom n t, map_snd_partsAllFrom _ ts, partsAll]

end

mutual

theorem leaves_of_mem_partsFrom : (t : GateTree) → ∀ {n : Nat} {p : Nat × GateTree}, p ∈ t.partsFrom n →
    ∃ before after, t.leaves = before ++ (p.2.leaves ++ after) ∧ n + before.length = p.1
  | .leaf l, n, p, hp => by
    rw [List.mem_singleton.1 hp]
    exact ⟨[], [], rfl, rfl⟩
  | .gate kind ts, n, p, hp => by
    rcases List.mem_cons.1 hp with rfl | hp
    · exact ⟨[], [], (List.append_nil _).symm, rfl⟩
    · exact leaves_of_mem_partsAllFrom ts hp
  | .output label t, n, p, hp => by
    rcases List.mem_cons.1 hp with rfl | hp
    · exact ⟨[], [], (List.append_nil _).symm, rfl⟩
    · exact leaves_of_mem_partsFrom t hp

theorem leaves_of_mem_partsAllFrom : (ts : List GateTree) → ∀ {n : Nat} {p : Nat × GateTree},
    p ∈ partsAllFrom n ts → ∃ before after, leavesAll ts = before ++ (p.2.leaves ++ after) ∧ n + before.length = p.1
  | [], _, _, hp => by cases hp
  | t :: ts, n, p, hp => by
    rcases List.mem_append.1 hp with hp | hp
    · obtain ⟨before, after, hleaves, hn⟩ := leaves_of_mem_partsFrom t hp
      exact ⟨before, after ++ leavesAll ts, by rw [leavesAll, hleaves]; simp only [List.append_assoc], hn⟩
    · obtain ⟨before, after, hleaves, hn⟩ := leaves_of_mem_partsAllFrom ts hp
      refine ⟨t.leaves ++ before, after, by rw [leavesAll, hleaves, List.append_assoc], ?_⟩
      rw [List.length_append, length_leaves, ← Nat.add_assoc, hn]

end

theorem complete_of_mem_partsFrom {n : Nat} {t : GateTree} (hc : t.Complete) {p : Nat × GateTree}
    (hp : p ∈ t.partsFrom n) : p.2.Complete := by
  have hmem : p.2 ∈ (t.partsFrom n).map Prod.snd := List.mem_map_of_mem hp
  rw [map_snd_partsFrom] at hmem
  exact complete_of_mem_parts t hc hmem

/-- The leaf that a part is, with the number of leaves before it. -/
def leaf? : Nat × GateTree → Option (Literal × Nat)
  | (n, .leaf l) => some (l, n)
  | _ => none

mutual

theorem filterMap_leaf?_partsFrom (n : Nat) : (t : GateTree) → (t.partsFrom n).filterMap leaf? = t.leaves.zipIdx n
  | .leaf _ => rfl
  | .gate _ ts => filterMap_leaf?_partsAllFrom n ts
  | .output _ t => filterMap_leaf?_partsFrom n t

theorem filterMap_leaf?_partsAllFrom (n : Nat) : (ts : List GateTree) →
    (partsAllFrom n ts).filterMap leaf? = (leavesAll ts).zipIdx n
  | [] => rfl
  | t :: ts => by
    rw [partsAllFrom, List.filterMap_append, filterMap_leaf?_partsFrom n t, filterMap_leaf?_partsAllFrom _ ts,
      leavesAll, List.zipIdx_append, length_leaves]

end

/-- Where a tree drawn at a point has a part with `n` leaves before it. -/
def corner (s : Int) (pos : Point) (n : Nat) : Point :=
  ⟨pos.x, pos.y + 2 * n * s⟩

theorem corner_zero (s : Int) (pos : Point) : corner s pos 0 = pos := by
  simp [corner]

/-- The gate that a part is, in a tree drawn at a point. -/
def gateAt? (s : Int) (pos : Point) : Nat × GateTree → Option Node
  | (n, .gate kind ts) => some { kind, pos := corner s pos n + ⟨(2 + widest (routesAll ts)) * s, 0⟩ }
  | _ => none

end GateTree

namespace Layout

open GateTree

variable {s : Int}

mutual

/-- **The row of a part** is told by the leaves before it, and all parts share a
column. -/
theorem partsAt_plan (pos : Point) (n : Nat) : (t : GateTree) → t.Complete →
    (t.plan s).partsAt (corner s pos n) = (t.partsFrom n).map fun p => (corner s pos p.1, p.2.plan s)
  | .leaf _, _ => rfl
  | .gate kind ts, hc => by
    rw [plan, partsAt, partsAllAt_planAll pos n ts hc.2.2.2 (Point.add_origin _), partsFrom, List.map_cons, plan]
  | .output _ _, hc => hc.elim

theorem partsAllAt_planAll (pos : Point) (n : Nat) : (ts : List GateTree) → CompleteAll ts → ∀ {top : Point} {y : Int},
    top + ⟨0, y⟩ = corner s pos n →
      partsAllAt top (planAll s y ts) = (partsAllFrom n ts).map fun p => (corner s pos p.1, p.2.plan s)
  | [], _, _, _, _ => rfl
  | t :: ts, hc, top, y, hrow => by
    have hnext : top + ⟨0, y + 2 * t.leafCount * s⟩ = corner s pos (n + t.leafCount) := by
      have hx := congrArg Point.x hrow
      have hy := congrArg Point.y hrow
      simp only [corner, Point.x_add, Point.y_add] at hx hy
      refine Point.ext hx ?_
      simp only [corner, Point.y_add]
      push_cast
      linarith
    rw [planAll, partsAllAt, hrow, partsAt_plan pos n t hc.1, partsAllAt_planAll pos _ ts hc.2 hnext, partsAllFrom,
      List.map_append]

end

theorem partsAt_plan_eq {t : GateTree} (hc : t.Complete) (pos : Point) :
    (t.plan s).partsAt pos = (t.partsFrom 0).map fun p => (corner s pos p.1, p.2.plan s) := by
  rw [← partsAt_plan pos 0 t hc, corner_zero]

theorem filterMap_leaf?_partsAt_plan {t : GateTree} (hc : t.Complete) (pos : Point) :
    ((t.plan s).partsAt pos).filterMap leaf? = t.leaves.zipIdx.map fun l => ⟨l.1, corner s pos l.2⟩ := by
  rw [partsAt_plan_eq hc, List.filterMap_map, ← filterMap_leaf?_partsFrom, List.map_filterMap]
  refine List.filterMap_congr fun p _ => ?_
  obtain ⟨n, u⟩ := p
  cases u <;> rfl

theorem filterMap_node?_partsAt_plan {t : GateTree} (hc : t.Complete) (pos : Point) :
    ((t.plan s).partsAt pos).filterMap node? = (t.partsFrom 0).filterMap (gateAt? s pos) := by
  rw [partsAt_plan_eq hc, List.filterMap_map]
  refine List.filterMap_congr fun p hp => ?_
  have hpart := complete_of_mem_partsFrom hc hp
  obtain ⟨n, u⟩ := p
  cases u with
  | leaf l => rfl
  | gate kind ts => simp only [Function.comp_apply, plan, node?, gateAt?, widest_routesAll ts hpart.2.2.2]
  | output label u => exact hpart.elim

theorem symbol_le_stack (hs : 0 < s) {t : GateTree} {m : Layout} (hc : t.Complete) (hm : ofTree (.grid s) t = .ok m)
    {kind : NodeKind} {ts : List GateTree} (h : .gate kind ts ∈ t.parts) :
    ∃ shape stack, (Catalog.grid s).shape kind = .ok shape ∧ ofTrees (.grid s) 0 0 ts = .ok stack ∧
      shape.footprint.height ≤ stack.bottom - s := by
  obtain ⟨part, hpart⟩ := exists_ofTree_of_mem_parts hm h
  obtain ⟨-, stack, -, hstack, -⟩ := exists_of_ofTree_gate hpart
  have hgate := complete_of_mem_parts t hc h
  refine ⟨_, stack, shape_of_mem_parts hs hc hm h, hstack, ?_⟩
  obtain rfl := ofTrees_grid_eq_planAll hs ts hgate.2.2.2 (fun h => absurd h hgate.2.2.1) hstack
  obtain ⟨hpos, hle⟩ := arity_le_leafCountAll hgate
  have hcell : s ≤ leafCountAll ts * s := le_mul_of_one_le_left hs.le (by omega)
  have hhigh : (kind.arity : Int) * s ≤ leafCountAll ts * s := mul_le_mul_of_nonneg_right (by omega) hs.le
  simp only [Catalog.gateShape]
  linarith

end Layout

/-! ## Refused for overflow -/

/-- An operation that can only be refused because the plane lacks a coordinate. -/
def OnlyOverflows {α : Type} (x : Except Fault α) : Prop :=
  ∀ fault, x = .error fault → ∃ op, fault = .overflow op

namespace OnlyOverflows

variable {α β : Type}

theorem ok (a : α) : OnlyOverflows (.ok a) := by
  intro fault h
  cases h

theorem bind {x : Except Fault α} {f : α → Except Fault β} (hx : OnlyOverflows x) (hf : ∀ a, OnlyOverflows (f a)) :
    OnlyOverflows (x >>= f) := by
  intro fault h
  obtain h | ⟨a, -, h⟩ := bind_eq_error_iff.1 h
  · exact hx fault h
  · exact hf a fault h

theorem checked (op : Arithmetic) (n : Int) : OnlyOverflows (Coord.checked op n) := by
  intro fault h
  obtain ⟨-, rfl⟩ := Coord.checked_eq_error_iff.1 h
  exact ⟨op, rfl⟩

theorem exists_ok {x : Except Fault α} (h : OnlyOverflows x) (hplane : ∀ op, x ≠ .error (.overflow op)) :
    ∃ a, x = .ok a := by
  cases x with
  | ok a => exact ⟨a, rfl⟩
  | error fault =>
    obtain ⟨op, rfl⟩ := h fault rfl
    exact absurd rfl (hplane op)

theorem shape_grid (s : Int) (kind : NodeKind) : OnlyOverflows ((Catalog.grid s).shape kind) := by
  have hgate : ∀ n, OnlyOverflows (Catalog.gate s n) := fun n =>
    (checked _ _).bind fun _ => (checked _ _).bind fun _ => (checked _ _).bind fun _ => ok _
  cases kind with
  | input | output => exact ok _
  | not => exact (checked _ _).bind fun _ => ok _
  | and n | or n => exact hgate _

mutual

theorem ofTree_grid (s : Int) : (t : GateTree) → OnlyOverflows (Layout.ofTree (.grid s) t)
  | .leaf _ => ok _
  | .gate kind ts => by
    rw [Layout.ofTree]
    refine (shape_grid s kind).bind fun shape => (ofTrees_grid s 0 0 ts).bind fun stack => ?_
    refine (checked _ _).bind fun _ => (checked _ _).bind fun _ => OnlyOverflows.bind ?_ fun _ => ?_
    · exact fun fault => Point.overflow_of_add
    · exact (checked _ _).bind fun _ => ok _
  | .output label t => by
    have hlabel : (Catalog.grid s).supports .output .label = true := rfl
    rw [Layout.ofTree, if_pos hlabel]
    refine (shape_grid s .output).bind fun shape => (ofTree_grid s t).bind fun tree => ?_
    refine (checked _ _).bind fun _ => (checked _ _).bind fun _ => (checked _ _).bind fun _ => ?_
    exact (checked _ _).bind fun _ => ok _

theorem ofTrees_grid (s y width : Int) : (ts : List GateTree) → OnlyOverflows (Layout.ofTrees (.grid s) y width ts)
  | [] => ok _
  | t :: ts => by
    rw [Layout.ofTrees]
    refine (ofTree_grid s t).bind fun operand => (checked _ _).bind fun _ => (checked _ _).bind fun below => ?_
    exact (ofTrees_grid s below _ ts).bind fun _ => ok _

end

/-- What has all its pins is drawn unless it overflows. -/
theorem draw_grid {s : Int} (hs : 0 < s) {t : GateTree} (hc : t.Complete) {m : Layout}
    (hm : Layout.ofTree (.grid s) t = .ok m) (pos : Point) (d : Drawing) : OnlyOverflows (m.draw pos d) := by
  intro fault h
  obtain hoverflow | ⟨kind, shape, -, -, rfl⟩ := Layout.fault_of_draw t hm h
  · exact hoverflow
  · exact absurd h (Layout.draw_grid_ne_missingPin hs hc hm pos d _ _)

end OnlyOverflows

namespace Layout

open GateTree

/-! ## Closed form of a drawing -/

/-- **Where the tree of an expression is drawn**, if it does not overflow. Its
box has a row for each reference and one between any two, and the cells of its
widest route beside that of the leaves. Leaves share the column of the corner,
one below the other; a gate is level with the first leaf below it, and a cell
to the right of what its widest operand takes. No symbol makes a box higher. -/
theorem draw_grid_placed {s : Int} (hs : 0 < s) {e : Expr} {registered after : List Variable} {t : GateTree}
    (hlower : e.toGateTree registered = (.ok t, after)) {pos : Point} {d : Drawing}
    (hsize : ∀ op, ofTree (.grid s) t ≠ .error (.overflow op))
    (hplane : ∀ m op, ofTree (.grid s) t = .ok m → m.draw pos d ≠ .error (.overflow op)) :
    (∃ m out d', ofTree (.grid s) t = .ok m ∧ m.draw pos d = .ok (out, d') ∧
      m.extent = ⟨(1 + widest t.routes) * s, (2 * e.occurrences - 1) * s⟩ ∧
      d'.leaves.toList = d.leaves.toList ++ t.leaves.zipIdx.map (fun l => ⟨l.1, ⟨pos.x, pos.y + 2 * l.2 * s⟩⟩) ∧
      d'.circuit.nodes.toList = d.circuit.nodes.toList ++ (t.partsFrom 0).filterMap (gateAt? s pos)) ∧
    (t.partsFrom 0).map Prod.snd = t.parts ∧
    (∀ p ∈ t.partsFrom 0, p.2.leaves ≠ [] ∧
      ∃ before after, t.leaves = before ++ (p.2.leaves ++ after) ∧ before.length = p.1) ∧
    ∀ kind ts, .gate kind ts ∈ t.parts → ∃ shape stack, (Catalog.grid s).shape kind = .ok shape ∧
      ofTrees (.grid s) 0 0 ts = .ok stack ∧ shape.footprint.height ≤ stack.bottom - s := by
  obtain ⟨he, rfl, -⟩ := Expr.toGateTree_eq_ok_iff.1 hlower
  have hc := Expr.complete_gates he
  obtain ⟨m, hm⟩ := (OnlyOverflows.ofTree_grid s e.gates).exists_ok hsize
  obtain ⟨⟨out, d'⟩, hdraw⟩ := (OnlyOverflows.draw_grid hs hc hm pos d).exists_ok (hplane m · hm)
  obtain rfl := ofTree_grid_eq_plan hs _ hc hm
  obtain ⟨hleaves, hnodes⟩ := drawn_of_draw hdraw
  rw [filterMap_leaf?_partsAt_plan hc] at hleaves
  rw [filterMap_node?_partsAt_plan hc] at hnodes
  refine ⟨⟨_, out, d', hm, hdraw, ?_, hleaves, hnodes⟩, map_snd_partsFrom 0 _, fun p hp => ?_,
    fun kind ts => symbol_le_stack hs hc hm⟩
  · rw [extent_plan hc, widest_routes _ hc, Expr.leafCount_gates he]
  · obtain ⟨before, rest, heq, hlen⟩ := leaves_of_mem_partsFrom e.gates hp
    have hpos := leafCount_pos _ (complete_of_mem_partsFrom hc hp)
    rw [← length_leaves] at hpos
    exact ⟨List.ne_nil_of_length_pos hpos, before, rest, heq, (Nat.zero_add _).symm.trans hlen⟩

/-- An expression with a gate of each kind, one of them of a single input. -/
def mixed : Expr :=
  .join .or [.not (.join .and [.var ⟨"E", by decide⟩, .not (.var ⟨"G", by decide⟩)]),
    .not (.not (.var ⟨"E", by decide⟩)), .join .or [.var ⟨"H", by decide⟩]]

/-- Its widest route goes through a disjunction, an inverter and a conjunction,
which makes 11 cells; the gates level with the first leaf are 4 and 3 cells
apart. -/
theorem draw_grid_placed_of_mixed : ∃ t after m out d, mixed.toGateTree [] = (.ok t, after) ∧
    ofTree (.grid 20) t = .ok m ∧ m.draw ⟨-7, 30⟩ {} = .ok (out, d) ∧ m.extent = ⟨12 * 20, 7 * 20⟩ ∧
    d.leaves.toList.map Leaf.pos = [⟨-7, 30⟩, ⟨-7, 70⟩, ⟨-7, 110⟩, ⟨-7, 150⟩] ∧
    d.circuit.nodes.toList.map Node.pos = [⟨173, 30⟩, ⟨113, 30⟩, ⟨33, 30⟩, ⟨33, 110⟩, ⟨33, 150⟩] := by
  obtain ⟨t, after, hlower⟩ : ∃ t after, mixed.toGateTree [] = (.ok t, after) := ⟨_, _, rfl⟩
  obtain ⟨m, hm⟩ : ∃ m, ofTree (.grid 20) t = .ok m := by
    cases hlower
    exact ⟨_, rfl⟩
  obtain ⟨r, hr⟩ : ∃ r, m.draw ⟨-7, 30⟩ {} = .ok r := by
    cases hlower
    cases hm
    exact ⟨_, rfl⟩
  have hsize : ∀ op, ofTree (.grid 20) t ≠ .error (.overflow op) := by
    intro op h
    cases hm.symm.trans h
  have hplane : ∀ m op, ofTree (.grid 20) t = .ok m → m.draw ⟨-7, 30⟩ {} ≠ .error (.overflow op) := by
    intro _ op hm' h
    cases hm.symm.trans hm'
    cases hr.symm.trans h
  obtain ⟨⟨m, out, d, hm, hdraw, hextent, hleaves, hnodes⟩, -⟩ := draw_grid_placed (by decide) hlower hsize hplane
  refine ⟨t, after, m, out, d, hlower, hm, hdraw, ?_, ?_, ?_⟩
  · rw [hextent]
    cases hlower
    rfl
  · rw [hleaves]
    cases hlower
    rfl
  · rw [hnodes]
    cases hlower
    rfl

end Layout

end Schematic
