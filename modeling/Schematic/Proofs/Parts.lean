/-
The parts of a layout and where they stand. `Layout.partsAt` lists a layout and
everything inside it, each part with the corner of its own box, in the order of
a walk from the root. Everything drawn can be read off that list: a part draws
one leaf or one node (`leaves_sketch_eq`, `nodes_sketch_eq`), and takes one
symbol, terminals excepted (`symbols_eq`).

Forgetting the corners leaves the parts of the tree (`map_tree_partsAt`), and
each part is the layout of its own tree (`ofTree_of_mem_partsAt`), so that what
holds of every layout made from a tree holds of every part of one.
-/
import Schematic.Proofs.Boxes

namespace Schematic

/-! ## Nodes and leaves of drawings put together -/

namespace Drawing

variable {d e : Drawing}

theorem nodes_append : (d ++ e).circuit.nodes.toList = d.circuit.nodes.toList ++ e.circuit.nodes.toList :=
  Array.toList_append

theorem toList_leaves_append : (d ++ e).leaves.toList = d.leaves.toList ++ e.leaves.toList :=
  Array.toList_append

end Drawing

namespace Layout

/-! ## Parts -/

mutual

/-- A layout with its corner at `pos` and everything inside it, each part with
its corner and before its own parts, operands in order. -/
def partsAt (pos : Point) : Layout → List (Point × Layout)
  | .leaf extent l => [(pos, .leaf extent l)]
  | .gate extent pin kind shape symbol operands =>
    (pos, .gate extent pin kind shape symbol operands) :: partsAllAt pos operands
  | .output extent label shape symbol offset m =>
    (pos, .output extent label shape symbol offset m) :: m.partsAt (pos + offset)

def partsAllAt (pos : Point) : List (Point × Layout) → List (Point × Layout)
  | [] => []
  | (offset, m) :: operands => m.partsAt (pos + offset) ++ partsAllAt pos operands

end

mutual

theorem map_tree_partsAt (pos : Point) : (m : Layout) →
    (m.partsAt pos).map (fun p => p.2.tree) = m.tree.parts
  | .leaf _ _ => rfl
  | .gate _ _ _ _ _ operands => by
    rw [partsAt, List.map_cons, map_tree_partsAllAt pos operands, tree, GateTree.parts]
  | .output _ _ _ _ offset m => by
    rw [partsAt, List.map_cons, map_tree_partsAt (pos + offset) m, tree, GateTree.parts]

theorem map_tree_partsAllAt (pos : Point) : (operands : List (Point × Layout)) →
    (partsAllAt pos operands).map (fun p => p.2.tree) = GateTree.partsAll (trees operands)
  | [] => rfl
  | (offset, m) :: operands => by
    rw [partsAllAt, List.map_append, map_tree_partsAt (pos + offset) m, map_tree_partsAllAt pos operands, trees,
      GateTree.partsAll]

end

mutual

/-- **Each part is the layout of its own tree.** -/
theorem ofTree_of_mem_partsAt {catalog : Catalog} : (t : GateTree) → ∀ {m : Layout} {pos : Point} {p : Point × Layout},
    ofTree catalog t = .ok m → p ∈ m.partsAt pos → ofTree catalog p.2.tree = .ok p.2
  | .leaf l, m, pos, p, h, hp => by
    cases h
    rw [partsAt, List.mem_singleton] at hp
    rw [hp]
    rfl
  | .gate kind ts, m, pos, p, h, hp => by
    obtain ⟨shape, stack, -, hstack, rfl⟩ := exists_of_ofTree_gate h
    rw [partsAt, List.mem_cons] at hp
    rcases hp with rfl | hp
    · rwa [tree_of_ofTree _ h]
    · exact ofTree_of_mem_partsAllAt ts hstack hp
  | .output label t, m, pos, p, h, hp => by
    obtain ⟨shape, tree, -, -, htree, rfl⟩ := exists_of_ofTree_output h
    rw [partsAt, List.mem_cons] at hp
    rcases hp with rfl | hp
    · rwa [tree_of_ofTree _ h]
    · exact ofTree_of_mem_partsAt t htree hp

theorem ofTree_of_mem_partsAllAt {catalog : Catalog} : (ts : List GateTree) → ∀ {y width : Int} {stack : Stack}
    {pos : Point} {p : Point × Layout}, ofTrees catalog y width ts = .ok stack →
    p ∈ partsAllAt pos stack.operands → ofTree catalog p.2.tree = .ok p.2
  | [], y, width, stack, pos, p, h, hp => by
    cases h
    cases hp
  | t :: ts, y, width, stack, pos, p, h, hp => by
    obtain ⟨operand, rest, hoperand, hrest, rfl⟩ := exists_of_ofTrees_cons h
    rw [partsAllAt, List.mem_append] at hp
    rcases hp with hp | hp
    · exact ofTree_of_mem_partsAt t hoperand hp
    · exact ofTree_of_mem_partsAllAt ts hrest hp

end

theorem exists_ofTree_of_mem_parts {catalog : Catalog} {t u : GateTree} {m : Layout} (h : ofTree catalog t = .ok m)
    (hu : u ∈ t.parts) : ∃ part, ofTree catalog u = .ok part := by
  rw [← tree_of_ofTree t h, ← map_tree_partsAt .origin m, List.mem_map] at hu
  obtain ⟨p, hp, rfl⟩ := hu
  exact ⟨p.2, ofTree_of_mem_partsAt t h hp⟩

/-! ## What a part draws -/

/-- The leaf that a part draws with its corner at a point. -/
def leaf? : Point × Layout → Option Leaf
  | (pos, .leaf _ l) => some ⟨l, pos⟩
  | _ => none

/-- The node that a part draws with its corner at a point. -/
def node? : Point × Layout → Option Node
  | (pos, .gate _ _ kind _ symbol _) => some { kind, pos := pos + symbol }
  | (pos, .output _ label _ symbol _ _) =>
    some (({ kind := .output, pos := pos + symbol } : Node).withAttr .label (.text label))
  | _ => none

/-- The cell of a leaf or the room of a gate's symbol, for a part with its
corner at a point. -/
def symbol? : Point × Layout → Option Box
  | (pos, .leaf extent _) => some ⟨pos, extent⟩
  | (pos, .gate _ _ _ shape symbol _) => some ⟨pos + symbol, shape.footprint⟩
  | _ => none

mutual

theorem leaves_sketch_eq (pos : Point) : (m : Layout) →
    (m.sketch pos).leaves.toList = (m.partsAt pos).filterMap leaf?
  | .leaf _ _ => rfl
  | .gate _ _ _ shape symbol operands => by
    rw [sketch, Drawing.toList_leaves_append, leaves_sketchAll_eq pos (pos + symbol) shape 0 operands]
    rfl
  | .output _ _ _ _ offset m => by
    rw [sketch, Drawing.toList_leaves_append, Drawing.toList_leaves_append, leaves_sketch_eq (pos + offset) m,
      Drawing.leaves_ofWire, List.append_nil]
    rfl

theorem leaves_sketchAll_eq (pos gate : Point) (shape : Shape) (pin : Nat) : (operands : List (Point × Layout)) →
    (sketchAll pos gate shape pin operands).leaves.toList = (partsAllAt pos operands).filterMap leaf?
  | [] => rfl
  | (offset, m) :: operands => by
    rw [sketchAll, Drawing.toList_leaves_append, Drawing.toList_leaves_append, leaves_sketch_eq (pos + offset) m,
      leaves_sketchAll_eq pos gate shape (pin + 1) operands, Drawing.leaves_ofWire, List.nil_append, partsAllAt,
      List.filterMap_append]

end

mutual

theorem nodes_sketch_eq (pos : Point) : (m : Layout) →
    (m.sketch pos).circuit.nodes.toList = (m.partsAt pos).filterMap node?
  | .leaf _ _ => rfl
  | .gate _ _ _ shape symbol operands => by
    rw [sketch, Drawing.nodes_append, nodes_sketchAll_eq pos (pos + symbol) shape 0 operands]
    rfl
  | .output _ _ _ _ offset m => by
    rw [sketch, Drawing.nodes_append, Drawing.nodes_append, nodes_sketch_eq (pos + offset) m]
    exact congrArg (_ :: ·) (List.append_nil _)

theorem nodes_sketchAll_eq (pos gate : Point) (shape : Shape) (pin : Nat) : (operands : List (Point × Layout)) →
    (sketchAll pos gate shape pin operands).circuit.nodes.toList = (partsAllAt pos operands).filterMap node?
  | [] => rfl
  | (offset, m) :: operands => by
    rw [sketchAll, Drawing.nodes_append, Drawing.nodes_append, nodes_sketch_eq (pos + offset) m,
      nodes_sketchAll_eq pos gate shape (pin + 1) operands, partsAllAt, List.filterMap_append]
    rfl

end

mutual

theorem symbols_eq (pos : Point) : (m : Layout) → m.symbols pos = (m.partsAt pos).filterMap symbol?
  | .leaf _ _ => rfl
  | .gate _ _ _ shape symbol operands => by
    rw [symbols, symbolsAll_eq pos operands]
    rfl
  | .output _ _ _ _ offset m => by
    rw [symbols, symbols_eq (pos + offset) m]
    rfl

theorem symbolsAll_eq (pos : Point) : (operands : List (Point × Layout)) →
    symbolsAll pos operands = (partsAllAt pos operands).filterMap symbol?
  | [] => rfl
  | (offset, m) :: operands => by
    rw [symbolsAll, symbols_eq (pos + offset) m, symbolsAll_eq pos operands, partsAllAt, List.filterMap_append]

end

/-- **What a drawing gains** when a layout is drawn, part by part. -/
theorem drawn_of_draw {m : Layout} {pos out : Point} {d d' : Drawing} (h : m.draw pos d = .ok (out, d')) :
    d'.leaves.toList = d.leaves.toList ++ (m.partsAt pos).filterMap leaf? ∧
      d'.circuit.nodes.toList = d.circuit.nodes.toList ++ (m.partsAt pos).filterMap node? := by
  obtain ⟨-, heq⟩ := (draw_eq_ok_iff pos m).1 h
  cases heq
  rw [Drawing.toList_leaves_append, leaves_sketch_eq, Drawing.nodes_append, nodes_sketch_eq]
  exact ⟨rfl, rfl⟩

end Layout

end Schematic
