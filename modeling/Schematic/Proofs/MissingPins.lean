/-
What happens when a shape has too few pins. A gate wires each of its operands to
an input pin of its own shape, and a terminal wires its tree to its first one.
`GateTree.edges` lists these wires in the order in which they are drawn: those
inside an operand come before the operand's own.

A drawing is refused for a coordinate that the plane does not have or for the
first edge whose pin is missing, and for nothing else (`fault_of_draw`). On the
grid, the trees of expressions have every pin they ask for.
-/
import Schematic.Proofs.Parts
import Schematic.Proofs.GridLayout
import Schematic.Proofs.Refusal

namespace Schematic

/-! ## Edges -/

namespace GateTree

mutual

/-- The wires from the parts of a tree into the nodes above them, in the order
in which they are drawn. Each is told by the kind of the node and the number of
its pin. -/
def edges : GateTree → List (NodeKind × Nat)
  | .leaf _ => []
  | .gate kind ts => edgesAll kind 0 ts
  | .output _ t => t.edges ++ [(.output, 0)]

/-- The wires of operands of a node of a kind, the first being wired to pin
number `pin`. -/
def edgesAll (kind : NodeKind) (pin : Nat) : List GateTree → List (NodeKind × Nat)
  | [] => []
  | t :: ts => t.edges ++ (kind, pin) :: edgesAll kind (pin + 1) ts

end

/-- The edges into the node at the root of a tree. -/
def rootEdges : GateTree → List (NodeKind × Nat)
  | .leaf _ => []
  | .gate kind ts => (List.range' 0 ts.length).map fun pin => (kind, pin)
  | .output _ _ => [(.output, 0)]

mutual

/-- The edges of a tree are those into the roots of its parts, in another
order. -/
theorem edges_perm : (t : GateTree) → t.edges.Perm (t.parts.flatMap rootEdges)
  | .leaf _ => .refl _
  | .gate kind ts => edgesAll_perm kind 0 ts
  | .output _ t => List.perm_append_comm.trans ((edges_perm t).cons _)

theorem edgesAll_perm (kind : NodeKind) (pin : Nat) : (ts : List GateTree) →
    (edgesAll kind pin ts).Perm
      ((List.range' pin ts.length).map (fun pin => (kind, pin)) ++ (partsAll ts).flatMap rootEdges)
  | [] => .refl _
  | t :: ts => by
    rw [edgesAll, List.length_cons, List.range'_succ, List.map_cons, partsAll, List.flatMap_append]
    refine List.perm_middle.trans (.cons _ ?_)
    exact ((edges_perm t).append (edgesAll_perm kind (pin + 1) ts)).trans (List.perm_append_comm_assoc ..)

end

end GateTree

/-! ## Missing pins -/

namespace Catalog

/-- Whether an edge asks for a pin that the shape of its node does not have. -/
def lacksPin (catalog : Catalog) (edge : NodeKind × Nat) : Bool :=
  match catalog.shape edge.1 with
  | .ok shape => shape.inputs.length ≤ edge.2
  | .error _ => false

variable {catalog : Catalog} {shape : Shape} {kind : NodeKind} {pin : Nat}

theorem lacksPin_iff : catalog.lacksPin (kind, pin) = true ↔
    ∃ shape, catalog.shape kind = .ok shape ∧ shape.inputs.length ≤ pin := by
  unfold lacksPin
  cases catalog.shape kind <;> simp

theorem lacksPin_eq_false (hshape : catalog.shape kind = .ok shape) (hpin : pin < shape.inputs.length) :
    catalog.lacksPin (kind, pin) = false := by
  simp [lacksPin, hshape, hpin]

/-- The first of several edges whose pin is missing has this fault. It asks for
the pin right after the last one that the shape has. -/
def FirstLack (catalog : Catalog) (edges : List (NodeKind × Nat)) (fault : Fault) : Prop :=
  ∃ kind shape, edges.find? catalog.lacksPin = some (kind, shape.inputs.length) ∧
    catalog.shape kind = .ok shape ∧ fault = .missingPin shape.inputs.length shape.inputs.length

namespace FirstLack

variable {edges edges' : List (NodeKind × Nat)} {fault : Fault}

theorem append_left (h : catalog.FirstLack edges fault) (edges' : List (NodeKind × Nat)) :
    catalog.FirstLack (edges ++ edges') fault := by
  obtain ⟨kind, shape, hfind, hshape⟩ := h
  exact ⟨kind, shape, by rw [List.find?_append, hfind, Option.some_or], hshape⟩

theorem append_right (h : catalog.FirstLack edges' fault) (hpins : ∀ edge ∈ edges, catalog.lacksPin edge = false) :
    catalog.FirstLack (edges ++ edges') fault := by
  obtain ⟨kind, shape, hfind, hshape⟩ := h
  have hnone : edges.find? catalog.lacksPin = none := List.find?_eq_none.2 (by simpa using hpins)
  exact ⟨kind, shape, by rw [List.find?_append, hnone, Option.none_or, hfind], hshape⟩

theorem head (hshape : catalog.shape kind = .ok shape) (edges : List (NodeKind × Nat)) :
    catalog.FirstLack ((kind, shape.inputs.length) :: edges) (.missingPin shape.inputs.length shape.inputs.length) := by
  have hlacks : catalog.lacksPin (kind, shape.inputs.length) = true := lacksPin_iff.2 ⟨shape, hshape, le_rfl⟩
  exact ⟨kind, shape, List.find?_cons_of_pos hlacks, hshape, rfl⟩

end FirstLack

end Catalog

/-! ## What a drawing is refused for -/

theorem Point.overflow_of_add {p q : Point} {fault : Fault} (h : p.add q = .error fault) :
    ∃ op, fault = .overflow op := by
  simp only [Point.add, bind_eq_error_iff, Coord.add, Coord.checked_eq_error_iff] at h
  obtain ⟨-, rfl⟩ | ⟨_, -, ⟨-, rfl⟩ | ⟨_, -, h⟩⟩ := h
  · exact ⟨_, rfl⟩
  · exact ⟨_, rfl⟩
  · cases h

namespace Layout

variable {catalog : Catalog}

mutual

theorem pins_of_fits : (t : GateTree) → ∀ {m : Layout} {pos : Point}, ofTree catalog t = .ok m → m.Fits pos →
    ∀ edge ∈ t.edges, catalog.lacksPin edge = false
  | .leaf _, _, _, _, _, edge, hedge => by cases hedge
  | .gate kind ts, m, pos, h, hfits, edge, hedge => by
    obtain ⟨shape, stack, hshape, hstack, rfl⟩ := exists_of_ofTree_gate h
    exact pins_of_fitsAll hshape ts hstack hfits.2.1 edge hedge
  | .output label t, m, pos, h, hfits, edge, hedge => by
    obtain ⟨shape, tree, -, hshape, htree, rfl⟩ := exists_of_ofTree_output h
    obtain ⟨-, -, hfits, hpin, -⟩ := hfits
    rcases List.mem_append.1 hedge with hedge | hedge
    · exact pins_of_fits t htree hfits edge hedge
    · rw [List.mem_singleton.1 hedge]
      exact Catalog.lacksPin_eq_false hshape hpin

theorem pins_of_fitsAll {kind : NodeKind} {shape : Shape} (hshape : catalog.shape kind = .ok shape) :
    (ts : List GateTree) → ∀ {y width : Int} {stack : Stack} {pos gate : Point} {pin : Nat},
      ofTrees catalog y width ts = .ok stack →
      FitsAll pos gate shape pin stack.operands → ∀ edge ∈ GateTree.edgesAll kind pin ts, catalog.lacksPin edge = false
  | [], _, _, _, _, _, _, _, _, edge, hedge => by cases hedge
  | t :: ts, _, _, _, _, _, pin, h, hfits, edge, hedge => by
    obtain ⟨operand, rest, hoperand, hrest, rfl⟩ := exists_of_ofTrees_cons h
    obtain ⟨-, hfits, hpin, -, hfitsAll⟩ := hfits
    rcases List.mem_append.1 hedge with hedge | hedge
    · exact pins_of_fits t hoperand hfits edge hedge
    · rcases List.mem_cons.1 hedge with rfl | hedge
      · exact Catalog.lacksPin_eq_false hshape hpin
      · exact pins_of_fitsAll hshape ts hrest hfitsAll edge hedge

end

theorem pins_of_draw {t : GateTree} {m : Layout} {pos : Point} {d : Drawing} {r : Point × Drawing}
    (h : ofTree catalog t = .ok m) (hdraw : m.draw pos d = .ok r) : ∀ edge ∈ t.edges, catalog.lacksPin edge = false :=
  pins_of_fits t h ((draw_eq_ok_iff pos m).1 hdraw).1

mutual

/-- **A drawing is refused for arithmetic or for its first missing pin.** -/
theorem fault_of_draw : (t : GateTree) → ∀ {m : Layout} {pos : Point} {d : Drawing} {fault : Fault},
    ofTree catalog t = .ok m → m.draw pos d = .error fault →
      (∃ op, fault = .overflow op) ∨ catalog.FirstLack t.edges fault
  | .leaf l, m, pos, d, fault, h, hdraw => by
    cases h
    simp only [draw, bind_eq_error_iff] at hdraw
    obtain hadd | ⟨_, -, hout⟩ := hdraw
    · exact .inl (Point.overflow_of_add hadd)
    · cases hout
  | .gate kind ts, m, pos, d, fault, h, hdraw => by
    obtain ⟨shape, stack, hshape, hstack, rfl⟩ := exists_of_ofTree_gate h
    simp only [draw, bind_eq_error_iff] at hdraw
    obtain hadd | ⟨_, -, hoperands | ⟨_, -, hadd | ⟨_, -, hout⟩⟩⟩ := hdraw
    · exact .inl (Point.overflow_of_add hadd)
    · exact fault_of_drawAll hshape ts hstack (Nat.zero_le _) hoperands
    · exact .inl (Point.overflow_of_add hadd)
    · cases hout
  | .output label t, m, pos, d, fault, h, hdraw => by
    obtain ⟨shape, tree, -, hshape, htree, rfl⟩ := exists_of_ofTree_output h
    simp only [draw, bind_eq_error_iff] at hdraw
    obtain hadd | ⟨_, -, hadd | ⟨_, -, hinner | ⟨_, hinner, hpin | ⟨_, -, hadd | ⟨_, -, hout⟩⟩⟩⟩⟩ := hdraw
    · exact .inl (Point.overflow_of_add hadd)
    · exact .inl (Point.overflow_of_add hadd)
    · exact (fault_of_draw t htree hinner).imp_right fun hlack => hlack.append_left _
    · obtain ⟨hlen, rfl⟩ := Shape.input_eq_error_iff.1 hpin
      have hpins := pins_of_draw htree hinner
      obtain hlen := Nat.le_zero.1 hlen
      have hlack := Catalog.FirstLack.head hshape []
      rw [hlen] at hlack ⊢
      exact .inr (hlack.append_right hpins)
    · exact .inl (Point.overflow_of_add hadd)
    · cases hout

/-- Operands of which those before have their pins. -/
theorem fault_of_drawAll {kind : NodeKind} {shape : Shape} (hshape : catalog.shape kind = .ok shape) :
    (ts : List GateTree) → ∀ {y width : Int} {stack : Stack} {pos gate : Point} {pin : Nat} {d : Drawing}
      {fault : Fault}, ofTrees catalog y width ts = .ok stack → pin ≤ shape.inputs.length →
      drawAll pos gate shape pin stack.operands d = .error fault →
        (∃ op, fault = .overflow op) ∨ catalog.FirstLack (GateTree.edgesAll kind pin ts) fault
  | [], _, _, _, _, _, _, _, _, h, _, hdraw => by
    cases h
    cases hdraw
  | t :: ts, _, _, _, _, _, pin, d, fault, h, hle, hdraw => by
    obtain ⟨operand, rest, hoperand, hrest, rfl⟩ := exists_of_ofTrees_cons h
    simp only [drawAll, bind_eq_error_iff] at hdraw
    obtain hadd | ⟨_, -, hinner | ⟨_, hinner, hpin | ⟨_, hpin, hadd | ⟨_, -, hnext⟩⟩⟩⟩ := hdraw
    · exact .inl (Point.overflow_of_add hadd)
    · exact (fault_of_draw t hoperand hinner).imp_right fun hlack => hlack.append_left _
    · obtain ⟨hlen, rfl⟩ := Shape.input_eq_error_iff.1 hpin
      have hpins := pins_of_draw hoperand hinner
      -- all pins before this one were there, so it is the first that is not
      obtain rfl : pin = shape.inputs.length := Nat.le_antisymm hle hlen
      exact .inr ((Catalog.FirstLack.head hshape _).append_right hpins)
    · exact .inl (Point.overflow_of_add hadd)
    · have hpins := pins_of_draw hoperand hinner
      have hlt : pin < shape.inputs.length := (Shape.input_eq_ok_iff_pin.1 hpin).1
      refine (fault_of_drawAll hshape ts hrest hlt hnext).imp_right fun hlack => ?_
      have hself : ∀ edge ∈ [(kind, pin)], catalog.lacksPin edge = false := by
        simpa using Catalog.lacksPin_eq_false hshape hlt
      exact (hlack.append_right hself).append_right hpins

end

/-- **Where pins are missing.** An edge of a tree lacks its pin exactly if a gate
has more operands than its shape has inputs, or the shape of a terminal has
none. -/
theorem exists_lacksPin_iff {t : GateTree} : (∃ edge ∈ t.edges, catalog.lacksPin edge = true) ↔
    (∃ kind ts shape, .gate kind ts ∈ t.parts ∧ catalog.shape kind = .ok shape ∧ shape.inputs.length < ts.length) ∨
      ∃ label u shape, .output label u ∈ t.parts ∧ catalog.shape .output = .ok shape ∧ shape.inputs = [] := by
  simp only [t.edges_perm.mem_iff, List.mem_flatMap]
  refine ⟨?_, ?_⟩
  · rintro ⟨⟨kind, pin⟩, ⟨p, hp, hedge⟩, hlacks⟩
    obtain ⟨shape, hshape, hle⟩ := Catalog.lacksPin_iff.1 hlacks
    cases p with
    | leaf l => cases hedge
    | gate kind' ts =>
      obtain ⟨_, hpin, ⟨⟩⟩ := List.mem_map.1 hedge
      have hlt := (List.mem_range'_1.1 hpin).2
      exact .inl ⟨kind, ts, shape, hp, hshape, by omega⟩
    | output label u =>
      cases List.mem_singleton.1 hedge
      exact .inr ⟨label, u, shape, hp, hshape, List.length_eq_zero_iff.1 (Nat.le_zero.1 hle)⟩
  · rintro (⟨kind, ts, shape, hp, hshape, hlt⟩ | ⟨label, u, shape, hp, hshape, hempty⟩)
    · have hedge : (kind, shape.inputs.length) ∈ GateTree.rootEdges (.gate kind ts) :=
        List.mem_map.2 ⟨_, List.mem_range'_1.2 ⟨Nat.zero_le _, by omega⟩, rfl⟩
      exact ⟨_, ⟨_, hp, hedge⟩, Catalog.lacksPin_iff.2 ⟨shape, hshape, le_rfl⟩⟩
    · have hedge : (.output, 0) ∈ GateTree.rootEdges (.output label u) := List.mem_singleton_self _
      exact ⟨_, ⟨_, hp, hedge⟩, Catalog.lacksPin_iff.2 ⟨shape, hshape, by simp [hempty]⟩⟩

end Layout

/-! ## Pins on the grid -/

namespace GateTree

mutual

theorem complete_of_mem_parts : (t : GateTree) → t.Complete → ∀ {u : GateTree}, u ∈ t.parts → u.Complete
  | .leaf l, h, u, hu => by
    rw [List.mem_singleton.1 hu]
    exact h
  | .gate kind ts, h, u, hu => by
    rcases List.mem_cons.1 hu with rfl | hu
    · exact h
    · exact complete_of_mem_partsAll ts h.2.2.2 hu
  | .output _ _, h, _, _ => h.elim

theorem complete_of_mem_partsAll : (ts : List GateTree) → CompleteAll ts → ∀ {u : GateTree}, u ∈ partsAll ts →
    u.Complete
  | [], _, u, hu => by cases hu
  | t :: ts, h, u, hu => by
    rcases List.mem_append.1 hu with hu | hu
    · exact complete_of_mem_parts t h.1 hu
    · exact complete_of_mem_partsAll ts h.2 hu

end

end GateTree

namespace Layout

variable {s : Int} {t : GateTree} {m : Layout}

theorem shape_of_mem_parts (hs : 0 < s) (hc : t.Complete) (hm : ofTree (.grid s) t = .ok m) {kind : NodeKind}
    {ts : List GateTree} (h : .gate kind ts ∈ t.parts) :
    (Catalog.grid s).shape kind = .ok (Catalog.gateShape s kind) := by
  obtain ⟨part, hpart⟩ := exists_ofTree_of_mem_parts hm h
  have hplan := ofTree_grid_eq_plan hs _ (GateTree.complete_of_mem_parts t hc h) hpart
  obtain ⟨shape, stack, hshape, -, rfl⟩ := exists_of_ofTree_gate hpart
  rw [GateTree.plan] at hplan
  injection hplan with _ _ _ heq
  rw [hshape, heq]

/-- **On the grid no pin is missing** from a complete tree. -/
theorem draw_grid_ne_missingPin (hs : 0 < s) (hc : t.Complete) (hm : ofTree (.grid s) t = .ok m) (pos : Point)
    (d : Drawing) (pins pin : Nat) : m.draw pos d ≠ .error (.missingPin pins pin) := by
  intro hdraw
  obtain ⟨op, hfault⟩ | ⟨kind, shape, hfind, -⟩ := fault_of_draw t hm hdraw
  · cases hfault
  have hlacks : ∃ edge ∈ t.edges, (Catalog.grid s).lacksPin edge = true :=
    ⟨_, List.mem_of_find?_eq_some hfind, List.find?_some hfind⟩
  obtain ⟨kind, ts, shape, hp, hshape, hlt⟩ | ⟨label, u, shape, hp, -⟩ := exists_lacksPin_iff.1 hlacks
  · rw [shape_of_mem_parts hs hc hm hp] at hshape
    cases hshape
    rw [Catalog.length_inputs_gateShape, (GateTree.complete_of_mem_parts t hc hp).2.1] at hlt
    exact absurd hlt (lt_irrefl _)
  · exact GateTree.complete_of_mem_parts t hc hp

/-! ## Refused drawings -/

/-- **A drawing without overflow is refused exactly for a missing pin**, that is
if a gate has more operands than its shape has inputs, or the shape of a
terminal has none. The pin reported is that of the first such edge, operands
before the node they are wired to. The tree of an expression is never refused
for a pin on the grid. -/
theorem draw_refused_iff {catalog : Catalog} (hm : ofTree catalog t = .ok m) (pos : Point) (d : Drawing) :
    ((∀ op, m.draw pos d ≠ .error (.overflow op)) →
      ((∃ fault, m.draw pos d = .error fault) ↔
        (∃ kind ts shape, .gate kind ts ∈ t.parts ∧ catalog.shape kind = .ok shape ∧
          shape.inputs.length < ts.length) ∨
        ∃ label u shape, .output label u ∈ t.parts ∧ catalog.shape .output = .ok shape ∧ shape.inputs = []) ∧
      ∀ fault, m.draw pos d = .error fault → ∃ kind shape,
        t.edges.find? catalog.lacksPin = some (kind, shape.inputs.length) ∧ catalog.shape kind = .ok shape ∧
        fault = .missingPin shape.inputs.length shape.inputs.length ∧
        fault.message = "Shape has " ++ toString shape.inputs.length ++ " inputs, requested pin " ++
          toString shape.inputs.length) ∧
    ∀ s e registered after, 0 < s → catalog = .grid s → Expr.toGateTree e registered = (.ok t, after) →
      ∀ pins pin, m.draw pos d ≠ .error (.missingPin pins pin) := by
  refine ⟨fun hplane => ?_, fun s e registered after hs hcatalog hlower pins pin => ?_⟩
  · have hlack : ∀ fault, m.draw pos d = .error fault → catalog.FirstLack t.edges fault := by
      intro fault hdraw
      obtain ⟨op, rfl⟩ | hlack := fault_of_draw t hm hdraw
      · exact absurd hdraw (hplane op)
      · exact hlack
    refine ⟨?_, fun fault hdraw => ?_⟩
    · rw [← exists_lacksPin_iff]
      refine ⟨?_, ?_⟩
      · rintro ⟨fault, hdraw⟩
        obtain ⟨kind, shape, hfind, -⟩ := hlack fault hdraw
        exact ⟨_, List.mem_of_find?_eq_some hfind, List.find?_some hfind⟩
      · rintro ⟨edge, hedge, hlacks⟩
        cases hdraw : m.draw pos d with
        | error fault => exact ⟨fault, rfl⟩
        | ok r =>
          have hpins := pins_of_draw hm hdraw edge hedge
          rw [hlacks] at hpins
          cases hpins
    · obtain ⟨kind, shape, hfind, hshape, rfl⟩ := hlack fault hdraw
      exact ⟨kind, shape, hfind, hshape, rfl, rfl⟩
  · subst hcatalog
    obtain ⟨he, rfl, -⟩ := Expr.toGateTree_eq_ok_iff.1 hlower
    exact draw_grid_ne_missingPin hs (Expr.complete_gates he) hm pos d pins pin

end Layout

/-- A catalog whose terminals have no pins, with two for an inverter and one for
any other gate. -/
def Catalog.starved : Catalog where
  size := 10
  shape
    | .output => .ok (terminal 10 [] none)
    | .not => .ok ⟨[.origin, ⟨0, 10⟩], some ⟨20, 0⟩, ⟨20, 10⟩⟩
    | _ => .ok ⟨[.origin], some ⟨30, 0⟩, ⟨30, 10⟩⟩
  supports _ _ := true

namespace Layout

/-- A disjunction of a leaf and a terminal, which stands above an inverter of
three operands. -/
def demanding : GateTree :=
  .gate (.or 2) [.leaf ⟨⟨"M", by decide⟩, false⟩, .output "inner" (.gate .not
    [.leaf ⟨⟨"M", by decide⟩, true⟩, .leaf ⟨⟨"N", by decide⟩, false⟩, .leaf ⟨⟨"N", by decide⟩, true⟩])]

/-- An inverted conjunction of a variable and a negated one. -/
def modest : Expr :=
  .not (.join .and [.var ⟨"M", by decide⟩, .not (.var ⟨"N", by decide⟩)])

/-- Pins are missing from all three nodes of the one, and the inverter's is
reported; on the grid no pin is missing from the other. -/
theorem draw_refused_iff_of_demanding : (∃ m, ofTree .starved demanding = .ok m ∧
      m.draw ⟨-4, 9⟩ {} = .error (.missingPin 2 2) ∧
      ((∃ kind ts shape, .gate kind ts ∈ demanding.parts ∧ Catalog.starved.shape kind = .ok shape ∧
          shape.inputs.length < ts.length) ∨
        ∃ label u shape, .output label u ∈ demanding.parts ∧ Catalog.starved.shape .output = .ok shape ∧
          shape.inputs = []) ∧
      (Fault.missingPin 2 2).message = "Shape has 2 inputs, requested pin 2" ∧
      ∃ kind, demanding.edges.find? Catalog.starved.lacksPin = some (kind, 2)) ∧
    ∃ t after m, modest.toGateTree [] = (.ok t, after) ∧ ofTree (.grid 20) t = .ok m ∧
      ∀ pins pin, m.draw ⟨-4, 9⟩ {} ≠ .error (.missingPin pins pin) := by
  refine ⟨?_, ?_⟩
  · obtain ⟨m, hm⟩ : ∃ m, ofTree .starved demanding = .ok m := ⟨_, rfl⟩
    have hdraw : m.draw ⟨-4, 9⟩ {} = .error (.missingPin 2 2) := by
      cases hm
      rfl
    have hplane : ∀ op, m.draw ⟨-4, 9⟩ {} ≠ .error (.overflow op) := by
      intro op h
      cases hdraw.symm.trans h
    obtain ⟨hiff, hfirst⟩ := (draw_refused_iff hm ⟨-4, 9⟩ {}).1 hplane
    obtain ⟨kind, shape, hfind, -, hfault, hmessage⟩ := hfirst _ hdraw
    injection hfault with hpins
    rw [← hpins] at hfind hmessage
    exact ⟨m, hm, hdraw, hiff.1 ⟨_, hdraw⟩, hmessage, kind, hfind⟩
  · obtain ⟨t, after, hlower⟩ : ∃ t after, modest.toGateTree [] = (.ok t, after) := ⟨_, _, rfl⟩
    obtain ⟨m, hm⟩ : ∃ m, ofTree (.grid 20) t = .ok m := by
      cases hlower
      exact ⟨_, rfl⟩
    exact ⟨t, after, m, hlower, hm, (draw_refused_iff hm ⟨-4, 9⟩ {}).2 20 modest [] after (by decide) rfl hlower⟩

end Layout

end Schematic
