/-
The input bus supplies every leaf, whatever the catalog. Leaves are placed when
an expression is drawn and variables are registered when its tree is made; the
two agree after every addition (`Adds.registered`), so that no leaf is ever
without a slot. Where the slots stand follows from their number once the bus is
finished: it would not fit on the plane if there were too many of them to be
counted (`left_eq`).
-/
import Schematic.Proofs.Capacity
import Schematic.Proofs.Strips

namespace Schematic

/-! ## Registered leaves -/

namespace Sheet

variable {before after : Sheet} {o : String × Expr} {outputs : List (String × Expr)} {strip : Strip}
  {strips : List Strip}

theorem Adds.var_mem_references (h : before.Adds o strip after) {leaf : Leaf}
    (hleaf : leaf ∈ strip.drawing.leaves) : leaf.literal.var ∈ o.2.references := by
  obtain ⟨he, hlayout⟩ := h.layout_gates
  have hleaves := Layout.leaves_sketch ⟨0, strip.top⟩ strip.layout
  rw [Layout.tree_of_ofTree _ hlayout, GateTree.leaves] at hleaves
  rw [← Expr.leaves_gates he, ← hleaves]
  exact List.mem_map_of_mem (List.mem_map_of_mem (Array.mem_toList_iff.2 hleaf))

theorem Adds.registered (h : before.Adds o strip after) (hreg : before.Registered) : after.Registered := by
  intro leaf hleaf
  rw [h.vars, mem_foldl_register, Expr.mem_vars_iff]
  rw [h.drawing] at hleaf
  rcases Drawing.mem_leaves_append.1 hleaf with hleaf | hleaf
  · exact .inl (hreg leaf hleaf)
  · exact .inr (h.var_mem_references hleaf)

theorem Adds.nodup_vars (h : before.Adds o strip after) (hvars : before.vars.Nodup) : after.vars.Nodup := by
  rw [h.vars]
  exact nodup_foldl_register hvars

/-- **A run registers the leaves that it draws.** -/
theorem Run.registered {catalog : Catalog} (hrun : (blank catalog).Run outputs strips after) : after.Registered :=
  hrun.invariant Adds.registered (registered_blank catalog)

theorem Run.nodup_vars {catalog : Catalog} (hrun : (blank catalog).Run outputs strips after) : after.vars.Nodup :=
  hrun.invariant Adds.nodup_vars List.nodup_nil

end Sheet

/-! ## Faults of the bus -/

theorem Coord.checked_ne_unregistered (op : Arithmetic) (n : Int) (name : String) :
    checked op n ≠ .error (.unregisteredVariable name) := by
  intro h
  cases (checked_eq_error_iff.1 h).2

theorem Catalog.attach_ne_unregistered (catalog : Catalog) (node : Node) (key : AttrKey) (value : AttrValue)
    (name : String) : catalog.attach node key value ≠ .error (.unregisteredVariable name) := by
  unfold attach
  split
  · exact nofun
  · intro h
    cases h

namespace Slot

open Coord (checked_ne_unregistered)

variable {catalog : Catalog} {bottom : Int}

/-- A slot that is not made fails for its own room or attributes. -/
theorem ofVariable_ne_unregistered (plain : Int) (v : Variable) (name : String) :
    ofVariable catalog bottom plain v ≠ .error (.unregisteredVariable name) := by
  unfold ofVariable
  refine bind_ne_error (checked_ne_unregistered _ _ _) fun top _ => ?_
  refine bind_ne_error (catalog.attach_ne_unregistered _ _ _ _) fun rotated _ => ?_
  refine bind_ne_error (catalog.attach_ne_unregistered _ _ _ _) fun terminal _ => ?_
  refine bind_ne_error (checked_ne_unregistered _ _ _) fun inverted _ => ?_
  refine bind_ne_error (checked_ne_unregistered _ _ _) fun middle _ => ?_
  refine bind_ne_error (catalog.attach_ne_unregistered _ _ _ _) fun inverter _ => ?_
  refine bind_ne_error (checked_ne_unregistered _ _ _) fun branch _ => ?_
  exact bind_ne_error (checked_ne_unregistered _ _ _) fun below _ => nofun

theorem ofVariables_ne_unregistered (vs : List Variable) (plain : Int) (name : String) :
    ofVariables catalog bottom plain vs ≠ .error (.unregisteredVariable name) := by
  induction vs generalizing plain with
  | nil =>
    intro h
    cases h
  | cons v vs ih =>
    unfold ofVariables
    refine bind_ne_error (ofVariable_ne_unregistered plain v name) fun slot _ => ?_
    refine bind_ne_error (checked_ne_unregistered _ _ _) fun step _ => ?_
    refine bind_ne_error (checked_ne_unregistered _ _ _) fun next _ => ?_
    refine bind_ne_error (ih next) fun slots _ h => ?_
    cases h

/-! ## Where the slots stand -/

theorem ofVariables_end : ∀ {vs : List Variable} {plain : Int} {slots : List Slot}, InRange plain →
    ofVariables catalog bottom plain vs = .ok slots → InRange (plain + 2 * catalog.size * vs.length)
  | [], plain, _, hplain, _ => by simpa using hplain
  | v :: vs, plain, _, _, h => by
    simp only [ofVariables, bind_eq_ok_iff, Coord.mul_eq_ok_iff, Coord.add_eq_ok_iff] at h
    obtain ⟨_, -, _, ⟨-, rfl⟩, _, ⟨hnext, rfl⟩, rest, hrest, -⟩ := h
    have hend := ofVariables_end hnext hrest
    rw [List.length_cons]
    push_cast
    rwa [mul_add, mul_one, add_comm (2 * catalog.size * (vs.length : Int)), ← add_assoc]

/-- **The first column of the bus.** If the plane has it and the one after the
last slot, then the slots are few enough for their number to be its own
coordinate, or they take no room at all. -/
theorem left_eq {n : Nat} {size left : Int} (hleft : -Coord.ofCount n * size * 2 = left) (hstart : InRange left)
    (hend : InRange (left + 2 * size * n)) : left = -(2 * size * n) := by
  by_cases hsize : size = 0
  · subst hsize
    simpa using hleft.symm
  · have hlow := hstart.1
    have hhigh := hstart.2
    have hlow' := hend.1
    have hhigh' := hend.2
    -- a slot takes two columns or more, and the slots end fewer than 2 ^ 32 columns from where they start
    have hfew : n < 2 ^ 31 := by
      rcases lt_or_gt_of_ne hsize with hneg | hpos
      · have : (n : Int) ≤ -size * n := le_mul_of_one_le_left (by omega) (by omega)
        rw [neg_mul] at this
        linarith
      · have : (n : Int) ≤ size * n := le_mul_of_one_le_left (by omega) hpos
        linarith
    rw [← hleft, Coord.ofCount_eq hfew]
    ring

theorem map_var_drafts (size bottom : Int) : ∀ (vs : List Variable) (plain : Int),
    (drafts size bottom plain vs).map Slot.var = vs
  | [], _ => rfl
  | v :: vs, plain => by rw [drafts, List.map_cons, map_var_drafts size bottom vs, draft]

theorem length_wires_of_mem_drafts {size bottom plain : Int} {vs : List Variable} {slot : Slot}
    (h : slot ∈ drafts size bottom plain vs) : slot.wires.length = 4 := by
  obtain ⟨j, hj, rfl⟩ := mem_drafts_iff.1 h
  rfl

end Slot

/-! ## The finished circuit -/

namespace Sheet

variable {catalog : Catalog} {outputs : List (String × Expr)} {sheet : Sheet}

theorem slots_ne_unregistered (sheet : Sheet) (name : String) :
    sheet.slots ≠ .error (.unregisteredVariable name) := by
  unfold slots
  refine bind_ne_error (Coord.checked_ne_unregistered .negate _ name) fun count _ => ?_
  refine bind_ne_error (Coord.checked_ne_unregistered .multiply _ name) fun width _ => ?_
  refine bind_ne_error (Coord.checked_ne_unregistered .multiply _ name) fun left _ => ?_
  exact Slot.ofVariables_ne_unregistered _ left name

/-- **The slots of a sheet** stand side by side up to the column of the
leaves. -/
theorem slots_eq_drafts {slots : List Slot} (h : sheet.slots = .ok slots) :
    slots = Slot.drafts sheet.catalog.size sheet.height (-(2 * sheet.catalog.size * sheet.vars.length))
      sheet.vars := by
  unfold Sheet.slots at h
  simp only [bind_eq_ok_iff, Coord.mul_eq_ok_iff, Coord.neg_eq_ok_iff] at h
  obtain ⟨_, ⟨-, rfl⟩, _, ⟨-, rfl⟩, left, ⟨hleft, hdouble⟩, hslots⟩ := h
  rw [hdouble] at hleft
  rw [← Slot.left_eq hdouble hleft (Slot.ofVariables_end hleft hslots)]
  exact Slot.ofVariables_eq_drafts hslots

theorem taps_eq_ok (hreg : sheet.Registered) {slots : List Slot} (h : sheet.slots = .ok slots) :
    sheet.drawing.leaves.toList.mapM (Slot.tap slots) = .ok (sheet.drawing.leaves.toList.map
      (Slot.tapOf sheet.catalog.size (-(2 * sheet.catalog.size * sheet.vars.length)) sheet.vars)) := by
  rw [slots_eq_drafts h]
  exact mapM_eq_ok_map fun leaf hleaf => Slot.tap_drafts (hreg leaf (Array.mem_toList_iff.1 hleaf))

/-- **A leaf without a slot is never the fault.** -/
theorem circuit_ne_unregistered (hreg : sheet.Registered) (name : String) :
    sheet.circuit ≠ .error (.unregisteredVariable name) := by
  unfold Sheet.circuit
  refine bind_ne_error (slots_ne_unregistered sheet name) fun slots hslots => ?_
  rw [taps_eq_ok hreg hslots]
  exact bind_ne_error nofun fun taps _ => nofun

theorem circuit_eq_finished (hreg : sheet.Registered) {circuit : Circuit} (h : sheet.circuit = .ok circuit) :
    ∃ slots, sheet.slots = .ok slots ∧
      circuit = sheet.finished (-(2 * sheet.catalog.size * sheet.vars.length)) := by
  unfold Sheet.circuit at h
  simp only [bind_eq_ok_iff] at h
  obtain ⟨slots, hslots, taps, htaps, hcircuit⟩ := h
  rw [taps_eq_ok hreg hslots] at htaps
  cases htaps
  cases hcircuit
  refine ⟨slots, hslots, ?_⟩
  rw [slots_eq_drafts hslots]
  rfl

theorem tapOf_left (size : Int) (vars : List Variable) (leaf : Leaf) :
    Slot.tapOf size (-(2 * size * vars.length)) vars leaf =
      ⟨leaf.pos, ⟨2 * size * ((vars.idxOf leaf.literal.var : Int) - vars.length) +
        if leaf.literal.negated then size else 0, leaf.pos.y⟩⟩ := by
  rw [Slot.tapOf, Slot.railOf, mul_sub, sub_eq_neg_add]

theorem exists_circuit_grid {s : Int} (hs : 0 < s) (h : (blank (.grid s)).addAll outputs = .ok sheet)
    (hroom : 2 * s * sheet.vars.length < 2 ^ 31) (habove : 5 * s ≤ 2 ^ 31) :
    ∃ circuit, sheet.circuit = .ok circuit := by
  obtain ⟨strips, hrun⟩ := exists_run h
  exact ⟨_, (circuit_grid_eq_ok_iff hs hrun.catalog_eq hrun.registered hroom).2 ⟨.inr habove, rfl⟩⟩

/-! ## Two expressions on a sheet -/

/-- Two expressions in the same two variables, one with a negated reference. -/
def twoOutputs : List (String × Expr) :=
  [("F", .join .and [.var ⟨"A", by decide⟩, .not (.var ⟨"B", by decide⟩)]),
    ("G", .not (.join .or [.var ⟨"B", by decide⟩, .var ⟨"A", by decide⟩]))]

/-- Their sheet, on cells of the usual size. -/
def twoSheet : Sheet :=
  (blank (.grid 20)).drawnAll 20 twoOutputs

theorem addAll_twoOutputs : (blank (.grid 20)).addAll twoOutputs = .ok twoSheet := rfl

theorem exists_circuit_twoSheet : ∃ circuit, twoSheet.circuit = .ok circuit :=
  exists_circuit_grid (by decide) addAll_twoOutputs (by decide) (by decide)

/-! ## Supply -/

/-- **The bus supplies every leaf**, whatever the catalog. No sheet of
expressions is refused for a leaf without a slot. The slots of a finished
circuit are those of the variables, each once, and its wires are those drawn
with the expressions, four for each slot, and for each leaf in order the one
from the leaf to the rail of its literal. -/
theorem circuit_supplies_leaves (h : (blank catalog).addAll outputs = .ok sheet) :
    sheet.vars.Nodup ∧ (∀ leaf ∈ sheet.drawing.leaves, leaf.literal.var ∈ sheet.vars) ∧
    (∀ name, sheet.circuit ≠ .error (.unregisteredVariable name)) ∧
    ∀ circuit, sheet.circuit = .ok circuit → ∃ slots, sheet.slots = .ok slots ∧
      slots.map Slot.var = sheet.vars ∧ (∀ slot ∈ slots, slot.wires.length = 4) ∧
      circuit.wires.toList = sheet.drawing.circuit.wires.toList ++ slots.flatMap Slot.wires ++
        sheet.drawing.leaves.toList.map fun leaf =>
          ⟨leaf.pos, ⟨2 * catalog.size * ((sheet.vars.idxOf leaf.literal.var : Int) - sheet.vars.length) +
            if leaf.literal.negated then catalog.size else 0, leaf.pos.y⟩⟩ := by
  obtain ⟨strips, hrun⟩ := exists_run h
  have hreg := hrun.registered
  have hcatalog : sheet.catalog = catalog := hrun.catalog_eq
  refine ⟨hrun.nodup_vars, hreg, circuit_ne_unregistered hreg, fun circuit hcircuit => ?_⟩
  obtain ⟨slots, hslots, rfl⟩ := circuit_eq_finished hreg hcircuit
  have hdrafts := slots_eq_drafts hslots
  refine ⟨slots, hslots, ?_, fun slot hslot => Slot.length_wires_of_mem_drafts (hdrafts ▸ hslot), ?_⟩
  · rw [hdrafts, Slot.map_var_drafts]
  · rw [finished, hdrafts, hcatalog, List.append_assoc, Array.toList_appendList]
    simp only [← tapOf_left]

/-- Each of the four leaves of the two expressions is tapped at its own rail. -/
theorem circuit_supplies_leaves_of_two : ∃ circuit slots, twoSheet.circuit = .ok circuit ∧
    twoSheet.slots = .ok slots ∧ slots.map Slot.var = [⟨"A", by decide⟩, ⟨"B", by decide⟩] ∧
    circuit.wires.toList = twoSheet.drawing.circuit.wires.toList ++ slots.flatMap Slot.wires ++
      [⟨⟨0, 20⟩, ⟨-80, 20⟩⟩, ⟨⟨0, 60⟩, ⟨-20, 60⟩⟩, ⟨⟨0, 120⟩, ⟨-40, 120⟩⟩, ⟨⟨0, 160⟩, ⟨-80, 160⟩⟩] := by
  obtain ⟨circuit, hcircuit⟩ := exists_circuit_twoSheet
  obtain ⟨-, -, -, hfinished⟩ := circuit_supplies_leaves addAll_twoOutputs
  obtain ⟨slots, hslots, hvars, -, hwires⟩ := hfinished circuit hcircuit
  exact ⟨circuit, slots, hcircuit, hslots, hvars.trans (by decide), hwires.trans (congrArg _ (by decide))⟩

end Sheet

end Schematic
