/-
The rails of the input bus and the taps that end on them. Rails are the vertical
wires down to the last row of a sheet (`Circuit.rails`), taps the wires from the
column of the leaves to the left (`Circuit.taps`); on the grid the former are two
for each slot (`rails_onBus`), the latter one for each leaf (`taps_onBus`).

A tap ends on one rail only because no column has two, and no two taps are in
the same row because the leaves, which are all in one column, are a cell apart.
-/
import Schematic.Proofs.Separation
import Mathlib.Data.List.Nodup

namespace Schematic

open Box (Apart LeftOf Above)

/-! ## Rails and taps of a circuit -/

/-- A vertical wire that ends in row `bottom`. -/
def Wire.IsRail (bottom : Int) (w : Wire) : Prop :=
  w.p.x = w.q.x ∧ w.q.y = bottom

instance (bottom : Int) (w : Wire) : Decidable (w.IsRail bottom) :=
  inferInstanceAs (Decidable (_ ∧ _))

instance (w : Wire) : Decidable w.IsTap :=
  inferInstanceAs (Decidable (_ ∧ _))

/-- A point strictly between the ends of a vertical wire. -/
structure Wire.Crosses (w : Wire) (p : Point) : Prop where
  column : w.p.x = p.x
  top : w.p.y < p.y
  bottom : p.y < w.q.y

namespace Circuit

/-- The rails of a circuit whose sheet ends in row `bottom`. -/
def rails (c : Circuit) (bottom : Int) : List Wire :=
  c.wires.toList.filter fun w => w.IsRail bottom

/-- The taps of a circuit. -/
def taps (c : Circuit) : List Wire :=
  c.wires.toList.filter fun w => w.IsTap

theorem Reads.congr {c : Circuit} {s : Int} {w w' : Wire} {name : String} {negated : Bool}
    (h : c.Reads s w name negated) (hx : w'.q.x = w.q.x) : c.Reads s w' name negated := by
  obtain ⟨n, hn, hkind, hlabel, hcolumn⟩ := h
  exact ⟨n, hn, hkind, hlabel, by rw [hcolumn, hx]⟩

end Circuit

/-! ## Slots -/

namespace Slot

variable {s bottom : Int}

/-- A rail of the slot whose plain rail is in column `plain`. It hangs from the
terminal or, one cell to the right, from below the inverter. -/
def railAt (s bottom plain : Int) (negated : Bool) : Wire :=
  if negated then ⟨⟨plain + s, -s⟩, ⟨plain + s, bottom⟩⟩ else ⟨⟨plain, -5 * s⟩, ⟨plain, bottom⟩⟩

/-- The two rails of a slot. -/
def railsAt (s bottom plain : Int) : List Wire :=
  [railAt s bottom plain false, railAt s bottom plain true]

theorem column_railAt (s bottom plain : Int) (negated : Bool) :
    (railAt s bottom plain negated).q.x = plain + if negated then s else 0 := by
  cases negated <;> simp [railAt]

theorem crosses_railAt (hs : 0 < s) {plain : Int} {negated : Bool} {p : Point}
    (hx : p.x = plain + if negated then s else 0) (hy : 0 ≤ p.y) (hbottom : p.y < bottom) :
    (railAt s bottom plain negated).Crosses p := by
  cases negated with
  | false => exact ⟨by simp [railAt, hx], by simp only [railAt, Bool.false_eq_true, if_false]; linarith, hbottom⟩
  | true => exact ⟨by simp [railAt, hx], by simp only [railAt, if_true]; linarith, hbottom⟩

theorem filter_isRail_draft (hs : 0 < s) (hbottom : 0 ≤ bottom) (plain : Int) (v : Variable) :
    (draft s bottom plain v).wires.filter (fun w => w.IsRail bottom) = railsAt s bottom plain := by
  have hbranch : plain ≠ plain + s := by omega
  have hstub : ¬ -(4 * s) = bottom := by omega
  simp [draft, railsAt, railAt, Wire.IsRail, hbranch, hstub]

theorem filter_isTap_draft (hs : 0 < s) {plain : Int} (h : plain + s < 0) (v : Variable) :
    (draft s bottom plain v).wires.filter (fun w => w.IsTap) = [] := by
  rw [List.filter_eq_nil_iff]
  intro w hw htap
  have hneg := p_neg_of_mem_draft hs h hw
  rw [(of_decide_eq_true htap).1] at hneg
  exact lt_irrefl 0 hneg

theorem rails_drafts (hs : 0 < s) (hbottom : 0 ≤ bottom) : ∀ (vs : List Variable) (plain : Int),
    (drafts s bottom plain vs).flatMap (fun slot => slot.wires.filter fun w => w.IsRail bottom) =
      (List.range vs.length).flatMap fun j : Nat => railsAt s bottom (plain + 2 * s * j)
  | [], _ => rfl
  | v :: vs, plain => by
    have hshift : ∀ j : Nat, plain + 2 * s + 2 * s * j = plain + 2 * s * ((j + 1 : Nat) : Int) := by
      intro j
      push_cast
      ring
    rw [drafts, List.flatMap_cons, rails_drafts hs hbottom vs, filter_isRail_draft hs hbottom,
      List.length_cons, List.range_succ_eq_map, List.flatMap_cons, List.flatMap_map]
    simp only [hshift, Nat.cast_zero, mul_zero, add_zero]

theorem map_column_rails (s bottom plain : Int) : ∀ n : Nat,
    ((List.range n).flatMap fun j : Nat => railsAt s bottom (plain + 2 * s * j)).map (fun w => w.p.x) =
      (List.range (2 * n)).map fun k : Nat => plain + s * k
  | 0 => rfl
  | n + 1 => by
    have htwo : 2 * (n + 1) = 2 * n + 1 + 1 := by omega
    rw [List.range_succ, List.flatMap_append, List.map_append, map_column_rails s bottom plain n, htwo,
      List.range_succ, List.range_succ, List.map_append, List.map_append, List.append_assoc]
    simp only [railsAt, railAt, List.flatMap_singleton, List.map_cons, List.map_nil, List.cons_append,
      List.nil_append, Bool.false_eq_true, if_false, if_true]
    push_cast
    congr 3 <;> ring

theorem nodup_columns (hs : 0 < s) (plain : Int) (n : Nat) :
    ((List.range n).map fun k : Nat => plain + s * k).Nodup := by
  refine List.nodup_range.map fun k l hkl => ?_
  have hcell := Int.eq_of_mul_eq_mul_left hs.ne' (Int.add_left_cancel hkl)
  omega

end Slot

/-! ## What a sheet draws -/

namespace Strip

theorem OnGrid.keepsTo {s : Int} {strip : Strip} (hs : 0 < s) (h : strip.OnGrid s) :
    strip.drawing.KeepsTo s 0 fun p => 0 ≤ p.x ∧ strip.top ≤ p.y ∧ p.y + s ≤ strip.box.bottom := by
  obtain ⟨top, layout⟩ := strip
  obtain ⟨label, t, hc, rfl⟩ := h
  exact (GateTree.keepsTo_sketch_output hs hc ⟨0, top⟩).mono fun p hp => ⟨hp.left, hp.top, hp.bottom⟩

theorem keepsTo_drawings {s column : Int} {P : Point → Prop} : ∀ {strips : List Strip},
    (∀ strip ∈ strips, strip.drawing.KeepsTo s column P) → (drawings strips).KeepsTo s column P
  | [], _ => Drawing.every_empty
  | strip :: strips, h => Drawing.every_append.2
    ⟨h strip (by simp), keepsTo_drawings fun other hother => h other (by simp [hother])⟩

end Strip

namespace Sheet

variable {s : Int} {sheet : Sheet} {outputs : List (String × Expr)} {strips : List Strip} {circuit : Circuit}

/-- A sheet draws on the right side of the plane, from row 0 to two rows above
its last. -/
theorem Run.keepsTo (hs : 0 < s) (hrun : (blank (.grid s)).Run outputs strips sheet) :
    sheet.drawing.KeepsTo s 0 fun p => 0 ≤ p.x ∧ 0 ≤ p.y ∧ p.y + 2 * s ≤ sheet.height := by
  rw [hrun.drawing_of_blank]
  refine Strip.keepsTo_drawings fun strip hstrip => ?_
  obtain ⟨hgrid, htop, hbottom⟩ := (hrun.stacked hs rfl).2.1 strip hstrip
  have htop : 0 ≤ strip.top := htop
  exact (hgrid.keepsTo hs).mono fun p hp => ⟨hp.1, by linarith [hp.2.1], by linarith [hp.2.2]⟩

theorem circuit_eq_onBus (hready : sheet.Ready s) (h : sheet.circuit = .ok circuit) :
    circuit = sheet.onBus s := by
  obtain ⟨slots, -, rfl⟩ := circuit_eq_finished hready.registered h
  rw [onBus, hready.size]

theorem wires_onBus (hready : sheet.Ready s) : (sheet.onBus s).wires.toList =
    sheet.drawing.circuit.wires.toList ++
      ((Slot.drafts s sheet.height (-(2 * s * sheet.vars.length)) sheet.vars).flatMap Slot.wires ++
        sheet.drawing.leaves.toList.map (Slot.tapOf s (-(2 * s * sheet.vars.length)) sheet.vars)) := by
  rw [onBus, finished, hready.size, Array.toList_appendList]

/-- **The rails of a finished circuit** are those of its slots. -/
theorem Run.rails_onBus (hs : 0 < s) (hrun : (blank (.grid s)).Run outputs strips sheet) :
    (sheet.onBus s).rails sheet.height = (List.range sheet.vars.length).flatMap fun j : Nat =>
      Slot.railsAt s sheet.height (-(2 * s * sheet.vars.length) + 2 * s * j) := by
  have hready := hrun.ready hs
  have htrees : sheet.drawing.circuit.wires.toList.filter (fun w => w.IsRail sheet.height) = [] := by
    rw [List.filter_eq_nil_iff]
    intro w hw hrail
    have hbottom := ((hrun.keepsTo hs).wires w (Array.mem_toList_iff.1 hw)).2.2.2
    rw [(of_decide_eq_true hrail).2] at hbottom
    linarith
  have htaps : (sheet.drawing.leaves.toList.map
      (Slot.tapOf s (-(2 * s * sheet.vars.length)) sheet.vars)).filter (fun w => w.IsRail sheet.height) = [] := by
    rw [List.filter_eq_nil_iff]
    intro w hw hrail
    obtain ⟨leaf, hleaf, rfl⟩ := List.mem_map.1 hw
    have htap := isTap_tapOf hs hready (Array.mem_toList_iff.1 hleaf)
    have hcolumn := (of_decide_eq_true hrail).1
    rw [htap.1] at hcolumn
    exact htap.2.ne hcolumn.symm
  rw [Circuit.rails, wires_onBus hready, List.filter_append, List.filter_append, htrees, htaps,
    List.filter_flatMap, Slot.rails_drafts hs (hrun.stacked hs rfl).1, List.nil_append, List.append_nil]

theorem Run.columns_onBus (hs : 0 < s) (hrun : (blank (.grid s)).Run outputs strips sheet) :
    ((sheet.onBus s).rails sheet.height).map (fun rail => rail.p.x) =
      (List.range (2 * sheet.vars.length)).map fun k : Nat => -(2 * s * sheet.vars.length) + s * k := by
  rw [hrun.rails_onBus hs, Slot.map_column_rails]

theorem Run.column_neg (hs : 0 < s) (hrun : (blank (.grid s)).Run outputs strips sheet) {rail : Wire}
    (hrail : rail ∈ (sheet.onBus s).rails sheet.height) : rail.p.x < 0 := by
  have hcolumn := List.mem_map_of_mem (f := fun rail : Wire => rail.p.x) hrail
  rw [hrun.columns_onBus hs, List.mem_map] at hcolumn
  obtain ⟨k, hk, hx⟩ := hcolumn
  have hlast : s * ((k + 1 : Nat) : Int) ≤ s * ((2 * sheet.vars.length : Nat) : Int) :=
    mul_le_mul_of_nonneg_left (Nat.cast_le.2 (List.mem_range.1 hk)) hs.le
  push_cast at hlast
  rw [← hx]
  linarith

/-- **The taps of a finished circuit** are those of its leaves. -/
theorem taps_onBus (hs : 0 < s) (hready : sheet.Ready s) : (sheet.onBus s).taps =
    sheet.drawing.leaves.toList.map (Slot.tapOf s (-(2 * s * sheet.vars.length)) sheet.vars) := by
  have htrees : sheet.drawing.circuit.wires.toList.filter (fun w => w.IsTap) = [] := by
    rw [List.filter_eq_nil_iff]
    intro w hw htap
    have hright := (hready.keepsTo.wires w (Array.mem_toList_iff.1 hw)).2.left
    exact absurd (of_decide_eq_true htap).2 hright.not_gt
  have hslots : ((Slot.drafts s sheet.height (-(2 * s * sheet.vars.length)) sheet.vars).flatMap
      fun slot => slot.wires.filter fun w => w.IsTap) = [] := by
    rw [List.flatMap_eq_nil_iff]
    intro slot hslot
    obtain ⟨j, hj, rfl⟩ := Slot.mem_drafts_iff.1 hslot
    exact Slot.filter_isTap_draft hs (Slot.rail_neg hs hj) _
  have htaps : (sheet.drawing.leaves.toList.map
      (Slot.tapOf s (-(2 * s * sheet.vars.length)) sheet.vars)).filter (fun w => w.IsTap) =
        sheet.drawing.leaves.toList.map (Slot.tapOf s (-(2 * s * sheet.vars.length)) sheet.vars) := by
    rw [List.filter_eq_self]
    intro w hw
    obtain ⟨leaf, hleaf, rfl⟩ := List.mem_map.1 hw
    exact decide_eq_true (isTap_tapOf hs hready (Array.mem_toList_iff.1 hleaf))
  rw [Circuit.taps, wires_onBus hready, List.filter_append, List.filter_append, htrees, htaps,
    List.filter_flatMap, hslots, List.nil_append, List.nil_append]

/-- The rail of a leaf's literal is there, and the leaf's row crosses it. -/
theorem Run.exists_rail (hs : 0 < s) (hrun : (blank (.grid s)).Run outputs strips sheet) {leaf : Leaf}
    (hleaf : leaf ∈ sheet.drawing.leaves) : ∃ rail ∈ (sheet.onBus s).rails sheet.height,
      (sheet.onBus s).Reads s rail leaf.literal.var.name leaf.literal.negated ∧
        rail.Crosses (Slot.tapOf s (-(2 * s * sheet.vars.length)) sheet.vars leaf).q := by
  have hready := hrun.ready hs
  obtain ⟨-, hrow, hrow'⟩ := ((hrun.keepsTo hs).leaves leaf hleaf).1
  have hslot := List.idxOf_lt_length_of_mem (hready.registered leaf hleaf)
  have hreads := (reads_onBus_iff hs hready hleaf).2 ⟨rfl, rfl⟩
  rw [hrun.rails_onBus hs]
  refine ⟨Slot.railAt s sheet.height
    (-(2 * s * sheet.vars.length) + 2 * s * sheet.vars.idxOf leaf.literal.var) leaf.literal.negated, ?_, ?_, ?_⟩
  · refine List.mem_flatMap.2 ⟨_, List.mem_range.2 hslot, ?_⟩
    cases leaf.literal.negated <;> simp [Slot.railsAt]
  · exact hreads.congr (Slot.column_railAt _ _ _ _)
  · refine Slot.crosses_railAt hs rfl hrow ?_
    simp only [Slot.tapOf]
    linarith

theorem Run.pairwise_rows (hs : 0 < s) (hrun : (blank (.grid s)).Run outputs strips sheet) :
    sheet.drawing.leaves.toList.Pairwise fun leaf leaf' => leaf.pos.y ≠ leaf'.pos.y := by
  have hapart := (List.pairwise_append.1 (hrun.pairwise_boxes hs)).1
  rw [List.pairwise_map] at hapart
  refine hapart.imp_of_mem fun {leaf leaf'} hleaf hleaf' h => ?_
  have hcolumn := ((hrun.keepsTo hs).leaves leaf (Array.mem_toList_iff.1 hleaf)).2
  have hcolumn' := ((hrun.keepsTo hs).leaves leaf' (Array.mem_toList_iff.1 hleaf')).2
  -- with both in one column, their cells can only be apart from top to bottom
  rcases h with (h | h) | h | h
  all_goals simp only [LeftOf, Above, Box.right, Box.bottom] at h
  all_goals omega

/-- **The bus has no shorts and no missed rails.** The rails of a circuit built on
the grid are two for each variable, in columns a cell apart that end a cell left
of the trees; every leaf has a tap, which runs along its row and ends on the rail
of its literal, between the ends of the rail, and on no other; and no two taps
share a row. -/
theorem taps_meet_rails (hs : 0 < s) (h : (blank (.grid s)).addAll outputs = .ok sheet)
    (hcircuit : sheet.circuit = .ok circuit) :
    (circuit.rails sheet.height).map (fun rail => rail.p.x) =
      (List.range (2 * sheet.vars.length)).map (fun k : Nat => -(2 * s * sheet.vars.length) + s * k) ∧
    ((circuit.rails sheet.height).map fun rail => rail.p.x).Nodup ∧
    (∀ rail ∈ circuit.rails sheet.height, (∀ n ∈ sheet.drawing.circuit.nodes, rail.p.x < n.pos.x) ∧
      ∀ leaf ∈ sheet.drawing.leaves, rail.p.x < leaf.pos.x) ∧
    List.Forall₂ (fun leaf tap => tap.p = leaf.pos ∧ tap.q.y = leaf.pos.y ∧
      ∃ rail ∈ circuit.rails sheet.height, circuit.Reads s rail leaf.literal.var.name leaf.literal.negated ∧
        rail.Crosses tap.q ∧ ∀ other ∈ circuit.rails sheet.height, other.p.x = tap.q.x → other = rail)
      sheet.drawing.leaves.toList circuit.taps ∧
    circuit.taps.Pairwise fun tap tap' => tap.p.y ≠ tap'.p.y := by
  obtain ⟨strips, hrun⟩ := exists_run h
  have hready := hrun.ready hs
  have hkeeps := hrun.keepsTo hs
  obtain rfl := circuit_eq_onBus hready hcircuit
  have hcolumns := hrun.columns_onBus hs
  have hnodup : (((sheet.onBus s).rails sheet.height).map fun rail => rail.p.x).Nodup := by
    rw [hcolumns]
    exact Slot.nodup_columns hs _ _
  rw [taps_onBus hs hready]
  refine ⟨hcolumns, hnodup, fun rail hrail => ?_, ?_, ?_⟩
  · have hneg := hrun.column_neg hs hrail
    exact ⟨fun n hn => hneg.trans_le (hkeeps.nodes n hn).1.1,
      fun leaf hleaf => hneg.trans_le (hkeeps.leaves leaf hleaf).1.1⟩
  · rw [List.forall₂_map_right_iff, List.forall₂_same]
    intro leaf hleaf
    obtain ⟨rail, hrail, hreads, hcrosses⟩ := hrun.exists_rail hs (Array.mem_toList_iff.1 hleaf)
    -- another rail in the tap's column would be a second one in the rail's
    refine ⟨rfl, rfl, rail, hrail, hreads, hcrosses, fun other hother hx => ?_⟩
    exact List.inj_on_of_nodup_map hnodup hother hrail (hx.trans hcrosses.column.symm)
  · rw [List.pairwise_map]
    exact hrun.pairwise_rows hs

/-- Two variables have four rails, and each leaf has a tap that ends on one of
them. -/
theorem taps_meet_rails_of_two : ∃ circuit, twoSheet.circuit = .ok circuit ∧
    (circuit.rails twoSheet.height).map (fun rail => rail.p.x) = [-80, -60, -40, -20] ∧
    List.Forall₂ (fun leaf tap => tap.p = leaf.pos ∧
      ∃ rail ∈ circuit.rails twoSheet.height, rail.Crosses tap.q) twoSheet.drawing.leaves.toList circuit.taps ∧
    circuit.taps.Pairwise fun tap tap' => tap.p.y ≠ tap'.p.y := by
  obtain ⟨circuit, hcircuit⟩ := exists_circuit_twoSheet
  obtain ⟨hcolumns, -, -, hmeet, hrows⟩ := taps_meet_rails (by decide) addAll_twoOutputs hcircuit
  refine ⟨circuit, hcircuit, hcolumns.trans (by decide), hmeet.imp fun leaf tap htap => ?_, hrows⟩
  obtain ⟨hp, -, rail, hrail, -, hcrosses, -⟩ := htap
  exact ⟨hp, rail, hrail, hcrosses⟩

end Sheet

end Schematic
