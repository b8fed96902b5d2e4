/-
The input bus in closed form. The slots stand from left to right, each two cells
further than the one before it, and a leaf is tapped from the rail of its
literal. `ofVariables_eq_drafts` and `circuit_eq_ok_iff` hold for every catalog;
`ofVariables_grid_eq_ok_iff` says when the grid has room for the bus.
-/
import Schematic.Sheet
import Schematic.Proofs.Lowering
import Mathlib.Tactic.Ring
import Mathlib.Tactic.Linarith

namespace Schematic

theorem Catalog.attach_eq_ok_iff {catalog : Catalog} {node node' : Node} {key : AttrKey} {value : AttrValue} :
    catalog.attach node key value = .ok node' ↔
      catalog.supports node.kind key = true ∧ node.withAttr key value = node' := by
  unfold attach
  split
  · simp_all [pure, Except.pure]
  · simp_all [throw, throwThe, MonadExceptOf.throw]

namespace Slot

/-! ## Slots -/

/-- The input terminal of a variable whose plain rail is in column `plain`. -/
def terminal (size plain : Int) (v : Variable) : Node :=
  (({ kind := .input, pos := ⟨plain, -5 * size⟩ } : Node).withAttr .rotation (.ofTurns 3)).withAttr
    .label (.text v.name)

/-- The slot of a variable whose plain rail is in column `plain`. -/
def draft (size bottom plain : Int) (v : Variable) : Slot where
  var := v
  plain
  inverted := plain + size
  nodes := [
    terminal size plain v,
    ({ kind := .not, pos := ⟨plain + size, -3 * size⟩ } : Node).withAttr .rotation (.ofTurns 3)]
  wires := [
    ⟨⟨plain, -4 * size⟩, ⟨plain + size, -4 * size⟩⟩,
    ⟨⟨plain + size, -3 * size⟩, ⟨plain + size, -4 * size⟩⟩,
    ⟨⟨plain, -5 * size⟩, ⟨plain, bottom⟩⟩,
    ⟨⟨plain + size, -size⟩, ⟨plain + size, bottom⟩⟩]

/-- The slots of several variables, the first plain rail in column `plain`. -/
def drafts (size bottom plain : Int) : List Variable → List Slot
  | [] => []
  | v :: vs => draft size bottom plain v :: drafts size bottom (plain + 2 * size) vs

variable {catalog : Catalog} {size bottom plain : Int} {v : Variable} {vs : List Variable}

/-- **A slot is made** exactly when the catalog supports the attributes of its
nodes and the plane has its rows and columns. -/
theorem ofVariable_eq_ok_iff {slot : Slot} :
    ofVariable catalog bottom plain v = .ok slot ↔
      (catalog.supports .input .rotation = true ∧ catalog.supports .input .label = true ∧
        catalog.supports .not .rotation = true) ∧
      (InRange (-5 * catalog.size) ∧ InRange (plain + catalog.size) ∧ InRange (-3 * catalog.size) ∧
        InRange (-4 * catalog.size) ∧ InRange (-catalog.size)) ∧
      slot = draft catalog.size bottom plain v := by
  simp only [ofVariable, bind_eq_ok_iff, Coord.mul_eq_ok_iff, Coord.add_eq_ok_iff, Coord.neg_eq_ok_iff,
    Catalog.attach_eq_ok_iff]
  refine ⟨?_, ?_⟩
  · intro h
    obtain ⟨_, ⟨h5, rfl⟩, _, ⟨hrot, rfl⟩, _, ⟨hlabel, rfl⟩, _, ⟨hplain, rfl⟩, _, ⟨h3, rfl⟩, _, ⟨hnot, rfl⟩,
      _, ⟨h4, rfl⟩, _, ⟨h1, rfl⟩, ⟨⟩⟩ := h
    exact ⟨⟨hrot, hlabel, hnot⟩, ⟨h5, hplain, h3, h4, h1⟩, rfl⟩
  · intro h
    obtain ⟨⟨hrot, hlabel, hnot⟩, ⟨h5, hplain, h3, h4, h1⟩, rfl⟩ := h
    exact ⟨_, ⟨h5, rfl⟩, _, ⟨hrot, rfl⟩, _, ⟨hlabel, rfl⟩, _, ⟨hplain, rfl⟩, _, ⟨h3, rfl⟩, _, ⟨hnot, rfl⟩,
      _, ⟨h4, rfl⟩, _, ⟨h1, rfl⟩, rfl⟩

theorem ofVariables_eq_drafts : ∀ {vs : List Variable} {plain : Int} {slots : List Slot},
    ofVariables catalog bottom plain vs = .ok slots → slots = drafts catalog.size bottom plain vs
  | [], _, _, h => by
    cases h
    rfl
  | v :: vs, plain, slots, h => by
    simp only [ofVariables, bind_eq_ok_iff, Coord.mul_eq_ok_iff, Coord.add_eq_ok_iff, ofVariable_eq_ok_iff] at h
    obtain ⟨_, ⟨-, -, rfl⟩, _, ⟨-, rfl⟩, _, ⟨-, rfl⟩, rest, hrest, ⟨⟩⟩ := h
    rw [ofVariables_eq_drafts hrest, drafts]

/-- **The grid has room for the bus** that ends left of the leaves, unless
there is a slot and its terminal stands too high. -/
theorem ofVariables_grid_eq_ok_iff {s : Int} (hs : 0 < s) : ∀ {vs : List Variable} {plain : Int}
    {slots : List Slot}, plain + 2 * s * vs.length = 0 → -2 ^ 31 ≤ plain →
    (ofVariables (.grid s) bottom plain vs = .ok slots ↔
      (vs = [] ∨ 5 * s ≤ 2 ^ 31) ∧ slots = drafts s bottom plain vs)
  | [], plain, slots, _, _ => by
    simp only [ofVariables, drafts, true_or, true_and]
    refine ⟨?_, ?_⟩
    · intro h
      cases h
      rfl
    · intro h
      subst h
      rfl
  | v :: vs, plain, slots, hplain, hmin => by
    have hend : plain + 2 * s + 2 * s * vs.length = 0 := by
      rw [List.length_cons] at hplain
      push_cast at hplain
      linarith
    have hpos : 0 ≤ s * vs.length := mul_nonneg hs.le (by omega)
    have hsupports : ∀ kind key, (kind = .input ∨ key = .rotation) →
        (Catalog.grid s).supports kind key = true := by
      rintro kind key (rfl | rfl)
      · cases key <;> rfl
      · rfl
    have hmin' : -2 ^ 31 ≤ plain + 2 * s := by linarith
    have hsize : (Catalog.grid s).size = s := rfl
    simp only [ofVariables, bind_eq_ok_iff, Coord.mul_eq_ok_iff, Coord.add_eq_ok_iff, ofVariable_eq_ok_iff,
      hsize, drafts]
    refine ⟨?_, ?_⟩
    · intro h
      obtain ⟨_, ⟨-, ⟨h5, -⟩, rfl⟩, _, ⟨-, rfl⟩, _, ⟨-, rfl⟩, rest, hrest, ⟨⟩⟩ := h
      obtain ⟨-, rfl⟩ := (ofVariables_grid_eq_ok_iff hs hend hmin').1 hrest
      exact ⟨.inr (by have := h5.1; omega), rfl⟩
    · intro h
      obtain ⟨hroom, rfl⟩ := h
      have hroom := hroom.resolve_left (by simp)
      refine ⟨_, ⟨⟨hsupports _ _ (.inl rfl), hsupports _ _ (.inl rfl), hsupports _ _ (.inr rfl)⟩,
        ⟨⟨?_, ?_⟩, ⟨?_, ?_⟩, ⟨?_, ?_⟩, ⟨?_, ?_⟩, ⟨?_, ?_⟩⟩, rfl⟩, _, ⟨⟨?_, ?_⟩, rfl⟩, _, ⟨⟨?_, ?_⟩, rfl⟩, _,
        (ofVariables_grid_eq_ok_iff hs hend hmin').2 ⟨.inr hroom, rfl⟩, rfl⟩ <;> linarith

theorem mem_drafts_iff {slot : Slot} : ∀ {vs : List Variable} {plain : Int},
    slot ∈ drafts size bottom plain vs ↔
      ∃ (j : Nat) (h : j < vs.length), slot = draft size bottom (plain + 2 * size * j) vs[j]
  | [], plain => by simp [drafts]
  | v :: vs, plain => by
    rw [drafts, List.mem_cons, mem_drafts_iff]
    refine ⟨?_, ?_⟩
    · rintro (rfl | ⟨j, hj, rfl⟩)
      · exact ⟨0, by simp, by simp⟩
      · exact ⟨j + 1, by simpa using hj, by
          rw [List.getElem_cons_succ]
          congr 1
          push_cast
          ring⟩
    · intro hex
      obtain ⟨j, hj, rfl⟩ := hex
      cases j with
      | zero => exact .inl (by simp)
      | succ j =>
        refine .inr ⟨j, by simpa using hj, ?_⟩
        rw [List.getElem_cons_succ]
        congr 1
        push_cast
        ring

theorem find?_drafts : ∀ {vs : List Variable} {plain : Int}, v ∈ vs →
    (drafts size bottom plain vs).find? (·.var == v) =
      some (draft size bottom (plain + 2 * size * vs.idxOf v) v)
  | [], _, h => by simp at h
  | w :: vs, plain, h => by
    rw [drafts]
    by_cases hw : w = v
    · subst hw
      simp [draft]
    · have hne : (draft size bottom plain w).var ≠ v := hw
      rw [List.find?_cons_of_neg (by simpa using hne), find?_drafts (by simpa [Ne.symm hw] using h),
        List.idxOf_cons, beq_false_of_ne hw, cond_false]
      congr 2
      push_cast
      ring

/-- The column of the rail that a leaf is tapped from. -/
def railOf (size left : Int) (vars : List Variable) (l : Literal) : Int :=
  left + 2 * size * vars.idxOf l.var + if l.negated then size else 0

/-- The tap of a leaf. -/
def tapOf (size left : Int) (vars : List Variable) (leaf : Leaf) : Wire :=
  ⟨leaf.pos, ⟨railOf size left vars leaf.literal, leaf.pos.y⟩⟩

theorem tap_drafts {leaf : Leaf} (h : leaf.literal.var ∈ vs) :
    tap (drafts size bottom plain vs) leaf = .ok (tapOf size plain vs leaf) := by
  rw [tap, find?_drafts h, tapOf, railOf, draft]
  cases leaf.literal.negated <;> simp <;> rfl

end Slot

/-! ## Finished sheets -/

namespace Sheet

/-- Every leaf drawn is one of a registered variable. -/
def Registered (sheet : Sheet) : Prop :=
  ∀ leaf ∈ sheet.drawing.leaves, leaf.literal.var ∈ sheet.vars

/-- The circuit of a sheet whose bus starts in column `left`. -/
def finished (sheet : Sheet) (left : Int) : Circuit where
  nodes := sheet.drawing.circuit.nodes ++
    (Slot.drafts sheet.catalog.size sheet.height left sheet.vars).flatMap Slot.nodes
  wires := sheet.drawing.circuit.wires ++
    ((Slot.drafts sheet.catalog.size sheet.height left sheet.vars).flatMap Slot.wires ++
      sheet.drawing.leaves.toList.map (Slot.tapOf sheet.catalog.size left sheet.vars))

theorem circuit_eq_ok_iff {sheet : Sheet} (hreg : sheet.Registered) {circuit : Circuit} :
    sheet.circuit = .ok circuit ↔ ∃ left,
      (InRange (-Coord.ofCount sheet.vars.length) ∧
        InRange (-Coord.ofCount sheet.vars.length * sheet.catalog.size) ∧ InRange left ∧
        -Coord.ofCount sheet.vars.length * sheet.catalog.size * 2 = left) ∧
      Slot.ofVariables sheet.catalog sheet.height left sheet.vars =
        .ok (Slot.drafts sheet.catalog.size sheet.height left sheet.vars) ∧
      circuit = sheet.finished left := by
  have htaps : ∀ left, sheet.drawing.leaves.toList.mapM
      (Slot.tap (Slot.drafts sheet.catalog.size sheet.height left sheet.vars)) =
        .ok (sheet.drawing.leaves.toList.map (Slot.tapOf sheet.catalog.size left sheet.vars)) :=
    fun left => mapM_eq_ok_map fun leaf hleaf => Slot.tap_drafts (hreg leaf (Array.mem_toList_iff.1 hleaf))
  simp only [Sheet.circuit, slots, bind_eq_ok_iff, Coord.mul_eq_ok_iff, Coord.neg_eq_ok_iff]
  refine ⟨?_, ?_⟩
  · intro h
    obtain ⟨_, ⟨_, ⟨hneg, rfl⟩, _, ⟨hmul, rfl⟩, left, ⟨hleft, hdouble⟩, hslots⟩, taps, htap, ⟨⟩⟩ := h
    obtain rfl := Slot.ofVariables_eq_drafts hslots
    rw [htaps] at htap
    cases htap
    exact ⟨left, ⟨hneg, hmul, hdouble ▸ hleft, hdouble⟩, hslots, rfl⟩
  · intro h
    obtain ⟨left, ⟨hneg, hmul, hleft, hdouble⟩, hslots, rfl⟩ := h
    exact ⟨_, ⟨_, ⟨hneg, rfl⟩, _, ⟨hmul, rfl⟩, left, ⟨hdouble ▸ hleft, hdouble⟩, hslots⟩, _, htaps left, rfl⟩

/-- **A sheet on the grid is finished** exactly when it is empty or has room for
the terminals of the bus above it. -/
theorem circuit_grid_eq_ok_iff {s : Int} (hs : 0 < s) {sheet : Sheet} (hcatalog : sheet.catalog = .grid s)
    (hreg : sheet.Registered) (hroom : 2 * s * sheet.vars.length < 2 ^ 31) {circuit : Circuit} :
    sheet.circuit = .ok circuit ↔
      (sheet.vars = [] ∨ 5 * s ≤ 2 ^ 31) ∧ circuit = sheet.finished (-(2 * s * sheet.vars.length)) := by
  have hle : (sheet.vars.length : Int) ≤ s * sheet.vars.length := le_mul_of_one_le_left (by omega) hs
  have hpos : 0 ≤ s * (sheet.vars.length : Int) := mul_nonneg hs.le (by omega)
  have hsmall : sheet.vars.length < 2 ^ 31 := by
    rw [mul_assoc] at hroom
    omega
  have hcount : Coord.ofCount sheet.vars.length = sheet.vars.length := Coord.ofCount_eq hsmall
  have hsize : sheet.catalog.size = s := by rw [hcatalog]; rfl
  rw [circuit_eq_ok_iff hreg, hcount, hsize]
  refine ⟨?_, ?_⟩
  · intro h
    obtain ⟨left, ⟨-, -, hmin, rfl⟩, hslots, rfl⟩ := h
    rw [hcatalog] at hslots
    have hiff := (Slot.ofVariables_grid_eq_ok_iff hs (by ring) hmin.1).1 hslots
    exact ⟨hiff.1, congrArg sheet.finished (by ring)⟩
  · intro h
    obtain ⟨hvars, rfl⟩ := h
    have hend : -(2 * s * sheet.vars.length) + 2 * s * sheet.vars.length = 0 := neg_add_cancel _
    have hslots : Slot.ofVariables (.grid s) sheet.height _ sheet.vars = .ok _ :=
      (Slot.ofVariables_grid_eq_ok_iff hs hend (by linarith)).2 ⟨hvars, rfl⟩
    refine ⟨_, ⟨⟨?_, ?_⟩, ⟨?_, ?_⟩, ⟨?_, ?_⟩, ?_⟩, by rw [hcatalog]; exact hslots, rfl⟩ <;> linarith

end Sheet

end Schematic
