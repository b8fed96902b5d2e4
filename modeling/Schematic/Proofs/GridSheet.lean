/-
Sheets on the grid. An expression that can be drawn takes as many rows as it
has references, one between any two, and two more for its name and the gap
below. `Sheet.drawn` is the sheet with it, and `add_grid_eq_ok_iff` and
`addAll_grid_eq_ok_iff` say exactly when the plane has it.
-/
import Schematic.Sheet
import Schematic.Proofs.GridLayout
import Schematic.Proofs.Occurrences

namespace Schematic

open GateTree

/-! ## Points of a layout on the grid -/

namespace Layout

theorem pin_plan_bounds {s : Int} (hs : 0 < s) {t : GateTree} (h : t.Complete) :
    0 ≤ (t.plan s).pin.y ∧ (t.plan s).pin.y + s ≤ (2 * t.leafCount - 1) * s := by
  cases t with
  | leaf l => simp [plan, pin, leafCount]
  | gate kind ts =>
    obtain ⟨hpos, hle⟩ := arity_le_leafCountAll h
    have hhalf : ((kind.arity / 2 : Nat) : Int) * s + s ≤ leafCountAll ts * s := by
      have : ((kind.arity / 2 + 1 : Nat) : Int) * s ≤ leafCountAll ts * s :=
        mul_le_mul_of_nonneg_right (by omega) hs.le
      rwa [Nat.cast_succ, add_mul, one_mul] at this
    have hcell : s ≤ leafCountAll ts * s := le_mul_of_one_le_left hs.le (by omega)
    simp only [plan, pin, leafCount]
    exact ⟨mul_nonneg (by omega) hs.le, by linarith⟩
  | output label t => exact h.elim

mutual

/-- **A complete tree is drawn** where the plane has its box. -/
theorem fits_plan {s : Int} (hs : 0 < s) : (t : GateTree) → t.Complete → ∀ {pos : Point},
    0 ≤ pos.x → 0 ≤ pos.y → pos.x + (1 + t.span) * s < 2 ^ 31 →
    pos.y + (2 * t.leafCount - 1) * s < 2 ^ 31 → (t.plan s).Fits pos
  | .leaf l, _, pos, hx, hy, hwidth, hheight => by
    simp only [span, leafCount] at hwidth hheight
    push_cast at hwidth hheight
    exact ⟨⟨by linarith, by linarith⟩, by linarith, by linarith⟩
  | .gate kind ts, hc, pos, hx, hy, hwidth, hheight => by
    obtain ⟨hpos, hle⟩ := arity_le_leafCountAll hc
    have hcell : s ≤ leafCountAll ts * s := le_mul_of_one_le_left hs.le (by omega)
    have hhigh : (kind.arity : Int) * s ≤ leafCountAll ts * s := mul_le_mul_of_nonneg_right (by omega) hs.le
    have hsymbol : 0 ≤ (kind.width : Int) * s := mul_nonneg (by omega) hs.le
    have hspan : 0 ≤ (spanAll ts : Int) * s := mul_nonneg (by omega) hs.le
    have hpin := pin_plan_bounds hs hc
    simp only [plan, pin, leafCount] at hpin
    simp only [span, leafCount] at hwidth hheight
    push_cast at hwidth
    simp only [plan, Fits, Point.InPlane, Point.x_add, Point.y_add]
    refine ⟨⟨⟨by linarith, by linarith⟩, by linarith, by linarith⟩, ?_, ⟨by linarith, by linarith⟩,
      by linarith, by linarith⟩
    refine fitsAll_planAll hs ts hc.2.2.2 hx hy le_rfl (by linarith) (fun _ => by linarith) ?_ ?_ ?_ ?_
      (by rw [hc.2.1, Nat.zero_add]) <;> simp only [Point.x_add, Point.y_add] <;> linarith
  | .output _ _, hc, _, _, _, _, _ => hc.elim

/-- Operands from row `y` down, wired to the pins of a gate at `gate`. -/
theorem fitsAll_planAll {s : Int} (hs : 0 < s) {kind : NodeKind} {gate : Point} : (ts : List GateTree) →
    CompleteAll ts → ∀ {pos : Point} {y : Int} {i : Nat}, 0 ≤ pos.x → 0 ≤ pos.y → 0 ≤ y →
    pos.x + (1 + spanAll ts) * s < 2 ^ 31 → (ts ≠ [] → pos.y + y + 2 * leafCountAll ts * s - s < 2 ^ 31) →
    0 ≤ gate.x → gate.x < 2 ^ 31 → 0 ≤ gate.y → gate.y + kind.arity * s < 2 ^ 31 + s →
    i + ts.length = kind.arity → FitsAll pos gate (Catalog.gateShape s kind) i (planAll s y ts)
  | [], _, _, _, _, _, _, _, _, _, _, _, _, _, _ => trivial
  | t :: ts, hc, pos, y, i, hx, hy, hy', hwidth, hheight, hgx, hgx', hgy, hgy', hlen => by
    rw [List.length_cons] at hlen
    have hheight := hheight (by simp)
    rw [spanAll, ← max_span_mul hs.le, ← max_add_add_left, max_lt_iff] at hwidth
    rw [leafCountAll] at hheight
    push_cast at hheight
    have hcell : s ≤ t.leafCount * s := le_mul_of_one_le_left hs.le (by have := leafCount_pos t hc.1; omega)
    have hpos : 0 ≤ (leafCountAll ts : Int) * s := mul_nonneg (by omega) hs.le
    have hspan := cell_le_width hs t
    have hpin : 0 ≤ (i : Int) * s := mul_nonneg (by omega) hs.le
    have hpin' : (i : Int) * s + s ≤ kind.arity * s := by
      have : ((i + 1 : Nat) : Int) * s ≤ kind.arity * s := mul_le_mul_of_nonneg_right (by omega) hs.le
      rwa [Nat.cast_succ, add_mul, one_mul] at this
    have hi : i < kind.arity := by omega
    refine ⟨?_, ?_, by rwa [Catalog.length_inputs_gateShape], ?_, ?_⟩
    · simp only [Point.InPlane, Point.x_add, Point.y_add]
      exact ⟨⟨by linarith, by linarith⟩, by linarith, by linarith⟩
    · refine fits_plan hs t hc.1 ?_ ?_ ?_ ?_ <;> simp only [Point.x_add, Point.y_add] <;> linarith
    · simp only [Catalog.pin_gateShape hi, Point.InPlane, Point.x_add, Point.y_add]
      exact ⟨⟨by linarith, by linarith⟩, by linarith, by linarith⟩
    · exact fitsAll_planAll hs ts hc.2 hx hy (by linarith) hwidth.2 (fun _ => by linarith) hgx hgx' hgy hgy'
        (by omega)

end

/-! ## Output terminals -/

/-- **An output terminal is laid out** exactly when the plane has the box around
it and its tree. -/
theorem ofTree_output_eq_ok_iff {s : Int} (hs : 0 < s) {t : GateTree} (h : t.Complete) {label : String}
    {m : Layout} :
    ofTree (.grid s) (.output label t) = .ok m ↔
      2 * t.leafCount * s < 2 ^ 31 ∧ (3 + t.span) * s < 2 ^ 31 ∧ m = plan s (.output label t) := by
  have hsupports : (Catalog.grid s).supports .output .label = true := rfl
  have hshape : (Catalog.grid s).shape .output = .ok (Catalog.terminal s [.origin] none) := rfl
  have hspan : 0 ≤ (t.span : Int) * s := mul_nonneg (by omega) hs.le
  have hcell : s ≤ t.leafCount * s := le_mul_of_one_le_left hs.le (by have := leafCount_pos t h; omega)
  obtain ⟨hpin, hpin'⟩ := pin_plan_bounds hs h
  have heq : output ⟨(1 + t.span) * s + s + s, (2 * t.leafCount - 1) * s + s⟩ label
      (Catalog.terminal s [.origin] none) ⟨(1 + t.span) * s + s, s + (t.plan s).pin.y⟩ ⟨0, s⟩ (t.plan s) =
      plan s (.output label t) := by
    simp only [plan, output.injEq, Extent.mk.injEq, Point.mk.injEq, and_true, true_and]
    exact ⟨⟨by ring, by ring⟩, by ring⟩
  simp only [ofTree, hsupports, if_true, hshape, bind_eq_ok_iff, Coord.add_eq_ok_iff]
  refine ⟨?_, ?_⟩
  · intro hex
    obtain ⟨_, ⟨⟩, tree, htree, _, ⟨-, rfl⟩, _, ⟨-, rfl⟩, _, ⟨hwidth, rfl⟩, _, ⟨hheight, rfl⟩, ⟨⟩⟩ := hex
    obtain rfl := ofTree_grid_eq_plan hs t h htree
    rw [extent_plan h] at hwidth hheight ⊢
    have hwidth := hwidth.2
    have hheight := hheight.2
    simp only [Catalog.grid, Catalog.terminal] at hwidth hheight
    exact ⟨by linarith, by linarith, heq⟩
  · intro hex
    obtain ⟨hheight, hwidth, rfl⟩ := hex
    have htree := ofTree_grid_eq_ok hs t h hheight (by linarith)
    refine ⟨_, rfl, _, htree, _, ⟨?_, rfl⟩, _, ⟨?_, rfl⟩, _, ⟨?_, rfl⟩, _, ⟨?_, rfl⟩,
      by rw [extent_plan h]; exact congrArg Except.ok heq⟩ <;>
      simp only [extent_plan h, Catalog.grid, Catalog.terminal] <;>
      exact ⟨by linarith, by linarith⟩

theorem fits_plan_output {s : Int} (hs : 0 < s) {t : GateTree} (h : t.Complete) {label : String} {y : Int}
    (hy : 0 ≤ y) (hwidth : (3 + t.span) * s < 2 ^ 31) (hheight : y + 2 * t.leafCount * s < 2 ^ 31) :
    (plan s (.output label t)).Fits ⟨0, y⟩ := by
  have hspan : 0 ≤ (t.span : Int) * s := mul_nonneg (by omega) hs.le
  have hcell : s ≤ t.leafCount * s := le_mul_of_one_le_left hs.le (by have := leafCount_pos t h; omega)
  obtain ⟨hpin, hpin'⟩ := pin_plan_bounds hs h
  have hinput : (Catalog.terminal s [.origin] none).pin 0 = .origin := rfl
  simp only [plan, Fits, Point.InPlane, hinput, Point.x_add, Point.y_add, Point.x_origin, Point.y_origin]
  refine ⟨⟨⟨by linarith, by linarith⟩, by linarith, by linarith⟩,
    ⟨⟨by linarith, by linarith⟩, by linarith, by linarith⟩, ?_, Nat.one_pos,
    ⟨by linarith, by linarith⟩, by linarith, by linarith⟩
  refine fits_plan hs t h ?_ ?_ ?_ ?_ <;> simp only [Point.x_add, Point.y_add] <;> linarith

end Layout

/-! ## Sheets -/

namespace Sheet

/-- The rows that an expression takes on a sheet, its name and the gap below
included. -/
def rows (e : Expr) : Int :=
  2 * e.occurrences + 1

/-- The sheet with one expression more, on a grid with cells of size `s`. -/
def drawn (s : Int) (sheet : Sheet) (name : String) (e : Expr) : Sheet :=
  { sheet with
    drawing := sheet.drawing ++ (plan s (.output name e.gates)).sketch ⟨0, sheet.height⟩
    height := sheet.height + rows e * s
    vars := e.vars.foldl register sheet.vars }

/-- **An expression is added** exactly when it is supported and the plane has
its box and its rows. -/
theorem add_grid_eq_ok_iff {s : Int} (hs : 0 < s) {sheet sheet' : Sheet} (hcatalog : sheet.catalog = .grid s)
    (hheight : 0 ≤ sheet.height) {name : String} {e : Expr} :
    sheet.add name e = .ok sheet' ↔ e.Supported ∧ (3 + e.gates.span) * s < 2 ^ 31 ∧
      sheet.height + rows e * s < 2 ^ 31 ∧ sheet' = sheet.drawn s name e := by
  by_cases he : e.Supported
  · have hlower := Expr.toGateTree_of_supported he []
    have hc := Expr.complete_gates he
    have hleaves := Expr.leafCount_gates he
    have hcell : s ≤ e.gates.leafCount * s :=
      le_mul_of_one_le_left hs.le (by have := leafCount_pos _ hc; omega)
    have hrows : (plan s (.output name e.gates)).extent.height + (Catalog.grid s).size =
        (2 * e.gates.leafCount + 1) * s := by
      simp only [plan, Layout.extent, Catalog.grid]
      ring
    have hdrawn : Sheet.mk (.grid s)
        (sheet.drawing ++ (plan s (.output name e.gates)).sketch ⟨0, sheet.height⟩)
        (sheet.height + (2 * e.gates.leafCount + 1) * s) (e.vars.foldl register sheet.vars) =
        sheet.drawn s name e := by
      rw [drawn, rows, hleaves, hcatalog]
    simp only [add, hlower, hcatalog, bind_eq_ok_iff, Coord.add_eq_ok_iff, Layout.draw_eq_ok_iff, rows,
      ← hleaves]
    refine ⟨?_, ?_⟩
    · intro hex
      obtain ⟨_, ⟨⟩, m, hm, _, ⟨-, rfl⟩, _, ⟨-, rfl⟩, _, ⟨htotal, rfl⟩, ⟨⟩⟩ := hex
      obtain ⟨-, hwidth, rfl⟩ := (Layout.ofTree_output_eq_ok_iff hs hc).1 hm
      rw [hrows] at htotal ⊢
      exact ⟨he, hwidth, htotal.2, hdrawn⟩
    · intro hex
      obtain ⟨-, hwidth, htotal, rfl⟩ := hex
      have hm : Layout.ofTree (.grid s) (.output name e.gates) = .ok _ :=
        (Layout.ofTree_output_eq_ok_iff hs hc).2 ⟨by linarith, hwidth, rfl⟩
      have hfits : (plan s (.output name e.gates)).Fits _ :=
        Layout.fits_plan_output hs hc hheight hwidth (by linarith)
      refine ⟨_, rfl, _, hm, _, ⟨hfits, rfl⟩, _, ⟨?_, rfl⟩, _, ⟨?_, rfl⟩, ?_⟩
      · rw [hrows]
        exact ⟨by linarith, by linarith⟩
      · rw [hrows]
        exact ⟨by linarith, htotal⟩
      · rw [hrows]
        exact congrArg Except.ok hdrawn
  · obtain ⟨fault, after, hlower⟩ := Expr.toGateTree_of_not_supported he []
    simp only [add, hlower, he, false_and, iff_false]
    intro h
    cases h

/-- The sheet with several expressions more. -/
def drawnAll (s : Int) (sheet : Sheet) (outputs : List (String × Expr)) : Sheet :=
  outputs.foldl (fun sheet o => sheet.drawn s o.1 o.2) sheet

@[simp] theorem drawnAll_nil (s : Int) (sheet : Sheet) : sheet.drawnAll s [] = sheet := rfl

@[simp] theorem drawnAll_cons (s : Int) (sheet : Sheet) (o : String × Expr) (outputs : List (String × Expr)) :
    sheet.drawnAll s (o :: outputs) = (sheet.drawn s o.1 o.2).drawnAll s outputs := rfl

theorem catalog_drawnAll (s : Int) : ∀ (outputs : List (String × Expr)) (sheet : Sheet),
    (sheet.drawnAll s outputs).catalog = sheet.catalog
  | [], _ => rfl
  | o :: outputs, sheet => catalog_drawnAll s outputs (sheet.drawn s o.1 o.2)

/-- The rows that several expressions take. -/
def rowsAll (outputs : List (String × Expr)) : Int :=
  (outputs.map fun o => rows o.2).sum

theorem rowsAll_cons (o : String × Expr) (outputs : List (String × Expr)) :
    rowsAll (o :: outputs) = rows o.2 + rowsAll outputs := by
  simp [rowsAll]

theorem rowsAll_nonneg : ∀ outputs : List (String × Expr), 0 ≤ rowsAll outputs
  | [] => le_rfl
  | o :: outputs => by
    have := rowsAll_nonneg outputs
    rw [rowsAll_cons, rows]
    omega

theorem height_drawnAll (s : Int) : ∀ (outputs : List (String × Expr)) (sheet : Sheet),
    (sheet.drawnAll s outputs).height = sheet.height + rowsAll outputs * s
  | [], sheet => by simp [rowsAll]
  | o :: outputs, sheet => by
    rw [drawnAll_cons, height_drawnAll s outputs, rowsAll_cons, drawn]
    ring

/-- **Several expressions are added** exactly when each is supported and the
plane has the box of each and the rows of all. -/
theorem addAll_grid_eq_ok_iff {s : Int} (hs : 0 < s) : ∀ {outputs : List (String × Expr)}
    {sheet sheet' : Sheet}, sheet.catalog = .grid s → 0 ≤ sheet.height → sheet.height < 2 ^ 31 →
    (sheet.addAll outputs = .ok sheet' ↔ (∀ o ∈ outputs, o.2.Supported) ∧
      (∀ o ∈ outputs, (3 + o.2.gates.span) * s < 2 ^ 31) ∧
      sheet.height + rowsAll outputs * s < 2 ^ 31 ∧ sheet' = sheet.drawnAll s outputs)
  | [], sheet, sheet', _, _, hmax => by
    simp only [addAll, drawnAll, rowsAll, List.foldlM_nil, List.foldl_nil, List.not_mem_nil, false_imp_iff,
      implies_true, List.map_nil, List.sum_nil, Int.zero_mul, Int.add_zero, hmax, true_and]
    refine ⟨?_, ?_⟩
    · intro h
      cases h
      rfl
    · intro h
      subst h
      rfl
  | (name, e) :: outputs, sheet, sheet', hcatalog, hheight, _ => by
    have hrest : 0 ≤ rowsAll outputs * s := mul_nonneg (rowsAll_nonneg outputs) hs.le
    have hpos : 0 ≤ rows e * s := mul_nonneg (by rw [rows]; omega) hs.le
    have hstep : (sheet.drawn s name e).height = sheet.height + rows e * s := rfl
    have hcatalog' : (sheet.drawn s name e).catalog = .grid s := hcatalog
    have hheight' : 0 ≤ (sheet.drawn s name e).height := by rw [hstep]; omega
    rw [addAll, List.foldlM_cons, rowsAll_cons, add_mul (rows e)]
    simp only [bind_eq_ok_iff, add_grid_eq_ok_iff hs hcatalog hheight, List.forall_mem_cons]
    refine ⟨?_, ?_⟩
    · intro h
      obtain ⟨_, ⟨he, hwidth, hmax, rfl⟩, hadd⟩ := h
      obtain ⟨hall, hwidths, htotal, rfl⟩ := (addAll_grid_eq_ok_iff hs hcatalog' hheight' hmax).1 hadd
      exact ⟨⟨he, hall⟩, ⟨hwidth, hwidths⟩, by rw [hstep] at htotal; omega, rfl⟩
    · intro h
      obtain ⟨⟨he, hall⟩, ⟨hwidth, hwidths⟩, htotal, rfl⟩ := h
      have hmax : sheet.height + rows e * s < 2 ^ 31 := by omega
      refine ⟨_, ⟨he, hwidth, hmax, rfl⟩, (addAll_grid_eq_ok_iff hs hcatalog' hheight' hmax).2 ?_⟩
      exact ⟨hall, hwidths, by rw [hstep]; omega, rfl⟩

end Sheet

end Schematic
