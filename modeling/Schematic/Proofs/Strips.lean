/-
Sheets strip by strip. Every expression added to a sheet gets a strip of its
own: its layout, in the rows below all strips before. `Sheet.Adds` says what one
addition does and `Sheet.Run` what several do one after the other, whatever the
catalog; `exists_run` says that nothing else happens. What an addition keeps, a
run keeps (`Run.invariant`).
-/
import Schematic.Sheet
import Schematic.Proofs.Boxes
import Schematic.Proofs.Refusal

namespace Schematic

/-! ## Strips -/

/-- A strip of a sheet: a layout on the left edge of the plane, and the row that
it starts in. -/
structure Strip where
  top : Int
  layout : Layout

namespace Strip

/-- The box around a strip. -/
def box (strip : Strip) : Box :=
  strip.layout.box ⟨0, strip.top⟩

/-- What is drawn in a strip. -/
def drawing (strip : Strip) : Drawing :=
  strip.layout.sketch ⟨0, strip.top⟩

/-- What is drawn in several strips, in their order. -/
def drawings : List Strip → Drawing
  | [] => {}
  | strip :: strips => strip.drawing ++ drawings strips

theorem mem_nodes_drawings {n : Node} : ∀ {strips : List Strip},
    n ∈ (drawings strips).circuit.nodes ↔ ∃ strip ∈ strips, n ∈ strip.drawing.circuit.nodes
  | [] => by simp [drawings]
  | strip :: strips => by simp [drawings, mem_nodes_drawings]

end Strip

namespace Sheet

/-- What adding an expression under its name does to a sheet: the expression's
layout is drawn below everything drawn so far, with a cell below it, and its
variables are registered. -/
structure Adds (before : Sheet) (o : String × Expr) (strip : Strip) (after : Sheet) : Prop where
  added : before.add o.1 o.2 = .ok after
  layout : ∃ tree, o.2.toGateTree [] = (.ok tree, o.2.vars) ∧
    Layout.ofTree before.catalog (.output o.1 tree) = .ok strip.layout
  top : strip.top = before.height
  catalog : after.catalog = before.catalog
  drawing : after.drawing = before.drawing ++ strip.drawing
  height : after.height = strip.box.bottom + before.catalog.size
  vars : after.vars = o.2.vars.foldl register before.vars

/-- What adding several expressions does, with the strip of each. -/
inductive Run : Sheet → List (String × Expr) → List Strip → Sheet → Prop
  | nil (sheet : Sheet) : Run sheet [] [] sheet
  | cons {before next after : Sheet} {o : String × Expr} {outputs : List (String × Expr)} {strip : Strip}
      {strips : List Strip} : before.Adds o strip next → Run next outputs strips after →
      Run before (o :: outputs) (strip :: strips) after

variable {before after : Sheet} {o : String × Expr} {outputs : List (String × Expr)} {strip : Strip}
  {strips : List Strip}

theorem Adds.layout_gates (h : before.Adds o strip after) :
    o.2.Supported ∧ Layout.ofTree before.catalog (.output o.1 o.2.gates) = .ok strip.layout := by
  obtain ⟨tree, hlower, hlayout⟩ := h.layout
  obtain ⟨he, rfl, -⟩ := Expr.toGateTree_eq_ok_iff.1 hlower
  exact ⟨he, hlayout⟩

/-- **An expression that is added has a strip.** -/
theorem exists_adds (h : before.add o.1 o.2 = .ok after) : ∃ strip, before.Adds o strip after := by
  have hadd := h
  by_cases he : o.2.Supported
  · have hlower := Expr.toGateTree_of_supported he []
    simp only [add, hlower, bind_eq_ok_iff, Coord.add_eq_ok_iff, Layout.draw_eq_ok_iff] at h
    obtain ⟨_, ⟨⟩, m, hm, _, ⟨-, rfl⟩, _, ⟨-, rfl⟩, _, ⟨-, rfl⟩, ⟨⟩⟩ := h
    refine ⟨⟨before.height, m⟩, hadd, ⟨_, hlower, hm⟩, rfl, rfl, rfl, ?_, rfl⟩
    simp only [Strip.box, Layout.box, Box.bottom, Int.add_assoc]
  · obtain ⟨fault, vars, hlower⟩ := Expr.toGateTree_of_not_supported he []
    simp only [add, hlower] at h
    cases h

theorem exists_run : ∀ {outputs : List (String × Expr)} {before after : Sheet},
    before.addAll outputs = .ok after → ∃ strips, Run before outputs strips after
  | [], _, _, h => by
    cases h
    exact ⟨[], .nil _⟩
  | o :: outputs, before, after, h => by
    rw [addAll, List.foldlM_cons, bind_eq_ok_iff] at h
    obtain ⟨next, hnext, hrest⟩ := h
    obtain ⟨strip, hadds⟩ := exists_adds hnext
    obtain ⟨strips, hrun⟩ := exists_run hrest
    exact ⟨strip :: strips, .cons hadds hrun⟩

theorem Run.addAll_eq_ok (hrun : Run before outputs strips after) : before.addAll outputs = .ok after := by
  induction hrun with
  | nil => rfl
  | cons hadds _ ih =>
    rw [addAll, List.foldlM_cons, bind_eq_ok_iff]
    exact ⟨_, hadds.added, ih⟩

/-- What every addition keeps holds after a run. -/
theorem Run.invariant {I : Sheet → Prop} (hrun : Run before outputs strips after)
    (hstep : ∀ {before next : Sheet} {o : String × Expr} {strip : Strip}, before.Adds o strip next →
      I before → I next) (hI : I before) : I after := by
  induction hrun with
  | nil => exact hI
  | cons hadds _ ih => exact ih (hstep hadds hI)

theorem Run.catalog_eq (hrun : Run before outputs strips after) : after.catalog = before.catalog :=
  hrun.invariant (I := fun sheet => sheet.catalog = before.catalog) (fun h hI => h.catalog.trans hI) rfl

theorem Run.drawing_eq (hrun : Run before outputs strips after) :
    after.drawing = before.drawing ++ Strip.drawings strips := by
  induction hrun with
  | nil => rw [Strip.drawings, Drawing.append_empty]
  | cons hadds _ ih => rw [ih, hadds.drawing, Strip.drawings, Drawing.append_assoc]

theorem Run.drawing_of_blank {catalog : Catalog} (hrun : (blank catalog).Run outputs strips after) :
    after.drawing = Strip.drawings strips := by
  rw [hrun.drawing_eq, blank, Drawing.empty_append]

end Sheet

end Schematic
