/-
When a circuit can be built on the grid. The rows of a sheet are counted by the
references of its expressions, and its columns by the gates on the widest way
to a reference; nothing that is computed on the way to the circuit lies further
out than these and the terminals of the bus. `build_grid_succeeds_iff` puts the
conditions of the drawings and of the bus together.
-/
import Schematic.Proofs.GridSheet
import Schematic.Proofs.InputBus
import Mathlib.Algebra.BigOperators.Ring.List

namespace Schematic

/-! ## Ways through an expression -/

namespace Expr

/-- The cells that the gate at the root of an expression takes, with the gap on
its left. A negated variable has no gate. -/
def gateCells : Expr → Nat
  | .not (.var _) => 0
  | .not _ => 3
  | .join .and _ => 4
  | .join .or _ => 4
  | _ => 0

mutual

/-- For each reference of an expression, the cells that the gates on the way
from the root to it take. -/
def ways : Expr → List Nat
  | .var _ => [0]
  | .const _ => []
  | .not e => e.ways.map (gateCells (.not e) + ·)
  | .join c es => (waysAll es).map (gateCells (.join c es) + ·)

def waysAll : List Expr → List Nat
  | [] => []
  | e :: es => e.ways ++ waysAll es

end

theorem waysAll_eq : ∀ es : List Expr, waysAll es = es.flatMap ways
  | [] => rfl
  | e :: es => by simp [waysAll, waysAll_eq es]

/-- The cells on the widest way from the root to a reference. -/
def breadth (e : Expr) : Nat :=
  e.ways.foldr max 0

end Expr

theorem foldr_max_map_add (k : Nat) : ∀ {l : List Nat}, l ≠ [] →
    (l.map (k + ·)).foldr max 0 = k + l.foldr max 0
  | [n], _ => by simp
  | n :: m :: l, _ => by
    have ih := foldr_max_map_add k (List.cons_ne_nil m l)
    rw [List.map_cons, List.foldr_cons, ih, Nat.add_max_add_left]
    rfl

theorem foldr_max_append : ∀ l l' : List Nat,
    (l ++ l').foldr max 0 = max (l.foldr max 0) (l'.foldr max 0)
  | [], l' => by simp
  | n :: l, l' => by rw [List.cons_append, List.foldr_cons, foldr_max_append l l', List.foldr_cons, max_assoc]

namespace Expr

theorem ways_ne_nil {e : Expr} (h : e.Supported) : e.ways ≠ [] := by
  induction h using Supported.induction with
  | var v => simp [ways]
  | notVar v => simp [ways]
  | not e h hv ih => simpa [ways] using ih
  | join c es h hall hc hes ih =>
    obtain ⟨e, he⟩ := List.exists_mem_of_ne_nil es hes
    rw [ways, waysAll_eq]
    simpa using ⟨e, he, ih e he⟩

theorem spanAll_gatesAll : ∀ {es : List Expr}, (∀ e ∈ es, e.gates.span = e.breadth) →
    GateTree.spanAll (gatesAll es) = (waysAll es).foldr max 0
  | [], _ => rfl
  | e :: es, h => by
    rw [gatesAll, GateTree.spanAll, waysAll, foldr_max_append, h e (by simp),
      spanAll_gatesAll fun e he => h e (by simp [he])]
    rfl

/-- **The gates of the tree take the cells of the widest way.** -/
theorem span_gates {e : Expr} (h : e.Supported) : e.gates.span = e.breadth := by
  induction h using Supported.induction with
  | var v => rfl
  | notVar v => rfl
  | not e h hv ih =>
    have hcells : gateCells (.not e) = 3 := by
      cases e with
      | var v => cases hv
      | const | not | join => rfl
    rw [gates_not hv, breadth, ways, hcells, foldr_max_map_add 3 (ways_ne_nil h), ← breadth, ← ih]
    simp [GateTree.span, GateTree.spanAll, NodeKind.width]
  | join c es h hall hc hes ih =>
    have hne : waysAll es ≠ [] := by
      have := ways_ne_nil h
      rwa [ways, Ne, List.map_eq_nil_iff] at this
    rw [gates, GateTree.span, spanAll_gatesAll ih, breadth, ways, foldr_max_map_add _ hne]
    cases c with
    | and | or => rfl
    | xor => exact absurd rfl hc

theorem occurrences_pos {e : Expr} (h : e.Supported) : 0 < e.occurrences := by
  rw [← leafCount_gates h]
  exact GateTree.leafCount_pos _ (complete_gates h)

theorem mem_vars_iff {e : Expr} {v : Variable} : v ∈ e.vars ↔ v ∈ e.references := by
  simp [vars, mem_foldl_register]

theorem length_vars_le (e : Expr) : e.vars.length ≤ e.occurrences := by
  have hlen := length_foldl_register_le e.references []
  rwa [List.length_nil, Nat.zero_add] at hlen

end Expr

/-! ## Variables of a sheet -/

namespace Sheet

variable {s : Int} {sheet : Sheet}

theorem mem_vars_drawn {v : Variable} {name : String} {e : Expr} :
    v ∈ (sheet.drawn s name e).vars ↔ v ∈ sheet.vars ∨ v ∈ e.references := by
  rw [drawn, mem_foldl_register, Expr.mem_vars_iff]

theorem registered_drawn (h : sheet.Registered) {name : String} {e : Expr} (he : e.Supported) :
    (sheet.drawn s name e).Registered := by
  intro leaf hleaf
  rw [mem_vars_drawn]
  rcases Drawing.mem_leaves_append.1 hleaf with hleaf | hleaf
  · exact .inl (h leaf hleaf)
  · have hsketch := Layout.leaves_sketch ⟨0, sheet.height⟩ ((GateTree.output name e.gates).plan s)
    rw [GateTree.tree_plan, GateTree.leaves] at hsketch
    rw [← Expr.leaves_gates he, ← hsketch]
    exact .inr (List.mem_map_of_mem (List.mem_map_of_mem (Array.mem_toList_iff.2 hleaf)))

theorem registered_drawnAll : ∀ {outputs : List (String × Expr)} {sheet : Sheet}, sheet.Registered →
    (∀ o ∈ outputs, o.2.Supported) → (sheet.drawnAll s outputs).Registered
  | [], _, h, _ => h
  | o :: outputs, sheet, h, hall => by
    rw [drawnAll_cons]
    exact registered_drawnAll (registered_drawn h (hall o (by simp))) fun o ho => hall o (by simp [ho])

theorem mem_vars_drawnAll {v : Variable} : ∀ {outputs : List (String × Expr)} {sheet : Sheet},
    v ∈ (sheet.drawnAll s outputs).vars ↔ v ∈ sheet.vars ∨ ∃ o ∈ outputs, v ∈ o.2.references
  | [], sheet => by simp
  | o :: outputs, sheet => by
    rw [drawnAll_cons, mem_vars_drawnAll, mem_vars_drawn, or_assoc]
    simp

/-- A variable has a reference, and a reference has two rows. -/
theorem length_vars_drawnAll_le : ∀ (outputs : List (String × Expr)) (sheet : Sheet),
    2 * ((sheet.drawnAll s outputs).vars.length : Int) ≤ 2 * sheet.vars.length + rowsAll outputs
  | [], sheet => by simp [rowsAll]
  | o :: outputs, sheet => by
    have ih := length_vars_drawnAll_le outputs (sheet.drawn s o.1 o.2)
    have hstep : (sheet.drawn s o.1 o.2).vars.length ≤ sheet.vars.length + o.2.occurrences :=
      (length_foldl_register_le _ _).trans (Nat.add_le_add_left (Expr.length_vars_le _) _)
    rw [drawnAll_cons, rowsAll_cons, rows]
    omega

/-! ## Building a circuit -/

/-- The circuit of several named expressions on a sheet of their own. -/
def build (catalog : Catalog) (outputs : List (String × Expr)) : Except Fault Circuit := do
  (← (blank catalog).addAll outputs).circuit

theorem registered_blank (catalog : Catalog) : (blank catalog).Registered := by
  simp [Registered, blank]

theorem vars_drawnAll_blank_eq_nil_iff {catalog : Catalog} {outputs : List (String × Expr)}
    (h : ∀ o ∈ outputs, o.2.Supported) :
    ((blank catalog).drawnAll s outputs).vars = [] ↔ outputs = [] := by
  refine ⟨?_, ?_⟩
  · intro hvars
    by_contra hne
    obtain ⟨o, ho⟩ := List.exists_mem_of_ne_nil outputs hne
    obtain ⟨v, hv⟩ := List.exists_mem_of_length_pos (Expr.occurrences_pos (h o ho))
    have hmem : v ∈ ((blank catalog).drawnAll s outputs).vars := mem_vars_drawnAll.2 (.inr ⟨o, ho, hv⟩)
    rw [hvars] at hmem
    cases hmem
  · intro hex
    subst hex
    rfl

theorem rowsAll_mul (s : Int) (outputs : List (String × Expr)) :
    rowsAll outputs * s = (outputs.map fun o => (2 * (o.2.occurrences : Int) + 1) * s).sum := by
  rw [rowsAll, ← List.sum_map_mul_right]
  rfl

theorem addAll_blank_eq_ok_iff {s : Int} (hs : 0 < s) {outputs : List (String × Expr)} {sheet : Sheet} :
    (blank (.grid s)).addAll outputs = .ok sheet ↔ (∀ o ∈ outputs, o.2.Supported) ∧
      (∀ o ∈ outputs, (3 + o.2.gates.span) * s < 2 ^ 31) ∧ rowsAll outputs * s < 2 ^ 31 ∧
      sheet = (blank (.grid s)).drawnAll s outputs := by
  have hstart : (blank (.grid s)).height = 0 := rfl
  rw [addAll_grid_eq_ok_iff hs rfl hstart.ge (by rw [hstart]; norm_num), hstart, zero_add]

/-- **What is built on the grid**, and when. -/
theorem build_grid_eq_ok_iff {s : Int} (hs : 0 < s) {outputs : List (String × Expr)} {circuit : Circuit} :
    build (.grid s) outputs = .ok circuit ↔ (∀ o ∈ outputs, o.2.Supported) ∧
      (∀ o ∈ outputs, (3 + o.2.gates.span) * s < 2 ^ 31) ∧ rowsAll outputs * s < 2 ^ 31 ∧
      (outputs = [] ∨ 5 * s ≤ 2 ^ 31) ∧
      circuit = ((blank (.grid s)).drawnAll s outputs).finished
        (-(2 * s * ((blank (.grid s)).drawnAll s outputs).vars.length)) := by
  have hcatalog : ((blank (.grid s)).drawnAll s outputs).catalog = .grid s := catalog_drawnAll _ _ _
  have hcircuit : (∀ o ∈ outputs, o.2.Supported) → rowsAll outputs * s < 2 ^ 31 →
      (((blank (.grid s)).drawnAll s outputs).circuit = .ok circuit ↔ (outputs = [] ∨ 5 * s ≤ 2 ^ 31) ∧
        circuit = ((blank (.grid s)).drawnAll s outputs).finished
          (-(2 * s * ((blank (.grid s)).drawnAll s outputs).vars.length))) := by
    intro hall hrows
    have hlen := length_vars_drawnAll_le (s := s) outputs (blank (.grid s))
    have hstart : (blank (.grid s)).vars.length = 0 := rfl
    rw [hstart, Nat.cast_zero, mul_zero, zero_add] at hlen
    have hroom := mul_le_mul_of_nonneg_right hlen hs.le
    rw [circuit_grid_eq_ok_iff hs hcatalog (registered_drawnAll (registered_blank _) hall),
      vars_drawnAll_blank_eq_nil_iff hall]
    linarith
  simp only [build, bind_eq_ok_iff, addAll_blank_eq_ok_iff hs]
  refine ⟨?_, ?_⟩
  · intro h
    obtain ⟨_, ⟨hall, hwidths, htotal, rfl⟩, hok⟩ := h
    exact ⟨hall, hwidths, htotal, (hcircuit hall htotal).1 hok⟩
  · intro h
    obtain ⟨hall, hwidths, htotal, hok⟩ := h
    exact ⟨_, ⟨hall, hwidths, htotal, rfl⟩, (hcircuit hall htotal).2 hok⟩

/-- **A circuit is built on the grid** exactly when every expression is
supported and the plane has all rows, the columns of each expression, and, if
there is anything to supply, the terminals of the bus. The height of a sheet is
that of the rows of its expressions. -/
theorem build_grid_succeeds_iff {s : Int} (hs : 0 < s) (outputs : List (String × Expr)) :
    ((∃ circuit, build (.grid s) outputs = .ok circuit) ↔ (∀ o ∈ outputs, o.2.Supported) ∧
      (outputs.map fun o => (2 * (o.2.occurrences : Int) + 1) * s).sum ≤ 2 ^ 31 - 1 ∧
      (∀ o ∈ outputs, ((o.2.breadth : Int) + 3) * s ≤ 2 ^ 31 - 1) ∧ (outputs = [] ∨ 5 * s ≤ 2 ^ 31)) ∧
    ∀ sheet, (blank (.grid s)).addAll outputs = .ok sheet →
      sheet.height = (outputs.map fun o => (2 * (o.2.occurrences : Int) + 1) * s).sum := by
  have hbreadth : (∀ o ∈ outputs, o.2.Supported) →
      ((∀ o ∈ outputs, (3 + o.2.gates.span) * s < 2 ^ 31) ↔
        ∀ o ∈ outputs, ((o.2.breadth : Int) + 3) * s ≤ 2 ^ 31 - 1) := by
    intro hall
    refine forall₂_congr fun o ho => ?_
    rw [Expr.span_gates (hall o ho), add_comm, Int.le_sub_one_iff]
  rw [← rowsAll_mul]
  refine ⟨⟨?_, ?_⟩, ?_⟩
  · intro hex
    obtain ⟨circuit, h⟩ := hex
    obtain ⟨hall, hwidths, htotal, hbus, -⟩ := (build_grid_eq_ok_iff hs).1 h
    exact ⟨hall, Int.le_sub_one_of_lt htotal, (hbreadth hall).1 hwidths, hbus⟩
  · intro hex
    obtain ⟨hall, htotal, hwidths, hbus⟩ := hex
    exact ⟨_, (build_grid_eq_ok_iff hs).2
      ⟨hall, (hbreadth hall).2 hwidths, Int.lt_of_le_sub_one htotal, hbus, rfl⟩⟩
  · intro sheet h
    obtain ⟨-, -, -, rfl⟩ := (addAll_blank_eq_ok_iff hs).1 h
    rw [height_drawnAll, blank, zero_add]

/-- A conjunction is built on cells of the usual size. -/
theorem build_grid_succeeds_of_conjunction :
    ∃ circuit, build (.grid 20) [("F", .join .and [.var ⟨"A", by decide⟩, .not (.var ⟨"B", by decide⟩)])] =
      .ok circuit := by
  refine (build_grid_succeeds_iff (by decide) _).1.2 ⟨?_, ?_, ?_, ?_⟩
  · simp [Expr.Supported, Expr.parts, Expr.partsAll]
  · decide
  · simp [Expr.breadth, Expr.ways, Expr.waysAll, Expr.gateCells]
  · decide

end Sheet

end Schematic
