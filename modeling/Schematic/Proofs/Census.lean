/-
The census of a finished circuit: how many nodes of each kind it has, and how
many wires, told from the parts of its expressions. Two readings of one list of
components are compared. The gates of an expression are the kinds that
`Expr.gate?` gives its parts (`countP_gateKinds`), and the nodes of the circuit
are those, a terminal for each expression, and a terminal and an inverter for
each variable (`countP_components`). A wire leaves every gate and leaf of the
trees, each leaf has its tap, and each slot four wires (`size_wires_circuit`).
-/
import Schematic.Proofs.SlotOrder
import Mathlib.Data.Finset.Card

namespace Schematic

/-! ## Gates of an expression -/

namespace Expr

/-- Whether a connective with a number of operands stands at the root of an
expression. -/
def joins (c : Connective) (n : Nat) : Expr → Bool
  | .join c' es => c' == c && es.length == n
  | _ => false

/-- Whether an expression negates anything but a variable. -/
def inverts : Expr → Bool
  | .not e => e.var?.isNone
  | _ => false

/-- Whether a gate of its own stands for the root of an expression. -/
def hasGate : Expr → Bool
  | .join .and _ | .join .or _ => true
  | .not e => e.var?.isNone
  | _ => false

theorem any_gate?_joins {c : Connective} {kind : Nat → NodeKind} (hc : c.gate? = some kind) (e : Expr) (n : Nat) :
    e.gate?.any (· == kind n) = e.joins c n := by
  cases c with
  | xor => cases hc
  | and | or =>
    cases hc
    cases e with
    | var v | const b => rfl
    | not e => cases h : e.var? <;> simp [gate?, joins, h]
    | join c' es =>
      cases c' <;> simp [gate?, joins, Connective.gate?]
      -- gates of one connective are told apart by their number of inputs
      rfl

theorem any_gate?_not (e : Expr) : e.gate?.any (· == .not) = e.inverts := by
  cases e with
  | var v | const b => rfl
  | not e => cases h : e.var? <;> simp [gate?, inverts, h]
  | join c es => cases c <;> simp [gate?, inverts, Connective.gate?]

theorem any_gate?_terminal {kind : NodeKind} (h : kind.isGate = false) (e : Expr) :
    e.gate?.any (· == kind) = false := by
  cases hgate : e.gate? with
  | none => rfl
  | some kind' =>
    refine beq_false_of_ne fun heq => ?_
    rw [← heq, isGate_of_gate? hgate] at h
    cases h

theorem any_gate?_gate {P : NodeKind → Bool} (h : ∀ kind, kind.isGate = true → P kind = true) (e : Expr) :
    e.gate?.any P = e.hasGate := by
  cases e with
  | var v | const b => rfl
  | not e => cases hv : e.var? <;> simp [gate?, hasGate, hv, h .not rfl]
  | join c es =>
    cases c with
    | and => exact h (.and es.length) rfl
    | or => exact h (.or es.length) rfl
    | xor => rfl

theorem countP_any_gate?_gate {P : NodeKind → Bool} (h : ∀ kind, kind.isGate = true → P kind = true)
    (es : List Expr) : es.countP (fun e => e.gate?.any P) = es.countP hasGate :=
  List.countP_congr fun e _ => by rw [any_gate?_gate h e]

theorem countP_gateKinds (P : NodeKind → Bool) (e : Expr) :
    e.gateKinds.countP P = e.parts.countP fun p => p.gate?.any P := by
  rw [gateKinds, List.countP_filterMap]
  refine List.countP_congr fun p _ => ?_
  cases p.gate? <;> simp

end Expr

/-! ## Components of a circuit -/

namespace Sheet

variable {catalog : Catalog} {outputs : List (String × Expr)} {sheet : Sheet} {strips : List Strip}
  {circuit : Circuit}

/-- The parts of all expressions, in the order of walks through them. -/
def partsOf (outputs : List (String × Expr)) : List Expr :=
  outputs.flatMap fun o => o.2.parts

theorem partsOf_cons (o : String × Expr) (outputs : List (String × Expr)) :
    partsOf (o :: outputs) = o.2.parts ++ partsOf outputs := rfl

/-- The references of all expressions. -/
def referencesOf (outputs : List (String × Expr)) : List Variable :=
  (partsOf outputs).filterMap Expr.var?

theorem referencesOf_eq (outputs : List (String × Expr)) :
    referencesOf outputs = outputs.flatMap fun o => o.2.references := by
  rw [referencesOf, partsOf, List.filterMap_flatMap]
  rfl

theorem countP_componentsOf (P : NodeKind → Bool) : ∀ outputs : List (String × Expr),
    (outputs.flatMap componentsOf).countP (fun p => P p.kind) =
      (if P .output then outputs.length else 0) + (partsOf outputs).countP fun e => e.gate?.any P
  | [] => by simp [partsOf]
  | o :: outputs => by
    have ih := countP_componentsOf P outputs
    have hgates : (o.2.gateKinds.map Component.gate).countP (fun p => P p.kind) =
        o.2.parts.countP fun e => e.gate?.any P := by
      rw [List.countP_map, ← Expr.countP_gateKinds]
      rfl
    have hone : (componentsOf o).countP (fun p => P p.kind) =
        (o.2.parts.countP fun e => e.gate?.any P) + if P .output then 1 else 0 := by
      rw [componentsOf, List.countP_cons, hgates]
      rfl
    rw [List.flatMap_cons, List.countP_append, ih, hone, partsOf_cons, List.countP_append, List.length_cons]
    split <;> omega

theorem countP_slots (P : NodeKind → Bool) : ∀ vars : List Variable,
    (vars.flatMap Component.slot).countP (fun p => P p.kind) =
      (if P .input then vars.length else 0) + if P .not then vars.length else 0
  | [] => by simp
  | v :: vars => by
    rw [List.flatMap_cons, List.countP_append, countP_slots P vars, Component.slot, List.countP_cons,
      List.countP_singleton, List.length_cons]
    split <;> split <;> omega

/-- **The nodes of a circuit, by kind**: those of its expressions, then those of
its slots. -/
theorem countP_components (h : (blank catalog).addAll outputs = .ok sheet) (hcircuit : sheet.circuit = .ok circuit)
    (P : NodeKind → Bool) : circuit.components.countP (fun p => P p.kind) =
      (if P .output then outputs.length else 0) + ((partsOf outputs).countP fun e => e.gate?.any P) +
        ((if P .input then sheet.vars.length else 0) + if P .not then sheet.vars.length else 0) := by
  rw [components_circuit h hcircuit, List.countP_append, countP_componentsOf, countP_slots]

theorem Run.length_vars (hrun : (blank catalog).Run outputs strips sheet) :
    sheet.vars.length = (referencesOf outputs).toFinset.card := by
  rw [← List.toFinset_card_of_nodup hrun.nodup_vars]
  refine congrArg Finset.card (Finset.ext fun v => ?_)
  rw [List.mem_toFinset, List.mem_toFinset, hrun.vars_eq, mem_foldl_register, referencesOf_eq]
  simp [blank]

/-! ## Wires -/

theorem length_wires_drafts (size bottom : Int) : ∀ (vs : List Variable) (plain : Int),
    ((Slot.drafts size bottom plain vs).flatMap Slot.wires).length = 4 * vs.length
  | [], _ => rfl
  | v :: vs, plain => by
    rw [Slot.drafts, List.flatMap_cons, List.length_append, length_wires_drafts size bottom vs, List.length_cons]
    exact Nat.add_comm 4 _

/-- **The wires of a circuit.** -/
theorem size_wires_circuit (h : (blank catalog).addAll outputs = .ok sheet) (hcircuit : sheet.circuit = .ok circuit) :
    circuit.wires.size =
      (partsOf outputs).countP Expr.hasGate + 2 * (referencesOf outputs).length + 4 * sheet.vars.length := by
  obtain ⟨strips, hrun⟩ := exists_run h
  obtain ⟨slots, -, rfl⟩ := circuit_eq_finished hrun.registered hcircuit
  have hleaves := congrArg List.length hrun.map_var_leaves
  rw [List.length_map, Array.length_toList, ← referencesOf_eq] at hleaves
  have hnodes : sheet.drawing.circuit.nodes.size = outputs.length + (partsOf outputs).countP Expr.hasGate := by
    have hcount := countP_componentsOf (fun _ => true) outputs
    rw [Expr.countP_any_gate?_gate fun _ _ => rfl] at hcount
    rwa [← hrun.components_eq, List.countP_true, Circuit.length_components] at hcount
  -- every node and leaf of the trees but the terminals has a wire that leads away from it
  have hunwired := hrun.unwired_eq
  rw [Drawing.unwired, hnodes, hleaves] at hunwired
  rw [← Array.length_toList, finished, Array.toList_appendList, List.length_append, List.length_append,
    length_wires_drafts, List.length_map, Array.length_toList, Array.length_toList, hleaves]
  omega

/-! ## Census -/

/-- How many nodes and wires a circuit has that stands for `exprs` named
expressions with the given parts and `vars` variables. -/
structure Census (parts : List Expr) (exprs vars : Nat) (c : Circuit) : Prop where
  ands : ∀ n, (c.nodesOf (.and n)).length = parts.countP (·.joins .and n)
  ors : ∀ n, (c.nodesOf (.or n)).length = parts.countP (·.joins .or n)
  /-- The bus inverts every variable, the trees everything else. -/
  nots : (c.nodesOf .not).length = vars + parts.countP Expr.inverts
  inputs : (c.nodesOf .input).length = vars
  outputs : (c.nodesOf .output).length = exprs
  /-- The gates but those of the bus are the ones that stand for parts. -/
  gates : c.nodes.toList.countP (·.kind.isGate) = vars + parts.countP Expr.hasGate
  nodes : c.nodes.size = 2 * vars + exprs + parts.countP Expr.hasGate
  wires : c.wires.size = parts.countP Expr.hasGate + 2 * (parts.filterMap Expr.var?).length + 4 * vars

/-- **The census of a circuit**, whatever the catalog. -/
theorem circuit_census (h : (blank catalog).addAll outputs = .ok sheet) (hcircuit : sheet.circuit = .ok circuit) :
    Census (partsOf outputs) outputs.length (referencesOf outputs).toFinset.card circuit := by
  obtain ⟨strips, hrun⟩ := exists_run h
  have hcount := countP_components h hcircuit
  rw [← hrun.length_vars]
  constructor
  case ands =>
    intro n
    rw [circuit.length_nodesOf, hcount (· == .and n)]
    simp [Expr.any_gate?_joins (c := .and) rfl]
  case ors =>
    intro n
    rw [circuit.length_nodesOf, hcount (· == .or n)]
    simp [Expr.any_gate?_joins (c := .or) rfl]
  case nots =>
    rw [circuit.length_nodesOf, hcount (· == .not)]
    simp [Expr.any_gate?_not, Nat.add_comm]
  case inputs =>
    rw [circuit.length_nodesOf, hcount (· == .input)]
    simp [Expr.any_gate?_terminal (show NodeKind.input.isGate = false from rfl)]
  case outputs =>
    rw [circuit.length_nodesOf, hcount (· == .output)]
    simp [Expr.any_gate?_terminal (show NodeKind.output.isGate = false from rfl)]
  case gates =>
    have hgates := hcount NodeKind.isGate
    rw [Circuit.components, List.countP_map, Expr.countP_any_gate?_gate fun _ hgate => hgate] at hgates
    refine hgates.trans ?_
    -- of the kinds on the bus only the inverter is a gate
    change 0 + _ + (0 + sheet.vars.length) = _
    omega
  case nodes =>
    have hnodes := hcount fun _ => true
    rw [List.countP_true, Circuit.length_components, Expr.countP_any_gate?_gate fun _ _ => rfl, if_pos rfl,
      if_pos rfl] at hnodes
    omega
  case wires => exact size_wires_circuit h hcircuit

/-- Of two expressions in two variables, one holds a negation that the bus
takes over, the other one that it does not. -/
theorem circuit_census_of_two : ∃ circuit, twoSheet.circuit = .ok circuit ∧
    (circuit.nodesOf (.and 2)).length = 1 ∧ (circuit.nodesOf (.or 2)).length = 1 ∧
    (circuit.nodesOf .not).length = 3 ∧ (circuit.nodesOf .input).length = 2 ∧ (circuit.nodesOf .output).length = 2 ∧
    circuit.nodes.size = 9 ∧ circuit.wires.size = 19 := by
  obtain ⟨circuit, hcircuit⟩ := exists_circuit_twoSheet
  have hcensus := circuit_census addAll_twoOutputs hcircuit
  exact ⟨circuit, hcircuit, (hcensus.ands 2).trans (by decide), (hcensus.ors 2).trans (by decide),
    hcensus.nots.trans (by decide), hcensus.inputs.trans (by decide), hcensus.outputs, hcensus.nodes.trans (by decide),
    hcensus.wires.trans (by decide)⟩

end Sheet

end Schematic
