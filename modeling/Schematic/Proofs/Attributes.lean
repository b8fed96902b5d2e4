/-
Which nodes carry which attributes. A catalog says what a node of each kind may
carry, and a circuit has no node that carries anything else
(`attributes_supported`), although only the nodes of the bus are checked as they
are made. The label of an output terminal is checked when its tree is laid out
(`admits_of_ofTree`) and put on when the layout is drawn; a gate of an expression
carries nothing.
-/
import Schematic.Proofs.Inventory

namespace Schematic

/-! ## What a catalog admits -/

/-- A catalog admits a component if it supports each of its attributes on a
node of that kind. -/
def Catalog.Admits (catalog : Catalog) (p : Component) : Prop :=
  ∀ key value, p.attrs.get? key = some value → catalog.supports p.kind key = true

namespace Catalog

variable {catalog : Catalog}

theorem admits_gate (kind : NodeKind) : catalog.Admits (.gate kind) := by
  intro key value h
  cases key <;> cases h

theorem admits_output {label : String} (h : catalog.supports .output .label = true) :
    catalog.Admits (.output label) := by
  intro key value hvalue
  cases key with
  | label => exact h
  | rotation => cases hvalue

theorem admits_slot (hrotation : catalog.supports .input .rotation = true)
    (hlabel : catalog.supports .input .label = true) (hinverter : catalog.supports .not .rotation = true)
    (v : Variable) : ∀ p ∈ Component.slot v, catalog.Admits p := by
  refine List.forall_mem_cons.2 ⟨fun key value _ => ?_, List.forall_mem_singleton.2 fun key value hvalue => ?_⟩
  · cases key with
    | label => exact hlabel
    | rotation => exact hrotation
  · cases key with
    | label => cases hvalue
    | rotation => exact hinverter

end Catalog

/-! ## Where attributes are checked -/

namespace Layout

mutual

/-- **A tree that is laid out is admitted**: no terminal in it would go without
its label. -/
theorem admits_of_ofTree {catalog : Catalog} : (t : GateTree) → ∀ {m : Layout}, ofTree catalog t = .ok m →
    ∀ p ∈ t.components, catalog.Admits p
  | .leaf l, m, h => by simp
  | .gate kind ts, m, h => by
    obtain ⟨shape, stack, -, hstack, -⟩ := exists_of_ofTree_gate h
    rw [GateTree.components_gate]
    exact List.forall_mem_cons.2 ⟨Catalog.admits_gate kind, admits_of_ofTrees ts hstack⟩
  | .output label t, m, h => by
    obtain ⟨shape, tree, hlabel, -, htree, -⟩ := exists_of_ofTree_output h
    rw [GateTree.components_output]
    exact List.forall_mem_cons.2 ⟨Catalog.admits_output hlabel, admits_of_ofTree t htree⟩

theorem admits_of_ofTrees {catalog : Catalog} : (ts : List GateTree) → ∀ {y width : Int} {stack : Stack},
    ofTrees catalog y width ts = .ok stack → ∀ p ∈ ts.flatMap GateTree.components, catalog.Admits p
  | [], y, width, stack, h => by simp
  | t :: ts, y, width, stack, h => by
    obtain ⟨operand, rest, hoperand, hrest, -⟩ := exists_of_ofTrees_cons h
    rw [List.flatMap_cons]
    exact List.forall_mem_append.2 ⟨admits_of_ofTree t hoperand, admits_of_ofTrees ts hrest⟩

end

end Layout

theorem Slot.admits_of_ofVariables {catalog : Catalog} {bottom : Int} : ∀ {vs : List Variable} {plain : Int}
    {slots : List Slot}, ofVariables catalog bottom plain vs = .ok slots →
    ∀ p ∈ vs.flatMap Component.slot, catalog.Admits p
  | [], plain, slots, h => by simp
  | v :: vs, plain, slots, h => by
    simp only [ofVariables, bind_eq_ok_iff, ofVariable_eq_ok_iff] at h
    obtain ⟨_, ⟨⟨hrotation, hlabel, hinverter⟩, -⟩, _, -, _, -, rest, hrest, -⟩ := h
    rw [List.flatMap_cons]
    exact List.forall_mem_append.2
      ⟨Catalog.admits_slot hrotation hlabel hinverter v, admits_of_ofVariables hrest⟩

namespace Sheet

variable {catalog : Catalog} {before after sheet : Sheet} {o : String × Expr} {outputs : List (String × Expr)}
  {strip : Strip} {strips : List Strip} {circuit : Circuit}

/-- Every node drawn so far is admitted. -/
def Admitted (sheet : Sheet) : Prop :=
  ∀ p ∈ sheet.drawing.circuit.components, sheet.catalog.Admits p

theorem Adds.admitted (h : before.Adds o strip after) (hbefore : before.Admitted) : after.Admitted := by
  obtain ⟨-, hlayout⟩ := h.layout_gates
  rw [Admitted, h.catalog, h.drawing, Drawing.components_append, Strip.drawing, Layout.components_sketch,
    Layout.tree_of_ofTree _ hlayout]
  exact List.forall_mem_append.2 ⟨hbefore, Layout.admits_of_ofTree _ hlayout⟩

theorem admits_circuit (h : (blank catalog).addAll outputs = .ok sheet) (hcircuit : sheet.circuit = .ok circuit) :
    ∀ p ∈ circuit.components, catalog.Admits p := by
  obtain ⟨strips, hrun⟩ := exists_run h
  have hadmitted : sheet.Admitted := hrun.invariant Adds.admitted (List.forall_mem_nil _)
  obtain ⟨slots, hslots, -⟩ := circuit_eq_finished hrun.registered hcircuit
  simp only [Sheet.slots, bind_eq_ok_iff] at hslots
  obtain ⟨_, -, _, -, _, -, hslots⟩ := hslots
  rw [components_circuit h hcircuit, ← hrun.components_eq, ← show sheet.catalog = catalog from hrun.catalog_eq]
  exact List.forall_mem_append.2 ⟨hadmitted, Slot.admits_of_ofVariables hslots⟩

end Sheet

/-! ## Labels -/

namespace Component

/-- The terminals are labelled, each with a text, and nothing else is. -/
structure LabelledAsTerminal (p : Component) : Prop where
  text : p.attrs.label = p.label?.map AttrValue.text
  isSome_iff : p.label?.isSome ↔ p.kind = .output ∨ p.kind = .input

theorem labelledAsTerminal_output (label : String) : (output label).LabelledAsTerminal :=
  ⟨rfl, by simp [output, label?]⟩

theorem labelledAsTerminal_gate {kind : NodeKind} (h : kind.isGate = true) : (gate kind).LabelledAsTerminal := by
  refine ⟨rfl, ?_⟩
  cases kind with
  | input | output => cases h
  | not | and | or => simp [gate, label?]

theorem labelledAsTerminal_slot (v : Variable) : ∀ p ∈ slot v, p.LabelledAsTerminal :=
  List.forall_mem_cons.2 ⟨⟨rfl, by simp [label?]⟩, List.forall_mem_singleton.2 ⟨rfl, by simp [label?]⟩⟩

end Component

namespace Sheet

variable {catalog : Catalog} {outputs : List (String × Expr)} {sheet : Sheet} {circuit : Circuit}

/-- **The labels of a circuit** stand at its terminals, whatever the catalog. -/
theorem labelled_circuit (h : (blank catalog).addAll outputs = .ok sheet) (hcircuit : sheet.circuit = .ok circuit) :
    ∀ p ∈ circuit.components, p.LabelledAsTerminal := by
  rw [components_circuit h hcircuit]
  refine List.forall_mem_append.2 ⟨?_, ?_⟩
  · intro p hp
    obtain ⟨o, -, hp⟩ := List.mem_flatMap.1 hp
    rcases mem_componentsOf.1 hp with rfl | ⟨kind, hkind, rfl⟩
    · exact Component.labelledAsTerminal_output o.1
    · exact Component.labelledAsTerminal_gate (Expr.isGate_of_mem_gateKinds hkind)
  · intro p hp
    obtain ⟨v, -, hp⟩ := List.mem_flatMap.1 hp
    exact Component.labelledAsTerminal_slot v p hp

/-- **No node carries what the catalog does not support.** Whatever attributes
the catalog supports, those of every node of a finished circuit are among them,
and the labelled nodes are the output and the input terminals. -/
theorem attributes_supported (h : (blank catalog).addAll outputs = .ok sheet)
    (hcircuit : sheet.circuit = .ok circuit) : ∀ n ∈ circuit.nodes,
      (∀ key value, (key, value) ∈ n.attrs.toList → catalog.supports n.kind key = true) ∧
      n.attr? .label = n.label?.map AttrValue.text ∧ (n.label?.isSome ↔ n.kind = .output ∨ n.kind = .input) := by
  intro n hn
  have hp := Circuit.component_mem_components hn
  have hlabelled := labelled_circuit h hcircuit _ hp
  refine ⟨fun key value hvalue => ?_, hlabelled.text, hlabelled.isSome_iff⟩
  exact admits_circuit h hcircuit _ hp key value (Attrs.mem_toList_iff.1 hvalue)

/-- The grid, on which only what a circuit needs is supported. -/
def frugalGrid : Catalog :=
  { Catalog.grid 20 with
    supports := fun kind key => [(NodeKind.output, AttrKey.label), (.input, .label), (.input, .rotation),
      (.not, .rotation)].contains (kind, key) }

/-- Two expressions on the frugal grid. -/
def frugalSheet : Sheet :=
  { twoSheet with catalog := frugalGrid }

theorem addAll_frugal : (blank frugalGrid).addAll twoOutputs = .ok frugalSheet := rfl

theorem exists_circuit_frugalSheet : ∃ circuit, frugalSheet.circuit = .ok circuit := by
  obtain ⟨strips, hrun⟩ := exists_run addAll_frugal
  exact ⟨_, (circuit_eq_ok_iff hrun.registered).2 ⟨-80, by decide, rfl, rfl⟩⟩

/-- The frugal grid is enough for two expressions. -/
theorem attributes_supported_of_frugal : ∃ circuit, frugalSheet.circuit = .ok circuit ∧ ∀ n ∈ circuit.nodes,
    (∀ key value, (key, value) ∈ n.attrs.toList → frugalGrid.supports n.kind key = true) ∧
    (n.label?.isSome ↔ n.kind = .output ∨ n.kind = .input) := by
  obtain ⟨circuit, hcircuit⟩ := exists_circuit_frugalSheet
  refine ⟨circuit, hcircuit, fun n hn => ?_⟩
  obtain ⟨hsupported, -, hlabel⟩ := attributes_supported addAll_frugal hcircuit n hn
  exact ⟨hsupported, hlabel⟩

end Sheet

end Schematic
