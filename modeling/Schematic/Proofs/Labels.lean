/-
What a label finds in a finished circuit. Output terminals and input terminals
carry labels alike, and nothing stops an expression from having the name of
another one or of a variable; the node that was added first is found. The nodes
of the expressions come before those of the bus, so an expression hides a
variable of its name (`findLabel?_eq_or`), and among the terminals of either
kind a label is found where the name stands in their list
(`find?_label_eq`).
-/
import Schematic.Proofs.Attributes
import Schematic.Proofs.SlotOrder

namespace Schematic

/-! ## Labelled nodes -/

theorem find?_label_eq {nodes : List Node} {names : List String} (h : nodes.map Node.label? = names.map some)
    (label : String) : nodes.find? (·.label? == some label) = (names.findIdx? (· == label)).bind (nodes[·]?) := by
  have hidx : nodes.findIdx? (·.label? == some label) = names.findIdx? (· == label) := by
    calc nodes.findIdx? (·.label? == some label)
      _ = (nodes.map Node.label?).findIdx? (· == some label) := by rw [List.findIdx?_map]; rfl
      _ = (names.map some).findIdx? (· == some label) := by rw [h]
      _ = names.findIdx? (· == label) := by rw [List.findIdx?_map]; rfl
  rw [List.find?_eq_bind_findIdx?_getElem?, hidx]

theorem find?_label_eq_some {nodes : List Node} {names : List String} (h : nodes.map Node.label? = names.map some)
    {label : String} {i : Nat} (hi : names.findIdx? (· == label) = some i) :
    ∃ node, nodes[i]? = some node ∧ nodes.find? (·.label? == some label) = some node := by
  have hlt : i < nodes.length := by
    have hlength := congrArg List.length h
    rw [List.length_map, List.length_map] at hlength
    rw [hlength]
    exact (List.findIdx?_eq_some_iff_findIdx_eq.1 hi).1
  refine ⟨nodes[i], List.getElem?_eq_getElem hlt, ?_⟩
  rw [find?_label_eq h, hi, Option.bind_some, List.getElem?_eq_getElem hlt]

theorem find?_label_eq_none {nodes : List Node} {names : List String} (h : nodes.map Node.label? = names.map some)
    {label : String} (hlabel : label ∉ names) : nodes.find? (·.label? == some label) = none := by
  have hnone : names.findIdx? (· == label) = none :=
    List.findIdx?_eq_none_iff.2 fun name hname => beq_eq_false_iff_ne.2 fun heq => hlabel (heq ▸ hname)
  rw [find?_label_eq h, hnone, Option.bind_none]

theorem findIdx?_name {vars : List Variable} {v : Variable} (hv : v ∈ vars) :
    (vars.map Variable.name).findIdx? (· == v.name) = some (vars.idxOf v) := by
  have hname : ((· == v.name) ∘ Variable.name) = (· == v) := by
    funext w
    rw [Bool.eq_iff_iff, Function.comp_apply, beq_iff_eq, beq_iff_eq]
    exact ⟨fun h => by cases w; cases v; cases h; rfl, fun h => h ▸ rfl⟩
  rw [List.findIdx?_map, hname, List.findIdx?_eq_some_iff_findIdx_eq]
  exact ⟨List.idxOf_lt_length_iff.2 hv, rfl⟩

/-- Where only nodes of one kind are labelled, the others need not be searched. -/
theorem find?_label_filter {nodes : List Node} {kind : NodeKind}
    (h : ∀ n ∈ nodes, n.label?.isSome → n.kind = kind) (label : String) :
    nodes.find? (·.label? == some label) = (nodes.filter (·.kind == kind)).find? (·.label? == some label) := by
  rw [← List.head?_filter, ← List.head?_filter, List.filter_filter]
  refine congrArg List.head? (List.filter_congr fun n hn => ?_)
  cases hlabel : n.label? with
  | none => rfl
  | some s => simp [h n hn (by simp [hlabel])]

namespace Sheet

variable {catalog : Catalog} {outputs : List (String × Expr)} {sheet : Sheet} {circuit : Circuit}

/-! ## Labels of the terminals -/

theorem filter_output_componentsOf (o : String × Expr) :
    (componentsOf o).filter (·.kind == .output) = [.output o.1] := by
  have hgates : (o.2.gateKinds.map Component.gate).filter (·.kind == .output) = [] := by
    rw [List.filter_eq_nil_iff]
    intro p hp houtput
    obtain ⟨kind, hkind, rfl⟩ := List.mem_map.1 hp
    have hgate := Expr.isGate_of_mem_gateKinds hkind
    rw [show kind = .output from beq_iff_eq.1 houtput] at hgate
    cases hgate
  rw [componentsOf, List.filter_cons_of_pos rfl, hgates]

theorem labels_outputs (outputs : List (String × Expr)) (vars : List Variable) :
    ((outputs.flatMap componentsOf ++ vars.flatMap Component.slot).filter (·.kind == .output)).map Component.label? =
      outputs.map fun o => some o.1 := by
  have hslots : (vars.flatMap Component.slot).filter (·.kind == .output) = [] := by
    rw [List.filter_flatMap]
    exact List.flatMap_eq_nil_iff.2 fun v _ => rfl
  rw [List.filter_append, hslots, List.append_nil, List.filter_flatMap, List.map_flatMap, List.map_eq_flatMap,
    List.flatMap_def, List.flatMap_def]
  exact congrArg List.flatten (List.map_congr_left fun o _ => by rw [filter_output_componentsOf]; rfl)

/-- **The output terminals are labelled** with the names of the expressions, in
order. -/
theorem map_label?_outputs (h : (blank catalog).addAll outputs = .ok sheet) (hcircuit : sheet.circuit = .ok circuit) :
    (circuit.nodesOf .output).map Node.label? = (outputs.map Prod.fst).map some := by
  rw [circuit.map_label?_nodesOf, components_circuit h hcircuit, labels_outputs, List.map_map]
  rfl

/-- **The input terminals are labelled** with the names of the variables, in
order. -/
theorem map_label?_inputs (h : (blank catalog).addAll outputs = .ok sheet) (hcircuit : sheet.circuit = .ok circuit) :
    (circuit.nodesOf .input).map Node.label? = (sheet.vars.map Variable.name).map some := by
  rw [circuit.map_label?_nodesOf, components_circuit h hcircuit, labels_inputs, List.map_map]
  rfl

/-! ## Look-up -/

/-- The nodes of the expressions come before those of the bus. Neither has the
terminals of the other. -/
theorem exists_drawn_bus (h : (blank catalog).addAll outputs = .ok sheet) (hcircuit : sheet.circuit = .ok circuit) :
    ∃ drawn bus, circuit.nodes.toList = drawn ++ bus ∧ (∀ n ∈ drawn, n.kind ≠ .input) ∧
      ∀ n ∈ bus, n.kind ≠ .output := by
  obtain ⟨drawn, bus, hnodes, hdrawn, hbus⟩ := List.map_eq_append_iff.1 (components_circuit h hcircuit)
  refine ⟨drawn, bus, hnodes, fun n hn hinput => ?_, fun n hn houtput => ?_⟩
  · have hp : n.component ∈ outputs.flatMap componentsOf := hdrawn ▸ List.mem_map_of_mem hn
    obtain ⟨o, -, hp⟩ := List.mem_flatMap.1 hp
    have hkind : n.kind.isGate = true ∨ n.kind = .output := kind_of_mem_componentsOf hp
    rw [hinput] at hkind
    rcases hkind with hgate | houtput
    · cases hgate
    · cases houtput
  · have hp : n.component ∈ sheet.vars.flatMap Component.slot := hbus ▸ List.mem_map_of_mem hn
    obtain ⟨v, -, hp⟩ := List.mem_flatMap.1 hp
    -- a slot is a terminal and an inverter
    have hkinds : ∀ p ∈ Component.slot v, p.kind ≠ .output := by simp [Component.slot]
    exact hkinds _ hp houtput

/-- **The output terminals are searched first**, then the input terminals. -/
theorem findLabel?_eq_or (h : (blank catalog).addAll outputs = .ok sheet) (hcircuit : sheet.circuit = .ok circuit)
    (label : String) : circuit.findLabel? label =
      ((circuit.nodesOf .output).find? (·.label? == some label)).or
        ((circuit.nodesOf .input).find? (·.label? == some label)) := by
  obtain ⟨drawn, bus, hnodes, hdrawn, hbus⟩ := exists_drawn_bus h hcircuit
  have hterminal : ∀ n ∈ circuit.nodes.toList, n.label?.isSome → n.kind = .output ∨ n.kind = .input := fun n hn =>
    (labelled_circuit h hcircuit _ (List.mem_map_of_mem hn)).isSome_iff.1
  have houtputs : circuit.nodesOf .output = drawn.filter (·.kind == .output) := by
    have hnone : bus.filter (·.kind == .output) = [] := List.filter_eq_nil_iff.2 (by simpa using hbus)
    rw [Circuit.nodesOf, hnodes, List.filter_append, hnone, List.append_nil]
  have hinputs : circuit.nodesOf .input = bus.filter (·.kind == .input) := by
    have hnone : drawn.filter (·.kind == .input) = [] := List.filter_eq_nil_iff.2 (by simpa using hdrawn)
    rw [Circuit.nodesOf, hnodes, List.filter_append, hnone, List.nil_append]
  have houtput : drawn.find? (·.label? == some label) =
      (drawn.filter (·.kind == .output)).find? (·.label? == some label) :=
    find?_label_filter (fun n hn hlabel =>
      (hterminal n (hnodes ▸ List.mem_append_left _ hn) hlabel).resolve_right (hdrawn n hn)) label
  have hinput : bus.find? (·.label? == some label) =
      (bus.filter (·.kind == .input)).find? (·.label? == some label) :=
    find?_label_filter (fun n hn hlabel =>
      (hterminal n (hnodes ▸ List.mem_append_right _ hn) hlabel).resolve_left (hbus n hn)) label
  rw [houtputs, hinputs, Circuit.findLabel?, hnodes, List.find?_append, houtput, hinput]

theorem mem_vars_iff (h : (blank catalog).addAll outputs = .ok sheet) {v : Variable} :
    v ∈ sheet.vars ↔ ∃ o ∈ outputs, v ∈ o.2.references := by
  obtain ⟨strips, hrun⟩ := exists_run h
  rw [hrun.vars_eq, mem_foldl_register, List.mem_flatMap]
  exact or_iff_right (List.not_mem_nil)

/-- **What a label finds.** The output terminals of a finished circuit are
labelled with the names of its expressions and the input terminals with the
names of its variables, in order. A label finds the output terminal of the first
expression of that name. If no expression has the name, then it finds the input
terminal of the variable of that name if an expression refers to it, and nothing
otherwise. -/
theorem label_lookup (h : (blank catalog).addAll outputs = .ok sheet) (hcircuit : sheet.circuit = .ok circuit)
    (label : String) :
    ((circuit.nodesOf .output).map Node.label? = outputs.map (fun o => some o.1) ∧
      (circuit.nodesOf .input).map Node.label? = sheet.vars.map fun v => some v.name) ∧
    (∀ i, outputs.findIdx? (·.1 == label) = some i →
      ∃ node, (circuit.nodesOf .output)[i]? = some node ∧ circuit.findLabel? label = some node) ∧
    ((∀ o ∈ outputs, o.1 ≠ label) →
      (∀ v, v.name = label → (∃ o ∈ outputs, v ∈ o.2.references) →
        ∃ node, (circuit.nodesOf .input)[sheet.vars.idxOf v]? = some node ∧ circuit.findLabel? label = some node) ∧
      ((∀ o ∈ outputs, ∀ v ∈ o.2.references, v.name ≠ label) → circuit.findLabel? label = none)) := by
  have houtputs := map_label?_outputs h hcircuit
  have hinputs := map_label?_inputs h hcircuit
  have hsearch := findLabel?_eq_or h hcircuit label
  refine ⟨⟨by rw [houtputs, List.map_map]; rfl, by rw [hinputs, List.map_map]; rfl⟩, fun i hi => ?_, fun hnames => ?_⟩
  · have hname : (outputs.map Prod.fst).findIdx? (· == label) = some i := by
      rw [List.findIdx?_map]
      exact hi
    obtain ⟨node, hnode, hfound⟩ := find?_label_eq_some houtputs hname
    refine ⟨node, hnode, ?_⟩
    rw [hsearch, hfound, Option.some_or]
  · have hout : (circuit.nodesOf .output).find? (·.label? == some label) = none := by
      refine find?_label_eq_none houtputs fun hmem => ?_
      obtain ⟨o, ho, hlabel⟩ := List.mem_map.1 hmem
      exact hnames o ho hlabel
    rw [hout, Option.none_or] at hsearch
    refine ⟨fun v hv hused => ?_, fun hunused => ?_⟩
    · subst hv
      obtain ⟨node, hnode, hfound⟩ := find?_label_eq_some hinputs (findIdx?_name ((mem_vars_iff h).2 hused))
      exact ⟨node, hnode, hsearch.trans hfound⟩
    · rw [hsearch]
      refine find?_label_eq_none hinputs fun hmem => ?_
      obtain ⟨v, hv, hlabel⟩ := List.mem_map.1 hmem
      obtain ⟨o, ho, href⟩ := (mem_vars_iff h).1 hv
      exact hunused o ho v href hlabel

/-- Three expressions, two of them with the name of a variable and one without
a name. -/
def shadowedOutputs : List (String × Expr) :=
  [("Out", .join .and [.var ⟨"In", by decide⟩, .not (.var ⟨"Out", by decide⟩)]),
    ("", .not (.join .or [.var ⟨"Out", by decide⟩, .var ⟨"In", by decide⟩])),
    ("Out", .var ⟨"In", by decide⟩)]

/-- Their sheet, on cells of the usual size. -/
def shadowedSheet : Sheet :=
  (blank (.grid 20)).drawnAll 20 shadowedOutputs

theorem addAll_shadowedOutputs : (blank (.grid 20)).addAll shadowedOutputs = .ok shadowedSheet := rfl

theorem exists_circuit_shadowedSheet : ∃ circuit, shadowedSheet.circuit = .ok circuit :=
  exists_circuit_grid (by decide) addAll_shadowedOutputs (by decide) (by decide)

/-- The first expression hides the third, which has the same name, and the
variable of that name as well. -/
theorem label_lookup_of_shadowed : ∃ circuit, shadowedSheet.circuit = .ok circuit ∧
    (circuit.nodesOf .output).map Node.label? = [some "Out", some "", some "Out"] ∧
    (circuit.nodesOf .input).map Node.label? = [some "In", some "Out"] ∧
    (∃ node, (circuit.nodesOf .output)[0]? = some node ∧ circuit.findLabel? "Out" = some node) ∧
    (∃ node, (circuit.nodesOf .output)[1]? = some node ∧ circuit.findLabel? "" = some node) ∧
    (∃ node, (circuit.nodesOf .input)[0]? = some node ∧ circuit.findLabel? "In" = some node) ∧
    circuit.findLabel? "C" = none := by
  obtain ⟨circuit, hcircuit⟩ := exists_circuit_shadowedSheet
  have hlookup := label_lookup addAll_shadowedOutputs hcircuit
  obtain ⟨⟨houtputs, hinputs⟩, hOut, -⟩ := hlookup "Out"
  obtain ⟨-, hempty, -⟩ := hlookup ""
  obtain ⟨-, -, hIn⟩ := hlookup "In"
  obtain ⟨-, -, hC⟩ := hlookup "C"
  refine ⟨circuit, hcircuit, houtputs, hinputs.trans (by decide), hOut 0 (by decide), hempty 1 (by decide), ?_, ?_⟩
  · exact (hIn (by decide)).1 ⟨"In", by decide⟩ rfl ⟨_, List.mem_cons_self, by decide⟩
  · exact (hC (by decide)).2 (by decide)

end Sheet

end Schematic
