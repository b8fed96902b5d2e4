/-
Where the references of an expression go. Every one of them becomes a leaf of
the tree, in the order in which a walk through the expression meets them, and
negated exactly if it stands right under a negation (`leaves_gates_eq`); drawing
the tree places those leaves in the same order (`Layout.leaves_of_draw`).

`Expr.partsUnder` lists the parts of an expression as `Expr.parts` does, but
with the part that each of them stands under, since no part shows that by
itself.
-/
import Schematic.Proofs.Refusal
import Schematic.Proofs.Sketch

namespace Schematic

namespace Expr

/-! ## Parts and what they stand under -/

mutual

/-- An expression and everything inside it, each part with the one that it is
an operand of. -/
def partsUnder (above : Option Expr) : Expr → List (Option Expr × Expr)
  | .var v => [(above, .var v)]
  | .const b => [(above, .const b)]
  | .not e => (above, .not e) :: e.partsUnder (some (.not e))
  | .join c es => (above, .join c es) :: partsUnderAll (some (.join c es)) es

def partsUnderAll (above : Option Expr) : List Expr → List (Option Expr × Expr)
  | [] => []
  | e :: es => e.partsUnder above ++ partsUnderAll above es

end

theorem partsUnderAll_eq (above : Option Expr) : ∀ es : List Expr,
    partsUnderAll above es = es.flatMap (partsUnder above)
  | [] => rfl
  | e :: es => by simp [partsUnderAll, partsUnderAll_eq above es]

theorem map_snd_partsUnder (e : Expr) (above : Option Expr) : (e.partsUnder above).map Prod.snd = e.parts := by
  induction e generalizing above with
  | var v | const b => rfl
  | not e ih => rw [partsUnder, List.map_cons, ih, parts]
  | join c es ih =>
    rw [partsUnder, List.map_cons, partsUnderAll_eq, List.map_flatMap, parts, partsAll_eq, List.flatMap_def,
      List.flatMap_def, List.map_congr_left fun e he => ih e he _]

/-- The literal that a reference asks for, which is negated if the reference
stands right under a negation. -/
def literal? : Option Expr × Expr → Option Literal
  | (above, .var v) => some ⟨v, above.any (·.kind == .not)⟩
  | _ => none

/-- **The leaves of the tree** are the references of the expression, in order,
if the expression does not itself stand under a negation as a reference. -/
theorem leaves_gates_eq {e : Expr} (h : e.Supported) {above : Option Expr}
    (habove : above.any (·.kind == .not) = false ∨ e.var? = none) :
    e.gates.leaves = (e.partsUnder above).filterMap literal? := by
  induction h using Supported.induction generalizing above with
  | var v =>
    have hplain : above.any (·.kind == .not) = false := by simpa [var?] using habove
    simp [gates, GateTree.leaves, partsUnder, literal?, hplain]
  | notVar v => rfl
  | not e h hv ih =>
    rw [gates_not hv, GateTree.leaves, GateTree.leavesAll, GateTree.leavesAll, List.append_nil, ih (.inr hv),
      partsUnder]
    rfl
  | join c es h hall hc hes ih =>
    have hops : es.map (fun e => e.gates.leaves) =
        es.map fun e => (e.partsUnder (some (.join c es))).filterMap literal? :=
      List.map_congr_left fun e he => ih e he (.inl rfl)
    rw [gates, GateTree.leaves, GateTree.leavesAll_eq, gatesAll_eq, List.flatMap_map, partsUnder, partsUnderAll_eq,
      List.filterMap_cons, List.filterMap_flatMap, List.flatMap_def, List.flatMap_def, hops]
    rfl

theorem map_var_literal? (p : Option Expr × Expr) : (literal? p).map Literal.var = p.2.var? := by
  obtain ⟨above, e⟩ := p
  cases e with
  | var v | const b | not e | join c es => rfl

theorem leaves_gates {e : Expr} (h : e.Supported) : e.gates.leaves.map Literal.var = e.references := by
  rw [leaves_gates_eq h (.inl Option.any_none), List.map_filterMap, references, ← map_snd_partsUnder e none,
    List.filterMap_map]
  exact congrArg (List.filterMap · _) (funext map_var_literal?)

theorem leafCount_gates {e : Expr} (h : e.Supported) : e.gates.leafCount = e.occurrences := by
  rw [← GateTree.length_leaves, occurrences, ← leaves_gates h, List.length_map]

end Expr

/-! ## Leaves of a drawing -/

/-- **Drawing a tree places its leaves**, in order, after those placed before. -/
theorem Layout.leaves_of_draw {catalog : Catalog} {t : GateTree} {m : Layout} (hm : ofTree catalog t = .ok m)
    {pos out : Point} {d d' : Drawing} (hdraw : m.draw pos d = .ok (out, d')) :
    ∃ placed, d'.leaves.toList = d.leaves.toList ++ placed ∧ placed.map Leaf.literal = t.leaves := by
  obtain ⟨-, heq⟩ := (draw_eq_ok_iff pos m).1 hdraw
  cases heq
  refine ⟨(m.sketch pos).leaves.toList, by simp, ?_⟩
  rw [leaves_sketch, tree_of_ofTree t hm]

namespace Expr

/-- **Every reference becomes a leaf**, in the order of a walk through the
expression, and negated if it stands right under a negation. There are as many
leaves as references, though a variable is registered only at its first one,
and whatever the catalog, drawing the tree places these leaves and no others. -/
theorem toGateTree_keeps_references {e : Expr} {t : GateTree} {registered after : List Variable}
    (h : e.toGateTree registered = (.ok t, after)) :
    ((e.partsUnder none).map Prod.snd = e.parts ∧ t.leaves = (e.partsUnder none).filterMap literal?) ∧
    t.leaves.map Literal.var = e.references ∧
    t.leafCount = e.occurrences ∧
    after = registered ++ e.vars.filter (· ∉ registered) ∧
    ∀ catalog m pos d out d', Layout.ofTree catalog t = .ok m → m.draw pos d = .ok (out, d') →
      ∃ placed, d'.leaves.toList = d.leaves.toList ++ placed ∧ placed.map Leaf.literal = t.leaves := by
  obtain ⟨he, rfl, rfl⟩ := toGateTree_eq_ok_iff.1 h
  refine ⟨⟨map_snd_partsUnder e none, leaves_gates_eq he (.inl rfl)⟩, leaves_gates he, leafCount_gates he,
    foldl_register_references e registered, ?_⟩
  intro catalog m pos d out d' hm hdraw
  exact Layout.leaves_of_draw hm hdraw

/-- An expression with repeated references and with a negated negation. -/
def repeated : Expr :=
  .join .or [.var ⟨"S", by decide⟩, .not (.var ⟨"S", by decide⟩),
    .not (.join .and [.var ⟨"T", by decide⟩, .not (.not (.var ⟨"S", by decide⟩))])]

/-- All four references become leaves, though `T` was registered before and `S`
is registered once. -/
theorem toGateTree_keeps_references_of_repeated : ∃ t,
    repeated.toGateTree [⟨"T", by decide⟩] = (.ok t, [⟨"T", by decide⟩, ⟨"S", by decide⟩]) ∧
    t.leaves.map Literal.var = [⟨"S", by decide⟩, ⟨"S", by decide⟩, ⟨"T", by decide⟩, ⟨"S", by decide⟩] ∧
    t.leaves.map Literal.negated = [false, true, false, true] ∧
    ∃ m out d, Layout.ofTree (.grid 20) t = .ok m ∧ m.draw .origin {} = .ok (out, d) ∧
      d.leaves.toList.map Leaf.literal = t.leaves := by
  have hrun : repeated.toGateTree [⟨"T", by decide⟩] =
      (.ok repeated.gates, [⟨"T", by decide⟩, ⟨"S", by decide⟩]) := rfl
  obtain ⟨⟨-, hleaves⟩, hvars, -, -, hdraws⟩ := toGateTree_keeps_references hrun
  obtain ⟨m, hm⟩ : ∃ m, Layout.ofTree (.grid 20) repeated.gates = .ok m := ⟨_, rfl⟩
  obtain ⟨⟨out, d⟩, hd⟩ : ∃ r, m.draw .origin {} = .ok r := by
    cases hm
    exact ⟨_, rfl⟩
  obtain ⟨placed, hplaced, hliterals⟩ := hdraws _ _ _ _ _ _ hm hd
  refine ⟨_, hrun, hvars.trans (by decide), by rw [hleaves]; decide, m, out, d, hm, hd, ?_⟩
  rw [hplaced, ← hliterals]
  rfl

end Expr

end Schematic
