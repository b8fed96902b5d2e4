/-
Trees of gates in normal form. A tree is normal if every gate in it has the
operands that it was made for, and no inverter stands where the bus would have
supplied the negated variable. Supported expressions become normal trees, and
`GateTree.expr` reads the expression off such a tree again (`expr_gates`,
`gates_expr`). So nothing is lost: the two correspond one to one
(`gates_bijOn`), and have the same value.
-/
import Schematic.Proofs.Refusal
import Mathlib.Data.Set.Function

namespace Schematic

namespace GateTree

/-! ## Normal trees -/

/-- Whether a tree has a root that some expression gives it: a leaf, a
conjunction or a disjunction with an operand on each of its inputs and at least
one, or an inverter of one operand, which is not a plain variable. -/
def NormalRoot : GateTree → Prop
  | .leaf _ => True
  | .gate kind ts =>
    (kind = .and ts.length ∨ kind = .or ts.length) ∧ ts ≠ [] ∨
      kind = .not ∧ ∃ t, ts = [t] ∧ ∀ v, t ≠ .leaf ⟨v, false⟩
  | .output _ _ => False

/-- A tree all of whose parts have such a root. -/
def Normal (t : GateTree) : Prop :=
  ∀ p ∈ t.parts, p.NormalRoot

theorem normal_leaf (l : Literal) : Normal (.leaf l) := by
  simp [Normal, parts, NormalRoot]

theorem normal_gate {kind : NodeKind} {ts : List GateTree} :
    Normal (.gate kind ts) ↔ NormalRoot (.gate kind ts) ∧ ∀ t ∈ ts, t.Normal := by
  simp only [Normal, parts, partsAll_eq, List.forall_mem_cons, List.mem_flatMap]
  refine and_congr_right fun _ => ?_
  exact ⟨fun h t ht p hp => h p ⟨t, ht, hp⟩, fun h p ⟨t, ht, hp⟩ => h t ht p hp⟩

theorem not_normal_output (label : String) (t : GateTree) : ¬ Normal (.output label t) :=
  fun h => h _ List.mem_cons_self

theorem Normal.induction {motive : (t : GateTree) → t.Normal → Prop} (leaf : ∀ l, motive (.leaf l) (normal_leaf l))
    (not : ∀ t (h : Normal (.gate .not [t])) (ht : t.Normal), (∀ v, t ≠ .leaf ⟨v, false⟩) → motive t ht →
      motive (.gate .not [t]) h)
    (join : ∀ (c : Connective) kind ts (h : Normal (.gate (kind ts.length) ts)) (hall : ∀ t ∈ ts, t.Normal),
      c.gate? = some kind → ts ≠ [] → (∀ t (ht : t ∈ ts), motive t (hall t ht)) → motive (.gate (kind ts.length) ts) h)
    {t : GateTree} (h : t.Normal) : motive t h := by
  induction t with
  | leaf l => exact leaf l
  | gate kind ts ih =>
    obtain ⟨hroot, hall⟩ := normal_gate.1 h
    rcases hroot with ⟨rfl | rfl, hts⟩ | ⟨rfl, t, rfl, hplain⟩
    · exact join .and .and ts h hall rfl hts fun t ht => ih t ht (hall t ht)
    · exact join .or .or ts h hall rfl hts fun t ht => ih t ht (hall t ht)
    · exact not t h (hall t List.mem_cons_self) hplain (ih t List.mem_cons_self _)
  | output label t => exact absurd h (not_normal_output label t)

/-! ## The expression of a tree -/

mutual

/-- The expression that a normal tree stands for. -/
def expr : GateTree → Expr
  | .leaf l => if l.negated then .not (.var l.var) else .var l.var
  | .gate .not ts => .not ((exprAll ts).headD (.const false))
  | .gate (.or _) ts => .join .or (exprAll ts)
  | .gate _ ts => .join .and (exprAll ts)
  | .output _ t => t.expr

def exprAll : List GateTree → List Expr
  | [] => []
  | t :: ts => t.expr :: exprAll ts

end

theorem exprAll_eq (ts : List GateTree) : exprAll ts = ts.map expr := by
  induction ts with
  | nil => rfl
  | cons t ts ih => rw [exprAll, ih, List.map_cons]

theorem expr_not (t : GateTree) : expr (.gate .not [t]) = .not t.expr := rfl

theorem expr_join {c : Connective} {kind : Nat → NodeKind} (hc : c.gate? = some kind) (n : Nat)
    (ts : List GateTree) : expr (.gate (kind n) ts) = .join c (ts.map expr) := by
  rw [← exprAll_eq]
  cases c with
  | and | or =>
    cases hc
    rfl
  | xor => cases hc

/-- **The expression of a normal tree** is supported, and becomes that tree. -/
theorem gates_expr {t : GateTree} (h : t.Normal) : t.expr.Supported ∧ t.expr.gates = t := by
  induction h using Normal.induction with
  | leaf l =>
    obtain ⟨v, negated⟩ := l
    cases negated with
    | false => exact ⟨Expr.supported_var v, rfl⟩
    | true => exact ⟨Expr.supported_not.2 (Expr.supported_var v), rfl⟩
  | not t h ht hplain ih =>
    obtain ⟨hsupported, hgates⟩ := ih
    have hvar : t.expr.var? = none := by
      refine Option.eq_none_iff_forall_ne_some.2 fun v hv => hplain v ?_
      rw [Expr.var?_eq_some_iff.1 hv] at hgates
      exact hgates.symm
    rw [expr_not, Expr.gates_not hvar, hgates]
    exact ⟨Expr.supported_not.2 hsupported, rfl⟩
  | join c kind ts h hall hc hts ih =>
    have hops : Expr.gatesAll (ts.map expr) = ts := by
      rw [Expr.gatesAll_eq, List.map_map]
      exact (List.map_congr_left fun t ht => (ih t ht).2).trans (List.map_id ts)
    rw [expr_join hc, Expr.gates_join hc, hops, List.length_map]
    refine ⟨Expr.supported_join.2 ⟨Connective.ne_xor_of_gate? hc, by simpa using hts, ?_⟩, rfl⟩
    exact List.forall_mem_map.2 fun t ht => (ih t ht).1

end GateTree

namespace Expr

/-- **The tree of a supported expression** is normal, and the expression can be
read off it. -/
theorem expr_gates {e : Expr} (h : e.Supported) : e.gates.Normal ∧ e.gates.expr = e := by
  induction h using Supported.induction with
  | var v => exact ⟨GateTree.normal_leaf _, rfl⟩
  | notVar v => exact ⟨GateTree.normal_leaf _, rfl⟩
  | not e h hv ih =>
    obtain ⟨hnormal, hexpr⟩ := ih
    have hplain : ∀ v, e.gates ≠ .leaf ⟨v, false⟩ := by
      intro v hleaf
      rw [hleaf] at hexpr
      rw [← hexpr] at hv
      cases hv
    rw [gates_not hv, GateTree.expr_not, hexpr, GateTree.normal_gate]
    exact ⟨⟨.inr ⟨rfl, _, rfl, hplain⟩, by simpa using hnormal⟩, rfl⟩
  | join c es h hall hc hes ih =>
    obtain ⟨kind, hkind⟩ := Connective.exists_gate? hc
    have hops : (gatesAll es).map GateTree.expr = es := by
      rw [gatesAll_eq, List.map_map]
      exact (List.map_congr_left fun e he => (ih e he).2).trans (List.map_id es)
    rw [gates_join hkind, GateTree.expr_join hkind, hops, GateTree.normal_gate]
    refine ⟨⟨.inl ⟨?_, by simpa [gatesAll_eq] using hes⟩, ?_⟩, rfl⟩
    · rw [length_gatesAll]
      cases c with
      | and => cases hkind; exact .inl rfl
      | or => cases hkind; exact .inr rfl
      | xor => exact absurd rfl hc
    · rw [gatesAll_eq]
      exact List.forall_mem_map.2 fun e he => (ih e he).1

theorem gates_bijOn : Set.BijOn gates {e | e.Supported} {t | t.Normal} := by
  refine Set.InvOn.bijOn (⟨?_, ?_⟩ : Set.InvOn GateTree.expr gates _ _) ?_ ?_
  · exact fun e he => (expr_gates he).2
  · exact fun t ht => (GateTree.gates_expr ht).2
  · exact fun e he => (expr_gates he).1
  · exact fun t ht => (GateTree.gates_expr ht).1

/-- **Supported expressions and normal trees correspond** one to one, whatever
is registered before: every supported expression becomes a normal tree, two of
them never the same one, and every normal tree is what one of them becomes. The
tree has the value of the expression under every assignment. -/
theorem toGateTree_bijOn (registered : List Variable) :
    Set.BijOn (fun e : Expr => (e.toGateTree registered).1) {e | e.Supported}
      (Except.ok '' {t : GateTree | t.Normal}) ∧
    ∀ (e : Expr) (t : GateTree) (after : List Variable), e.toGateTree registered = (.ok t, after) →
      ∀ env, t.eval env = e.eval env := by
  refine ⟨?_, fun e t after h env => ?_⟩
  · have hok : Set.BijOn Except.ok {t : GateTree | t.Normal}
        (Except.ok '' {t | t.Normal} : Set (Except Fault GateTree)) :=
      (Set.injOn_of_injective fun _ _ h => Except.ok.inj h).bijOn_image
    refine (hok.comp gates_bijOn).congr fun e he => ?_
    simp only [Function.comp_apply, toGateTree_of_supported he]
  · obtain ⟨he, rfl, -⟩ := toGateTree_eq_ok_iff.1 h
    exact eval_gates he env

/-- A doubly negated variable. -/
def twiceNegated : Expr :=
  .not (.not (.var ⟨"X", by decide⟩))

/-- Of two negations the inner one is taken into the leaf, and the outer one
stays. -/
theorem toGateTree_bijOn_of_negations :
    twiceNegated.toGateTree [] = (.ok (.gate .not [.leaf ⟨⟨"X", by decide⟩, true⟩]), [⟨"X", by decide⟩]) ∧
    ∀ env, (GateTree.gate .not [.leaf ⟨⟨"X", by decide⟩, true⟩]).eval env = twiceNegated.eval env :=
  ⟨rfl, (toGateTree_bijOn []).2 _ _ _ rfl⟩

end Expr

end Schematic
