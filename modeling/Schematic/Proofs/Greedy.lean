/-
Which variables a sweep keeps, told from the original table alone.

The sweep tests each variable on a table that earlier steps have merged, at an
ordinal that earlier removals have moved. `greedy` looks at the original rows
only: it visits the ordinals in order and keeps one when, of two rows that agree
at the ordinals kept so far and at those still to come, one can be false and the
other true. The two decide alike at every step (`Spelled.independentOf_iff`).

What is kept is enough to tell the entries from (`not_clash_greedy`), and nothing
less of it is (`clash_of_subset_greedy`).
-/
import Schematic.Proofs.Fiber
import Schematic.Proofs.FixedPoint

namespace Schematic

/-! ## Rows that clash -/

/-- Of two rows that agree at the ordinals in `same`, one is false and the other
true. -/
def Clash (vars : Nat) (entry : Nat → Value) (same : Nat → Prop) : Prop :=
  ∃ row < 2 ^ vars, ∃ row' < 2 ^ vars,
    (∀ k < vars, same k → digit vars row k = digit vars row' k) ∧ entry row = .zero ∧ entry row' = .one

instance {vars : Nat} {entry : Nat → Value} {same : Nat → Prop} [DecidablePred same] :
    Decidable (Clash vars entry same) :=
  inferInstanceAs (Decidable (∃ row, row < _ ∧ ∃ row', row' < _ ∧ _))

variable {vars v w : Nat} {entry : Nat → Value} {same same' : Nat → Prop}

theorem Clash.mono (h : Clash vars entry same) (hsub : ∀ k < vars, same' k → same k) :
    Clash vars entry same' := by
  obtain ⟨row, hrow, row', hrow', hagree, hzero, hone⟩ := h
  exact ⟨row, hrow, row', hrow', fun k hk hsame => hagree k hk (hsub k hk hsame), hzero, hone⟩

theorem not_clash_of_all (h : ∀ k < vars, same k) : ¬ Clash vars entry same := by
  intro hclash
  obtain ⟨row, hrow, row', hrow', hagree, hzero, hone⟩ := hclash
  have hdigits : digits vars row = digits vars row' :=
    List.map_congr_left fun k hk => hagree k (List.mem_range.1 hk) (h k (List.mem_range.1 hk))
  rw [← rowOf_digits hrow, hdigits, rowOf_digits hrow', hone] at hzero
  cases hzero

theorem digit_rowOf_eq_getD {x : List Bool} {k : Nat} (hx : x.length = vars) (hk : k < vars) :
    digit vars (rowOf x) k = x.getD k false := by
  subst hx
  rw [digit_rowOf hk, List.getD_eq_getElem?_getD, List.getElem?_eq_getElem hk, Option.getD_some]

theorem clash_iff :
    Clash vars entry same ↔ ∃ x x' : List Bool, x.length = vars ∧ x'.length = vars ∧
      (∀ k < vars, same k → x.getD k false = x'.getD k false) ∧
      entry (rowOf x) = .zero ∧ entry (rowOf x') = .one := by
  refine ⟨?_, ?_⟩
  · intro h
    obtain ⟨row, hrow, row', hrow', hagree, hzero, hone⟩ := h
    refine ⟨digits vars row, digits vars row', by simp, by simp, fun k hk hsame => ?_, ?_, ?_⟩
    · rw [← digit_rowOf_eq_getD (length_digits _ _) hk, ← digit_rowOf_eq_getD (length_digits _ _) hk,
        rowOf_digits hrow, rowOf_digits hrow']
      exact hagree k hk hsame
    · rwa [rowOf_digits hrow]
    · rwa [rowOf_digits hrow']
  · intro h
    obtain ⟨x, x', hx, hx', hagree, hzero, hone⟩ := h
    refine ⟨rowOf x, hx ▸ rowOf_lt x, rowOf x', hx' ▸ rowOf_lt x', fun k hk hsame => ?_, hzero, hone⟩
    rw [digit_rowOf_eq_getD hx hk, digit_rowOf_eq_getD hx' hk]
    exact hagree k hk hsame

/-! ## The greedy choice -/

/-- The ordinals kept of those below a given one. An ordinal is dropped when no
two rows clash that agree at the ordinals kept before it and at all after it. -/
def greedy (vars : Nat) (entry : Nat → Value) : Nat → List Nat
  | 0 => []
  | v + 1 =>
    if Clash vars entry (fun k => k ∈ greedy vars entry v ∨ v < k) then
      greedy vars entry v ++ [v]
    else
      greedy vars entry v

theorem greedy_keep (h : Clash vars entry fun k => k ∈ greedy vars entry v ∨ v < k) :
    greedy vars entry (v + 1) = greedy vars entry v ++ [v] :=
  if_pos h

theorem greedy_drop (h : ¬ Clash vars entry fun k => k ∈ greedy vars entry v ∨ v < k) :
    greedy vars entry (v + 1) = greedy vars entry v :=
  if_neg h

theorem mem_greedy_succ {k : Nat} :
    k ∈ greedy vars entry (v + 1) ↔ k ∈ greedy vars entry v ∨
      k = v ∧ Clash vars entry fun j => j ∈ greedy vars entry v ∨ v < j := by
  by_cases h : Clash vars entry fun j => j ∈ greedy vars entry v ∨ v < j
  · simp [greedy_keep h, h]
  · simp [greedy_drop h, h]

theorem lt_of_mem_greedy {k : Nat} (h : k ∈ greedy vars entry v) : k < v := by
  induction v with
  | zero => cases h
  | succ v ih =>
    rcases mem_greedy_succ.1 h with h | ⟨rfl, -⟩
    · exact Nat.lt_succ_of_lt (ih h)
    · exact Nat.lt_succ_self k

theorem mem_greedy_or_le {k : Nat} (hvw : v ≤ w) (h : k ∈ greedy vars entry w) :
    k ∈ greedy vars entry v ∨ v ≤ k := by
  induction w, hvw using Nat.le_induction with
  | base => exact .inl h
  | succ w hvw ih =>
    rcases mem_greedy_succ.1 h with h | ⟨rfl, -⟩
    · exact ih h
    · exact .inr hvw

theorem clash_of_mem_greedy {k : Nat} (h : k ∈ greedy vars entry v) :
    Clash vars entry fun j => j ∈ greedy vars entry k ∨ k < j := by
  induction v with
  | zero => cases h
  | succ v ih =>
    rcases mem_greedy_succ.1 h with h | ⟨rfl, hclash⟩
    · exact ih h
    · exact hclash

/-- Whatever has been dropped, the ordinals kept and those still to come tell the
entries. -/
theorem not_clash_greedy_or_le (vars : Nat) (entry : Nat → Value) (v : Nat) :
    ¬ Clash vars entry fun k => k ∈ greedy vars entry v ∨ v ≤ k := by
  induction v with
  | zero => exact not_clash_of_all fun k _ => .inr (Nat.zero_le k)
  | succ v ih =>
    by_cases h : Clash vars entry fun k => k ∈ greedy vars entry v ∨ v < k
    · refine fun hclash => ih (hclash.mono fun k _ hk => ?_)
      rw [greedy_keep h, List.mem_append, List.mem_singleton, or_assoc]
      exact hk.imp_right fun hle => hle.eq_or_lt.imp_left Eq.symm
    · rw [greedy_drop h]
      exact h

/-- **The kept ordinals tell the entries.** -/
theorem not_clash_greedy (vars : Nat) (entry : Nat → Value) :
    ¬ Clash vars entry (· ∈ greedy vars entry vars) := fun hclash =>
  not_clash_greedy_or_le vars entry vars (hclash.mono fun _ hlt hk => hk.resolve_right hlt.not_ge)

/-- **Nothing less than the kept ordinals tells the entries.** -/
theorem clash_of_subset_greedy (hsub : ∀ k, same k → k ∈ greedy vars entry vars) {k : Nat}
    (hk : k ∈ greedy vars entry vars) (hnot : ¬ same k) : Clash vars entry same := by
  refine (clash_of_mem_greedy hk).mono fun j _ hj => ?_
  have hne : k ≠ j := by
    rintro rfl
    exact hnot hj
  exact (mem_greedy_or_le (lt_of_mem_greedy hk).le (hsub j hj)).imp_right (lt_of_le_of_ne · hne)

/-! ## The sweep chooses greedily -/

/-- Assignments agree at ordinals before a variable, and at all after it, when
the ordinals pick the same of them and they end alike. -/
theorem agree_iff {ordinals : List Nat} {m : Nat} {p p' c c' : List Bool} (b b' : Bool)
    (hlt : ∀ k ∈ ordinals, k < m) (hp : p.length = m) (hp' : p'.length = m) (hc : c.length = c'.length) :
    (∀ k < m + 1 + c.length, k ∈ ordinals ∨ m < k →
        (p ++ b :: c).getD k false = (p' ++ b' :: c').getD k false) ↔
      pick ordinals p = pick ordinals p' ∧ c = c' := by
  have hbefore : ∀ {x : List Bool} (y : List Bool) {k}, x.length = m → k ∈ ordinals →
      (x ++ y).getD k false = x.getD k false := by
    intro x y k hx hk
    rw [List.getD_eq_getElem?_getD, List.getElem?_append_left (hx ▸ hlt k hk), List.getD_eq_getElem?_getD]
  have hafter : ∀ {x : List Bool} (d : Bool) (y : List Bool) (i : Nat), x.length = m →
      (x ++ d :: y).getD (m + 1 + i) false = y.getD i false := by
    rintro x d y i rfl
    rw [List.getD_eq_getElem?_getD, List.getElem?_append_right (by omega),
      show x.length + 1 + i - x.length = i + 1 by omega, List.getElem?_cons_succ,
      List.getD_eq_getElem?_getD]
  refine ⟨?_, ?_⟩
  · intro h
    refine ⟨List.map_congr_left fun k hk => ?_, List.ext_getElem hc fun i hi hi' => ?_⟩
    · have := h k (by have := hlt k hk; omega) (.inl hk)
      rwa [hbefore _ hp hk, hbefore _ hp' hk] at this
    · have := h (m + 1 + i) (by omega) (.inr (by omega))
      rw [hafter _ _ _ hp, hafter _ _ _ hp'] at this
      simpa [List.getD_eq_getElem?_getD, hi, hi'] using this
  · intro h k _ hk
    obtain ⟨hpick, rfl⟩ := h
    rcases hk with hk | hk
    · rw [hbefore _ hp hk, hbefore _ hp' hk]
      exact List.map_inj_left.1 hpick k hk
    · obtain ⟨i, rfl⟩ := Nat.exists_eq_add_of_le (Nat.succ_le_of_lt hk)
      rw [hafter _ _ _ hp, hafter _ _ _ hp']

namespace Reduction

variable {vars visited kept rest : List Variable} {entry : Nat → Value} {f₀ f : List Bool → Value}
  {ordinals : List Nat} {reduced : Bool} {v : Variable}

theorem Spelled.length_vars (h : Spelled vars f₀ visited ordinals kept f reduced (v :: rest)) :
    vars.length = visited.length + 1 + rest.length := by
  rw [h.vars_eq, List.length_append, List.length_cons]
  omega

/-- Original rows that agree at the kept ordinals and at those to come, and
clash, have become two entries that differ in the variable visited. -/
theorem Spelled.clash_iff
    (h : Spelled vars (fun bits => entry (rowOf bits)) visited ordinals kept f reduced (v :: rest)) :
    Clash vars.length entry (fun k => k ∈ ordinals ∨ visited.length < k) ↔
      ∃ a b b' c, a.length = ordinals.length ∧ c.length = rest.length ∧
        f (a ++ b :: c) = .zero ∧ f (a ++ b' :: c) = .one := by
  have hlen := h.length_vars
  rw [Schematic.clash_iff]
  refine ⟨?_, ?_⟩
  · intro hex
    obtain ⟨x, x', hx, hx', hagree, hzero, hone⟩ := hex
    obtain ⟨p, b, c, hp, hc, rfl⟩ := exists_eq_append_cons (hx.trans hlen)
    obtain ⟨p', b', c', hp', hc', rfl⟩ := exists_eq_append_cons (hx'.trans hlen)
    rw [hlen, ← hc] at hagree
    obtain ⟨hpick, rfl⟩ := (agree_iff b b' h.lt_visited hp hp' (hc.trans hc'.symm)).1 hagree
    have ha : (pick ordinals p).length = ordinals.length := by simp [pick]
    refine ⟨pick ordinals p, b, b', c, ha, hc, ?_, ?_⟩
    · exact (h.entry_iff _ (b :: c) .zero ha (by simp [hc]) (by decide)).2 ⟨p, hp, rfl, hzero⟩
    · exact (h.entry_iff _ (b' :: c) .one ha (by simp [hc]) (by decide)).2 ⟨p', hp', hpick.symm, hone⟩
  · intro hex
    obtain ⟨a, b, b', c, ha, hc, hzero, hone⟩ := hex
    obtain ⟨p, hp, hpick, hzero⟩ := (h.entry_iff a (b :: c) .zero ha (by simp [hc]) (by decide)).1 hzero
    obtain ⟨p', hp', hpick', hone⟩ := (h.entry_iff a (b' :: c) .one ha (by simp [hc]) (by decide)).1 hone
    have hagree := (agree_iff b b' h.lt_visited hp hp' (Eq.refl c.length)).2
      ⟨hpick.trans hpick'.symm, rfl⟩
    rw [hc, ← hlen] at hagree
    exact ⟨_, _, by simp; omega, by simp; omega, hagree, hzero, hone⟩

/-- **The test on the table so far is the greedy test on the original one.** -/
theorem Spelled.independentOf_iff
    (h : Spelled vars (fun bits => entry (rowOf bits)) visited ordinals kept f reduced (v :: rest)) :
    IndependentOf (kept.length + rest.length + 1) kept.length f ↔
      ¬ Clash vars.length entry fun k => k ∈ ordinals ∨ visited.length < k := by
  rw [iff_not_comm, not_independentOf_iff, h.clash_iff, h.length_kept]
  refine ⟨?_, ?_⟩
  · intro hex
    obtain ⟨a, b, b', c, ha, hc, hzero, hone⟩ := hex
    refine ⟨a, c, ha, by omega, Value.compatible_eq_false_iff.2 ?_⟩
    -- Two entries with one digit at the variable are the same entry.
    have hne : b ≠ b' := by
      rintro rfl
      rw [hzero] at hone
      cases hone
    cases b with
    | false =>
      obtain rfl : b' = true := by simpa using hne
      exact .inl ⟨hzero, hone⟩
    | true =>
      obtain rfl : b' = false := by simpa using hne
      exact .inr ⟨hone, hzero⟩
  · intro hex
    obtain ⟨a, c, ha, hac, hconflict⟩ := hex
    have hc : c.length = rest.length := by omega
    rcases Value.compatible_eq_false_iff.1 hconflict with ⟨hzero, hone⟩ | ⟨hone, hzero⟩
    · exact ⟨a, false, true, c, ha, hc, hzero, hone⟩
    · exact ⟨a, true, false, c, ha, hc, hzero, hone⟩

/-- The variables kept so far are the greedy choice among those visited, and
the table so far spells the original entries at them. -/
def Greedily (vars : List Variable) (entry : Nat → Value) (visited kept : List Variable)
    (f : List Bool → Value) (reduced : Bool) (rest : List Variable) : Prop :=
  Spelled vars (fun bits => entry (rowOf bits)) visited (greedy vars.length entry visited.length) kept f
    reduced rest

theorem Greedily.drop (h : Greedily vars entry visited kept f reduced (v :: rest))
    (hf : IndependentOf (kept.length + rest.length + 1) kept.length f) :
    Greedily vars entry (visited ++ [v]) kept (forget kept.length f) true rest := by
  have hdrop := greedy_drop (Spelled.independentOf_iff h |>.1 hf)
  rw [Greedily, List.length_append, List.length_singleton, hdrop]
  exact Spelled.drop h hf

theorem Greedily.keep (h : Greedily vars entry visited kept f reduced (v :: rest))
    (hf : ¬ IndependentOf (kept.length + rest.length + 1) kept.length f) :
    Greedily vars entry (visited ++ [v]) (kept ++ [v]) f reduced rest := by
  have hkeep := greedy_keep (not_not.1 (mt (Spelled.independentOf_iff h).2 hf))
  rw [Greedily, List.length_append, List.length_singleton, hkeep]
  exact Spelled.keep h

theorem exists_sweep_eq_greedily {table : Table}
    (h : table.column.Tabulates vars.length fun bits => entry (rowOf bits)) :
    ∃ reduced r g, sweep ⟨vars, table⟩ = .ok (reduced, r) ∧ r.table.column.Tabulates r.vars.length g ∧
      Greedily vars entry vars r.vars g reduced [] := by
  obtain ⟨reduced, r, g, hr, htab, visited, hgreedily⟩ :=
    sweepFrom_eq_ok
      (P := fun kept f reduced rest => ∃ visited, Greedily vars entry visited kept f reduced rest)
      (fun ⟨_, hP⟩ hf => ⟨_, hP.drop hf⟩) (fun ⟨_, hP⟩ hf => ⟨_, hP.keep hf⟩)
      vars [] table false (by simpa using h) ⟨[], Spelled.start⟩
  obtain rfl : visited = vars := by simpa using hgreedily.vars_eq.symm
  exact ⟨reduced, r, g, hr, htab, hgreedily⟩

theorem exists_sweep_greedy {c : Column} (hsize : c.size = 2 ^ vars.length)
    (hget : ∀ row < 2 ^ vars.length, c.get row = .ok (entry row)) :
    ∃ start reduced r g, ofColumn vars c = .ok start ∧ start.sweep = .ok (reduced, r) ∧
      r.table.column.Tabulates (greedy vars.length entry vars.length).length g ∧
      Greedily vars entry vars r.vars g reduced [] := by
  obtain ⟨table, hstart, htable⟩ := ofColumn_eq_ok (.of_get hsize hget)
  obtain ⟨reduced, r, g, hr, htab, hgreedily⟩ := exists_sweep_eq_greedily htable
  rw [hgreedily.length_kept] at htab
  exact ⟨_, reduced, r, g, hstart, hr, htab, hgreedily⟩

/-- **A sweep keeps the greedy choice.** The variables left are those at the
ordinals chosen from the original rows, in their original order. -/
theorem sweep_keeps_greedy {vars : List Variable} {c : Column} {entry : Nat → Value}
    (hsize : c.size = 2 ^ vars.length) (hget : ∀ row < 2 ^ vars.length, c.get row = .ok (entry row)) :
    ∃ start reduced r, ofColumn vars c = .ok start ∧ start.sweep = .ok (reduced, r) ∧
      (greedy vars.length entry vars.length).Pairwise (· < ·) ∧
      r.vars.map some = (greedy vars.length entry vars.length).map (vars[·]?) := by
  obtain ⟨start, reduced, r, g, hstart, hr, -, hgreedily⟩ := exists_sweep_greedy hsize hget
  exact ⟨start, reduced, r, hstart, hr, hgreedily.ascending, hgreedily.kept_eq⟩

/-- Two variables, the entries 0, x, x, 1: either would do alone, and the one
visited first goes. -/
theorem sweep_keeps_greedy_of_two :
    (Column.ofArray #[.zero, .dontCare, .dontCare, .one]).size = 2 ^ 2 ∧
      ∃ start reduced r,
        ofColumn [⟨"A", by decide⟩, ⟨"B", by decide⟩] (.ofArray #[.zero, .dontCare, .dontCare, .one]) = .ok start ∧
        start.sweep = .ok (reduced, r) ∧
        (greedy 2 (fun row => #[.zero, .dontCare, .dontCare, .one].getD row .dontCare) 2).Pairwise (· < ·) ∧
        r.vars.map some = (greedy 2 (fun row => #[.zero, .dontCare, .dontCare, .one].getD row .dontCare) 2).map
          ([⟨"A", by decide⟩, ⟨"B", by decide⟩][·]?) :=
  ⟨rfl, sweep_keeps_greedy rfl (by decide)⟩

example : greedy 2 (fun row => #[.zero, .dontCare, .dontCare, .one].getD row .dontCare) 2 = [1] := by
  decide

end Reduction

/-! ## Functions of some of the variables -/

/-- Some function of the digits at the given ordinals has every entry that
matters. -/
def Realised (vars : Nat) (entry : Nat → Value) (ordinals : List Nat) : Prop :=
  ∃ g : List Bool → Bool, ∀ row < 2 ^ vars, entry row ≠ .dontCare →
    entry row = .ofBool (g (ordinals.map (digit vars row)))

/-- Whether a row that has the given digits at the given ordinals is true. -/
def anyTrue (vars : Nat) (entry : Nat → Value) (ordinals : List Nat) (bits : List Bool) : Bool :=
  decide (∃ row, row < 2 ^ vars ∧ ordinals.map (digit vars row) = bits ∧ entry row = .one)

/-- **Rows that clash are all that stands in the way of a function.** -/
theorem realised_iff {ordinals : List Nat} (hlt : ∀ k ∈ ordinals, k < vars) :
    Realised vars entry ordinals ↔ ¬ Clash vars entry (· ∈ ordinals) := by
  refine ⟨?_, ?_⟩
  · rintro ⟨g, hg⟩ ⟨row, hrow, row', hrow', hagree, hzero, hone⟩
    have hsame : ordinals.map (digit vars row) = ordinals.map (digit vars row') :=
      List.map_congr_left fun k hk => hagree k (hlt k hk) hk
    have h0 := hg row hrow (by simp [hzero])
    have h1 := hg row' hrow' (by simp [hone])
    rw [hsame, ← h1, hzero, hone] at h0
    cases h0
  · intro hclash
    refine ⟨anyTrue vars entry ordinals, fun row hrow hcare => ?_⟩
    cases hentry : entry row with
    | dontCare => exact absurd hentry hcare
    | one =>
      have htrue : anyTrue vars entry ordinals (ordinals.map (digit vars row)) = true :=
        decide_eq_true ⟨row, hrow, rfl, hentry⟩
      rw [htrue, Value.ofBool]
    | zero =>
      have hfalse : anyTrue vars entry ordinals (ordinals.map (digit vars row)) = false := by
        refine decide_eq_false ?_
        rintro ⟨row', hrow', hsame, hone⟩
        exact hclash ⟨row, hrow, row', hrow', fun k _ hk => (List.map_inj_left.1 hsame k hk).symm, hentry, hone⟩
      rw [hfalse, Value.ofBool]

namespace Reduction

/-- **What a sweep keeps is irredundant.** A function of the kept variables has
the entries of the original table, and no function of only some of them has:
there are two original rows that agree at those and clash. -/
theorem sweep_irredundant {vars : List Variable} {c : Column} {entry : Nat → Value}
    (hsize : c.size = 2 ^ vars.length) (hget : ∀ row < 2 ^ vars.length, c.get row = .ok (entry row)) :
    ∃ start reduced r ordinals, ofColumn vars c = .ok start ∧ start.sweep = .ok (reduced, r) ∧
      ordinals.Pairwise (· < ·) ∧ r.vars.map some = ordinals.map (vars[·]?) ∧
      Realised vars.length entry ordinals ∧
      ∀ sub : List Nat, sub ⊆ ordinals → ¬ ordinals ⊆ sub →
        Clash vars.length entry (· ∈ sub) ∧ ¬ Realised vars.length entry sub := by
  obtain ⟨start, reduced, r, g, hstart, hr, -, hgreedily⟩ := exists_sweep_greedy hsize hget
  refine ⟨start, reduced, r, _, hstart, hr, hgreedily.ascending, hgreedily.kept_eq,
    (realised_iff hgreedily.lt_visited).2 (not_clash_greedy _ _), fun sub hsub hproper => ?_⟩
  obtain ⟨k, hk, hnot⟩ : ∃ k ∈ greedy vars.length entry vars.length, k ∉ sub := by
    simpa [List.subset_def] using hproper
  have hclash : Clash vars.length entry (· ∈ sub) := clash_of_subset_greedy (fun _ hj => hsub hj) hk hnot
  have hlt : ∀ k ∈ sub, k < vars.length := fun k hk => hgreedily.lt_visited k (hsub hk)
  exact ⟨hclash, fun hreal => (realised_iff hlt).1 hreal hclash⟩

/-- Three variables, the entries 0, x, x, 1, 1, x, x, 0: the second goes, and
the exclusive disjunction of the others is left, which neither gives alone. -/
theorem sweep_irredundant_of_three :
    (Column.ofArray #[.zero, .dontCare, .dontCare, .one, .one, .dontCare, .dontCare, .zero]).size = 2 ^ 3 ∧
      ∃ start reduced r ordinals,
        ofColumn [⟨"A", by decide⟩, ⟨"B", by decide⟩, ⟨"C", by decide⟩]
          (.ofArray #[.zero, .dontCare, .dontCare, .one, .one, .dontCare, .dontCare, .zero]) = .ok start ∧
        start.sweep = .ok (reduced, r) ∧ ordinals.Pairwise (· < ·) ∧
        r.vars.map some = ordinals.map ([⟨"A", by decide⟩, ⟨"B", by decide⟩, ⟨"C", by decide⟩][·]?) ∧
        Realised 3 (fun row =>
          #[.zero, .dontCare, .dontCare, .one, .one, .dontCare, .dontCare, .zero].getD row .dontCare) ordinals ∧
        ∀ sub : List Nat, sub ⊆ ordinals → ¬ ordinals ⊆ sub →
          Clash 3 (fun row =>
            #[.zero, .dontCare, .dontCare, .one, .one, .dontCare, .dontCare, .zero].getD row .dontCare) (· ∈ sub) ∧
          ¬ Realised 3 (fun row =>
            #[.zero, .dontCare, .dontCare, .one, .one, .dontCare, .dontCare, .zero].getD row .dontCare) sub :=
  ⟨rfl, sweep_irredundant rfl (by decide)⟩

end Reduction

end Schematic
