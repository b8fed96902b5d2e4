/-
The sweep on the original table. Every row of the reduced table stands for a
fiber of original rows, those whose digits at the kept ordinals spell it. The
rows of a fiber never ask for different values, and the reduced entry is what
any of them asks for.

Agreement with entries that do not matter is not transitive, so the pairs that
a single step compares say nothing about a fiber by themselves. What carries
the induction is `Spelled`: of the table so far, an entry is false or true
exactly when an original one in its fiber is.
-/
import Schematic.Proofs.Sweep

namespace Schematic

/-- The digits of an assignment at some of its ordinals. -/
def pick (ordinals : List Nat) (bits : List Bool) : List Bool :=
  ordinals.map fun k => bits.getD k false

theorem pick_append {ordinals : List Nat} {a : List Bool} (h : ∀ k ∈ ordinals, k < a.length)
    (c : List Bool) : pick ordinals (a ++ c) = pick ordinals a :=
  List.map_congr_left fun k hk => by
    rw [List.getD_eq_getElem?_getD, List.getD_eq_getElem?_getD, List.getElem?_append_left (h k hk)]

theorem pick_concat {ordinals : List Nat} {a : List Bool} (h : ∀ k ∈ ordinals, k < a.length) (b : Bool) :
    pick (ordinals ++ [a.length]) (a ++ [b]) = pick ordinals a ++ [b] := by
  have hab := pick_append h [b]
  simp only [pick, List.map_append] at hab ⊢
  rw [hab]
  simp

theorem exists_concat_iff {j : Nat} {Q : List Bool → Prop} :
    (∃ p : List Bool, p.length = j + 1 ∧ Q p) ↔
      ∃ (p : List Bool) (b : Bool), p.length = j ∧ Q (p ++ [b]) := by
  refine ⟨?_, ?_⟩
  · intro h
    obtain ⟨p, hp, hQ⟩ := h
    have hne : p ≠ [] := by rintro rfl; simp at hp
    refine ⟨p.dropLast, p.getLast hne, by simp [hp], ?_⟩
    rwa [List.dropLast_concat_getLast]
  · intro h
    obtain ⟨p, b, hp, hQ⟩ := h
    exact ⟨p ++ [b], by simp [hp], hQ⟩

namespace Reduction

/-- What holds of a sweep over `vars` that has `visited` variables behind it and
kept those with the given ordinals. An entry so far is false or true exactly
when one in its fiber of the original entries `f₀` is. -/
structure Spelled (vars : List Variable) (f₀ : List Bool → Value) (visited : List Variable)
    (ordinals : List Nat) (kept : List Variable) (f : List Bool → Value) (reduced : Bool)
    (rest : List Variable) : Prop where
  vars_eq : vars = visited ++ rest
  ascending : ordinals.Pairwise (· < ·)
  lt_visited : ∀ k ∈ ordinals, k < visited.length
  kept_eq : kept.map some = ordinals.map (vars[·]?)
  reduced_iff : reduced = true ↔ ordinals.length < visited.length
  entry_iff : ∀ a c w, a.length = ordinals.length → c.length = rest.length → w ≠ Value.dontCare →
    (f (a ++ c) = w ↔ ∃ p : List Bool, p.length = visited.length ∧ pick ordinals p = a ∧ f₀ (p ++ c) = w)

namespace Spelled

variable {vars visited kept rest : List Variable} {f₀ f : List Bool → Value} {ordinals : List Nat}
  {reduced : Bool} {v : Variable}

theorem length_kept (h : Spelled vars f₀ visited ordinals kept f reduced rest) :
    kept.length = ordinals.length := by
  have := congrArg List.length h.kept_eq
  simpa using this

/-- Before the first step every entry is its own fiber. -/
theorem start : Spelled vars f₀ [] [] [] f₀ false vars where
  vars_eq := rfl
  ascending := List.Pairwise.nil
  lt_visited := by simp
  kept_eq := rfl
  reduced_iff := by simp
  entry_iff a c w ha _ _ := by
    obtain rfl := List.eq_nil_of_length_eq_zero ha
    refine ⟨?_, ?_⟩
    · exact fun h => ⟨[], rfl, rfl, h⟩
    · intro hex
      obtain ⟨p, hp, -, h⟩ := hex
      obtain rfl := List.eq_nil_of_length_eq_zero hp
      exact h

/-- Forgetting a variable joins the two fibers of every pair. -/
theorem drop (h : Spelled vars f₀ visited ordinals kept f reduced (v :: rest))
    (hf : IndependentOf (kept.length + rest.length + 1) kept.length f) :
    Spelled vars f₀ (visited ++ [v]) ordinals kept (forget kept.length f) true rest where
  vars_eq := by rw [h.vars_eq, List.append_assoc, List.singleton_append]
  ascending := h.ascending
  lt_visited k hk := by
    have := h.lt_visited k hk
    rw [List.length_append]
    omega
  kept_eq := h.kept_eq
  reduced_iff := by
    have hnodup : ordinals.Nodup := h.ascending.imp fun hlt => Nat.ne_of_lt hlt
    have hsub : ordinals ⊆ List.range visited.length := fun k hk => List.mem_range.2 (h.lt_visited k hk)
    have hle := hnodup.length_le_of_subset hsub
    rw [List.length_range] at hle
    simp only [List.length_append, List.length_singleton, true_iff]
    omega
  entry_iff a c w ha hc hw := by
    have hka : a.length = kept.length := by rw [ha, h.length_kept]
    have hpair := hf a c hka (by omega)
    have hclear := h.entry_iff a (false :: c) w ha (by simp [hc]) hw
    have hset := h.entry_iff a (true :: c) w ha (by simp [hc]) hw
    rw [forget_append hka, Value.merge_eq_iff hpair hw, hclear, hset, List.length_append,
      List.length_singleton, exists_concat_iff]
    refine ⟨?_, ?_⟩
    · rintro (⟨p, hp, hpick, hval⟩ | ⟨p, hp, hpick, hval⟩)
      · refine ⟨p, false, hp, ?_, by simpa using hval⟩
        rwa [pick_append (hp ▸ h.lt_visited)]
      · refine ⟨p, true, hp, ?_, by simpa using hval⟩
        rwa [pick_append (hp ▸ h.lt_visited)]
    · intro hex
      obtain ⟨p, b, hp, hpick, hval⟩ := hex
      rw [pick_append (hp ▸ h.lt_visited)] at hpick
      rw [List.append_assoc, List.singleton_append] at hval
      cases b with
      | false => exact .inl ⟨p, hp, hpick, hval⟩
      | true => exact .inr ⟨p, hp, hpick, hval⟩

/-- Keeping a variable makes its ordinal spell one more digit. -/
theorem keep (h : Spelled vars f₀ visited ordinals kept f reduced (v :: rest)) :
    Spelled vars f₀ (visited ++ [v]) (ordinals ++ [visited.length]) (kept ++ [v]) f reduced rest where
  vars_eq := by rw [h.vars_eq, List.append_assoc, List.singleton_append]
  ascending := by
    rw [List.pairwise_append]
    refine ⟨h.ascending, List.pairwise_singleton _ _, fun k hk j hj => ?_⟩
    rw [List.mem_singleton.1 hj]
    exact h.lt_visited k hk
  lt_visited k hk := by
    rw [List.length_append, List.length_singleton]
    rcases List.mem_append.1 hk with hk | hk
    · have := h.lt_visited k hk
      omega
    · rw [List.mem_singleton.1 hk]
      omega
  kept_eq := by
    have hv : vars[visited.length]? = some v := by rw [h.vars_eq]; simp
    rw [List.map_append, List.map_append, h.kept_eq]
    simp [hv]
  reduced_iff := by
    rw [h.reduced_iff]
    simp
  entry_iff a c w ha hc hw := by
    rw [List.length_append, List.length_singleton] at ha ⊢
    have hne : a ≠ [] := by rintro rfl; simp at ha
    obtain ⟨a, b, rfl⟩ : ∃ a' b, a = a' ++ [b] :=
      ⟨a.dropLast, a.getLast hne, (List.dropLast_concat_getLast hne).symm⟩
    have hbefore := h.entry_iff a (b :: c) w (by simpa using ha) (by simp [hc]) hw
    rw [List.append_assoc, List.singleton_append, hbefore, exists_concat_iff]
    refine ⟨?_, ?_⟩
    · intro hex
      obtain ⟨p, hp, hpick, hval⟩ := hex
      refine ⟨p, b, hp, ?_, by simpa using hval⟩
      rw [← hp, pick_concat (hp ▸ h.lt_visited), hpick]
    · intro hex
      obtain ⟨p, b', hp, hpick, hval⟩ := hex
      rw [← hp, pick_concat (hp ▸ h.lt_visited)] at hpick
      obtain ⟨hpre, hb⟩ := List.append_inj' hpick rfl
      obtain rfl : b' = b := List.head_eq_of_cons_eq hb
      exact ⟨p, hp, hpre, by simpa using hval⟩

end Spelled

theorem exists_spelled {vars : List Variable} {table : Table} {f₀ : List Bool → Value}
    (h : table.column.Tabulates vars.length f₀) :
    ∃ reduced r g ordinals, sweep ⟨vars, table⟩ = .ok (reduced, r) ∧
      r.table.column.Tabulates r.vars.length g ∧ Spelled vars f₀ vars ordinals r.vars g reduced [] := by
  obtain ⟨reduced, r, g, hr, htab, visited, ordinals, hspelled⟩ :=
    sweepFrom_eq_ok (P := fun kept f reduced rest =>
        ∃ visited ordinals, Spelled vars f₀ visited ordinals kept f reduced rest)
      (fun ⟨visited, ordinals, hP⟩ hf => ⟨_, ordinals, hP.drop hf⟩)
      (fun ⟨visited, ordinals, hP⟩ _ => ⟨_, _, hP.keep⟩)
      vars [] table false (by simpa using h) ⟨[], [], Spelled.start⟩
  obtain rfl : visited = vars := by simpa using hspelled.vars_eq.symm
  exact ⟨reduced, r, g, ordinals, hr, htab, hspelled⟩

end Reduction

/-! ## Fibers of rows -/

/-- An original row lies in the fiber of a reduced row if its digits at the
kept ordinals are, in order, the digits of the reduced row. -/
def InFiber (vars : Nat) (ordinals : List Nat) (reduced row : Nat) : Prop :=
  row < 2 ^ vars ∧ ordinals.map (digit vars row) = digits ordinals.length reduced

theorem pick_digits {vars row : Nat} {ordinals : List Nat} (h : ∀ k ∈ ordinals, k < vars) :
    pick ordinals (digits vars row) = ordinals.map (digit vars row) :=
  List.map_congr_left fun k hk => by
    simp [digits, List.getElem?_range (h k hk)]

namespace Reduction

/-- The entry of a reduced row is false or true exactly when one in its fiber
is. -/
theorem Spelled.digits_iff {vars kept : List Variable} {entry : Nat → Value} {ordinals : List Nat}
    {g : List Bool → Value} {reduced : Bool} {q : Nat} {w : Value}
    (h : Spelled vars (fun bits => entry (rowOf bits)) vars ordinals kept g reduced [])
    (hw : w ≠ .dontCare) :
    g (digits ordinals.length q) = w ↔ ∃ row, InFiber vars.length ordinals q row ∧ entry row = w := by
  have hiff := h.entry_iff (digits ordinals.length q) [] w (by simp) rfl hw
  rw [List.append_nil] at hiff
  rw [hiff]
  refine ⟨?_, ?_⟩
  · intro hex
    obtain ⟨p, hp, hpick, hval⟩ := hex
    refine ⟨rowOf p, ⟨hp ▸ rowOf_lt p, ?_⟩, by simpa using hval⟩
    rw [← pick_digits h.lt_visited, ← hp, digits_rowOf, hpick]
  · intro hex
    obtain ⟨row, ⟨hrow, hdigits⟩, hval⟩ := hex
    refine ⟨digits vars.length row, by simp, ?_, ?_⟩
    · rw [pick_digits h.lt_visited, hdigits]
    · rwa [List.append_nil, rowOf_digits hrow]

/-- What a sweep over `vars` makes of a table with the given entries: the kept
variables are those at `ordinals`, and each fiber has become one row. -/
structure Exact (vars : List Variable) (entry : Nat → Value) (ordinals : List Nat) (reduced : Bool)
    (r : Reduction) : Prop where
  ascending : ordinals.Pairwise (· < ·)
  lt_length : ∀ k ∈ ordinals, k < vars.length
  vars_eq : r.vars.map some = ordinals.map (vars[·]?)
  size_eq : r.table.size = 2 ^ ordinals.length
  reduced_iff : reduced = true ↔ ordinals.length < vars.length
  /-- No fiber holds both a false and a true entry. -/
  consistent : ∀ q < 2 ^ ordinals.length, ∀ row row', InFiber vars.length ordinals q row →
    InFiber vars.length ordinals q row' → ¬ (entry row = .zero ∧ entry row' = .one)
  /-- A reduced entry is false, or true, exactly when one in its fiber is, and
  does not matter exactly when none of them does. -/
  entries : ∀ q < 2 ^ ordinals.length, ∃ v, r.table.get q = .ok v ∧
    (v = .zero ↔ ∃ row, InFiber vars.length ordinals q row ∧ entry row = .zero) ∧
    (v = .one ↔ ∃ row, InFiber vars.length ordinals q row ∧ entry row = .one) ∧
    (v = .dontCare ↔ ∀ row, InFiber vars.length ordinals q row → entry row = .dontCare)

/-- **Reduction is exact on the entries that matter.** -/
theorem sweep_exact_on_fibers {vars : List Variable} {c : Column} {entry : Nat → Value}
    (hsize : c.size = 2 ^ vars.length) (hget : ∀ row < 2 ^ vars.length, c.get row = .ok (entry row)) :
    ∃ start reduced r ordinals, ofColumn vars c = .ok start ∧ start.sweep = .ok (reduced, r) ∧
      Exact vars entry ordinals reduced r := by
  obtain ⟨table, hstart, htable⟩ := ofColumn_eq_ok (.of_get hsize hget)
  obtain ⟨reduced, r, g, ordinals, hr, htab, hspelled⟩ := exists_spelled htable
  rw [hspelled.length_kept] at htab
  have hzero := fun q => hspelled.digits_iff (q := q) (w := .zero) (by decide)
  have hone := fun q => hspelled.digits_iff (q := q) (w := .one) (by decide)
  refine ⟨_, reduced, r, ordinals, hstart, hr, hspelled.ascending, hspelled.lt_visited,
    hspelled.kept_eq, htab.size_eq, hspelled.reduced_iff, ?_, fun q hq =>
    ⟨g (digits ordinals.length q), htab.get_digits hq, hzero q, hone q, ?_⟩⟩
  · rintro q - row row' hrow hrow' ⟨h0, h1⟩
    have h0 := (hzero q).2 ⟨row, hrow, h0⟩
    rw [(hone q).2 ⟨row', hrow', h1⟩] at h0
    cases h0
  · refine ⟨?_, ?_⟩
    · intro hx row hrow
      cases hentry : entry row with
      | zero => rw [(hzero q).2 ⟨row, hrow, hentry⟩] at hx; cases hx
      | one => rw [(hone q).2 ⟨row, hrow, hentry⟩] at hx; cases hx
      | dontCare => rfl
    · intro hall
      cases hg : g (digits ordinals.length q) with
      | zero =>
        obtain ⟨row, hrow, hentry⟩ := (hzero q).1 hg
        rw [hall row hrow] at hentry
        cases hentry
      | one =>
        obtain ⟨row, hrow, hentry⟩ := (hone q).1 hg
        rw [hall row hrow] at hentry
        cases hentry
      | dontCare => rfl

/-- Two variables, the entries x, 0, 1, 0: the first variable goes, although
its first pair holds an entry that does not matter. -/
theorem sweep_exact_on_fibers_of_two :
    (Column.ofArray #[.dontCare, .zero, .one, .zero]).size = 2 ^ 2 ∧
      ∃ start reduced r ordinals,
        ofColumn [⟨"A", by decide⟩, ⟨"B", by decide⟩] (.ofArray #[.dontCare, .zero, .one, .zero]) = .ok start ∧
        start.sweep = .ok (reduced, r) ∧
        Exact [⟨"A", by decide⟩, ⟨"B", by decide⟩] (fun row => #[.dontCare, .zero, .one, .zero].getD row .dontCare)
          ordinals reduced r :=
  ⟨rfl, sweep_exact_on_fibers rfl (by decide)⟩

end Reduction

end Schematic
