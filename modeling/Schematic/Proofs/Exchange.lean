/-
Two removals in either order. Of two variables, the entries of the assignments
that differ in them alone make a square. The two can be removed one after the
other if and only if all four entries of every square agree, whichever of them
goes first (`removable_iff`, `removable_later_first_iff`), and then the entry
that is left is the same (`forget_forget`).

That each of the two can be removed alone is not enough: entries that do not
matter let all sides of a square agree when its corners do not. So the variable
that goes second is tested on the table that the first removal leaves. It can
matter there when it did not before, but never the other way round: a variable
that can go after another can go before it (`removable_comm`). Where every entry
matters the test answers the same before and after (`removable_of_cares`).
-/
import Schematic.Proofs.Removal

namespace Schematic

/-! ## Squares of entries -/

/-- Whether all four entries of a square agree. -/
def Agree (g : Bool → Bool → Value) : Prop :=
  ∀ b d b' d', (g b d).compatible (g b' d') = true

variable {g : Bool → Bool → Value}

theorem agree_flip : Agree (fun b d => g d b) ↔ Agree g :=
  ⟨fun h b d b' d' => h d b d' b', fun h b d b' d' => h d b d' b'⟩

/-- A square agrees if two opposite sides do, and the entries that they are
merged into. -/
theorem agree_iff_sides :
    Agree g ↔ (∀ d, (g false d).compatible (g true d) = true) ∧
      ((g false false).merge (g true false)).compatible ((g false true).merge (g true true)) = true := by
  constructor
  · intro h
    have hside : ∀ d, (g false d).compatible (g true d) = true := fun d => h false d true d
    refine ⟨hside, (Value.merge_compatible_merge_iff (hside false) (hside true)).2 ?_⟩
    exact ⟨⟨h _ _ _ _, h _ _ _ _⟩, h _ _ _ _, h _ _ _ _⟩
  · intro h b d b' d'
    obtain ⟨hside, hmerged⟩ := h
    have hleft := hside false
    have hright := hside true
    obtain ⟨⟨htop, hfalling⟩, hrising, hbottom⟩ := (Value.merge_compatible_merge_iff hleft hright).1 hmerged
    -- one corner twice, or two corners: a side or a diagonal, read in either direction
    cases b <;> cases d <;> cases b' <;> cases d' <;>
      first | exact Value.compatible_refl _ | assumption | (rw [Value.compatible_comm]; assumption)

theorem agree_of_cares (hcares : ∀ b d, g b d ≠ .dontCare)
    (hfirst : ∀ d, (g false d).compatible (g true d) = true)
    (hsecond : ∀ b, (g b false).compatible (g b true) = true) : Agree g := by
  have hleft : ∀ d, g true d = g false d := fun d =>
    ((Value.compatible_iff_eq (hcares _ _) (hcares _ _)).1 (hfirst d)).symm
  have htop : g false true = g false false :=
    ((Value.compatible_iff_eq (hcares _ _) (hcares _ _)).1 (hsecond false)).symm
  have hcorner : ∀ b d, g b d = g false false := by
    intro b d
    cases b <;> cases d <;> simp only [hleft, htop]
  intro b d b' d'
  rw [hcorner b d, hcorner b' d']
  exact Value.compatible_refl _

theorem Agree.merge_eq (h : Agree g) :
    ((g false false).merge (g true false)).merge ((g false true).merge (g true true)) =
      ((g false false).merge (g false true)).merge ((g true false).merge (g true true)) := by
  rw [Value.merge_assoc, ← Value.merge_assoc (g true false), Value.merge_comm (h true false false true),
    Value.merge_assoc, ← Value.merge_assoc]

/-! ## Two variables of a function -/

variable {f : List Bool → Value} {u k m : Nat}

/-- The entries of the assignments that differ in two variables alone: `a` comes
before the first, `c` between the two, and `e` after the second. -/
def square (f : List Bool → Value) (a c e : List Bool) (b d : Bool) : Value :=
  f (a ++ b :: (c ++ d :: e))

/-- Whether the squares agree that the variable with ordinal `u` makes with the
one `k` further on, which has `m` behind it. -/
def SquaresAgree (u k m : Nat) (f : List Bool → Value) : Prop :=
  ∀ a c e : List Bool, a.length = u → c.length = k → e.length = m → Agree (square f a c e)

theorem forget_first {a : List Bool} (ha : a.length = u) (c e : List Bool) (d : Bool) :
    forget u f (a ++ (c ++ d :: e)) = (square f a c e false d).merge (square f a c e true d) :=
  forget_append ha _

theorem forget_second {a c : List Bool} (ha : a.length = u) (hc : c.length = k) (e : List Bool) (b : Bool) :
    forget (u + k + 1) f (a ++ b :: (c ++ e)) = (square f a c e b false).merge (square f a c e b true) := by
  have hlen : (a ++ b :: c).length = u + k + 1 := by
    rw [List.length_append, List.length_cons]
    omega
  have := forget_append (f := f) hlen e
  simpa only [square, List.append_assoc, List.cons_append] using this

theorem independentOf_first_iff :
    IndependentOf (u + k + m + 2) u f ↔ ∀ a c e : List Bool, a.length = u → c.length = k → e.length = m →
      ∀ d, (square f a c e false d).compatible (square f a c e true d) = true := by
  constructor
  · intro h a c e ha hc he d
    exact h a (c ++ d :: e) ha (by rw [List.length_append, List.length_cons]; omega)
  · intro h a q ha hq
    obtain ⟨c, d, e, hc, he, rfl⟩ := exists_eq_append_cons (show q.length = k + 1 + m by omega)
    exact h a c e ha hc he d

theorem independentOf_second_iff :
    IndependentOf (u + k + m + 2) (u + k + 1) f ↔ ∀ a c e : List Bool, a.length = u → c.length = k →
      e.length = m → ∀ b, (square f a c e b false).compatible (square f a c e b true) = true := by
  constructor
  · intro h a c e ha hc he b
    have := h (a ++ b :: c) e (by rw [List.length_append, List.length_cons]; omega)
      (by rw [List.length_append, List.length_cons]; omega)
    simpa only [square, List.append_assoc, List.cons_append] using this
  · intro h p e hp he
    obtain ⟨a, b, c, ha, hc, rfl⟩ := exists_eq_append_cons (show p.length = u + 1 + k by omega)
    have := h a c e ha hc (by omega) b
    simpa only [square, List.append_assoc, List.cons_append] using this

/-- **The first variable can be removed and then the second** if and only if the
squares agree. -/
theorem removable_iff :
    IndependentOf (u + k + m + 2) u f ∧ IndependentOf (u + k + m + 1) (u + k) (forget u f) ↔
      SquaresAgree u k m f := by
  rw [independentOf_first_iff]
  constructor
  · intro h a c e ha hc he
    obtain ⟨hfirst, hsecond⟩ := h
    have := hsecond (a ++ c) e (by rw [List.length_append]; omega) (by rw [List.length_append]; omega)
    rw [List.append_assoc, List.append_assoc, forget_first ha, forget_first ha] at this
    exact agree_iff_sides.2 ⟨hfirst a c e ha hc he, this⟩
  · intro h
    refine ⟨fun a c e ha hc he => (agree_iff_sides.1 (h a c e ha hc he)).1, fun p e hp he => ?_⟩
    obtain ⟨a, c, ha, hc, rfl⟩ := exists_eq_append hp
    rw [List.append_assoc, List.append_assoc, forget_first ha, forget_first ha]
    exact (agree_iff_sides.1 (h a c e ha hc (by omega))).2

/-- **The second variable can be removed and then the first** if and only if the
squares agree. -/
theorem removable_later_first_iff :
    IndependentOf (u + k + m + 2) (u + k + 1) f ∧ IndependentOf (u + k + m + 1) u (forget (u + k + 1) f) ↔
      SquaresAgree u k m f := by
  rw [independentOf_second_iff]
  constructor
  · intro h a c e ha hc he
    obtain ⟨hsecond, hfirst⟩ := h
    have := hfirst a (c ++ e) ha (by rw [List.length_append]; omega)
    rw [forget_second ha hc, forget_second ha hc] at this
    exact agree_flip.1 (agree_iff_sides.2 ⟨hsecond a c e ha hc he, this⟩)
  · intro h
    refine ⟨fun a c e ha hc he => (agree_iff_sides.1 (agree_flip.2 (h a c e ha hc he))).1, fun a q ha hq => ?_⟩
    obtain ⟨c, e, hc, he, rfl⟩ := exists_eq_append (show q.length = k + m by omega)
    rw [forget_second ha hc, forget_second ha hc]
    exact (agree_iff_sides.1 (agree_flip.2 (h a c e ha hc he))).2

theorem forget_forget (h : SquaresAgree u k m f) {bits : List Bool} (hbits : bits.length = u + k + m) :
    forget (u + k) (forget u f) bits = forget u (forget (u + k + 1) f) bits := by
  obtain ⟨a, q, ha, hq, rfl⟩ := exists_eq_append (show bits.length = u + (k + m) by omega)
  obtain ⟨c, e, hc, he, rfl⟩ := exists_eq_append hq
  rw [forget_append ha, forget_second ha hc, forget_second ha hc, ← List.append_assoc,
    forget_append (show (a ++ c).length = u + k by rw [List.length_append]; omega), List.append_assoc,
    List.append_assoc, forget_first ha, forget_first ha]
  exact (h a c e ha hc he).merge_eq

/-! ## One variable after another -/

/-- The ordinal that the variable `u` has when the variable `v` is gone: those
behind `v` have moved down by one. -/
def ordinalAfter (v u : Nat) : Nat :=
  if u < v then u else u - 1

/-- Whether, of `n` variables, `v` can be removed and then `u`, told by the
ordinals that both have before. -/
def Removable (n v u : Nat) (f : List Bool → Value) : Prop :=
  IndependentOf n v f ∧ IndependentOf (n - 1) (ordinalAfter v u) (forget v f)

theorem removable_iff_squaresAgree : Removable (u + k + m + 2) u (u + k + 1) f ↔ SquaresAgree u k m f := by
  unfold Removable ordinalAfter
  rw [if_neg (by omega)]
  exact removable_iff

theorem removable_iff_squaresAgree_later : Removable (u + k + m + 2) (u + k + 1) u f ↔ SquaresAgree u k m f := by
  unfold Removable ordinalAfter
  rw [if_pos (by omega)]
  exact removable_later_first_iff

theorem exists_between {n u v : Nat} (huv : u < v) (hv : v < n) :
    ∃ k m, v = u + k + 1 ∧ n = u + k + m + 2 :=
  ⟨v - u - 1, n - v - 1, by omega, by omega⟩

section

variable {n v : Nat}

/-- **If one variable can be removed after another, then also before it**, and
the other after it. -/
theorem removable_comm (hu : u < n) (hv : v < n) (huv : u ≠ v) : Removable n u v f ↔ Removable n v u f := by
  rcases Nat.lt_or_gt_of_ne huv with hlt | hlt
  · obtain ⟨k, m, rfl, rfl⟩ := exists_between hlt hv
    exact removable_iff_squaresAgree.trans removable_iff_squaresAgree_later.symm
  · obtain ⟨k, m, rfl, rfl⟩ := exists_between hlt hu
    exact removable_iff_squaresAgree_later.trans removable_iff_squaresAgree.symm

theorem squaresAgree_of_cares (hcares : ∀ bits : List Bool, bits.length = u + k + m + 2 → f bits ≠ .dontCare)
    (hfirst : IndependentOf (u + k + m + 2) u f) (hsecond : IndependentOf (u + k + m + 2) (u + k + 1) f) :
    SquaresAgree u k m f := by
  intro a c e ha hc he
  refine agree_of_cares (fun b d => hcares _ ?_) (independentOf_first_iff.1 hfirst a c e ha hc he)
    (independentOf_second_iff.1 hsecond a c e ha hc he)
  simp only [List.length_append, List.length_cons]
  omega

/-- **Where every entry matters, variables that can each be removed can be removed
one after the other.** -/
theorem removable_of_cares (hu : u < n) (hv : v < n) (huv : u ≠ v)
    (hcares : ∀ bits : List Bool, bits.length = n → f bits ≠ .dontCare) (hfv : IndependentOf n v f)
    (hfu : IndependentOf n u f) : Removable n v u f := by
  rcases Nat.lt_or_gt_of_ne huv with hlt | hlt
  · obtain ⟨k, m, rfl, rfl⟩ := exists_between hlt hv
    exact removable_iff_squaresAgree_later.2 (squaresAgree_of_cares hcares hfu hfv)
  · obtain ⟨k, m, rfl, rfl⟩ := exists_between hlt hu
    exact removable_iff_squaresAgree.2 (squaresAgree_of_cares hcares hfv hfu)

end

/-! ## Columns -/

namespace Column

/-- **Removals that are allowed commute.** If a variable can be removed and then
a later one, which has moved down by one ordinal, the later one can be removed
first and the other after it, and the same table is left. -/
theorem removals_commute {c : Column} {entry : Nat → Value} {n u v : Nat} {tu : Table} (hsize : c.size = 2 ^ n)
    (hget : ∀ row < 2 ^ n, c.get row = .ok (entry row)) (huv : u < v) (hvn : v < n)
    (hu : c.isIndependent u = .ok true) (htu : c.remove u = .ok tu) (hv : tu.isIndependent (v - 1) = .ok true) :
    c.isIndependent v = .ok true ∧ ∃ tv t, c.remove v = .ok tv ∧ tv.isIndependent u = .ok true ∧
      tu.remove (v - 1) = .ok t ∧ tv.remove u = .ok t := by
  obtain ⟨k, rfl⟩ := Nat.exists_eq_add_of_lt huv
  obtain ⟨m, rfl⟩ : ∃ m, n = u + k + m + 2 := ⟨n - (u + k + 2), by omega⟩
  rw [Nat.add_sub_cancel] at hv ⊢
  have hc := Tabulates.of_get hsize hget
  -- the table after either removal, and after both
  obtain ⟨tu', htu', hfirst⟩ := hc.exists_remove (k := u) (by omega)
  obtain rfl : tu' = tu := Except.ok.inj (htu'.symm.trans htu)
  obtain ⟨tv, htv, hsecond⟩ := hc.exists_remove (k := u + k + 1) (by omega)
  obtain ⟨t, ht, hboth⟩ := hfirst.exists_remove (k := u + k) (by omega)
  obtain ⟨t', ht', hboth'⟩ := hsecond.exists_remove (k := u) (by omega)
  have hsquares : SquaresAgree u k m fun bits => entry (rowOf bits) :=
    removable_iff.1 ⟨(hc.isIndependent_eq_true_iff (by omega)).1 hu,
      (hfirst.isIndependent_eq_true_iff (by omega)).1 hv⟩
  obtain ⟨hcv, htvu⟩ := removable_later_first_iff.2 hsquares
  obtain rfl : t = t' := Table.eq_of_tabulates hboth hboth' fun bits => forget_forget hsquares
  exact ⟨(hc.isIndependent_eq_true_iff (by omega)).2 hcv, tv, t, htv,
    (hsecond.isIndependent_eq_true_iff (by omega)).2 htvu, ht, ht'⟩

/-- Three variables, the entries 0, x, 1, x and x, 0, x, 1: only the second of
the variables matters. -/
def interleaved : Column :=
  .ofArray #[.zero, .dontCare, .one, .dontCare, .dontCare, .zero, .dontCare, .one]

/-- The first and the last variable can go, in either order. -/
theorem removals_commute_of_interleaved :
    interleaved.isIndependent 0 = .ok true ∧ interleaved.remove 0 = .ok ⟨#[.zero, .zero, .one, .one], ⟨2, rfl⟩⟩ ∧
      interleaved.isIndependent 2 = .ok true ∧ ∃ tv t, interleaved.remove 2 = .ok tv ∧ tv.isIndependent 0 = .ok true ∧
        Table.remove ⟨#[.zero, .zero, .one, .one], ⟨2, rfl⟩⟩ 1 = .ok t ∧ tv.remove 0 = .ok t := by
  have hget : ∀ row < 2 ^ 3, interleaved.get row = .ok
      (#[.zero, .dontCare, .one, .dontCare, .dontCare, .zero, .dontCare, .one].getD row .dontCare) := by decide
  have hu : interleaved.isIndependent 0 = .ok true := by rfl
  have htu : interleaved.remove 0 = .ok ⟨#[.zero, .zero, .one, .one], ⟨2, rfl⟩⟩ := by rfl
  have hv : Table.isIndependent ⟨#[.zero, .zero, .one, .one], ⟨2, rfl⟩⟩ 1 = .ok true := by rfl
  exact ⟨hu, htu, removals_commute rfl hget (by decide) (by decide) hu htu hv⟩

/-- **Removing a variable that does not matter frees no other.** A variable that
the column depends on, the table that is left depends on too; and if every entry
matters, one that the column does not depend on can still be removed. -/
theorem remove_frees_none {c : Column} {entry : Nat → Value} {n u v : Nat} (hsize : c.size = 2 ^ n)
    (hget : ∀ row < 2 ^ n, c.get row = .ok (entry row)) (hun : u < n) (hvn : v < n) (huv : u ≠ v)
    (hv : c.isIndependent v = .ok true) :
    ∃ t, c.remove v = .ok t ∧
      (c.isIndependent u = .ok false → t.isIndependent (ordinalAfter v u) = .ok false) ∧
      ((∀ row < 2 ^ n, entry row ≠ .dontCare) → c.isIndependent u = .ok true →
        t.isIndependent (ordinalAfter v u) = .ok true) := by
  obtain ⟨N, rfl⟩ : ∃ N, n = N + 1 := ⟨n - 1, by omega⟩
  have hc := Tabulates.of_get hsize hget
  obtain ⟨t, ht, htab⟩ := hc.exists_remove (k := v) (by omega)
  have hfv := (hc.isIndependent_eq_true_iff hvn).1 hv
  have hordinal : ordinalAfter v u < N := by
    unfold ordinalAfter
    split <;> omega
  refine ⟨t, ht, fun hu => ?_, fun hcares hu => ?_⟩
  · refine (htab.isIndependent_eq_false_iff hordinal).2 fun hfree => ?_
    have hremovable : Removable (N + 1) u v _ := (removable_comm hun hvn huv).2 ⟨hfv, hfree⟩
    exact (hc.isIndependent_eq_false_iff hun).1 hu hremovable.1
  · have hentries : ∀ bits : List Bool, bits.length = N + 1 → entry (rowOf bits) ≠ .dontCare :=
      fun bits hbits => hcares _ (hbits ▸ rowOf_lt bits)
    have hremovable := removable_of_cares hun hvn huv hentries hfv ((hc.isIndependent_eq_true_iff hun).1 hu)
    exact (htab.isIndependent_eq_true_iff hordinal).2 hremovable.2

/-- Three variables, the entries 0, 0, 1, 1 and 0, 0, 1, 1: again only the second
of the variables matters, and so does every entry. -/
def striped : Column :=
  .ofArray #[.zero, .zero, .one, .one, .zero, .zero, .one, .one]

/-- The second variable still matters when the first or the last is gone, and the
last can go after the first. -/
theorem remove_frees_none_of_interleaved :
    (interleaved.isIndependent 1 = .ok false ∧
      (∃ t, interleaved.remove 0 = .ok t ∧ t.isIndependent 0 = .ok false) ∧
      ∃ t, interleaved.remove 2 = .ok t ∧ t.isIndependent 1 = .ok false) ∧
    striped.isIndependent 2 = .ok true ∧ ∃ t, striped.remove 0 = .ok t ∧ t.isIndependent 1 = .ok true := by
  have hget : ∀ row < 2 ^ 3, interleaved.get row = .ok
      (#[.zero, .dontCare, .one, .dontCare, .dontCare, .zero, .dontCare, .one].getD row .dontCare) := by decide
  have hget' : ∀ row < 2 ^ 3, striped.get row = .ok
      (#[.zero, .zero, .one, .one, .zero, .zero, .one, .one].getD row .dontCare) := by decide
  have hcares : ∀ row < 2 ^ 3,
      #[Value.zero, .zero, .one, .one, .zero, .zero, .one, .one].getD row .dontCare ≠ .dontCare := by decide
  have hmiddle : interleaved.isIndependent 1 = .ok false := by rfl
  have hlast : striped.isIndependent 2 = .ok true := by rfl
  obtain ⟨t₁, ht₁, hkept₁, -⟩ :=
    remove_frees_none (u := 1) (v := 0) rfl hget (by decide) (by decide) (by decide) (by rfl)
  obtain ⟨t₂, ht₂, hkept₂, -⟩ :=
    remove_frees_none (u := 1) (v := 2) rfl hget (by decide) (by decide) (by decide) (by rfl)
  obtain ⟨t₃, ht₃, -, hfree⟩ :=
    remove_frees_none (u := 2) (v := 0) rfl hget' (by decide) (by decide) (by decide) (by rfl)
  exact ⟨⟨hmiddle, ⟨t₁, ht₁, hkept₁ hmiddle⟩, t₂, ht₂, hkept₂ hmiddle⟩, hlast, t₃, ht₃, hfree hcares hlast⟩

/-- Of the entries 0, x, x, 1 either variable can go, but not the one after the
other. -/
example : (ofArray #[.zero, .dontCare, .dontCare, .one]).independences = .ok [true, true] ∧
    (do (← (ofArray #[.zero, .dontCare, .dontCare, .one]).remove 0).isIndependent 0) = .ok false := by decide

end Column

end Schematic
