/-
What a list of variables becomes as references are registered in it, one after
the other. The first of several references counts (`foldl_register_eq`), so
nothing is registered twice, and registering the variables of a list that were
registered elsewhere is the same as registering their references here
(`foldl_register_foldl`).
-/
import Schematic.Expr
import Mathlib.Logic.Basic

namespace Schematic

/-! ## Registered variables -/

theorem mem_foldl_register {v : Variable} : ∀ {refs vars : List Variable},
    v ∈ refs.foldl register vars ↔ v ∈ vars ∨ v ∈ refs
  | [], vars => by simp
  | w :: refs, vars => by
    rw [List.foldl_cons, mem_foldl_register, mem_register, List.mem_cons, or_assoc]

theorem nodup_foldl_register : ∀ {refs vars : List Variable}, vars.Nodup → (refs.foldl register vars).Nodup
  | [], _, h => h
  | v :: refs, _, h => by
    rw [List.foldl_cons]
    exact nodup_foldl_register (nodup_register h v)

theorem length_register_le (vars : List Variable) (v : Variable) :
    (register vars v).length ≤ vars.length + 1 := by
  unfold register
  split
  · omega
  · simp

theorem length_foldl_register_le : ∀ (refs vars : List Variable),
    (refs.foldl register vars).length ≤ vars.length + refs.length
  | [], _ => Nat.le_refl _
  | v :: refs, vars => by
    have hone := length_register_le vars v
    have hrest := length_foldl_register_le refs (register vars v)
    rw [List.foldl_cons, List.length_cons]
    omega

/-! ## First references -/

/-- **What is registered** after the variables seen before: those not seen yet,
each at its first reference. -/
theorem foldl_register_eq : ∀ refs seen : List Variable,
    refs.foldl register seen = seen ++ (refs.filter (· ∉ seen)).eraseDups
  | [], seen => by simp
  | v :: refs, seen => by
    rw [List.foldl_cons, foldl_register_eq refs, register]
    by_cases hv : v ∈ seen
    · rw [if_pos hv, List.filter_cons_of_neg (by simpa using hv)]
    · have hfilter : refs.filter (· ∉ seen ++ [v]) = (refs.filter (· ∉ seen)).filter (fun w => !w == v) := by
        rw [List.filter_filter]
        refine List.filter_congr fun w _ => ?_
        rw [Bool.eq_iff_iff]
        simp [and_comm]
      rw [if_neg hv, hfilter, List.filter_cons_of_pos (by simpa using hv), List.eraseDups_cons, List.append_assoc,
        List.singleton_append]

theorem foldl_register_nil (refs : List Variable) : refs.foldl register [] = refs.eraseDups := by
  rw [foldl_register_eq, List.nil_append, List.filter_eq_self.2 (by simp)]

/-- **Merging registered variables** registers their references. -/
theorem foldl_register_foldl : ∀ refs vars seen : List Variable,
    (refs.foldl register vars).foldl register seen = refs.foldl register (vars.foldl register seen)
  | [], _, _ => rfl
  | v :: refs, vars, seen => by
    have hstep : (register vars v).foldl register seen = register (vars.foldl register seen) v := by
      by_cases hv : v ∈ vars
      · have hmem : v ∈ vars.foldl register seen := mem_foldl_register.2 (.inr hv)
        rw [register, if_pos hv, register, if_pos hmem]
      · rw [register, if_neg hv, List.foldl_append]
        rfl
    rw [List.foldl_cons, foldl_register_foldl refs, hstep, List.foldl_cons]

theorem foldl_register_of_nodup : ∀ {vars : List Variable} (seen : List Variable), vars.Nodup →
    vars.foldl register seen = seen ++ vars.filter (· ∉ seen)
  | [], seen, _ => by simp
  | v :: vars, seen, h => by
    obtain ⟨hv, hvars⟩ := List.nodup_cons.1 h
    rw [List.foldl_cons, foldl_register_of_nodup _ hvars, register]
    by_cases hseen : v ∈ seen
    · rw [if_pos hseen, List.filter_cons_of_neg (by simpa using hseen)]
    · have hfilter : vars.filter (· ∉ seen ++ [v]) = vars.filter (· ∉ seen) := by
        refine List.filter_congr fun w hw => ?_
        have hne : w ≠ v := fun heq => hv (heq ▸ hw)
        simp [hne]
      rw [if_neg hseen, hfilter, List.filter_cons_of_pos (by simpa using hseen), List.append_assoc,
        List.singleton_append]

/-! ## Variables of an expression -/

namespace Expr

theorem vars_eq_eraseDups (e : Expr) : e.vars = e.references.eraseDups :=
  foldl_register_nil e.references

theorem foldl_register_references (e : Expr) (seen : List Variable) :
    e.references.foldl register seen = seen ++ e.vars.filter (· ∉ seen) := by
  have hnodup : e.vars.Nodup := nodup_foldl_register List.nodup_nil
  rw [← foldl_register_of_nodup seen hnodup, vars, foldl_register_foldl]
  rfl

end Expr

end Schematic
