/-
The written form of an expression is unambiguous, if names cannot be mistaken
for anything else that is written and no connective hides its sign (`Legible`).

What carries the induction is `Expr.Delimited`: an expression can be told from
its characters whatever comes after them, as long as that does not go on with a
name. Names are the only part without a mark of its own at the end, and what
follows an operand is always a space or a closing parenthesis.
-/
import Schematic.Expr

namespace Schematic

/-! ## Legible expressions -/

/-- The characters that are written between names. -/
def marks : List Char :=
  [' ', '!', '(', ')', '&', '|', '^']

/-- Whether a name stands for its variable alone: it has no marks in it, and is
not the written form of a constant. -/
def Variable.Legible (v : Variable) : Prop :=
  (∀ ch ∈ v.name.toList, ch ∉ marks) ∧ v.name ≠ "0" ∧ v.name ≠ "1"

instance (v : Variable) : Decidable v.Legible :=
  decidable_of_iff ((v.name.toList.all (· ∉ marks) && v.name != "0" && v.name != "1") = true) (by
    simp [Variable.Legible, and_assoc])

/-- The character that a connective is written with. -/
def Connective.mark : Connective → Char
  | .and => '&'
  | .or => '|'
  | .xor => '^'

theorem Connective.toList_sign (c : Connective) : c.sign.toList = [c.mark] := by
  cases c <;> rfl

theorem Connective.mark_injective {c c' : Connective} (h : c.mark = c'.mark) : c = c' := by
  cases c <;> cases c' <;> first | rfl | simp [mark] at h

namespace Expr

/-- Whether the root of an expression can be told from its written form, given
the operands: the name of a variable must be legible, and a connective writes
its sign only between two operands. -/
def LegibleRoot : Expr → Prop
  | .var v => v.Legible
  | .const _ => True
  | .not _ => True
  | .join _ es => 2 ≤ es.length

instance : DecidablePred LegibleRoot
  | .var v => inferInstanceAs (Decidable v.Legible)
  | .const _ => instDecidableTrue
  | .not _ => instDecidableTrue
  | .join _ es => inferInstanceAs (Decidable (2 ≤ es.length))

/-- An expression all of whose parts have such a root. -/
def Legible (e : Expr) : Prop :=
  ∀ p ∈ e.parts, p.LegibleRoot

instance (e : Expr) : Decidable e.Legible :=
  inferInstanceAs (Decidable (∀ p ∈ e.parts, p.LegibleRoot))

variable {e : Expr} {es : List Expr} {c : Connective}

theorem legible_var {v : Variable} : Legible (.var v) ↔ v.Legible := by
  simp [Legible, parts, LegibleRoot]

theorem legible_not : Legible (.not e) ↔ e.Legible := by
  simp [Legible, parts, LegibleRoot]

theorem legible_join : Legible (.join c es) ↔ 2 ≤ es.length ∧ ∀ e ∈ es, e.Legible := by
  simp only [Legible, parts, partsAll_eq, List.forall_mem_cons, List.mem_flatMap, LegibleRoot]
  refine and_congr_right fun _ => ⟨fun h e he p hp => h p ⟨e, he, hp⟩, fun h p hp => ?_⟩
  obtain ⟨e, he, hp⟩ := hp
  exact h e he p hp

/-! ## Characters -/

/-- The characters of the written form. -/
def chars (e : Expr) : List Char :=
  e.text.toList

/-- The characters of the operands after the first. -/
def charsRest (c : Connective) (es : List Expr) : List Char :=
  (textRest c es).toList

theorem chars_var (v : Variable) : chars (.var v) = v.name.toList := by
  rw [chars, text]

theorem chars_const (b : Bool) : chars (.const b) = [if b then '1' else '0'] := by
  cases b <;> rfl

theorem chars_not (e : Expr) : chars (.not e) = '!' :: e.chars := by
  rw [chars, text, String.toList_append]
  rfl

theorem chars_join (c : Connective) (e : Expr) (es : List Expr) :
    chars (.join c (e :: es)) = '(' :: (e.chars ++ (charsRest c es ++ [')'])) := by
  simp [chars, charsRest, text, String.toList_append]

theorem charsRest_cons (c : Connective) (e : Expr) (es : List Expr) :
    charsRest c (e :: es) = ' ' :: c.mark :: ' ' :: (e.chars ++ charsRest c es) := by
  simp [chars, charsRest, textRest, String.toList_append, Connective.toList_sign]

end Expr

/-! ## Words -/

/-- A run of characters without marks. -/
structure Word (w : List Char) : Prop where
  ne_nil : w ≠ []
  notMem_marks : ∀ ch ∈ w, ch ∉ marks

/-- No word goes on into what follows. -/
def Ends (rest : List Char) : Prop :=
  ∀ ch ∈ rest.head?, ch ∈ marks

theorem ends_nil : Ends [] := by
  simp [Ends]

theorem ends_cons {ch : Char} (h : ch ∈ marks) (rest : List Char) : Ends (ch :: rest) := by
  simpa [Ends] using h

namespace Word

variable {w w' rest rest' : List Char}

theorem append_ne (hw : Word w) {ch : Char} (hch : ch ∈ marks) : w ++ rest ≠ ch :: rest' := by
  intro h
  cases w with
  | nil => exact hw.ne_nil rfl
  | cons first w =>
    obtain ⟨rfl, -⟩ := List.cons.inj h
    exact hw.notMem_marks first List.mem_cons_self hch

theorem takeWhile_append (hw : Word w) (hrest : Ends rest) :
    (w ++ rest).takeWhile (fun ch => ch ∉ marks) = w := by
  rw [List.takeWhile_append_of_pos fun ch hch => decide_eq_true (hw.notMem_marks ch hch)]
  cases rest with
  | nil => simp
  | cons first rest =>
    have hfirst : first ∈ marks := hrest first rfl
    simp [hfirst]

theorem append_inj (hw : Word w) (hw' : Word w') (hrest : Ends rest) (hrest' : Ends rest')
    (h : w ++ rest = w' ++ rest') : w = w' ∧ rest = rest' := by
  have hword : w = w' := by
    rw [← hw.takeWhile_append hrest, h, hw'.takeWhile_append hrest']
  subst hword
  exact ⟨rfl, List.append_cancel_left h⟩

end Word

namespace Expr

variable {e : Expr} {es : List Expr} {c : Connective}

theorem word_var {v : Variable} (h : v.Legible) : Word (chars (.var v)) := by
  rw [chars_var]
  exact ⟨fun hnil => v.name_ne_empty (String.toList_eq_nil_iff.1 hnil), h.1⟩

theorem word_const (b : Bool) : Word (chars (.const b)) := by
  rw [chars_const]
  cases b <;> exact ⟨by simp, by simp [marks]⟩

theorem chars_var_ne_const {v : Variable} (h : v.Legible) (b : Bool) : chars (.var v) ≠ chars (.const b) := by
  rw [chars, chars, text, Ne, String.toList_inj]
  cases b with
  | false => exact h.2.1
  | true => exact h.2.2

/-! ## Delimited expressions -/

/-- Whether an expression can be told from the characters that begin with its
written form, wherever that ends, and with it what is left of them. -/
def Delimited (e : Expr) : Prop :=
  ∀ (e' : Expr) (rest rest' : List Char), e'.Legible → Ends rest → Ends rest' →
    e.chars ++ rest = e'.chars ++ rest' → e = e' ∧ rest = rest'

theorem exists_of_legible_join (h : Legible (.join c es)) :
    ∃ e rest, es = e :: rest ∧ rest ≠ [] ∧ e.Legible ∧ ∀ e' ∈ rest, e'.Legible := by
  obtain ⟨hlen, hall⟩ := legible_join.1 h
  cases es with
  | nil => simp at hlen
  | cons e rest =>
    refine ⟨e, rest, rfl, ?_, hall e List.mem_cons_self, fun e' he' => hall e' (List.mem_cons_of_mem e he')⟩
    rintro rfl
    simp at hlen

theorem append_ne_not {w rest rest' : List Char} (hw : Word w) (e : Expr) : w ++ rest ≠ chars (.not e) ++ rest' := by
  rw [chars_not]
  exact hw.append_ne (by decide)

theorem append_ne_join {w rest rest' : List Char} (hw : Word w) (h : Legible (.join c es)) :
    w ++ rest ≠ chars (.join c es) ++ rest' := by
  obtain ⟨e, others, rfl, -⟩ := exists_of_legible_join h
  rw [chars_join]
  exact hw.append_ne (by decide)

theorem delimited_var {v : Variable} (hv : v.Legible) : Delimited (.var v) := by
  intro e' rest rest' he' hrest hrest' h
  cases e' with
  | var v' =>
    obtain ⟨hname, rfl⟩ := (word_var hv).append_inj (word_var (legible_var.1 he')) hrest hrest' h
    rw [chars_var, chars_var, String.toList_inj] at hname
    obtain ⟨name, hne⟩ := v
    obtain ⟨name', hne'⟩ := v'
    obtain rfl : name = name' := hname
    exact ⟨rfl, rfl⟩
  | const b => exact absurd ((word_var hv).append_inj (word_const b) hrest hrest' h).1 (chars_var_ne_const hv b)
  | not e' => exact absurd h (append_ne_not (word_var hv) e')
  | join c' es' => exact absurd h (append_ne_join (word_var hv) he')

theorem delimited_const (b : Bool) : Delimited (.const b) := by
  intro e' rest rest' he' hrest hrest' h
  cases e' with
  | var v' =>
    have hv' := legible_var.1 he'
    exact absurd ((word_var hv').append_inj (word_const b) hrest' hrest h.symm).1 (chars_var_ne_const hv' b)
  | const b' =>
    obtain ⟨hchars, rfl⟩ := (word_const b).append_inj (word_const b') hrest hrest' h
    cases b <;> cases b' <;> first | exact ⟨rfl, rfl⟩ | simp [chars_const] at hchars
  | not e' => exact absurd h (append_ne_not (word_const b) e')
  | join c' es' => exact absurd h (append_ne_join (word_const b) he')

theorem delimited_not (he : e.Delimited) : Delimited (.not e) := by
  intro e' rest rest' he' hrest hrest' h
  cases e' with
  | var v' => exact absurd h.symm (append_ne_not (word_var (legible_var.1 he')) e)
  | const b' => exact absurd h.symm (append_ne_not (word_const b') e)
  | not e' =>
    rw [chars_not, chars_not] at h
    obtain ⟨rfl, heq⟩ := he e' rest rest' (legible_not.1 he') hrest hrest' (List.cons.inj h).2
    exact ⟨rfl, heq⟩
  | join c' es' =>
    obtain ⟨e₁, others, rfl, -⟩ := exists_of_legible_join he'
    rw [chars_not, chars_join] at h
    exact absurd (List.cons.inj h).1 (by decide)

theorem ends_charsRest (c : Connective) (es : List Expr) (rest : List Char) :
    Ends (charsRest c es ++ ')' :: rest) := by
  cases es with
  | nil => exact ends_cons (by decide) rest
  | cons e es =>
    rw [charsRest_cons]
    exact ends_cons (by decide) _

/-- Operands after the first, up to the closing parenthesis, can be told from
their characters, and with them the connective if there are any. -/
theorem charsRest_inj {c c' : Connective} {es es' : List Expr} {rest rest' : List Char}
    (hes : ∀ e ∈ es, e.Delimited) (hes' : ∀ e ∈ es', e.Legible)
    (h : charsRest c es ++ ')' :: rest = charsRest c' es' ++ ')' :: rest') :
    es = es' ∧ rest = rest' ∧ (es ≠ [] → c = c') := by
  induction es generalizing es' with
  | nil =>
    cases es' with
    | nil => exact ⟨rfl, (List.cons.inj h).2, fun hne => absurd rfl hne⟩
    | cons e' es' =>
      rw [charsRest_cons] at h
      exact absurd (List.cons.inj h).1 (by decide)
  | cons e es ih =>
    cases es' with
    | nil =>
      rw [charsRest_cons] at h
      exact absurd (List.cons.inj h).1 (by decide)
    | cons e' es' =>
      simp only [charsRest_cons, List.cons_append, List.cons.injEq, true_and, List.append_assoc] at h
      obtain ⟨hmark, hfirst⟩ := h
      obtain ⟨rfl, hothers⟩ := hes e List.mem_cons_self e' _ _ (hes' e' List.mem_cons_self)
        (ends_charsRest c es rest) (ends_charsRest c' es' rest') hfirst
      obtain ⟨rfl, heq, -⟩ := ih (fun e he => hes e (List.mem_cons_of_mem _ he))
        (fun e he => hes' e (List.mem_cons_of_mem _ he)) hothers
      exact ⟨rfl, heq, fun _ => Connective.mark_injective hmark⟩

theorem delimited_join (he : Legible (.join c es)) (hes : ∀ e ∈ es, e.Delimited) : Delimited (.join c es) := by
  obtain ⟨first, others, rfl, hne, -⟩ := exists_of_legible_join he
  intro e' rest rest' he' hrest hrest' h
  cases e' with
  | var v' => exact absurd h.symm (append_ne_join (word_var (legible_var.1 he')) he)
  | const b' => exact absurd h.symm (append_ne_join (word_const b') he)
  | not e' =>
    rw [chars_not, chars_join] at h
    exact absurd (List.cons.inj h).1 (by decide)
  | join c' es' =>
    obtain ⟨first', others', rfl, -, hfirst', hothers'⟩ := exists_of_legible_join he'
    simp only [chars_join, List.cons_append, List.cons.injEq, true_and, List.append_assoc, List.nil_append] at h
    obtain ⟨rfl, htail⟩ := hes first List.mem_cons_self first' _ _ hfirst'
      (ends_charsRest c others rest) (ends_charsRest c' others' rest') h
    obtain ⟨rfl, heq, hsign⟩ := charsRest_inj (fun e he => hes e (List.mem_cons_of_mem _ he)) hothers' htail
    obtain rfl := hsign hne
    exact ⟨rfl, heq⟩

/-- **A legible expression can be told from the characters that begin with it.** -/
theorem Legible.delimited (h : e.Legible) : e.Delimited := by
  induction e with
  | var v => exact delimited_var (legible_var.1 h)
  | const b => exact delimited_const b
  | not e ih => exact delimited_not (ih (legible_not.1 h))
  | join c es ih => exact delimited_join h fun e he => ih e he ((legible_join.1 h).2 e he)

/-- **Legible expressions are equal if they are written alike.** -/
theorem text_eq_text_iff {e e' : Expr} (h : e.Legible) (h' : e'.Legible) : e.text = e'.text ↔ e = e' := by
  constructor
  · intro htext
    have hchars : e.chars ++ [] = e'.chars ++ [] := by rw [chars, chars, htext]
    exact (h.delimited e' [] [] h' ends_nil ends_nil hchars).1
  · rintro rfl
    rfl

/-- Written `!(J | (01 ^ 0))`, where 01 is a variable. -/
def negatedChoice : Expr :=
  .not (.join .or [.var ⟨"J", by decide⟩, .join .xor [.var ⟨"01", by decide⟩, .const false]])

/-- Written `(!J | (01 ^ 0))`. -/
def choiceOfNegated : Expr :=
  .join .or [.not (.var ⟨"J", by decide⟩), .join .xor [.var ⟨"01", by decide⟩, .const false]]

/-- A negation is told from one that is inside the first operand. -/
theorem text_eq_text_iff_of_negated : negatedChoice.Legible ∧ choiceOfNegated.Legible ∧
    (negatedChoice.text = choiceOfNegated.text ↔ negatedChoice = choiceOfNegated) := by
  have h : negatedChoice.Legible := by decide
  have h' : choiceOfNegated.Legible := by decide
  exact ⟨h, h', text_eq_text_iff h h'⟩

end Expr

end Schematic
