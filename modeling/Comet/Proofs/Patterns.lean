import Comet.Proofs.Spelling
import Mathlib.Data.List.Basic

/-!
# Patterns with preferences

A pattern says how a piece of text is written. Often it fits in several ways, and then the ways
have an order: an earlier alternative comes before a later one, and a repetition that goes on
comes before one that stops. What a pattern matches is the first way in this order, whether or
not it is the longest.

`ends` lists the ways, each as the cursor behind the matched text. A pattern is never taken apart
beyond this file. Either its first way is known, wherever the text stands (`Finds`), or all texts
that it fits are (`Spells`), which is what a word boundary needs to know about the word before it.
-/

namespace Comet

/-- A place in a text: the characters before it, from right to left, and those after it. -/
structure Cursor where
  before : List Char
  after : List Char
  deriving DecidableEq, Repr

/-- The ways to write a piece of text. -/
inductive Pattern
  | fail
  | empty
  /-- One character with the property. -/
  | char (p : Char → Bool)
  /-- The edge of a word, with a character of the word on one side only. -/
  | boundary (isWord : Char → Bool)
  | seq (first second : Pattern)
  | alt (first second : Pattern)
  /-- Any number of times, as often as possible. -/
  | many (body : Pattern)

namespace Pattern

/-- The places after any number of steps, those after more steps first. Only steps that move on are
repeated. -/
def repeated (step : Cursor → List Cursor) (here : Cursor) : List Cursor :=
  ((step here).flatMap fun next =>
    if _h : next.after.length < here.after.length then repeated step next else []) ++ [here]
termination_by here.after.length

/-- The places up to which a pattern fits, the preferred ones first. -/
def ends : Pattern → Cursor → List Cursor
  | fail, _ => []
  | empty, here => [here]
  | char p, here =>
    match here.after with
    | [] => []
    | c :: cs => if p c then [⟨c :: here.before, cs⟩] else []
  | boundary isWord, here =>
    if here.before.head?.any isWord != here.after.head?.any isWord then [here] else []
  | seq first second, here => (first.ends here).flatMap second.ends
  | alt first second, here => first.ends here ++ second.ends here
  | many body, here => repeated body.ends here

/-- What a pattern matches at the beginning of a text, with the rest of the text. -/
def match? (P : Pattern) (cs : List Char) : Option (List Char × List Char) :=
  (P.ends ⟨[], cs⟩).head?.map fun stop => (stop.before.reverse, stop.after)

/-- At least once, as often as possible. -/
def plus (P : Pattern) : Pattern := seq P (many P)

/-- The text itself. -/
def word : List Char → Pattern
  | [] => empty
  | c :: cs => seq (char (· == c)) (word cs)

/-- One of the patterns, the earlier ones first. -/
def oneOf : List Pattern → Pattern
  | [] => fail
  | P :: Ps => alt P (oneOf Ps)

/-! ## The ways of a pattern -/

@[simp] theorem ends_char_nil (p : Char → Bool) (before : List Char) :
    (char p).ends ⟨before, []⟩ = [] := rfl

@[simp] theorem ends_char_cons (p : Char → Bool) (before : List Char) (c : Char)
    (cs : List Char) :
    (char p).ends ⟨before, c :: cs⟩ = if p c then [⟨c :: before, cs⟩] else [] := rfl

theorem ends_seq (P Q : Pattern) (here : Cursor) :
    (seq P Q).ends here = (P.ends here).flatMap Q.ends := rfl

theorem ends_alt (P Q : Pattern) (here : Cursor) :
    (alt P Q).ends here = P.ends here ++ Q.ends here := rfl

/-- Every way of the pattern moves on. -/
def Consumes (P : Pattern) : Prop :=
  ∀ here, ∀ next ∈ P.ends here, next.after.length < here.after.length

theorem consumes_char (p : Char → Bool) : (char p).Consumes := by
  rintro ⟨before, cs⟩ next hnext
  cases cs with
  | nil => cases hnext
  | cons c cs =>
    rw [ends_char_cons] at hnext
    split at hnext
    · rw [List.mem_singleton.1 hnext]
      exact Nat.lt_succ_self _
    · cases hnext

theorem Consumes.alt {P Q : Pattern} (hP : P.Consumes) (hQ : Q.Consumes) :
    (alt P Q).Consumes := by
  intro here next hnext
  rcases List.mem_append.1 hnext with hnext | hnext
  · exact hP here next hnext
  · exact hQ here next hnext

theorem length_of_mem_repeated {step : Cursor → List Cursor} {here next : Cursor}
    (h : next ∈ repeated step here) : next.after.length ≤ here.after.length := by
  fun_induction repeated step here with
  | case1 here ih =>
    rcases List.mem_append.1 h with h | h
    · obtain ⟨middle, -, h⟩ := List.mem_flatMap.1 h
      split at h
      · rename_i hlt
        exact Nat.le_trans (ih middle hlt h) (Nat.le_of_lt hlt)
      · cases h
    · obtain rfl := List.mem_singleton.1 h
      exact Nat.le_refl _

/-- What follows once or more does not move back. -/
theorem Consumes.plus_seq {P Q : Pattern} (hP : P.Consumes) (hQ : Q.Consumes) :
    (seq (plus P) Q).Consumes := by
  intro here next hnext
  obtain ⟨middle, hmiddle, hnext⟩ := List.mem_flatMap.1 hnext
  obtain ⟨first, hfirst, hmiddle⟩ := List.mem_flatMap.1 hmiddle
  have hstart := hP here first hfirst
  have hrepeat := length_of_mem_repeated hmiddle
  have hstop := hQ middle next hnext
  omega

/-- A repetition goes on in every way that its body has, and then it stops. -/
theorem Consumes.ends_many {P : Pattern} (hP : P.Consumes) (here : Cursor) :
    (many P).ends here = (P.ends here).flatMap (many P).ends ++ [here] := by
  have hsteps : ∀ next ∈ P.ends here, (if _h : next.after.length < here.after.length then
      repeated P.ends next else []) = repeated P.ends next :=
    fun next hnext => dif_pos (hP here next hnext)
  rw [ends, repeated, List.flatMap_congr hsteps]
  rfl

/-- The same with something behind the repetition. -/
theorem Consumes.ends_seq_many {P : Pattern} (hP : P.Consumes) (Q : Pattern) (here : Cursor) :
    (seq (many P) Q).ends here =
      (P.ends here).flatMap (seq (many P) Q).ends ++ Q.ends here := by
  rw [ends_seq, hP.ends_many, List.flatMap_append, List.flatMap_assoc, List.flatMap_singleton]
  rfl

/-- A run of characters is matched as far as it goes. All other ways stop inside the run. -/
theorem exists_ends_many_char (p : Char → Bool) (before cs : List Char) :
    ∃ others, (many (char p)).ends ⟨before, cs⟩ =
        ⟨(cs.takeWhile p).reverse ++ before, cs.dropWhile p⟩ :: others ∧
      ∀ stop ∈ others, ∃ c ∈ stop.after.head?, p c = true := by
  induction cs generalizing before with
  | nil =>
    rw [(consumes_char p).ends_many]
    exact ⟨[], rfl, by simp⟩
  | cons c cs ih =>
    rw [(consumes_char p).ends_many, ends_char_cons]
    cases hc : p c with
    | false => exact ⟨[], by simp [hc], by simp⟩
    | true =>
      obtain ⟨others, hends, hothers⟩ := ih (c :: before)
      refine ⟨others ++ [⟨before, c :: cs⟩], ?_, ?_⟩
      · rw [if_pos rfl, List.flatMap_singleton, hends]
        simp [hc]
      · intro stop hstop
        rcases List.mem_append.1 hstop with hstop | hstop
        · exact hothers stop hstop
        · rw [List.mem_singleton.1 hstop]
          exact ⟨c, rfl, hc⟩

/-! ## Patterns whose match is known -/

/-- The pattern matches what `find?` finds, wherever the text stands. -/
def Finds (P : Pattern) (find? : List Char → Option (List Char × List Char)) : Prop :=
  ∀ before cs, (P.ends ⟨before, cs⟩).head? =
    (find? cs).map fun found => ⟨found.1.reverse ++ before, found.2⟩

theorem Finds.match?_eq {P : Pattern} {find? : List Char → Option (List Char × List Char)}
    (h : P.Finds find?) (cs : List Char) : P.match? cs = find? cs := by
  rw [match?, h [] cs, Option.map_map]
  cases find? cs <;> simp

/-- The characters at the beginning of a text that have the property, at least one. -/
def stretch? (p : Char → Bool) (cs : List Char) : Option (List Char × List Char) :=
  if (cs.takeWhile p).isEmpty then none else some (cs.takeWhile p, cs.dropWhile p)

theorem stretch?_cons (p : Char → Bool) (c : Char) (cs : List Char) :
    stretch? p (c :: cs) =
      if p c then some (c :: cs.takeWhile p, cs.dropWhile p) else none := by
  cases hc : p c <;> simp [stretch?, hc]

/-- What is found behind a first character with the property. -/
def behind? (p : Char → Bool) (find? : List Char → Option (List Char × List Char)) :
    List Char → Option (List Char × List Char)
  | [] => none
  | c :: cs => if p c then (find? cs).map fun found => (c :: found.1, found.2) else none

theorem finds_many_char (p : Char → Bool) :
    (many (char p)).Finds fun cs => some (cs.takeWhile p, cs.dropWhile p) := by
  intro before cs
  obtain ⟨others, hends, -⟩ := exists_ends_many_char p before cs
  rw [hends]
  rfl

theorem Finds.behind {P : Pattern} {find? : List Char → Option (List Char × List Char)}
    (h : P.Finds find?) (p : Char → Bool) : (seq (char p) P).Finds (behind? p find?) := by
  intro before cs
  cases cs with
  | nil => rfl
  | cons c cs =>
    rw [ends_seq, ends_char_cons, behind?]
    split
    · rw [List.flatMap_singleton, h, Option.map_map]
      simp [Function.comp_def]
    · rfl

theorem Finds.alt {P Q : Pattern} {find? find?' : List Char → Option (List Char × List Char)}
    (hP : P.Finds find?) (hQ : Q.Finds find?') :
    (alt P Q).Finds fun cs => (find? cs).or (find?' cs) := by
  intro before cs
  rw [ends_alt, List.head?_append, hP, hQ]
  cases h : find? cs <;> simp [h]

/-- What may stand before a pattern makes two patterns of it. -/
theorem Finds.optional {P : Pattern} {find? : List Char → Option (List Char × List Char)}
    (h : P.Finds find?) (p : Char → Bool) :
    (seq (.alt (char p) empty) P).Finds fun cs => (behind? p find? cs).or (find? cs) := by
  have heither := (h.behind p).alt h
  intro before cs
  rw [← heither before cs, ends_seq, ends_alt, ends_alt, List.flatMap_append]
  simp only [ends, List.flatMap_singleton]

theorem finds_plus_char (p : Char → Bool) : (plus (char p)).Finds (stretch? p) := by
  intro before cs
  rw [plus, (finds_many_char p).behind p]
  cases cs with
  | nil => rfl
  | cons c cs => cases hc : p c <;> simp [behind?, stretch?_cons, hc]

/-! ## Patterns that are words -/

/-- The pattern fits exactly the texts of the language, wherever they stand. -/
def Spells (P : Pattern) (language : List Char → Prop) : Prop :=
  ∀ before cs stop, stop ∈ P.ends ⟨before, cs⟩ ↔
    ∃ text rest, cs = text ++ rest ∧ language text ∧ stop = ⟨text.reverse ++ before, rest⟩

theorem Spells.congr {P : Pattern} {L M : List Char → Prop} (h : P.Spells L)
    (hLM : ∀ text, L text ↔ M text) : P.Spells M := by
  intro before cs stop
  simp only [h before cs stop, hLM]

theorem spells_char (p : Char → Bool) :
    (char p).Spells fun text => ∃ c, text = [c] ∧ p c = true := by
  intro before cs stop
  constructor
  · intro hstop
    cases cs with
    | nil => cases hstop
    | cons c cs =>
      rw [ends_char_cons] at hstop
      split at hstop
      · rename_i hc
        exact ⟨[c], cs, rfl, ⟨c, rfl, hc⟩, List.mem_singleton.1 hstop⟩
      · cases hstop
  · rintro ⟨text, rest, rfl, ⟨c, rfl, hc⟩, rfl⟩
    simp [hc]

theorem Spells.seq {P Q : Pattern} {L M : List Char → Prop} (hP : P.Spells L) (hQ : Q.Spells M) :
    (seq P Q).Spells fun text => ∃ front back, text = front ++ back ∧ L front ∧ M back := by
  intro before cs stop
  rw [ends_seq, List.mem_flatMap]
  constructor
  · rintro ⟨middle, hmiddle, hstop⟩
    obtain ⟨front, rest, rfl, hfront, rfl⟩ := (hP _ _ _).1 hmiddle
    obtain ⟨back, rest, rfl, hback, rfl⟩ := (hQ _ _ _).1 hstop
    exact ⟨front ++ back, rest, by simp, ⟨front, back, rfl, hfront, hback⟩, by simp⟩
  · rintro ⟨text, rest, rfl, ⟨front, back, rfl, hfront, hback⟩, rfl⟩
    refine ⟨_, (hP _ _ _).2 ⟨front, back ++ rest, by simp, hfront, rfl⟩, ?_⟩
    exact (hQ _ _ _).2 ⟨back, rest, rfl, hback, by simp⟩

theorem spells_word (w : List Char) : (word w).Spells (· = w) := by
  induction w with
  | nil =>
    intro before cs stop
    constructor
    · intro hstop
      exact ⟨[], cs, rfl, rfl, List.mem_singleton.1 hstop⟩
    · rintro ⟨text, rest, rfl, rfl, rfl⟩
      exact List.mem_singleton_self _
  | cons c w ih =>
    intro before cs stop
    rw [word, (spells_char _).seq ih]
    simp

theorem spells_oneOf_word (ws : List (List Char)) : (oneOf (ws.map word)).Spells (· ∈ ws) := by
  induction ws with
  | nil =>
    intro before cs stop
    simp [oneOf, ends]
  | cons w ws ih =>
    intro before cs stop
    rw [List.map_cons, oneOf, ends_alt, List.mem_append, spells_word w, ih]
    constructor
    · rintro (⟨text, rest, rfl, rfl, rfl⟩ | ⟨text, rest, rfl, htext, rfl⟩)
      · exact ⟨text, rest, rfl, .head ws, rfl⟩
      · exact ⟨text, rest, rfl, .tail w htext, rfl⟩
    · rintro ⟨text, rest, rfl, htext, rfl⟩
      rcases List.mem_cons.1 htext with rfl | htext
      · exact .inl ⟨text, rest, rfl, rfl, rfl⟩
      · exact .inr ⟨text, rest, rfl, htext, rfl⟩

/-- Behind a word, the boundary is where no character of a word follows. -/
theorem ends_boundary {isWord : Char → Bool} {text : List Char} (hne : text ≠ [])
    (hword : ∀ c ∈ text, isWord c = true) (before rest : List Char) :
    (boundary isWord).ends ⟨text.reverse ++ before, rest⟩ =
      if rest.head?.any isWord then [] else [⟨text.reverse ++ before, rest⟩] := by
  have hlast : (text.reverse ++ before).head?.any isWord = true := by
    rw [List.head?_append, List.head?_reverse, List.getLast?_eq_some_getLast hne]
    exact hword _ (List.getLast_mem hne)
  rw [ends, hlast]
  cases rest.head?.any isWord <;> rfl

section Boundary

variable {P : Pattern} {L : List Char → Prop} {isWord : Char → Bool} (hP : P.Spells L)
  (hL : ∀ text, L text → text ≠ [] ∧ ∀ c ∈ text, isWord c = true) {before cs : List Char}

include hP hL

/-- A word that ends at a boundary is all that stands there before the next character that does not
belong to a word. So it does not matter in which order the words are tried. -/
theorem eq_takeWhile_of_mem_boundary {stop : Cursor}
    (h : stop ∈ (Pattern.seq P (boundary isWord)).ends ⟨before, cs⟩) :
    L (cs.takeWhile isWord) ∧
      stop = ⟨(cs.takeWhile isWord).reverse ++ before, cs.dropWhile isWord⟩ := by
  obtain ⟨middle, hmiddle, hstop⟩ := List.mem_flatMap.1 h
  obtain ⟨text, rest, rfl, htext, rfl⟩ := (hP _ _ _).1 hmiddle
  obtain ⟨hne, hword⟩ := hL text htext
  rw [ends_boundary hne hword] at hstop
  split at hstop
  · cases hstop
  · rename_i hedge
    have hrest : ∀ c ∈ rest.head?, isWord c = false := by
      intro c hc
      rw [Option.mem_def.1 hc] at hedge
      exact Bool.eq_false_iff.2 hedge
    obtain ⟨htake, hdrop⟩ := Text.span_append hword hrest
    rw [htake, hdrop]
    exact ⟨htext, List.mem_singleton.1 hstop⟩

theorem mem_boundary (h : L (cs.takeWhile isWord)) (before : List Char) :
    ⟨(cs.takeWhile isWord).reverse ++ before, cs.dropWhile isWord⟩ ∈
      (Pattern.seq P (boundary isWord)).ends ⟨before, cs⟩ := by
  obtain ⟨hne, hword⟩ := hL _ h
  have hfits := (hP before cs _).2
    ⟨cs.takeWhile isWord, _, List.takeWhile_append_dropWhile.symm, h, rfl⟩
  refine List.mem_flatMap.2 ⟨_, hfits, ?_⟩
  have hrest : (cs.dropWhile isWord).head?.any isWord ≠ true := by
    intro hedge
    obtain ⟨c, hc, hcword⟩ := (Option.any_eq_true _ _).1 hedge
    rw [Text.head?_dropWhile isWord cs c hc] at hcword
    cases hcword
  rw [ends_boundary hne hword, if_neg hrest]
  exact List.mem_singleton_self _

end Boundary

theorem Spells.finds_boundary {P : Pattern} {L : List Char → Bool} {isWord : Char → Bool}
    (hP : P.Spells (L · = true))
    (hL : ∀ text, L text = true → text ≠ [] ∧ ∀ c ∈ text, isWord c = true) :
    (Pattern.seq P (boundary isWord)).Finds fun cs =>
      if L (cs.takeWhile isWord) then some (cs.takeWhile isWord, cs.dropWhile isWord)
      else none := by
  intro before cs
  dsimp only
  split
  · rename_i hcs
    obtain ⟨stop, others, hends⟩ := List.exists_cons_of_ne_nil
      (List.ne_nil_of_mem (mem_boundary hP hL hcs before))
    have hstop := eq_takeWhile_of_mem_boundary hP hL (hends ▸ List.mem_cons_self)
    rw [hends, List.head?_cons, hstop.2]
    rfl
  · rename_i hcs
    rw [Option.map_none, List.head?_eq_none_iff, List.eq_nil_iff_forall_not_mem]
    exact fun stop hstop => hcs (eq_takeWhile_of_mem_boundary hP hL hstop).1

end Pattern

end Comet
