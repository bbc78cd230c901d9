import Comet.Proofs.TokenRules

/-!
# Runs of quotes

A string constant is a text that is divided by its runs of quotes. Which run closes the constant
depends on what stands behind the runs, and whether its inside can be read depends on how long
they are. Both are decided by functions that look at one or two characters at a time. Here they
are compared with the runs.

The proofs go through a text from run to run (`run_induction`). A run of a text is its first
one or a run of what follows (`isRun_replicate_append`).
-/

namespace Comet

namespace Text.Quoted

/-- A maximal run of `n` quotes stands in the text, between `front` and `rest`. -/
structure IsRun (cs front : List Char) (n : Nat) (rest : List Char) : Prop where
  text : cs = front ++ (List.replicate n quote ++ rest)
  positive : 0 < n
  before : front.getLast? ≠ some quote
  behind : rest.head? ≠ some quote

/-- A text is empty, or begins with another character, or begins with a run. -/
theorem run_induction {P : List Char → Prop} (nil : P [])
    (other : ∀ c cs, c ≠ quote → P cs → P (c :: cs))
    (run : ∀ n rest, 0 < n → rest.head? ≠ some quote → P rest →
      P (List.replicate n quote ++ rest)) (cs : List Char) : P cs := by
  induction hlength : cs.length using Nat.strong_induction_on generalizing cs with
  | _ k ih =>
    subst hlength
    cases cs with
    | nil => exact nil
    | cons c cs =>
      by_cases hc : c = quote
      · subst hc
        have hquotes : cs.takeWhile (· == quote) =
            List.replicate (cs.takeWhile (· == quote)).length quote :=
          List.eq_replicate_of_mem fun d hd => by simpa using List.mem_takeWhile_imp hd
        have hbehind : (cs.dropWhile (· == quote)).head? ≠ some quote := by
          intro hhead
          cases Text.head?_dropWhile (· == quote) cs quote hhead
        have hshorter : (cs.dropWhile (· == quote)).length < (quote :: cs).length :=
          Nat.lt_succ_of_le (List.dropWhile_suffix _).length_le
        have hrun := run ((cs.takeWhile (· == quote)).length + 1) _ (Nat.succ_pos _) hbehind
          (ih _ hshorter _ rfl)
        rwa [List.replicate_succ, List.cons_append, ← hquotes,
          List.takeWhile_append_dropWhile] at hrun
      · exact other c cs hc (ih _ (Nat.lt_succ_self _) cs rfl)

section Runs

variable {front rest front' rest' : List Char} {n n' : Nat}

theorem not_isRun_nil : ¬ IsRun [] front n rest := by
  rintro ⟨htext, hpositive, -, -⟩
  have hlength := congrArg List.length htext
  simp at hlength
  omega

theorem isRun_cons_of_ne {c : Char} (h : c ≠ quote) {cs : List Char} :
    IsRun (c :: cs) front n rest ↔ ∃ front', front = c :: front' ∧ IsRun cs front' n rest := by
  constructor
  · rintro ⟨htext, hpositive, hbefore, hbehind⟩
    cases front with
    | nil =>
      obtain ⟨n, rfl⟩ := Nat.exists_eq_add_one.2 hpositive
      cases htext
      exact absurd rfl h
    | cons d front =>
      cases htext
      refine ⟨front, rfl, rfl, hpositive, fun hlast => hbefore ?_, hbehind⟩
      rw [List.getLast?_cons, hlast]
      rfl
  · rintro ⟨front, rfl, rfl, hpositive, hbefore, hbehind⟩
    refine ⟨rfl, hpositive, ?_, hbehind⟩
    rw [List.getLast?_cons]
    cases hlast : front.getLast? with
    | none => exact fun heq => h (Option.some.inj heq)
    | some d => exact fun heq => hbefore (hlast.trans heq)

/-- No run begins inside another one. -/
theorem append_left_cancel_run (hbehind : rest.head? ≠ some quote)
    (hbehind' : rest'.head? ≠ some quote)
    (h : List.replicate n quote ++ rest = List.replicate n' quote ++ rest') :
    n = n' ∧ rest = rest' := by
  have hspan {m : Nat} {cs : List Char} (hcs : cs.head? ≠ some quote) :
      (List.replicate m quote ++ cs).takeWhile (· == quote) = List.replicate m quote ∧
        (List.replicate m quote ++ cs).dropWhile (· == quote) = cs :=
    Text.span_append (fun c hc => beq_iff_eq.2 (List.eq_of_mem_replicate hc))
      (fun c hc => beq_eq_false_iff_ne.2 fun heq => hcs (heq ▸ hc))
  obtain ⟨hrun, hrest⟩ := hspan (m := n) hbehind
  rw [h, (hspan hbehind').1] at hrun
  rw [h, (hspan hbehind').2] at hrest
  exact ⟨by simpa using (congrArg List.length hrun).symm, hrest.symm⟩

/-- A run is determined by where it begins. -/
theorem IsRun.unique {cs : List Char} (h : IsRun cs front n rest) (h' : IsRun cs front' n' rest')
    (hlength : front.length = front'.length) : front = front' ∧ n = n' ∧ rest = rest' := by
  have htexts := h.text.symm.trans h'.text
  obtain ⟨hfront, hruns⟩ := List.append_inj htexts hlength
  exact ⟨hfront, append_left_cancel_run h.behind h'.behind hruns⟩

theorem isRun_first (hpositive : 0 < n) (hbehind : rest.head? ≠ some quote) :
    IsRun (List.replicate n quote ++ rest) [] n rest :=
  ⟨rfl, hpositive, by simp, hbehind⟩

theorem IsRun.quote_mem {cs : List Char} (h : IsRun cs front n rest) : quote ∈ cs := by
  obtain ⟨k, rfl⟩ := Nat.exists_eq_add_one.2 h.positive
  rw [h.text]
  simp [List.replicate_succ]

/-- The runs of a text that begins with one are this run and the runs of the rest. -/
theorem isRun_replicate_append (hpositive : 0 < n) (hbehind : rest.head? ≠ some quote) :
    IsRun (List.replicate n quote ++ rest) front' n' rest' ↔
      (front' = [] ∧ n' = n ∧ rest' = rest) ∨
        ∃ front, front' = List.replicate n quote ++ front ∧ IsRun rest front n' rest' := by
  constructor
  · intro h
    by_cases hfront : front' = []
    · subst hfront
      obtain ⟨hn, hrest⟩ := append_left_cancel_run hbehind h.behind h.text
      exact .inl ⟨rfl, hn.symm, hrest.symm⟩
    · right
      -- The run cannot begin behind some quotes of the first one only.
      obtain ⟨middle, hfront', hrest⟩ | ⟨middle, hreplicate, -⟩ :=
        List.append_eq_append_iff.1 h.text
      · refine ⟨middle, hfront', hrest, h.positive, fun hlast => h.before ?_, h.behind⟩
        rw [hfront', List.getLast?_append, hlast]
        rfl
      · have hmem : front'.getLast hfront ∈ List.replicate n quote :=
          hreplicate ▸ List.mem_append_left middle (List.getLast_mem hfront)
        refine absurd ?_ h.before
        rw [List.getLast?_eq_some_getLast hfront, List.eq_of_mem_replicate hmem]
  · rintro (⟨rfl, rfl, rfl⟩ | ⟨front, rfl, h⟩)
    · exact isRun_first hpositive hbehind
    · refine ⟨?_, h.positive, fun hlast => h.before ?_, h.behind⟩
      · rw [h.text, List.append_assoc]
      · -- Something stands between the two runs.
        cases hfront : front with
        | nil =>
          have htext := h.text
          rw [hfront, List.nil_append] at htext
          obtain ⟨m, rfl⟩ := Nat.exists_eq_add_one.2 h.positive
          rw [htext] at hbehind
          exact absurd rfl hbehind
        | cons d ds =>
          rw [← hfront]
          rwa [List.getLast?_append_of_ne_nil _ (by simp [hfront])] at hlast

end Runs

/-! ## Reading the inside of a constant -/

/-- Replaces pairs of quotes by the text, from left to right. -/
def replacePairs (text : List Char) : List Char → List Char
  | [] => []
  | [c] => [c]
  | c :: d :: cs =>
    if c = quote ∧ d = quote then text ++ replacePairs text cs
    else c :: replacePairs text (d :: cs)

theorem replacePairs_cons_of_ne {c : Char} (h : c ≠ quote) (text cs : List Char) :
    replacePairs text (c :: cs) = c :: replacePairs text cs := by
  cases cs <;> simp [replacePairs, h]

/-- A quote without a partner is left over when all pairs are removed, and else every pair stands
for one quote. -/
theorem undouble?_eq_replacePairs (cs : List Char) :
    undouble? cs = if quote ∈ replacePairs [] cs then none else some (replacePairs [quote] cs) := by
  induction cs using undouble?.induct with
  | case1 => simp [replacePairs]
  | case2 => simp [undouble?, replacePairs]
  | case3 c hc => simp [undouble?, replacePairs, hc, Ne.symm hc]
  | case4 cs ih =>
    rw [undouble?_quote_quote, ih]
    simp only [replacePairs, and_self, if_true, List.nil_append]
    split <;> rfl
  | case5 d cs hd => simp [undouble?, replacePairs, hd]
  | case6 c d cs hc ih =>
    rw [undouble?_cons_of_ne hc, ih, replacePairs_cons_of_ne hc, replacePairs_cons_of_ne hc]
    simp only [List.mem_cons, Ne.symm hc, false_or]
    split <;> rfl

/-- The quotes of a run make pairs. -/
theorem undouble?_replicate_append (n : Nat) {rest : List Char}
    (hbehind : rest.head? ≠ some quote) :
    undouble? (List.replicate n quote ++ rest) =
      if n % 2 = 1 then none else (undouble? rest).map (List.replicate (n / 2) quote ++ ·) := by
  induction n using Nat.twoStepInduction with
  | zero => simp
  | one =>
    cases rest with
    | nil => rfl
    | cons d rest =>
      have hd : d ≠ quote := fun heq => hbehind (congrArg some heq)
      simp [undouble?, hd]
  | more n ih _ =>
    have hhalf : (n + 2) / 2 = n / 2 + 1 := by omega
    have hodd : (n + 2) % 2 = n % 2 := by omega
    rw [List.replicate_succ, List.replicate_succ, List.cons_append, List.cons_append,
      undouble?_quote_quote, ih, hhalf, hodd, List.replicate_succ]
    split
    · rfl
    · rw [Option.map_map]
      rfl

/-- A constant cannot be read if one of its runs is odd. -/
theorem undouble?_eq_none_iff {cs : List Char} :
    undouble? cs = none ↔ ∃ front n rest, IsRun cs front n rest ∧ n % 2 = 1 := by
  induction cs using run_induction with
  | nil =>
    refine iff_of_false (by simp) ?_
    rintro ⟨front, n, rest, hrun, -⟩
    exact not_isRun_nil hrun
  | other c cs hc ih =>
    rw [undouble?_cons_of_ne hc, Option.map_eq_none_iff, ih]
    constructor
    · rintro ⟨front, n, rest, hrun, hodd⟩
      exact ⟨c :: front, n, rest, (isRun_cons_of_ne hc).2 ⟨front, rfl, hrun⟩, hodd⟩
    · rintro ⟨front, n, rest, hrun, hodd⟩
      obtain ⟨front, -, hrun⟩ := (isRun_cons_of_ne hc).1 hrun
      exact ⟨front, n, rest, hrun, hodd⟩
  | run n rest hpositive hbehind ih =>
    rw [undouble?_replicate_append n hbehind]
    split
    · rename_i hodd
      exact iff_of_true rfl ⟨[], n, rest, isRun_first hpositive hbehind, hodd⟩
    · rename_i heven
      rw [Option.map_eq_none_iff, ih]
      constructor
      · rintro ⟨front, m, rest', hrun, hodd⟩
        exact ⟨_, m, rest', (isRun_replicate_append hpositive hbehind).2 (.inr ⟨front, rfl, hrun⟩),
          hodd⟩
      · rintro ⟨front, m, rest', hrun, hodd⟩
        obtain ⟨-, rfl, -⟩ | ⟨front, -, hrun⟩ := (isRun_replicate_append hpositive hbehind).1 hrun
        · exact absurd hodd heven
        · exact ⟨front, m, rest', hrun, hodd⟩

/-- Reading the inside of a constant undoes doubling and nothing else, and fails exactly at runs
of odd length. It is the same as to look for a quote with all pairs removed, and then to replace
every pair by one quote. -/
theorem undouble?_inverts_double (cs ds : List Char) :
    (undouble? cs = some ds ↔ cs = double ds) ∧
      (undouble? cs = none ↔ ∃ front n rest, IsRun cs front n rest ∧ n % 2 = 1) ∧
      undouble? cs =
        if quote ∈ replacePairs [] cs then none else some (replacePairs [quote] cs) :=
  ⟨undouble?_eq_some_iff, undouble?_eq_none_iff, undouble?_eq_replacePairs cs⟩

/-! ## Closing a constant -/

/-- The run of quotes that closes a constant, in the text behind its opening quote: the first run
that stands before a separator, or else the last run. -/
inductive Closes (cs front : List Char) (n : Nat) (rest : List Char) : Prop
  | separated (run : IsRun cs front n rest) (separator : separates rest = true)
      (first : ∀ front' n' rest', IsRun cs front' n' rest' → separates rest' = true →
        front.length ≤ front'.length)
  | last (run : IsRun cs front n rest)
      (unseparated : ∀ front' n' rest', IsRun cs front' n' rest' → separates rest' = false)
      (last : ∀ front' n' rest', IsRun cs front' n' rest' → front'.length ≤ front.length)

section Closing

variable {cs front rest front' rest' : List Char} {n n' : Nat}

theorem Closes.isRun (h : Closes cs front n rest) : IsRun cs front n rest := by
  cases h with
  | separated run => exact run
  | last run => exact run

/-- One run closes a constant at most. -/
theorem Closes.unique (h : Closes cs front n rest) (h' : Closes cs front' n' rest') :
    front = front' ∧ n = n' ∧ rest = rest' := by
  have hrun := h.isRun
  have hrun' := h'.isRun
  apply hrun.unique hrun'
  cases h with
  | separated _ separator first =>
    cases h' with
    | separated _ separator' first' =>
      exact Nat.le_antisymm (first _ _ _ hrun' separator') (first' _ _ _ hrun separator)
    | last _ unseparated => simp [unseparated _ _ _ hrun] at separator
  | last _ unseparated last =>
    cases h' with
    | separated _ separator' => simp [unseparated _ _ _ hrun'] at separator'
    | last _ _ last' => exact Nat.le_antisymm (last' _ _ _ hrun) (last _ _ _ hrun')

/-- What closes a text closes it behind other characters as well. -/
theorem Closes.cons_of_ne {c : Char} (hc : c ≠ quote) (h : Closes cs front n rest) :
    Closes (c :: cs) (c :: front) n rest := by
  have hrun := (isRun_cons_of_ne hc).2 ⟨front, rfl, h.isRun⟩
  cases h with
  | separated _ separator first =>
    refine .separated hrun separator fun front' n' rest' hother hseparator => ?_
    obtain ⟨front'', rfl, hlater⟩ := (isRun_cons_of_ne hc).1 hother
    exact Nat.succ_le_succ (first _ _ _ hlater hseparator)
  | last _ unseparated last =>
    refine .last hrun (fun front' n' rest' hother => ?_) fun front' n' rest' hother => ?_
    · obtain ⟨front'', -, hlater⟩ := (isRun_cons_of_ne hc).1 hother
      exact unseparated _ _ _ hlater
    · obtain ⟨front'', rfl, hlater⟩ := (isRun_cons_of_ne hc).1 hother
      exact Nat.succ_le_succ (last _ _ _ hlater)

/-- What closes a text closes it behind a run that no separator follows. -/
theorem Closes.replicate_append (hpositive : 0 < n) (hbehind : rest.head? ≠ some quote)
    (hinside : separates rest = false) (h : Closes rest front' n' rest') :
    Closes (List.replicate n quote ++ rest) (List.replicate n quote ++ front') n' rest' := by
  have hruns {front'' rest'' : List Char} {m : Nat} :
      IsRun (List.replicate n quote ++ rest) front'' m rest'' ↔
        (front'' = [] ∧ m = n ∧ rest'' = rest) ∨
          ∃ front, front'' = List.replicate n quote ++ front ∧ IsRun rest front m rest'' :=
    isRun_replicate_append hpositive hbehind
  have hrun := hruns.2 (.inr ⟨front', rfl, h.isRun⟩)
  cases h with
  | separated _ separator first =>
    refine .separated hrun separator fun front'' m rest'' hother hseparator => ?_
    obtain ⟨-, -, rfl⟩ | ⟨front'', rfl, hlater⟩ := hruns.1 hother
    · rw [hinside] at hseparator
      cases hseparator
    · simpa using first _ _ _ hlater hseparator
  | last _ unseparated last =>
    refine .last hrun (fun front'' m rest'' hother => ?_) fun front'' m rest'' hother => ?_
    · obtain ⟨-, -, rfl⟩ | ⟨front'', rfl, hlater⟩ := hruns.1 hother
      · exact hinside
      · exact unseparated _ _ _ hlater
    · obtain ⟨rfl, -, -⟩ | ⟨front'', rfl, hlater⟩ := hruns.1 hother
      · exact Nat.zero_le _
      · simpa using last _ _ _ hlater

/-- A run behind which no quote stands is the only one. -/
theorem closes_replicate_append (hpositive : 0 < n) (hbehind : rest.head? ≠ some quote)
    (hinside : separates rest = false) (hnone : quote ∉ rest) :
    Closes (List.replicate n quote ++ rest) [] n rest := by
  have honly : ∀ front' n' rest', IsRun (List.replicate n quote ++ rest) front' n' rest' →
      front' = [] ∧ rest' = rest := by
    intro front' n' rest' hrun
    obtain ⟨hfront, -, hrest⟩ | ⟨front, -, hlater⟩ :=
      (isRun_replicate_append hpositive hbehind).1 hrun
    · exact ⟨hfront, hrest⟩
    · exact absurd hlater.quote_mem hnone
  refine .last (isRun_first hpositive hbehind) ?_ ?_
  · intro front' n' rest' hrun
    rw [(honly _ _ _ hrun).2]
    exact hinside
  · intro front' n' rest' hrun
    rw [(honly _ _ _ hrun).1]

theorem close?_eq_none_iff : close? cs = none ↔ quote ∉ cs := by
  induction cs with
  | nil => simp [close?]
  | cons c cs ih =>
    by_cases hc : c = quote
    · subst hc
      refine iff_of_false ?_ (by simp)
      rw [close?]
      split
      · split
        · simp
        · split <;> simp
      · rename_i hmore
        have hquote : quote ∈ cs := by
          simp only [true_and, not_not] at hmore
          exact List.mem_of_head? hmore
        rw [Option.map_eq_none_iff, ih]
        exact fun hnone => hnone hquote
    · simp [close?_cons_of_ne hc, ih, Ne.symm hc]

/-- A constant that is closed is closed by the right run. -/
theorem exists_closes_of_close? {inside : List Char} (h : close? cs = some (inside, rest)) :
    ∃ front n, Closes cs front n rest ∧ inside = front ++ List.replicate n quote := by
  induction cs using run_induction generalizing inside rest with
  | nil => cases h
  | other c cs hc ih =>
    rw [close?_cons_of_ne hc] at h
    obtain ⟨⟨inside, rest⟩, hclose, heq⟩ := Option.map_eq_some_iff.1 h
    cases heq
    obtain ⟨front, n, hcloses, rfl⟩ := ih hclose
    exact ⟨c :: front, n, hcloses.cons_of_ne hc, rfl⟩
  | run n behind hpositive hbehind ih =>
    obtain ⟨m, rfl⟩ := Nat.exists_eq_add_one.2 hpositive
    have hquotes : ∀ c ∈ List.replicate m quote, c = quote :=
      fun c hc => List.eq_of_mem_replicate hc
    have hclose := close?_run hquotes hbehind
    rw [← List.cons_append, ← List.replicate_succ] at hclose
    rw [hclose] at h
    split at h
    · rename_i hseparator
      cases h
      have hrun := isRun_first hpositive hbehind
      exact ⟨[], m + 1, .separated hrun hseparator fun _ _ _ _ _ => Nat.zero_le _, rfl⟩
    · rename_i hinside
      rw [Bool.not_eq_true] at hinside
      cases hlater : close? behind with
      | some found =>
        obtain ⟨inside', rest'⟩ := found
        rw [hlater] at h
        cases h
        obtain ⟨front, n', hcloses, rfl⟩ := ih hlater
        exact ⟨_, n', hcloses.replicate_append hpositive hbehind hinside,
          (List.append_assoc ..).symm⟩
      | none =>
        rw [hlater] at h
        cases h
        exact ⟨[], m + 1, closes_replicate_append hpositive hbehind hinside
          (close?_eq_none_iff.1 hlater), rfl⟩

theorem close?_eq_some_iff {inside : List Char} :
    close? cs = some (inside, rest) ↔
      ∃ front n, Closes cs front n rest ∧ inside = front ++ List.replicate n quote := by
  constructor
  · exact exists_closes_of_close?
  · rintro ⟨front, n, hcloses, rfl⟩
    have hsome : close? cs ≠ none := fun hnone =>
      close?_eq_none_iff.1 hnone hcloses.isRun.quote_mem
    obtain ⟨⟨inside', rest'⟩, hclose⟩ := Option.ne_none_iff_exists'.1 hsome
    obtain ⟨front', n', hcloses', rfl⟩ := exists_closes_of_close? hclose
    obtain ⟨rfl, rfl, rfl⟩ := hcloses.unique hcloses'
    exact hclose

/-- The first run is inside the string and the second one closes it. A third one follows. -/
example : close? "IT'''S',X'".toList = some ("IT'''S'".toList, ",X'".toList) := by decide

end Closing

end Text.Quoted

namespace Token

open Text.Quoted (quote close?)

/-- The rule is for strings that begin with the opening text. It matches there if a quote follows,
up to the run of quotes that closes the string. No other rule comes before it, and the scanner
takes the same token. -/
structure Rule.TakesStrings (rule : Rule) (opening : List Char) : Prop where
  isSome_iff : ∀ cs, (rule.match? (opening ++ cs)).isSome = true ↔ quote ∈ cs
  eq_some_iff : ∀ cs l, rule.match? (opening ++ cs) = some l ↔
    ∃ front n rest, Text.Quoted.Closes cs front n rest ∧
      l = ⟨rule.kind, opening ++ (front ++ List.replicate n quote), rest⟩
  firstMatch?_eq : ∀ w gr8 cs, rule ∈ rules w gr8 ∧
    firstMatch? w gr8 (opening ++ cs) = rule.match? (opening ++ cs)
  first?_eq : ∀ gr8 cs, Lexeme.first? gr8 (opening ++ cs) = rule.match? (opening ++ cs)

/-- A rule takes strings if it matches behind its opening text as far as the string is closed. -/
theorem Rule.takesStrings {rule : Rule} {c : Char} {opening : List Char}
    (hmem : ∀ w gr8, rule ∈ rules w gr8) (hc : c.isUpper = false)
    (hmatch : ∀ cs, rule.match? (c :: opening ++ cs) = (close? cs).map fun found =>
      ⟨rule.kind, c :: opening ++ found.1, found.2⟩)
    (hfirst : ∀ gr8 cs, Lexeme.first? gr8 (c :: opening ++ cs) = rule.match? (c :: opening ++ cs)) :
    rule.TakesStrings (c :: opening) where
  isSome_iff cs := by
    rw [hmatch, Option.isSome_map, Option.isSome_iff_ne_none, Ne,
      Text.Quoted.close?_eq_none_iff, not_not]
  eq_some_iff cs l := by
    rw [hmatch, Option.map_eq_some_iff]
    constructor
    · rintro ⟨⟨inside, rest⟩, hclose, rfl⟩
      obtain ⟨front, n, hcloses, rfl⟩ := Text.Quoted.close?_eq_some_iff.1 hclose
      exact ⟨front, n, rest, hcloses, rfl⟩
    · rintro ⟨front, n, rest, hcloses, rfl⟩
      exact ⟨_, Text.Quoted.close?_eq_some_iff.2 ⟨front, n, hcloses, rfl⟩, rfl⟩
  firstMatch?_eq w gr8 cs := by
    refine ⟨hmem w gr8, ?_⟩
    rw [← hfirst gr8 cs]
    exact firstMatch?_of_not_isUpper w gr8 (opening ++ cs) hc
  first?_eq := hfirst

/-- The rule for strings, which are written as constants. -/
def Rule.string : Rule := ⟨.constant .string, Rule.constant .string⟩

/-- The rule for strings that are written as literals. -/
def Rule.stringLiteral : Rule := ⟨.literal .string, .seq (.char (· == '=')) (Rule.constant .string)⟩

/-- Both kinds of strings are closed by the first run of quotes before a separator or, without
one, by the last run of quotes. -/
theorem takesStrings_rules :
    Rule.string.TakesStrings [quote] ∧ Rule.stringLiteral.TakesStrings ['=', quote] := by
  have hstring (cs : List Char) : Rule.string.match? (quote :: cs) = (close? cs).map fun found =>
      ⟨.constant .string, quote :: found.1, found.2⟩ := by
    rw [Rule.match?_of_finds (Rule.finds_constant .string)]
    simp [Rule.constantText?, Pattern.behind?, Rule.string, Function.comp_def]
  have hliteral (cs : List Char) : Rule.stringLiteral.match? ('=' :: quote :: cs) =
      (close? cs).map fun found => ⟨.literal .string, '=' :: quote :: found.1, found.2⟩ := by
    rw [Rule.match?_of_finds ((Rule.finds_constant .string).behind _)]
    simp [Rule.constantText?, Pattern.behind?, Rule.stringLiteral, Function.comp_def]
  constructor
  · refine Rule.takesStrings (fun w gr8 => ?_) rfl hstring fun gr8 cs => ?_
    · simp [rules, Rule.forms, Rule.string]
    · rw [List.cons_append, List.nil_append, hstring]
      rfl
  · refine Rule.takesStrings (fun w gr8 => ?_) rfl hliteral fun gr8 cs => ?_
    · simp [rules, Rule.forms, Rule.stringLiteral]
    · rw [List.cons_append, List.cons_append, List.nil_append, hliteral]
      exact Option.map_map ..

end Token

end Comet
