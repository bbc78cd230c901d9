import Comet.Text.Blank

/-!
# Quoted strings

A string constant stands between single quotes, and a quote that belongs to the
string is written twice. `double` writes the inside of a constant and `undouble?`
reads it back, refusing a quote that stands alone.

Where a constant ends is decided before its inside is looked at. A run of quotes
closes the constant when a separator follows it: the end of the line, a comma, a
semicolon or a blank. A line on which no run is followed so is closed by its last
run, so that the mistake is reported for the constant and not for the line.
-/

namespace Comet.Text.Quoted

/-- The quote that delimits a string constant. -/
def quote : Char := '\''

/-- The inside of the constant that denotes `cs`: every quote is written twice. -/
def double : List Char → List Char
  | [] => []
  | c :: cs => if c = quote then quote :: quote :: double cs else c :: double cs

/-- The string that the inside of a constant denotes, if no quote stands alone. -/
def undouble? : List Char → Option (List Char)
  | [] => some []
  | [c] => if c = quote then none else some [c]
  | c :: d :: cs =>
    if c = quote then
      if d = quote then (undouble? cs).map (quote :: ·) else none
    else (undouble? (d :: cs)).map (c :: ·)

@[simp] theorem undouble?_nil : undouble? [] = some [] := rfl

theorem undouble?_cons_of_ne {c : Char} (h : c ≠ quote) (cs : List Char) :
    undouble? (c :: cs) = (undouble? cs).map (c :: ·) := by
  cases cs <;> simp [undouble?, h]

@[simp] theorem undouble?_quote_quote (cs : List Char) :
    undouble? (quote :: quote :: cs) = (undouble? cs).map (quote :: ·) := by
  simp [undouble?]

/-- Reading undoes writing. -/
@[simp] theorem undouble?_double (cs : List Char) : undouble? (double cs) = some cs := by
  induction cs with
  | nil => rfl
  | cons c cs ih =>
    by_cases h : c = quote
    · simp [double, h, ih]
    · simp [double, h, undouble?_cons_of_ne h, ih]

/-- Writing undoes reading. -/
theorem eq_double_of_undouble? {cs ds : List Char} (h : undouble? cs = some ds) :
    cs = double ds := by
  induction cs using undouble?.induct generalizing ds with
  | case1 =>
    cases h
    rfl
  | case2 => simp [undouble?] at h
  | case3 c hc =>
    obtain rfl : [c] = ds := by simpa [undouble?, hc] using h
    simp [double, hc]
  | case4 cs ih =>
    rw [undouble?_quote_quote] at h
    obtain ⟨es, hes, rfl⟩ := Option.map_eq_some_iff.1 h
    simp [double, ih hes]
  | case5 d cs hd => simp [undouble?, hd] at h
  | case6 c d cs hc ih =>
    rw [undouble?_cons_of_ne hc] at h
    obtain ⟨es, hes, rfl⟩ := Option.map_eq_some_iff.1 h
    simp [double, hc, ih hes]

/-- Reading accepts exactly what writing gives. -/
theorem undouble?_eq_some_iff {cs ds : List Char} : undouble? cs = some ds ↔ cs = double ds :=
  ⟨eq_double_of_undouble?, fun h => h ▸ undouble?_double ds⟩

/-- A separator or the end of the line. -/
def separates : List Char → Bool
  | [] => true
  | c :: _ => c == ',' || c == ';' || isBlank c

/-- Splits the text after an opening quote into the rest of the constant, with
its closing quotes, and what follows it. There is no constant without a further
quote. -/
def close? : List Char → Option (List Char × List Char)
  | [] => none
  | c :: cs =>
    if c = quote ∧ cs.head? ≠ some quote then
      if separates cs then some ([c], cs)
      else match close? cs with
        | some (inside, rest) => some (c :: inside, rest)
        | none => some ([c], cs)
    else (close? cs).map fun (inside, rest) => (c :: inside, rest)

/-- Closing a constant loses no character. -/
theorem append_of_close? {cs inside rest : List Char} (h : close? cs = some (inside, rest)) :
    inside ++ rest = cs := by
  induction cs generalizing inside rest with
  | nil => simp [close?] at h
  | cons c cs ih =>
    rw [close?] at h
    split at h
    · split at h
      · simp only [Option.some.injEq, Prod.mk.injEq] at h
        simp [← h.1, ← h.2]
      · split at h
        · rename_i hc
          simp only [Option.some.injEq, Prod.mk.injEq] at h
          simp [← h.1, ← h.2, ih hc]
        · simp only [Option.some.injEq, Prod.mk.injEq] at h
          simp [← h.1, ← h.2]
    · obtain ⟨⟨i, r⟩, hc, he⟩ := Option.map_eq_some_iff.1 h
      simp only [Prod.mk.injEq] at he
      simp [← he.1, ← he.2, ih hc]

/-- A constant is closed by a quote. -/
theorem getLast?_of_close? {cs inside rest : List Char} (h : close? cs = some (inside, rest)) :
    inside.getLast? = some quote := by
  induction cs generalizing inside rest with
  | nil => simp [close?] at h
  | cons c cs ih =>
    rw [close?] at h
    split at h
    · rename_i hq
      split at h
      · simp only [Option.some.injEq, Prod.mk.injEq] at h
        simp [← h.1, hq.1]
      · split at h
        · rename_i hc
          simp only [Option.some.injEq, Prod.mk.injEq] at h
          simp [← h.1, List.getLast?_cons, ih hc]
        · simp only [Option.some.injEq, Prod.mk.injEq] at h
          simp [← h.1, hq.1]
    · obtain ⟨⟨i, r⟩, hc, he⟩ := Option.map_eq_some_iff.1 h
      simp only [Prod.mk.injEq] at he
      simp [← he.1, List.getLast?_cons, ih hc]

end Comet.Text.Quoted
