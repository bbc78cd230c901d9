/-!
# Association lists

A finite map as a list of pairs with distinct keys, in the order in which the
keys were first inserted. Inserting a value for a key that is present replaces
the old value in its place.
-/

namespace Comet.Assoc

variable {κ α : Type}

/-- The keys in the order in which they were first inserted. -/
def keys (xs : List (κ × α)) : List κ := xs.map Prod.fst

@[simp] theorem keys_nil : keys ([] : List (κ × α)) = [] := rfl

@[simp] theorem keys_cons (x : κ × α) (xs : List (κ × α)) : keys (x :: xs) = x.1 :: keys xs := rfl

@[simp] theorem length_keys (xs : List (κ × α)) : (keys xs).length = xs.length :=
  List.length_map _

variable [DecidableEq κ]

/-- The value of a key. -/
def get? (k : κ) : List (κ × α) → Option α
  | [] => none
  | (k', a) :: rest => if k' = k then some a else get? k rest

/-- Sets the value of a key. -/
def insert (k : κ) (a : α) : List (κ × α) → List (κ × α)
  | [] => [(k, a)]
  | (k', a') :: rest => if k' = k then (k, a) :: rest else (k', a') :: insert k a rest

/-- Changes the value of a key that is present. -/
def modify (k : κ) (f : α → α) : List (κ × α) → List (κ × α)
  | [] => []
  | (k', a) :: rest => if k' = k then (k', f a) :: rest else (k', a) :: modify k f rest

@[simp] theorem get?_nil (k : κ) : get? k ([] : List (κ × α)) = none := rfl

theorem get?_insert (k k' : κ) (a : α) (xs : List (κ × α)) :
    get? k' (insert k a xs) = if k = k' then some a else get? k' xs := by
  induction xs with
  | nil => rfl
  | cons x xs ih =>
    obtain ⟨y, b⟩ := x
    by_cases hy : y = k
    · subst hy
      by_cases hk : y = k' <;> simp [insert, get?, hk]
    · by_cases hk : y = k'
      · subst hk
        simp [insert, get?, hy, Ne.symm hy]
      · simp [insert, get?, hy, hk, ih]

theorem get?_modify (k k' : κ) (f : α → α) (xs : List (κ × α)) :
    get? k' (modify k f xs) = if k = k' then (get? k' xs).map f else get? k' xs := by
  induction xs with
  | nil => simp [modify]
  | cons x xs ih =>
    obtain ⟨y, b⟩ := x
    by_cases hy : y = k
    · subst hy
      by_cases hk : y = k' <;> simp [modify, get?, hk]
    · by_cases hk : y = k'
      · subst hk
        simp [modify, get?, hy, Ne.symm hy]
      · simp [modify, get?, hy, hk, ih]

theorem get?_eq_none_iff {k : κ} {xs : List (κ × α)} : get? k xs = none ↔ k ∉ keys xs := by
  induction xs with
  | nil => simp
  | cons x xs ih =>
    obtain ⟨y, b⟩ := x
    by_cases hy : y = k
    · simp [get?, hy]
    · simp [get?, hy, Ne.symm hy, ih]

/-- A new key comes last, and a key that is present keeps its place. -/
theorem keys_insert (k : κ) (a : α) (xs : List (κ × α)) :
    keys (insert k a xs) = if k ∈ keys xs then keys xs else keys xs ++ [k] := by
  induction xs with
  | nil => rfl
  | cons x xs ih =>
    obtain ⟨y, b⟩ := x
    by_cases hy : y = k
    · simp [insert, hy]
    · by_cases hk : k ∈ keys xs <;> simp [insert, hy, Ne.symm hy, ih, hk]

theorem nodup_keys_insert {xs : List (κ × α)} (h : (keys xs).Nodup) (k : κ) (a : α) :
    (keys (insert k a xs)).Nodup := by
  rw [keys_insert]
  split
  · exact h
  · rename_i hnew
    refine List.nodup_append.2 ⟨h, List.pairwise_singleton _ k, ?_⟩
    intro y hy z hz heq
    exact hnew (List.mem_singleton.1 hz ▸ heq ▸ hy)

theorem length_insert_of_get?_eq_none {k : κ} {xs : List (κ × α)} (h : get? k xs = none) (a : α) :
    (insert k a xs).length = xs.length + 1 := by
  rw [← length_keys, keys_insert, if_neg (get?_eq_none_iff.1 h), List.length_append, length_keys]
  rfl

@[simp] theorem keys_modify (k : κ) (f : α → α) (xs : List (κ × α)) :
    keys (modify k f xs) = keys xs := by
  induction xs with
  | nil => rfl
  | cons x xs ih =>
    obtain ⟨y, b⟩ := x
    by_cases hy : y = k
    · simp [modify, hy]
    · simp [modify, hy, ih]

/-- If the keys differ, looking up a key finds the one pair that has it. -/
theorem get?_eq_some_iff {xs : List (κ × α)} (h : (keys xs).Nodup) {k : κ} {a : α} :
    get? k xs = some a ↔ (k, a) ∈ xs := by
  induction xs with
  | nil => simp
  | cons x xs ih =>
    obtain ⟨y, b⟩ := x
    obtain ⟨hnotin, hrest⟩ := List.nodup_cons.1 h
    by_cases hy : y = k
    · subst hy
      have habsent : (y, a) ∉ xs := fun hmem => hnotin (List.mem_map.2 ⟨_, hmem, rfl⟩)
      simp [get?, habsent, eq_comm]
    · simp [get?, hy, Ne.symm hy, ih hrest]

end Comet.Assoc
