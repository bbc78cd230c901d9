import Mathlib.Algebra.GroupWithZero.Nat
import Mathlib.Data.List.Forall2

/-!
# Traversals and concatenations

Lines are read and records are encoded one after another, and the first failure
stops the traversal. A traversal that does not stop relates the two lists element
by element.

What every element gives is concatenated, and the part of an element stands behind
the parts of all earlier ones. The second half of this file finds such parts.
-/

namespace Comet.Traversal

variable {ε α β : Type} {f : α → Except ε β}

theorem bind_eq_ok {x : Except ε α} {f : α → Except ε β} {b : β} :
    (x >>= f) = .ok b ↔ ∃ a, x = .ok a ∧ f a = .ok b := by
  cases x with
  | error e => simp [bind, Except.bind]
  | ok a => simp [bind, Except.bind]

/-- What is known of every result of the first step is known of the one that was used. -/
theorem exists_of_bind {x : Except ε α} {f : α → Except ε β} {P : α → Prop} {b : β}
    (hx : ∀ a, x = .ok a → P a) (h : (x >>= f) = .ok b) : ∃ a, P a ∧ f a = .ok b := by
  obtain ⟨a, ha, hb⟩ := bind_eq_ok.1 h
  exact ⟨a, hx a ha, hb⟩

theorem bind_pure_eq_ok {x : Except ε α} {g : α → β} {b : β} :
    (x >>= fun a => pure (g a)) = .ok b ↔ ∃ a, x = .ok a ∧ b = g a := by
  rw [bind_eq_ok]
  simp only [pure, Except.pure, Except.ok.injEq, eq_comm]

theorem bind_pure_eq_error {x : Except ε α} {g : α → β} {e : ε} :
    (x >>= fun a => pure (g a)) = .error e ↔ x = .error e := by
  cases x <;> simp [bind, Except.bind, pure, Except.pure]

theorem toOption_eq_some {x : Except ε α} {a : α} : x.toOption = some a ↔ x = .ok a := by
  cases x <;> simp [Except.toOption]

theorem map_eq_ok {x : Except ε α} {g : α → β} {b : β} :
    x.map g = .ok b ↔ ∃ a, x = .ok a ∧ g a = b := by
  cases x <;> simp [Except.map]

/-- A traversal succeeds exactly if every element does, in every monad in which a step
succeeds exactly if both of its parts do. -/
theorem mapM_eq_pure_iff {m : Type → Type} [Monad m] [LawfulMonad m] {f : α → m β}
    (hpure : ∀ {γ : Type} {a b : γ}, (pure a : m γ) = pure b → a = b)
    (hbind : ∀ {γ δ : Type} {x : m γ} {g : γ → m δ} {b : δ},
      (x >>= g) = pure b ↔ ∃ a, x = pure a ∧ g a = pure b) {xs : List α} {ys : List β} :
    xs.mapM f = pure ys ↔ List.Forall₂ (fun x y => f x = pure y) xs ys := by
  induction xs generalizing ys with
  | nil =>
    rw [List.mapM_nil, List.forall₂_nil_left_iff]
    exact ⟨fun h => (hpure h).symm, fun h => h ▸ rfl⟩
  | cons x xs ih =>
    rw [List.mapM_cons, List.forall₂_cons_left_iff, hbind]
    constructor
    · rintro ⟨y, hy, h⟩
      obtain ⟨rest, hrest, h⟩ := hbind.1 h
      exact ⟨y, rest, hy, ih.1 hrest, (hpure h).symm⟩
    · rintro ⟨y, rest, hy, hrest, rfl⟩
      exact ⟨y, hy, hbind.2 ⟨rest, ih.2 hrest, rfl⟩⟩

theorem mapM_eq_ok_iff {xs : List α} {ys : List β} :
    xs.mapM f = .ok ys ↔ List.Forall₂ (fun x y => f x = .ok y) xs ys :=
  mapM_eq_pure_iff Except.ok.inj bind_eq_ok

theorem mapM_eq_some_iff {f : α → Option β} {xs : List α} {ys : List β} :
    xs.mapM f = some ys ↔ List.Forall₂ (fun x y => f x = some y) xs ys :=
  mapM_eq_pure_iff Option.some.inj Option.bind_eq_some_iff

theorem length_of_mapM {xs : List α} {ys : List β} (h : xs.mapM f = .ok ys) :
    ys.length = xs.length :=
  (mapM_eq_ok_iff.1 h).length_eq.symm

theorem getElem?_of_mapM {xs : List α} {ys : List β} (h : xs.mapM f = .ok ys) {i : Nat} {x : α}
    (hx : xs[i]? = some x) : ∃ y, ys[i]? = some y ∧ f x = .ok y := by
  replace h := mapM_eq_ok_iff.1 h
  induction h generalizing i with
  | nil => simp at hx
  | @cons a b as bs hab _ ih =>
    cases i with
    | zero =>
      cases hx
      exact ⟨b, rfl, hab⟩
    | succ i => exact ih hx

/-- Of two lists that correspond, what is in the second comes from the first. -/
theorem exists_of_mem_forall₂ {R : α → β → Prop} {xs : List α} {ys : List β}
    (h : List.Forall₂ R xs ys) {y : β} (hy : y ∈ ys) : ∃ x ∈ xs, R x y := by
  induction h with
  | nil => cases hy
  | cons hab _ ih =>
    rcases List.mem_cons.1 hy with rfl | hy
    · exact ⟨_, .head _, hab⟩
    · obtain ⟨x, hx, hxy⟩ := ih hy
      exact ⟨x, .tail _ hx, hxy⟩

theorem exists_of_mem_mapM {xs : List α} {ys : List β} (h : xs.mapM f = .ok ys) {y : β}
    (hy : y ∈ ys) : ∃ x ∈ xs, f x = .ok y :=
  exists_of_mem_forall₂ (mapM_eq_ok_iff.1 h) hy

/-- What holds of every result holds of all of them. -/
theorem exists_mapM_eq_ok {P : β → Prop} {xs : List α}
    (h : ∀ x ∈ xs, ∃ y, f x = .ok y ∧ P y) : ∃ ys, xs.mapM f = .ok ys ∧ ∀ y ∈ ys, P y := by
  induction xs with
  | nil => exact ⟨[], rfl, by simp⟩
  | cons x xs ih =>
    obtain ⟨y, hy, hP⟩ := h x (.head xs)
    obtain ⟨ys, hys, hall⟩ := ih fun x hx => h x (.tail _ hx)
    refine ⟨y :: ys, ?_, List.forall_mem_cons.2 ⟨hP, hall⟩⟩
    rw [List.mapM_cons, hy, hys]
    rfl

theorem exists_mapM {xs : List α} (h : ∀ x ∈ xs, ∃ y, f x = .ok y) : ∃ ys, xs.mapM f = .ok ys := by
  have htrue : ∀ x ∈ xs, ∃ y, f x = .ok y ∧ True := fun x hx =>
    (h x hx).imp fun _ hy => ⟨hy, trivial⟩
  exact (exists_mapM_eq_ok htrue).imp fun _ hys => hys.1

/-- A traversal fails with the error of an element. -/
theorem exists_of_mapM_eq_error {xs : List α} {e : ε} (h : xs.mapM f = .error e) :
    ∃ x ∈ xs, f x = .error e := by
  induction xs with
  | nil => cases h
  | cons x xs ih =>
    rw [List.mapM_cons] at h
    cases hx : f x with
    | error e' =>
      rw [hx] at h
      cases h
      exact ⟨x, .head xs, hx⟩
    | ok y =>
      cases hxs : xs.mapM f with
      | error e' =>
        rw [hx, hxs] at h
        cases h
        obtain ⟨x', hx', herror⟩ := ih hxs
        exact ⟨x', .tail _ hx', herror⟩
      | ok ys =>
        rw [hx, hxs] at h
        cases h

/-- If the errors of every element correspond, so do those of the traversals. -/
theorem mapM_map_eq_mapError {ε' γ : Type} {f : α → Except ε β} {f' : γ → Except ε' β} {g : α → γ}
    {h : ε → ε'} {xs : List α} (hf : ∀ x ∈ xs, f' (g x) = (f x).mapError h) :
    (xs.map g).mapM f' = (xs.mapM f).mapError h := by
  induction xs with
  | nil => rfl
  | cons x xs ih =>
    rw [List.map_cons, List.mapM_cons, List.mapM_cons, hf x (.head xs),
      ih fun x hx => hf x (.tail _ hx)]
    cases f x with
    | error e => rfl
    | ok y => cases xs.mapM f <;> rfl

/-- Lists that correspond place by place. -/
theorem forall₂_of_getElem? {R : α → β → Prop} {xs : List α} {ys : List β} {f : Nat → α → β}
    (h : ∀ i, ys[i]? = xs[i]?.map (f i)) (hR : ∀ i x, xs[i]? = some x → R x (f i x)) :
    List.Forall₂ R xs ys := by
  induction xs generalizing ys f with
  | nil =>
    cases ys with
    | nil => exact .nil
    | cons y ys => cases h 0
  | cons x xs ih =>
    cases ys with
    | nil => cases h 0
    | cons y ys =>
      cases Option.some.inj (h 0)
      exact .cons (hR 0 x rfl) (ih (fun i => h (i + 1)) fun i x hx => hR (i + 1) x hx)

theorem eq_take_append_cons {xs : List α} {i : Nat} {a : α} (h : xs[i]? = some a) :
    xs = xs.take i ++ a :: xs.drop (i + 1) := by
  obtain ⟨hi, rfl⟩ := List.getElem?_eq_some_iff.1 h
  rw [← List.drop_eq_getElem_cons hi, List.take_append_drop]

theorem getElem?_of_slice {xs part : List α} {start k : Nat}
    (h : (xs.drop start).take part.length = part) (hk : k < part.length) :
    xs[start + k]? = part[k]? := by
  conv_rhs => rw [← h]
  rw [List.getElem?_take_of_lt hk, List.getElem?_drop]

/-- Numbering elements does not change a sum over them. -/
theorem map_zipIdx_take {f : α → Nat} {g : α × Nat → Nat} (hg : ∀ p, g p = f p.1)
    (xs : List α) (start i : Nat) : ((xs.zipIdx start).take i).map g = (xs.take i).map f := by
  rw [List.map_take, List.map_take]
  conv_rhs => rw [← List.zipIdx_map_fst start xs]
  rw [List.map_map]
  exact congrArg _ (List.map_congr_left fun p _ => hg p)

/-- The part of an element stands behind the parts of all earlier ones. -/
theorem slice_flatMap {f : α → List β} {xs : List α} {i : Nat} {a : α} (h : xs[i]? = some a) :
    ((xs.flatMap f).drop ((xs.take i).map fun a => (f a).length).sum).take (f a).length = f a := by
  conv_lhs =>
    enter [2, 2]
    rw [eq_take_append_cons h, List.flatMap_append, List.flatMap_cons]
  rw [← List.length_flatMap, List.drop_left, List.take_left]

/-- Conversely, whatever stands in a concatenation belongs to the part of some element. -/
theorem exists_of_getElem?_flatMap {f : α → List β} {xs : List α} {k : Nat} {b : β}
    (h : (xs.flatMap f)[k]? = some b) :
    ∃ i a j, xs[i]? = some a ∧ (f a)[j]? = some b ∧
      k = ((xs.take i).map fun a => (f a).length).sum + j := by
  induction xs generalizing k with
  | nil => simp at h
  | cons x xs ih =>
    rw [List.flatMap_cons] at h
    by_cases hk : k < (f x).length
    · rw [List.getElem?_append_left hk] at h
      exact ⟨0, x, k, rfl, h, by simp⟩
    · rw [List.getElem?_append_right (Nat.le_of_not_lt hk)] at h
      obtain ⟨i, a, j, ha, hb, hj⟩ := ih h
      refine ⟨i + 1, a, j, ha, hb, ?_⟩
      rw [List.take_succ_cons, List.map_cons, List.sum_cons]
      omega

end Comet.Traversal
