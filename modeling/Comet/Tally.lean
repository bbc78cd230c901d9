/-!
# Running totals

Three numbers of a record are totals over the records before it: its offset, its
scope and the number of its first literal. `running` pairs every element of a
list with such a total.
-/

namespace Comet.Tally

variable {α : Type}

/-- The sum of `f` over a list. -/
def total (f : α → Nat) (xs : List α) : Nat :=
  xs.foldl (fun sum x => sum + f x) 0

private theorem foldl_add (f : α → Nat) (xs : List α) (start : Nat) :
    xs.foldl (fun sum x => sum + f x) start = start + total f xs := by
  induction xs generalizing start with
  | nil => rfl
  | cons x xs ih =>
    simp only [total, List.foldl_cons, Nat.zero_add]
    rw [ih (start + f x), ih (f x), Nat.add_assoc]

@[simp] theorem total_nil (f : α → Nat) : total f [] = 0 := rfl

@[simp] theorem total_cons (f : α → Nat) (x : α) (xs : List α) :
    total f (x :: xs) = f x + total f xs := by
  rw [total, List.foldl_cons, Nat.zero_add, foldl_add]

@[simp] theorem total_append (f : α → Nat) (xs ys : List α) :
    total f (xs ++ ys) = total f xs + total f ys := by
  induction xs with
  | nil => simp
  | cons x xs ih => simp [ih, Nat.add_assoc]

private def runningFrom (f : α → Nat) (done : List (Nat × α)) (start : Nat) :
    List α → List (Nat × α)
  | [] => done.reverse
  | x :: xs => runningFrom f ((start, x) :: done) (start + f x) xs

private theorem runningFrom_eq (f : α → Nat) (done : List (Nat × α)) (start : Nat)
    (xs : List α) :
    runningFrom f done start xs = done.reverse ++ runningFrom f [] start xs := by
  induction xs generalizing done start with
  | nil => simp [runningFrom]
  | cons x xs ih =>
    rw [runningFrom, ih, runningFrom, ih [(start, x)]]
    simp

/-- Every element with `start` plus the sum of `f` over the elements before it. -/
def running (f : α → Nat) (start : Nat) (xs : List α) : List (Nat × α) :=
  runningFrom f [] start xs

@[simp] theorem running_nil (f : α → Nat) (start : Nat) : running f start [] = [] := rfl

@[simp] theorem running_cons (f : α → Nat) (start : Nat) (x : α) (xs : List α) :
    running f start (x :: xs) = (start, x) :: running f (start + f x) xs := by
  rw [running, runningFrom, runningFrom_eq]
  rfl

@[simp] theorem length_running (f : α → Nat) (start : Nat) (xs : List α) :
    (running f start xs).length = xs.length := by
  induction xs generalizing start with
  | nil => rfl
  | cons x xs ih => simp [ih]

@[simp] theorem map_snd_running (f : α → Nat) (start : Nat) (xs : List α) :
    (running f start xs).map Prod.snd = xs := by
  induction xs generalizing start with
  | nil => rfl
  | cons x xs ih => simp [ih]

end Comet.Tally
