/-!
# Sweeps

Components that share something, such as the channels of a memory or the blocks of a kernel, get
their turn one after another: each sees what the ones before it have left.
-/

namespace SimtMachine

variable {σ α β : Type}

/-- Visits the elements of a list from left to right, hands a state from each to the next and
collects the results. -/
def sweep (visit : σ → α → σ × β) : σ → List α → σ × List β
  | s, [] => (s, [])
  | s, x :: xs =>
    let (s, y) := visit s x
    let (s, ys) := sweep visit s xs
    (s, y :: ys)

theorem sweep_cons (visit : σ → α → σ × β) (s : σ) (x : α) (xs : List α) :
    sweep visit s (x :: xs) =
      ((sweep visit (visit s x).1 xs).1,
        (visit s x).2 :: (sweep visit (visit s x).1 xs).2) := rfl

@[simp] theorem length_sweep (visit : σ → α → σ × β) (s : σ) (xs : List α) :
    (sweep visit s xs).2.length = xs.length := by
  induction xs generalizing s with
  | nil => rfl
  | cons x xs ih => simp [sweep, ih]

theorem sweep_append (visit : σ → α → σ × β) (s : σ) (xs ys : List α) :
    sweep visit s (xs ++ ys) =
      ((sweep visit (sweep visit s xs).1 ys).1,
        (sweep visit s xs).2 ++ (sweep visit (sweep visit s xs).1 ys).2) := by
  induction xs generalizing s with
  | nil => rfl
  | cons x xs ih => simp [sweep, ih]

theorem sweep_map (visit : σ → α → σ × β) {γ : Type} (f : γ → α) (s : σ) (xs : List γ) :
    sweep visit s (xs.map f) = sweep (fun s x ↦ visit s (f x)) s xs := by
  induction xs generalizing s with
  | nil => rfl
  | cons x xs ih => simp [sweep, ih]

theorem sweep_congr {visit visit' : σ → α → σ × β} {xs : List α}
    (h : ∀ s, ∀ x ∈ xs, visit s x = visit' s x) (s : σ) :
    sweep visit s xs = sweep visit' s xs := by
  induction xs generalizing s with
  | nil => rfl
  | cons x xs ih =>
    rw [sweep_cons, sweep_cons, h s x (by simp), ih fun s y hy ↦ h s y (by simp [hy])]

/-- Visits that hand the state on as it is come to a map. -/
theorem sweep_of_keep {visit : σ → α → σ × β} {f : α → β} {xs : List α}
    (h : ∀ s, ∀ x ∈ xs, visit s x = (s, f x)) (s : σ) :
    sweep visit s xs = (s, xs.map f) := by
  induction xs generalizing s with
  | nil => rfl
  | cons x xs ih =>
    rw [sweep_cons, h s x (by simp), ih fun s y hy ↦ h s y (by simp [hy])]
    rfl

/-- What no visit changes of the state, no sweep changes. -/
theorem sweep_invariant {γ : Type} {visit : σ → α → σ × β} {f : σ → γ} {xs : List α}
    (h : ∀ s, ∀ x ∈ xs, f (visit s x).1 = f s) (s : σ) : f (sweep visit s xs).1 = f s := by
  induction xs generalizing s with
  | nil => rfl
  | cons x xs ih =>
    rw [sweep_cons]
    exact (ih (fun s y hy ↦ h s y (by simp [hy])) _).trans (h s x (by simp))

/-- What no visit changes of an element, no sweep changes. -/
theorem map_sweep {γ : Type} {visit : σ → α → σ × α} {f : α → γ} (h : ∀ s x, f (visit s x).2 = f x)
    (s : σ) (xs : List α) : (sweep visit s xs).2.map f = xs.map f := by
  induction xs generalizing s with
  | nil => rfl
  | cons x xs ih => rw [sweep_cons, List.map_cons, List.map_cons, h, ih]

/-! ## Elements replaced -/

theorem mem_replace {pre post : List α} {x z : α} :
    z ∈ pre ++ x :: post ↔ z = x ∨ z ∈ pre ++ post := by
  rw [List.perm_middle.mem_iff, List.mem_cons]

theorem forall_mem_replace {q : α → Prop} {pre post : List α} {x y : α}
    (h : ∀ z ∈ pre ++ x :: post, q z) (hy : q y) : ∀ z ∈ pre ++ y :: post, q z := by
  intro z hz
  rcases mem_replace.1 hz with rfl | hz
  · exact hy
  · exact h z (mem_replace.2 (.inr hz))

end SimtMachine
