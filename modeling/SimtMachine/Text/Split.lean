/-!
# Splitting

A text is cut at every character of a class; the pieces lose those characters and keep all others.
-/

namespace SimtMachine.Text

/-- The pieces of a text between the characters of a class, empty pieces included. -/
def split (isCut : Char → Bool) : List Char → List (List Char)
  | [] => [[]]
  | c :: cs =>
    if isCut c then [] :: split isCut cs
    else match split isCut cs with
      | l :: ls => (c :: l) :: ls
      | [] => [[c]]

/-- The pieces hold every character that is not cut away, in order. -/
theorem flatten_split (isCut : Char → Bool) (cs : List Char) :
    (split isCut cs).flatten = cs.filter (!isCut ·) := by
  induction cs with
  | nil => rfl
  | cons c cs ih =>
    by_cases h : isCut c
    · simp [split, h, ih]
    · cases hs : split isCut cs with
      | nil => simp [split, h, hs] at ih ⊢; simpa using ih
      | cons l ls => simp [split, h, hs, ← ih]

theorem not_isCut_of_mem_split {isCut : Char → Bool} {cs l : List Char}
    (hl : l ∈ split isCut cs) : ∀ c ∈ l, isCut c = false := by
  intro c hc
  have h : c ∈ (split isCut cs).flatten := List.mem_flatten.2 ⟨l, hl, hc⟩
  rw [flatten_split] at h
  simpa using (List.mem_filter.1 h).2

theorem split_ne_nil (isCut : Char → Bool) (cs : List Char) : split isCut cs ≠ [] := by
  cases cs with
  | nil => simp [split]
  | cons c cs =>
    by_cases h : isCut c
    · simp [split, h]
    · cases hs : split isCut cs <;> simp [split, h, hs]

/-- A cut separates the pieces before it from those after it. -/
theorem split_append_cons {isCut : Char → Bool} {c : Char} (h : isCut c) (xs ys : List Char) :
    split isCut (xs ++ c :: ys) = split isCut xs ++ split isCut ys := by
  induction xs with
  | nil => simp [split, h]
  | cons x xs ih =>
    by_cases hx : isCut x
    · simp [split, hx, ih]
    · cases hs : split isCut xs with
      | nil => exact absurd hs (split_ne_nil isCut xs)
      | cons l ls => simp [split, hx, ih, hs]

/-- A text without cuts is one piece. -/
theorem split_eq_singleton {isCut : Char → Bool} {cs : List Char}
    (h : ∀ c ∈ cs, isCut c = false) :
    split isCut cs = [cs] := by
  induction cs with
  | nil => rfl
  | cons c cs ih =>
    rw [List.forall_mem_cons] at h
    simp [split, h.1, ih h.2]

/-- Text without cuts in front of another text makes its first piece longer. -/
theorem split_append (isCut : Char → Bool) (cs : List Char) :
    ∃ l ls, split isCut cs = l :: ls ∧ (∀ c ∈ l.head?, c ∈ cs.head?) ∧
      ∀ w : List Char, (∀ c ∈ w, isCut c = false) → split isCut (w ++ cs) = (w ++ l) :: ls := by
  obtain ⟨l, ls, hs⟩ := List.exists_cons_of_ne_nil (split_ne_nil isCut cs)
  refine ⟨l, ls, hs, ?_, fun w hw ↦ ?_⟩
  · cases cs with
    | nil =>
      obtain ⟨rfl, -⟩ := List.cons.inj hs
      exact nofun
    | cons c cs =>
      by_cases hc : isCut c
      · simp only [split, hc, if_true, List.cons.injEq] at hs
        simp [← hs.1]
      · cases hcs : split isCut cs with
        | nil => exact absurd hcs (split_ne_nil isCut cs)
        | cons k ks =>
          simp only [split, hc, hcs, Bool.false_eq_true, if_false, List.cons.injEq] at hs
          simp [← hs.1]
  · induction w with
    | nil => exact hs
    | cons c w ih =>
      rw [List.forall_mem_cons] at hw
      simp [split, hw.1, ih hw.2]

end SimtMachine.Text
