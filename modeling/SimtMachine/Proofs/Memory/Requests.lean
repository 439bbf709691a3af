import SimtMachine.Memory.Port

/-!
# Requests in a row

What a memory holds after many requests. A cell that is always given the same value holds this
value, whatever the order of the requests and whatever else they do.
-/

namespace SimtMachine

namespace Request

variable {α : Type} {m : Image α} {rs : List (Request α)} {a : UInt8} {v : α}

/-- The content of the memory after the requests, one after another. -/
def applyAll (m : Image α) (rs : List (Request α)) : Image α :=
  rs.foldl apply m

theorem applyAll_cons (m : Image α) (r : Request α) (rs : List (Request α)) :
    applyAll m (r :: rs) = applyAll (r.apply m) rs := rfl

theorem applyAll_append (m : Image α) (rs rs' : List (Request α)) :
    applyAll m (rs ++ rs') = applyAll (applyAll m rs) rs' :=
  List.foldl_append

theorem read_apply (m : Image α) (r : Request α) (a : UInt8) :
    (∃ v, r = .write a v ∧ (r.apply m).read a = v) ∨
      (∀ v, r ≠ .write a v) ∧ (r.apply m).read a = m.read a := by
  cases r with
  | read => exact .inr ⟨nofun, rfl⟩
  | write x v =>
    by_cases hx : x = a
    · subst hx
      exact .inl ⟨v, rfl, Image.read_write_self m x v⟩
    · refine .inr ⟨fun v' h ↦ ?_, Image.read_write_of_ne m v (Ne.symm hx)⟩
      cases h
      exact hx rfl

theorem read_applyAll_of_not_mem (h : ∀ v, .write a v ∉ rs) :
    (applyAll m rs).read a = m.read a := by
  induction rs generalizing m with
  | nil => rfl
  | cons r rs ih =>
    rw [applyAll_cons, ih fun v hv ↦ h v (List.mem_cons_of_mem _ hv)]
    rcases read_apply m r a with ⟨v, rfl, -⟩ | ⟨-, hr⟩
    · exact absurd List.mem_cons_self (h v)
    · exact hr

/-- A cell that is written, and always the same, holds what is written. -/
theorem read_applyAll_of_mem (h : .write a v ∈ rs) (hv : ∀ v', .write a v' ∈ rs → v' = v) :
    (applyAll m rs).read a = v := by
  induction rs generalizing m with
  | nil => simp at h
  | cons r rs ih =>
    rw [applyAll_cons]
    by_cases ht : ∃ v', .write a v' ∈ rs
    · obtain ⟨v', hv'⟩ := ht
      have hq := hv v' (List.mem_cons_of_mem _ hv')
      subst hq
      exact ih hv' fun v₁ h₁ ↦ hv v₁ (List.mem_cons_of_mem _ h₁)
    · rw [read_applyAll_of_not_mem fun v' hv' ↦ ht ⟨v', hv'⟩]
      rcases List.mem_cons.1 h with rfl | h
      · exact Image.read_write_self m a v
      · exact absurd ⟨v, h⟩ ht

end Request

end SimtMachine
