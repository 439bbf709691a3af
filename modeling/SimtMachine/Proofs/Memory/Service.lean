import SimtMachine.Memory.Service
import SimtMachine.Proofs.Memory.Requests

/-!
# Service of ports

A memory visits the ports from the first to the last. The requests that it serves on the way are the
first that wait, as many as there are channels, and each is answered from what the ones before it
have left in the cells.
-/

namespace SimtMachine

variable {α : Type}

/-! ## Visits -/

/-- A visit leaves everything as it is, or it serves a request. -/
theorem Pass.visit_cases (s : Pass α) (p : Port α) :
    (s.visit p = (s, p) ∧ (s.free ≠ 0 → p.pending = none)) ∨
      ∃ r free, p.pending = some r ∧ s.free = free + 1 ∧
        s.visit p = (⟨r.apply s.cells, free⟩, .answered (r.answer s.cells)) := by
  obtain ⟨m, free⟩ := s
  cases hr : p.pending with
  | none => exact .inl ⟨by simp [visit, hr], fun _ ↦ rfl⟩
  | some r =>
    cases free with
    | zero => exact .inl ⟨by simp [visit, hr], by simp⟩
    | succ free => exact .inr ⟨r, free, rfl, by simp, by simp [visit, hr, Port.answered]⟩

/-- A visit with a channel to spare leaves a port as it is only if nobody asks. -/
theorem Pass.visit_eq_self {s : Pass α} {p : Port α} (hs : s.free ≠ 0)
    (h : (s.visit p).2 = p) : (s.visit p).1 = s ∧ p.isPending = false := by
  rcases s.visit_cases p with ⟨hv, hn⟩ | ⟨r, free, hr, -, hv⟩
  · exact ⟨by rw [hv], by simp [Port.isPending, hn hs]⟩
  · rw [hv] at h
    rw [← h] at hr
    cases hr

/-! ## Settings -/

namespace Memory

variable {m : Memory α}

/-- Service changes nothing of a memory but its cells. -/
theorem settings_serviceWith {β : Type} (m : Memory α) (cycle : Nat)
    (visitAll : Pass α → β → Pass α × β) (x : β) :
    (m.serviceWith cycle visitAll x).1.channels = m.channels ∧
      (m.serviceWith cycle visitAll x).1.interval = m.interval := by
  unfold serviceWith
  split <;> exact ⟨rfl, rfl⟩

theorem settings_of_create [Inhabited α] {init : Array α} {channels interval : Nat}
    (h : create init channels interval = .ok m) :
    m.channels = channels ∧ m.interval = interval := by
  unfold create at h
  split at h
  · cases h
  · split at h
    · cases h
    · split at h
      · cases h
      · rw [← Except.ok.inj h]
        exact ⟨rfl, rfl⟩

end Memory

end SimtMachine
