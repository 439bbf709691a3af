import SimtMachine.Proofs.Core.Service

/-!
# Exclusive use of data memory

The rule that keeps `b` off the bus looks only at whether `a` waits. Together with the priority of
`a` it does more: `b` makes no request before `a` is done, and so the two contexts of a core never
have requests under way together.
-/

namespace SimtMachine

namespace Scheduler

/-- The scheduler after cycles with the given start bits and signals. -/
def after (s : Scheduler) (inputs : List (Bool × PerContext Signals)) : Scheduler :=
  inputs.foldl (fun s i ↦ (s.tick i.1 i.2).1) s

theorem tick_b_of_active_a (s : Scheduler) (start : Bool) (sig : PerContext Signals)
    (ha : s.active = .a) (hs : s.b.stage = .request) :
    (s.tick start sig).1.b.stage = .request := by
  have hi : (start && s.isIdle) = false := by simp [isIdle, hs]
  simp [tick, hi, ha, ContextTag.other, PerContext.set, PerContext.get, Context.wakes, hs]

theorem tick_b_of_active_b (s : Scheduler) (start : Bool) (sig : PerContext Signals)
    (hb : s.active = .b) (hs : s.b.stage = .request) :
    (s.tick start sig).1.b = s.b.advance start s.busHeld sig.b := by
  have hi : (start && s.isIdle) = false := by simp [isIdle, hs]
  simp [tick, hi, hb, ContextTag.other, PerContext.set, PerContext.get]

/-- In every state, reached or not, `b` sends a request out only past an `a` that is done. -/
theorem a_done_of_b_requests (s : Scheduler) (start : Bool) (sig : PerContext Signals)
    (hs : s.b.stage = .request) (hw : (s.tick start sig).1.b.stage = .wait)
    (hm : sig.b.memAccess = true) : s.a.stage = .done := by
  cases hact : s.active with
  | a => simp [tick_b_of_active_a s start sig hact hs] at hw
  | b =>
    rw [tick_b_of_active_b s start sig hact hs] at hw
    cases hst : s.a.stage with
    | done => rfl
    | wait =>
      have hh : s.busHeld = true := by simp [busHeld, hact, hst]
      simp [Context.advance, hs, hh, hm] at hw
    | _ => simp [active, selectActive, hst] at hact

end Scheduler

/-- The act is an answer of data memory to a lane of the given context. -/
def Act.accesses (u : ContextTag) : Act → Bool
  | .access t .. => t = u
  | .tick | .fetch .. => false

namespace Core

variable {genuine : UInt8 → UInt16 → Prop} {c c' : Core} {acts : List Act} {act : Act}

/-- A lane that has not got or not taken the answer to its last request. -/
def Outstanding (c : Core) (t : ContextTag) : Prop :=
  ∃ l ∈ c.lanes.get t, l.isBusy = true ∨ l.port.isPending = true

theorem Sound.a_quiet (hc : c.Sound genuine) (h : c.scheduler.a.stage = .done) :
    ∀ l ∈ c.lanes.a, l.memory.phase = .idle ∧ l.port = .quiet := by
  intro l hl
  have hp : l.memory.phase = .idle := (hc.fits .a).idle_lanes (.inr h) l hl
  exact ⟨hp, ((hc.fits .a).lane l hl).port_eq_quiet (by simp [hp, LoadStorePhase.isBusy])⟩

theorem Sound.not_both (hc : c.Sound genuine) : ¬ (c.Outstanding .a ∧ c.Outstanding .b) := by
  rintro ⟨⟨l, hl, hp⟩, ⟨k, hk, hq⟩⟩
  have hd := hc.exclusive ⟨k, hk, hc.phase_ne_idle (t := .b) hk hq⟩
  exact hc.phase_ne_idle (t := .a) hl hp (hc.a_quiet hd l hl).1

theorem Moves.pending (h : c.Moves act c') {t : ContextTag} (ha : act.accesses t = true) :
    ∃ l ∈ c.lanes.get t, l.port.isPending = true := by
  cases h with
  | tick | fetch => simp [Act.accesses] at ha
  | @access u pre post l r v hl hr =>
    obtain rfl := of_decide_eq_true ha
    exact ⟨l, by simp [hl], by simp [Port.isPending, hr]⟩

theorem Sound.done_of_accesses_b (hc : c.Sound genuine) (h : c.Moves act c')
    (hb : act.accesses .b = true) : c.scheduler.a.stage = .done := by
  obtain ⟨l, hl, hp⟩ := h.pending hb
  exact hc.done_of_pending hl hp

theorem Sound.not_accesses_a (hc : c.Sound genuine) (h : c.Moves act c')
    (hd : c.scheduler.a.stage = .done) : act.accesses .a ≠ true := by
  intro ha
  obtain ⟨l, hl, hp⟩ := h.pending ha
  exact hc.phase_ne_idle hl (.inr hp) (hc.a_quiet hd l hl).1

/-- Once `b` has had an answer, `a` is done for good. -/
theorem Run.a_done (hc : c.Sound fun _ _ ↦ True) (h : Run c acts c') :
    c'.Sound (fun _ _ ↦ True) ∧
      ((∃ x ∈ acts, x.accesses .b = true) → c'.scheduler.a.stage = .done) ∧
      acts.Pairwise fun x y ↦ ¬ (x.accesses .b = true ∧ y.accesses .a = true) := by
  induction h with
  | nil => exact ⟨hc, by simp, .nil⟩
  | @snoc c' c'' acts act _ hm ih =>
    obtain ⟨hs, hd, hp⟩ := ih
    have hs' : c''.Sound fun _ _ ↦ True := hs.move hm (by cases hm <;> trivial)
    refine ⟨hs', ?_, ?_⟩
    · rintro ⟨x, hx, hb⟩
      rw [List.mem_append, List.mem_singleton] at hx
      rcases hx with hx | rfl
      · exact hs.move_done hm (t := .a) (hd ⟨x, hx, hb⟩)
      · exact hs.move_done hm (t := .a) (hs.done_of_accesses_b hm hb)
    · refine List.pairwise_append.2 ⟨hp, List.pairwise_singleton _ _, fun x hx y hy ↦ ?_⟩
      rw [List.mem_singleton.1 hy]
      rintro ⟨hb, ha⟩
      exact hs.not_accesses_a hm (hd ⟨x, hx, hb⟩) ha

/-- Whatever its signals, the scheduler lets `b` make a memory request only when `a` is done; hence,
in every state that a core can reach, a lane of `b` in the middle of a request means that `a` is
done and all its lanes are at rest. The two contexts never have requests under way together, and
within a block all accesses of `a` come before all accesses of `b`. -/
theorem bus_exclusive :
    (∀ (inputs : List (Bool × PerContext Signals)) (start : Bool) (sig : PerContext Signals),
      (Scheduler.initial.after inputs).b.stage = .request →
      ((Scheduler.initial.after inputs).tick start sig).1.b.stage = .wait →
      sig.b.memAccess = true → (Scheduler.initial.after inputs).a.stage = .done) ∧
    (∀ c : Core, c.Reachable → (∃ l ∈ c.lanes.b, l.memory.phase ≠ .idle) →
      c.scheduler.a.stage = .done ∧
        ∀ l ∈ c.lanes.a, l.memory.phase = .idle ∧ l.port.pending = none) ∧
    (∀ c : Core, c.Reachable → ¬ (c.Outstanding .a ∧ c.Outstanding .b)) ∧
    (∀ (c c' : Core) (b : Assignment) (acts : List Act), Run (c.start b) acts c' →
      acts.Pairwise fun x y ↦ ¬ (x.accesses .b = true ∧ y.accesses .a = true)) := by
  refine ⟨fun inputs start sig hs hw hm ↦ Scheduler.a_done_of_b_requests _ start sig hs hw hm,
    fun c hc hb ↦ ?_, fun c hc ↦ hc.sound.not_both, fun c c' b acts h ↦ ?_⟩
  · have hd := hc.sound.exclusive hb
    refine ⟨hd, ?_⟩
    intro l hl
    obtain ⟨hp, hq⟩ := hc.sound.a_quiet hd l hl
    exact ⟨hp, by simp [hq, Port.quiet]⟩
  · exact (Run.a_done (sound_start _ c b) h).2.2

/-- A block of two threads that copies the cell of address 0 to address 0. -/
def copier : Solo where
  core := (idle 0 2).start ⟨0, 2⟩
  program := ⟨Image.ofArray #[0x7100, 0x8001, 0xF000], 1, 1, Nat.zero_lt_one, Nat.zero_lt_one⟩
  data := ⟨Image.ofArray #[5], 1, 2, Nat.zero_lt_one, Nat.two_pos⟩
  cycle := 0

/-- Signals under which the scheduler sends every instruction straight through. -/
def prompt : Bool × PerContext Signals := (true, .both ⟨true, true, true, false, 0⟩)

theorem bus_exclusive_copier :
    (Scheduler.initial.after (.replicate 8 prompt)).a.stage = .done ∧
      ((copier.after 36).core.Reachable ∧ ∃ l ∈ (copier.after 36).core.lanes.b,
        l.memory.phase ≠ .idle) ∧ (copier.after 36).core.scheduler.a.stage = .done := by
  have hr := copier.reachable_after (.start _ (.idle 0 2)) (sound_start _ _ _) 36
  have hb : ∃ l ∈ (copier.after 36).core.lanes.b, l.memory.phase ≠ .idle := by decide +kernel
  have hs := bus_exclusive.1 (.replicate 8 prompt) true prompt.2 (by decide) (by decide) rfl
  exact ⟨hs, ⟨hr, hb⟩, (bus_exclusive.2.1 _ hr hb).1⟩

end Core

end SimtMachine
