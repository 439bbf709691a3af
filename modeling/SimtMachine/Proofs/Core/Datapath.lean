import SimtMachine.Proofs.Core.Handshake
import SimtMachine.Proofs.Core.Stages

/-!
# Exclusive use of the datapath

All lanes of both contexts are clocked in every cycle, and they share one program counter input, one
fetched word and one scheduler. A context that is not active keeps what it holds all the same: only
the handshake of its load and store units goes on, and it may leave its wait.
-/

namespace SimtMachine

/-- What a lane holds besides its load and store unit. -/
def Lane.datapath (l : Lane) : RegisterUnit × ArithmeticUnit × BranchUnit :=
  (l.registers, l.arithmetic, l.branch)

/-- What a context holds besides its stage and its handshakes with data memory. -/
structure Datapath where
  pc : UInt8
  finished : Bool
  word : UInt16
  lanes : List (RegisterUnit × ArithmeticUnit × BranchUnit)

def Strand.datapath (s : Strand) : Datapath :=
  ⟨s.context.pc, s.context.finished, s.word, s.lanes.map Lane.datapath⟩

theorem LoadStoreUnit.not_issues {u : LoadStoreUnit} {d : Drive} (h : d.active = false) :
    ¬ u.Issues d := by
  rintro ⟨-, ha, -⟩
  exact Bool.false_ne_true (h.symm.trans ha)

theorem LoadStoreUnit.pending_listen (u : LoadStoreUnit) :
    u.listen.port.pending = u.port.pending := by
  cases hp : u.phase with
  | idle | requesting | done => simp [listen, hp]
  | waiting => cases hr : u.port.ready <;> simp [listen, hp, hr, Port.taken]

theorem Fetcher.owner_tick {f : Fetcher} {d : Drive} (h : f.Issues d) :
    (f.tick d).owner = d.active := by
  obtain ⟨hs, hp | ⟨hp, ha, ho⟩⟩ := h
  · simp [tick, hp, hs, request]
  · simp [tick, hp, ha, hs, ho, request]

namespace Core

variable {c c' c'' : Core} {t : ContextTag} {act : Act}

/-- The context does not drive the datapath in the next cycle. -/
def Parks (c : Core) (t : ContextTag) : Prop :=
  t ≠ c.tick.2.active ∨ c.tick.2.bootstrap = true

theorem Parks.drive (h : c.Parks t) : (c.laneDrive t).active = false := by
  have ha : (c.laneDrive t).active = (decide (t = c.tick.2.active) && !c.tick.2.bootstrap) := rfl
  rw [ha]
  rcases h with h | h <;> simp [h]

theorem Parks.lanes (h : c.Parks t) :
    c.tick.1.lanes.get t = (c.lanes.get t).map Lane.listen := by
  rw [lanes_tick]
  exact List.map_congr_left fun l _ ↦ Lane.tick_of_inactive h.drive

theorem Parks.word (h : c.Parks t) : c.tick.1.instruction.get t = c.instruction.get t := by
  have hw : c.tick.1.instruction = if c.tick.2.acceptsFetch then
      c.instruction.set c.tick.2.active c.fetcher.instruction else c.instruction := rfl
  rw [hw]
  split
  · next ha =>
    have hb : c.tick.2.bootstrap = false := by
      simp only [Transition.acceptsFetch, Bool.and_eq_true, Bool.not_eq_true'] at ha
      exact ha.1.1
    have ht := h.resolve_right (by simp [hb])
    rw [ContextTag.eq_other_of_ne ht]
    simp
  · rfl

/-- The laws of the scheduler hold in every cycle of a core. -/
theorem orderly (c : Core) : c.scheduler.Orderly c.assignment.isSome (.ofFn c.signals)
    c.tick.1.scheduler c.tick.2 :=
  c.scheduler.orderly_tick _ _

theorem Parks.context (h : c.Parks t) :
    c.tick.1.scheduler.get t = { c.scheduler.get t with
      stage := if c.tick.2.bootstrap then .fetch
        else if (c.scheduler.get t).stage = .wait ∧ (c.strand t).isBusy = false then .execute
        else (c.scheduler.get t).stage } := by
  cases hb : c.tick.2.bootstrap with
  | true => rw [c.orderly.bootstrap hb t, if_pos rfl]
  | false =>
    rw [c.orderly.parked hb t (h.resolve_right (by simp [hb])), PerContext.get_ofFn, signals_eq]
    simp only [Bool.false_eq_true, if_false]
    split <;> rfl

theorem before_of_bootstrap (h : c.tick.2.bootstrap = true) : c.tick.2.before = .idle := by
  have hb := (Scheduler.bootstrap_tick ..).symm.trans h
  simp [tick, Scheduler.tick, hb]

theorem Parks.not_fetches (h : c.Parks t) :
    ¬ (c.fetcher.Issues c.fetcherDrive ∧ c.tick.1.fetcher.owner = t) := by
  rintro ⟨hi, ho⟩
  rw [fetcher_eq_tick, Fetcher.owner_tick hi] at ho
  have hb := h.resolve_left (not_not_intro ho.symm)
  have hs : c.tick.2.before = .fetch := hi.1
  rw [before_of_bootstrap hb] at hs
  cases hs

theorem Parks.datapath (h : c.Parks t) : (c.tick.1.strand t).datapath = (c.strand t).datapath := by
  have hl : (c.tick.1.lanes.get t).map Lane.datapath = (c.lanes.get t).map Lane.datapath := by
    rw [h.lanes, List.map_map]
    rfl
  simp only [Strand.datapath, strand_context, strand_word, strand_lanes, h.context, h.word, hl]

/-- The core goes from the first state to the second, and the memories answer what they like, while
the context never drives the datapath. -/
inductive Sidelines (t : ContextTag) (c : Core) : Core → Prop
  | refl : Sidelines t c c
  | tick {c' : Core} : Sidelines t c c' → c'.Parks t → Sidelines t c c'.tick.1
  | answer {c' c'' : Core} {act : Act} : Sidelines t c c' → c'.Moves act c'' → act ≠ .tick →
      Sidelines t c c''

theorem Moves.datapath (h : c.Moves act c') (ha : act ≠ .tick) :
    (c'.strand t).datapath = (c.strand t).datapath := by
  cases h with
  | tick => exact absurd rfl ha
  | fetch => rfl
  | @access u pre post l r v hl hr =>
    by_cases hu : t = u
    · subst hu
      simp [Strand.datapath, hl]
      rfl
    · rw [ContextTag.eq_other_of_ne hu, strand_withLanes_other]

theorem Sidelines.datapath (h : c.Sidelines t c') :
    (c'.strand t).datapath = (c.strand t).datapath := by
  induction h with
  | refl => rfl
  | tick _ hp ih => exact hp.datapath.trans ih
  | answer _ hm ha ih => exact (hm.datapath ha).trans ih

/-- In every cycle, a context that is not active, and in a bootstrap both, keep their program
counter, their instruction register and all that their lanes hold but for the handshake of the load
and store units, which goes on. No request is placed for such a context, and the only stage that it
leaves, past idle, is its wait. So it comes back as it was, however long the other one has been
active and whatever the memories have answered. -/
theorem parked_keeps_datapath {c : Core} {t : ContextTag} (h : c.Parks t) :
    (c.tick.1.strand t).datapath = (c.strand t).datapath ∧
    (c.tick.1.scheduler.get t).stage =
      (if c.tick.2.bootstrap then .fetch
      else if (c.scheduler.get t).stage = .wait ∧ (c.strand t).isBusy = false then .execute
      else (c.scheduler.get t).stage) ∧
    (c.tick.1.lanes.get t).map Lane.memory = (c.lanes.get t).map (fun l ↦ l.memory.listen) ∧
    (c.tick.1.lanes.get t).map (fun l ↦ l.port.pending) =
      (c.lanes.get t).map (fun l ↦ l.port.pending) ∧
    (∀ l ∈ c.lanes.get t, ¬ l.memory.Issues (c.laneDrive t)) ∧
    ¬ (c.fetcher.Issues c.fetcherDrive ∧ c.tick.1.fetcher.owner = t) ∧
    ∀ c', c.Sidelines t c' → (c'.strand t).datapath = (c.strand t).datapath := by
  refine ⟨h.datapath, by rw [h.context], ?handshake, ?pending,
    fun l _ ↦ LoadStoreUnit.not_issues h.drive, h.not_fetches, fun c' hc ↦ hc.datapath⟩
  case handshake =>
    rw [h.lanes, List.map_map]
    rfl
  case pending =>
    rw [h.lanes, List.map_map]
    exact List.map_congr_left fun l _ ↦ l.memory.pending_listen

theorem parked_keeps_datapath_preempted :
    (preempted.core.Parks .b ∧ (preempted.core.tick.1.scheduler.get .b).stage = .fetch) ∧
    ((preempted.after 15).core.Parks .a ∧
      (preempted.after 15).core.tick.1.lanes.a.map Lane.memory ≠
        (preempted.after 15).core.lanes.a.map Lane.memory ∧
      ((preempted.after 15).core.tick.1.tick.1.scheduler.get .a).stage = .execute ∧
      ((preempted.after 15).core.tick.1.tick.1.strand .a).datapath =
        ((preempted.after 15).core.strand .a).datapath) := by
  have h₀ : preempted.core.Parks .b := .inr (by decide +kernel)
  have h : (preempted.after 15).core.Parks .a := .inl (by decide +kernel)
  have h' : (preempted.after 15).core.tick.1.Parks .a := .inl (by decide +kernel)
  obtain ⟨-, hs, -⟩ := parked_keeps_datapath h₀
  obtain ⟨-, -, -, -, -, -, hd⟩ := parked_keeps_datapath h
  refine ⟨⟨h₀, hs.trans (by decide +kernel)⟩, h, by decide +kernel, by decide +kernel, ?_⟩
  -- the answer is taken in the first of the two cycles, and the second wakes the context
  exact hd _ (.tick (.tick .refl h) h')

end Core

end SimtMachine
