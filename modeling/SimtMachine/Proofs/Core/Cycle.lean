import SimtMachine.Proofs.Core.Strand

/-!
# Cycles of a core

What one cycle does to a core, as one list of cases: a core without a block sleeps, a core with a
fresh block spends a cycle on its bootstrap, and in every other cycle one strand advances while the
other rests. All invariants of cores are proved from these cases.
-/

namespace SimtMachine

/-- Whether a context in this stage has an instruction in its instruction register. -/
def Stage.hasWord : Stage → Bool
  | .idle | .fetch => false
  | .decode | .request | .wait | .execute | .update | .done => true

/-- What the fetcher holds belongs to a context that fetches. A word is `genuine` for the program
counter for which it was answered. -/
def Fetcher.Fits (genuine : UInt8 → UInt16 → Prop) (f : Fetcher) (progress : ContextTag → Context) :
    Prop :=
  match f.phase with
  | .idle => f.port = .quiet
  | .fetching =>
    (progress f.owner).stage = .fetch ∧
      (f.port = .issue (.read (progress f.owner).pc) ∨
        ∃ w, genuine (progress f.owner).pc w ∧ f.port = ⟨none, some w⟩)
  | .fetched =>
    (progress f.owner).stage = .fetch ∧ f.port = .quiet ∧
      genuine (progress f.owner).pc f.instruction

namespace Core

/-- The part of a core that belongs to one context. -/
def strand (c : Core) (t : ContextTag) : Strand :=
  ⟨c.scheduler.get t, c.instruction.get t, c.lanes.get t⟩

@[simp] theorem strand_context (c : Core) (t : ContextTag) :
    (c.strand t).context = c.scheduler.get t := rfl

@[simp] theorem strand_lanes (c : Core) (t : ContextTag) :
    (c.strand t).lanes = c.lanes.get t := rfl

@[simp] theorem strand_word (c : Core) (t : ContextTag) :
    (c.strand t).word = c.instruction.get t := rfl

/-- The word at hand for a context. -/
def fetchedFor (c : Core) (t : ContextTag) : Option UInt16 :=
  if c.fetcher.completeFor t then some c.fetcher.instruction else none

/-- What the fetcher sees while a context is active. -/
def fetchDrive (c : Core) (t : ContextTag) : Fetcher.Drive where
  active := t
  stage := (c.scheduler.get t).stage
  pc := (c.scheduler.get t).pc
  accept := (c.scheduler.get t).stage = .fetch && c.fetcher.completeFor t

/-- What the lanes of a context see in a cycle. -/
def laneDrive (c : Core) (t : ContextTag) : Drive :=
  let (scheduler, step) := c.scheduler.tick c.assignment.isSome (.ofFn c.signals)
  let active := t = step.active && !step.bootstrap
  { active
    stage := if active then step.before else (scheduler.get t).stage
    issue := active && step.issuesRequest
    pc := c.scheduler.currentPc
    instruction := decode (c.tick.1.instruction.get t) }

/-- What the fetcher sees in a cycle. -/
def fetcherDrive (c : Core) : Fetcher.Drive :=
  let (_, step) := c.scheduler.tick c.assignment.isSome (.ofFn c.signals)
  { active := step.active, stage := step.before, pc := c.scheduler.currentPc
    accept := step.acceptsFetch }

theorem fetcher_eq_tick (c : Core) : c.tick.1.fetcher = c.fetcher.tick c.fetcherDrive := rfl

theorem lanes_tick (c : Core) (t : ContextTag) :
    c.tick.1.lanes.get t = (c.lanes.get t).map fun l ↦ l.tick (c.laneDrive t) := by
  cases t <;> rfl

/-- What holds of a core in every state that it can reach, where `genuine` says which words program
memory may answer at which address. -/
structure Sound (genuine : UInt8 → UInt16 → Prop) (c : Core) : Prop where
  fits : ∀ t, (c.strand t).Fits
  word : ∀ t, (c.scheduler.get t).stage.hasWord = true →
    genuine (c.scheduler.get t).pc (c.instruction.get t)
  fetcher : c.fetcher.Fits genuine c.scheduler.get
  idle : c.scheduler.a.stage = .idle ↔ c.scheduler.b.stage = .idle
  asleep : c.assignment = none → c.scheduler.a.stage = .idle
  /-- only a core whose context `a` is done lets `b` use data memory -/
  exclusive : (∃ l ∈ c.lanes.b, l.memory.phase ≠ .idle) → c.scheduler.a.stage = .done

/-- Everything that a cycle can do to a core. -/
inductive Cycle (c : Core) : Core → Prop
  | asleep : c.assignment = none → Cycle c c
  | bootstrap : c.assignment.isSome → (∀ t, (c.scheduler.get t).stage = .idle) →
      Cycle c { c with scheduler := c.scheduler.map fun _ x ↦ { x with stage := .fetch } }
  | run {c' : Core} (t : ContextTag) :
      c.scheduler.active = t → (∀ t, (c.scheduler.get t).stage ≠ .idle) →
      (c.strand t).Advances c.scheduler.busHeld (c.fetchedFor t) (c'.strand t) →
      (c.strand t.other).Rests (c'.strand t.other) →
      c'.fetcher = c.fetcher.tick (c.fetchDrive t) →
      c'.id = c.id → c'.blockDim = c.blockDim → c'.assignment = c.assignment → Cycle c c'

variable {genuine : UInt8 → UInt16 → Prop} {c : Core} {t : ContextTag}

/-! ## The strand of the active context -/

theorem signals_eq (c : Core) (t : ContextTag) :
    c.signals t =
      { fetchComplete := c.fetcher.completeFor t
        memAccess := (c.strand t).instruction.op.touchesMemory
        ret := (c.strand t).instruction.op.returns
        lsuBusy := (c.strand t).isBusy
        nextPc := (c.strand t).nextPc } := rfl

/-- The progress of the active context after the cycle. -/
def advanced (c : Core) (t : ContextTag) : Context :=
  (c.scheduler.get t).advance c.assignment.isSome c.scheduler.busHeld (c.signals t)

/-- The instruction register of the active context after the cycle. -/
def latchedWord (c : Core) (t : ContextTag) : UInt16 :=
  if (c.scheduler.get t).stage = .fetch && (c.advanced t).stage = .decode then c.fetcher.instruction
  else c.instruction.get t

/-- What the lanes of the active context see, with a word in the instruction register. -/
def activeDrive (c : Core) (t : ContextTag) (word : UInt16) : Drive where
  active := true
  stage := (c.scheduler.get t).stage
  issue := (c.scheduler.get t).stage = .request && (c.advanced t).stage = .wait
  pc := (c.scheduler.get t).pc
  instruction := decode word

/-- The lanes of the active context after the cycle. -/
def tickedLanes (c : Core) (t : ContextTag) (word : UInt16) : List Lane :=
  (c.lanes.get t).map fun l ↦ l.tick (c.activeDrive t word)

theorem strand_tick_active (ht : c.scheduler.active = t)
    (h : (c.assignment.isSome && c.scheduler.isIdle) = false) :
    c.tick.1.strand t = ⟨c.advanced t, c.latchedWord t, c.tickedLanes t (c.latchedWord t)⟩ := by
  have hl : (if (c.scheduler.get t).stage = .fetch && (c.advanced t).stage = .decode then
      c.instruction.set t c.fetcher.instruction else c.instruction).get t = c.latchedWord t := by
    rw [latchedWord]
    split <;> simp
  simp only [strand, tick, Scheduler.tick, h, Bool.false_eq_true, if_false, ht,
    Transition.acceptsFetch, Transition.issuesRequest, Bool.not_false, Bool.true_and,
    PerContext.get_ofFn, PerContext.get_map, PerContext.get_set_other_self,
    PerContext.get_set_self, ← advanced.eq_def c t, Bool.and_true, decide_true, if_true, hl]
  rw [tickedLanes, activeDrive, Scheduler.currentPc, ht]

theorem latchedWord_of_ne_fetch (hs : (c.scheduler.get t).stage ≠ .fetch) :
    c.latchedWord t = c.instruction.get t := by
  simp [latchedWord, hs]

theorem tickedLanes_resting (hf : (c.strand t).Fits) (w : UInt16)
    (hs : (c.scheduler.get t).stage = .fetch ∨ (c.scheduler.get t).stage = .decode ∨
      (c.scheduler.get t).stage = .done) :
    c.tickedLanes t w = c.lanes.get t := by
  have hw : (c.strand t).context.stage ≠ .wait := by
    rcases hs with hs | hs | hs <;> simp [hs]
  refine (List.map_congr_left fun l _ ↦ ?_).trans
    (Strand.map_listen_of_not_busy (hf.isBusy_eq_false hw))
  rcases hs with hs | hs | hs <;>
    exact Lane.tick_of_resting (by simp [activeDrive, hs]) (by simp [activeDrive, hs])
      (by simp [activeDrive, hs]) (by simp [activeDrive, hs])

theorem advances_of_fetch (hf : (c.strand t).Fits) (hs : (c.scheduler.get t).stage = .fetch) :
    (c.strand t).Advances c.scheduler.busHeld (c.fetchedFor t)
      ⟨c.advanced t, c.latchedWord t, c.tickedLanes t (c.latchedWord t)⟩ := by
  rw [tickedLanes_resting hf _ (.inl hs)]
  cases hq : c.fetcher.completeFor t with
  | true =>
    have ha : c.advanced t = { c.scheduler.get t with stage := .decode } := by
      simp [advanced, Context.advance, hs, signals_eq, hq]
    have hw : c.latchedWord t = c.fetcher.instruction := by simp [latchedWord, ha, hs]
    rw [hw, ha]
    exact .take hs (by simp [fetchedFor, hq])
  | false =>
    have ha : c.advanced t = c.scheduler.get t := by
      simp [advanced, Context.advance, hs, signals_eq, hq]
    have hw : c.latchedWord t = c.instruction.get t := by simp [latchedWord, ha, hs]
    rw [hw, ha]
    exact .starve hs (by simp [fetchedFor, hq])

theorem advances_of_request (hf : (c.strand t).Fits) (hs : (c.scheduler.get t).stage = .request) :
    (c.strand t).Advances c.scheduler.busHeld (c.fetchedFor t)
      ⟨c.advanced t, c.instruction.get t, c.tickedLanes t (c.instruction.get t)⟩ := by
  have hl : c.tickedLanes t (c.instruction.get t) = (c.lanes.get t).map fun l ↦
      if (c.advanced t).stage = .wait then l.issue (c.strand t).instruction
      else l.latch (c.strand t).instruction := by
    apply List.map_congr_left
    intro l hl
    have hp := (hf.lane l hl).phase
    simp only [strand_context, hs, LoadStorePhase.Suits] at hp
    rw [Lane.tick_request rfl hs hp]
    simp [activeDrive, hs, Strand.instruction]
  rw [hl]
  cases hq : c.scheduler.busHeld && (c.strand t).instruction.op.touchesMemory with
  | true =>
    have ha : c.advanced t = c.scheduler.get t := by
      simp [advanced, Context.advance, hs, signals_eq, hq]
    obtain ⟨hh, hm⟩ := Bool.and_eq_true_iff.1 hq
    simp only [ha, hs, reduceCtorEq, if_false]
    exact .stall hs hh hm
  | false =>
    have ha : c.advanced t = { c.scheduler.get t with stage := .wait } := by
      simp [advanced, Context.advance, hs, signals_eq, hq]
    simp only [ha, if_true]
    exact .issue hs hq

theorem advances_of_wait (hs : (c.scheduler.get t).stage = .wait) :
    (c.strand t).Advances c.scheduler.busHeld (c.fetchedFor t)
      ⟨c.advanced t, c.instruction.get t, c.tickedLanes t (c.instruction.get t)⟩ := by
  have hl : c.tickedLanes t (c.instruction.get t) = (c.lanes.get t).map Lane.listen :=
    List.map_congr_left fun l _ ↦ Lane.tick_of_resting (by simp [activeDrive, hs])
      (by simp [activeDrive, hs]) (by simp [activeDrive, hs]) (by simp [activeDrive, hs])
  rw [hl]
  cases hq : (c.strand t).isBusy with
  | true =>
    have ha : c.advanced t = c.scheduler.get t := by
      simp [advanced, Context.advance, hs, signals_eq, hq]
    rw [ha]
    exact .await hs hq
  | false =>
    have ha : c.advanced t = { c.scheduler.get t with stage := .execute } := by
      simp [advanced, Context.advance, hs, signals_eq, hq]
    have hm : (c.lanes.get t).map Lane.listen = c.lanes.get t := Strand.map_listen_of_not_busy hq
    rw [ha, hm]
    exact .resume hs hq

theorem advances_of_execute (hf : (c.strand t).Fits) (hs : (c.scheduler.get t).stage = .execute) :
    (c.strand t).Advances c.scheduler.busHeld (c.fetchedFor t)
      ⟨c.advanced t, c.instruction.get t, c.tickedLanes t (c.instruction.get t)⟩ := by
  have hb := hf.isBusy_eq_false (by simp [hs])
  have ha : c.advanced t = { c.scheduler.get t with stage := .update } := by
    simp [advanced, Context.advance, hs]
  have hl : c.tickedLanes t (c.instruction.get t) =
      (c.lanes.get t).map (Lane.compute (c.strand t).instruction (c.scheduler.get t).pc) :=
    List.map_congr_left fun l hl ↦ Lane.tick_execute rfl hs (by simp [activeDrive, hs])
      (Strand.lane_not_busy hb hl)
  rw [hl, ha]
  exact .execute hs

theorem advances_of_update (hf : (c.strand t).Fits) (hs : (c.scheduler.get t).stage = .update) :
    (c.strand t).Advances c.scheduler.busHeld (c.fetchedFor t)
      ⟨c.advanced t, c.instruction.get t, c.tickedLanes t (c.instruction.get t)⟩ := by
  have hb := hf.isBusy_eq_false (by simp [hs])
  have hl : c.tickedLanes t (c.instruction.get t) =
      (c.lanes.get t).map (Lane.retire (c.strand t).instruction) :=
    List.map_congr_left fun l hl ↦ Lane.tick_update rfl hs (by simp [activeDrive, hs])
      (Strand.lane_not_busy hb hl)
  rw [hl]
  cases hq : (c.strand t).instruction.op.returns with
  | true =>
    have ha : c.advanced t = { c.scheduler.get t with stage := .done, finished := true } := by
      simp [advanced, Context.advance, hs, signals_eq, hq]
    rw [ha]
    exact .finish hs hq
  | false =>
    have ha : c.advanced t =
        { c.scheduler.get t with stage := .fetch, pc := (c.strand t).nextPc } := by
      simp [advanced, Context.advance, hs, signals_eq, hq]
    rw [ha]
    exact .retire hs hq

theorem advances_tick (hf : (c.strand t).Fits) (ht : c.scheduler.active = t)
    (h : (c.assignment.isSome && c.scheduler.isIdle) = false)
    (hi : (c.scheduler.get t).stage ≠ .idle) :
    (c.strand t).Advances c.scheduler.busHeld (c.fetchedFor t) (c.tick.1.strand t) := by
  rw [strand_tick_active ht h]
  cases hs : (c.scheduler.get t).stage with
  | idle => exact absurd hs hi
  | fetch => exact advances_of_fetch hf hs
  | decode =>
    have ha : c.advanced t = { c.scheduler.get t with stage := .request } := by
      simp [advanced, Context.advance, hs]
    rw [latchedWord_of_ne_fetch (by simp [hs]), tickedLanes_resting hf _ (.inr (.inl hs)), ha]
    exact .decode hs
  | request =>
    rw [latchedWord_of_ne_fetch (by simp [hs])]
    exact advances_of_request hf hs
  | wait =>
    rw [latchedWord_of_ne_fetch (by simp [hs])]
    exact advances_of_wait hs
  | execute =>
    rw [latchedWord_of_ne_fetch (by simp [hs])]
    exact advances_of_execute hf hs
  | update =>
    rw [latchedWord_of_ne_fetch (by simp [hs])]
    exact advances_of_update hf hs
  | done =>
    have ha : c.advanced t = c.scheduler.get t := by simp [advanced, Context.advance, hs]
    rw [latchedWord_of_ne_fetch (by simp [hs]), tickedLanes_resting hf _ (.inr (.inr hs)), ha]
    exact .done hs

/-! ## The other strand and the fetcher -/

theorem strand_tick_parked (ht : c.scheduler.active = t)
    (h : (c.assignment.isSome && c.scheduler.isIdle) = false) :
    c.tick.1.strand t.other =
      { context :=
          if (c.scheduler.get t.other).wakes (c.signals t.other) then
            { c.scheduler.get t.other with stage := .execute }
          else c.scheduler.get t.other
        word := c.instruction.get t.other
        lanes := (c.lanes.get t.other).map Lane.listen } := by
  simp only [strand, tick, Scheduler.tick, h, Bool.false_eq_true, if_false, ht,
    Transition.acceptsFetch, Transition.issuesRequest, Bool.not_false, Bool.true_and,
    PerContext.get_ofFn, PerContext.get_map, PerContext.get_set_self, Strand.mk.injEq, true_and]
  refine ⟨?_, List.map_congr_left fun l _ ↦ Lane.tick_of_inactive (by simp [ContextTag.other_ne])⟩
  split <;> simp

theorem rests_tick (ht : c.scheduler.active = t)
    (h : (c.assignment.isSome && c.scheduler.isIdle) = false) :
    (c.strand t.other).Rests (c.tick.1.strand t.other) := by
  rw [strand_tick_parked ht h]
  by_cases hw : (c.scheduler.get t.other).stage = .wait ∧ (c.strand t.other).isBusy = false
  · obtain ⟨hs, hb⟩ := hw
    have hm : (c.lanes.get t.other).map Lane.listen = c.lanes.get t.other :=
      Strand.map_listen_of_not_busy hb
    rw [if_pos (by simp [Context.wakes, signals_eq, hs, hb]), hm]
    exact .wake hs hb
  · rw [if_neg (by simpa [Context.wakes, signals_eq] using hw)]
    exact .listen hw

theorem fetcher_tick (ht : c.scheduler.active = t)
    (h : (c.assignment.isSome && c.scheduler.isIdle) = false) :
    c.tick.1.fetcher = c.fetcher.tick (c.fetchDrive t) := by
  have ha : ((c.scheduler.get t).stage = .fetch && (c.advanced t).stage = .decode) =
      ((c.scheduler.get t).stage = .fetch && c.fetcher.completeFor t) := by
    cases hs : (c.scheduler.get t).stage <;> simp [advanced, Context.advance, hs, signals]
    by_cases hf : c.fetcher.completeFor t = true <;> simp [hf, hs]
  simp only [tick, Scheduler.tick, h, Bool.false_eq_true, if_false, ht, Transition.acceptsFetch,
    Bool.not_false, Bool.true_and, PerContext.get_ofFn, ← advanced.eq_def c t, ha]
  rw [fetchDrive, Scheduler.currentPc, ht]

/-! ## All cases -/

theorem ext_strand {c c' : Core} (hs : ∀ t, c.strand t = c'.strand t) (hf : c.fetcher = c'.fetcher)
    (hi : c.id = c'.id) (hd : c.blockDim = c'.blockDim) (ha : c.assignment = c'.assignment) :
    c = c' := by
  have h1 : c.scheduler = c'.scheduler :=
    PerContext.ext_get fun t ↦ congrArg Strand.context (hs t)
  have h2 : c.instruction = c'.instruction := PerContext.ext_get fun t ↦ congrArg Strand.word (hs t)
  have h3 : c.lanes = c'.lanes := PerContext.ext_get fun t ↦ congrArg Strand.lanes (hs t)
  cases c
  cases c'
  simp_all

theorem Sound.stage_idle (hc : c.Sound genuine) (h : c.scheduler.a.stage = .idle) (t : ContextTag) :
    (c.scheduler.get t).stage = .idle := by
  cases t with
  | a => exact h
  | b => exact hc.idle.1 h

theorem Sound.fetcher_idle (hc : c.Sound genuine) (h : ∀ t, (c.scheduler.get t).stage ≠ .fetch) :
    c.fetcher.phase = .idle := by
  have hf := hc.fetcher
  cases hp : c.fetcher.phase with
  | idle => rfl
  | fetching | fetched =>
    simp only [Fetcher.Fits, hp] at hf
    exact absurd hf.1 (h _)

theorem Sound.map_listen (hc : c.Sound genuine) (h : (c.scheduler.get t).stage = .idle) :
    (c.lanes.get t).map Lane.listen = c.lanes.get t :=
  Strand.map_listen_of_not_busy ((hc.fits t).isBusy_eq_false (by simp [h]))

theorem Sound.tick_asleep (hc : c.Sound genuine) (h : c.assignment = none) : c.tick.1 = c := by
  have hs := hc.stage_idle (hc.asleep h)
  have ht : c.scheduler.active = .a := by
    simp [Scheduler.active, selectActive, hc.asleep h]
  have hi : (c.assignment.isSome && c.scheduler.isIdle) = false := by simp [h]
  have hf := hc.fetcher_idle fun t ↦ by simp [hs t]
  refine ext_strand (fun t ↦ ?_) ?_ rfl rfl rfl
  · cases t with
    | a =>
      have ha : c.advanced .a = c.scheduler.get .a := by
        simp [advanced, Context.advance, hs, h]
      have hl (w : UInt16) : c.tickedLanes .a w = c.lanes.get .a := by
        refine (List.map_congr_left fun l _ ↦ ?_).trans (hc.map_listen (hs .a))
        exact Lane.tick_of_resting (by simp [activeDrive, hs]) (by simp [activeDrive, hs])
          (by simp [activeDrive, hs]) (by simp [activeDrive, hs])
      rw [strand_tick_active ht hi, latchedWord_of_ne_fetch (by simp [hs]), ha, hl]
      rfl
    | b =>
      have hp := strand_tick_parked ht hi
      rw [ContextTag.other, hc.map_listen (hs .b), if_neg (by simp [Context.wakes, hs])] at hp
      exact hp
  · rw [fetcher_tick ht hi]
    simp [Fetcher.tick, hf, fetchDrive, hs]

theorem Sound.tick_bootstrap (hc : c.Sound genuine) (h : c.assignment.isSome)
    (hs : ∀ t, (c.scheduler.get t).stage = .idle) :
    c.tick.1 = { c with scheduler := c.scheduler.map fun _ x ↦ { x with stage := .fetch } } := by
  have hi : (c.assignment.isSome && c.scheduler.isIdle) = true := by
    have ha := hs .a
    have hb := hs .b
    simp only [PerContext.get] at ha hb
    simp [h, Scheduler.isIdle, ha, hb]
  have hf := hc.fetcher_idle fun t ↦ by simp [hs t]
  refine ext_strand (fun t ↦ ?_) ?_ rfl rfl rfl
  · have hl := hc.map_listen (hs t)
    simp only [strand, tick, Scheduler.tick, hi, if_true, Transition.acceptsFetch, Bool.not_true,
      Bool.false_and, Bool.false_eq_true, if_false, PerContext.get_map, Bool.and_false,
      Strand.mk.injEq, true_and]
    exact (List.map_congr_left fun l _ ↦ Lane.tick_of_inactive (by simp)).trans hl
  · simp [tick, Scheduler.tick, hi, Fetcher.tick, hf]

theorem Sound.cycle (hc : c.Sound genuine) : c.Cycle c.tick.1 := by
  cases ha : c.assignment with
  | none =>
    rw [hc.tick_asleep ha]
    exact .asleep ha
  | some b =>
    have hsome : c.assignment.isSome := by simp [ha]
    by_cases hi : c.scheduler.a.stage = .idle
    · rw [hc.tick_bootstrap hsome (hc.stage_idle hi)]
      exact .bootstrap hsome (hc.stage_idle hi)
    · have hs (t : ContextTag) : (c.scheduler.get t).stage ≠ .idle := by
        cases t with
        | a => exact hi
        | b => exact fun h ↦ hi (hc.idle.2 h)
      have hr : (c.assignment.isSome && c.scheduler.isIdle) = false := by
        simp [Scheduler.isIdle, hi]
      exact .run c.scheduler.active rfl hs (advances_tick (hc.fits _) rfl hr (hs _))
        (rests_tick rfl hr) (fetcher_tick rfl hr) rfl rfl rfl

/-- In every cycle a context past its idle stage either advances or rests. -/
theorem Sound.strand_cases (hc : c.Sound genuine) (hi : (c.scheduler.get t).stage ≠ .idle) :
    (∃ held, (c.strand t).Advances held (c.fetchedFor t) (c.tick.1.strand t)) ∨
      (c.strand t).Rests (c.tick.1.strand t) := by
  have h := hc.cycle
  generalize c.tick.1 = c' at h ⊢
  cases h with
  | asleep ha => exact absurd (hc.stage_idle (hc.asleep ha) t) hi
  | bootstrap _ hs => exact absurd (hs t) hi
  | run u _ _ hA hR =>
    by_cases ht : t = u
    · exact .inl ⟨_, ht ▸ hA⟩
    · exact .inr (ContextTag.eq_other_of_ne ht ▸ hR)

end Core

end SimtMachine
