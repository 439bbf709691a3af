import SimtMachine.Proofs.Core.Cycle

/-!
# States that a core can reach

Besides its own cycles, only the two memories act on a core: they answer requests that wait at its
ports, at any time and in any order. The acts of a core and its memories are kept as labels, so that
an environment can be described by the acts that it allows. Every state that is reached by acts with
genuine program words is sound.
-/

namespace SimtMachine

/-- The lane after data memory has answered its request. -/
def Lane.answered (v : UInt8) (l : Lane) : Lane := l.withPort (.answered v)

/-- What can happen to a core: a cycle, an answer of program memory, and an answer of data memory to
one lane of a context. -/
inductive Act
  | tick
  | fetch (addr : UInt8) (word : UInt16)
  | access (t : ContextTag) (lane : Nat) (r : Request UInt8) (v : UInt8)

/-- An act brings only words that are genuine for their address. -/
def Act.Genuine (genuine : UInt8 → UInt16 → Prop) : Act → Prop
  | .fetch addr word => genuine addr word
  | .tick | .access .. => True

namespace Core

/-- The core after program memory has answered its fetch. -/
def answerFetch (c : Core) (w : UInt16) : Core :=
  { c with fetcher := { c.fetcher with port := .answered w } }

/-- The core with other lanes in one context. -/
def withLanes (c : Core) (t : ContextTag) (ls : List Lane) : Core :=
  { c with lanes := c.lanes.set t ls }

/-- One act. A memory answers only what was asked. -/
inductive Moves : Core → Act → Core → Prop
  | tick (c : Core) : Moves c .tick c.tick.1
  | fetch {c : Core} {addr : UInt8} (w : UInt16) :
      c.fetcher.port.pending = some (.read addr) → Moves c (.fetch addr w) (c.answerFetch w)
  | access {c : Core} {t : ContextTag} {pre post : List Lane} {l : Lane} {r : Request UInt8}
      (v : UInt8) : c.lanes.get t = pre ++ l :: post → l.port.pending = some r →
      Moves c (.access t pre.length r v) (c.withLanes t (pre ++ l.answered v :: post))

/-- A number of acts, in the order in which they happen. -/
inductive Run : Core → List Act → Core → Prop
  | nil (c : Core) : Run c [] c
  | snoc {c c' c'' : Core} {acts : List Act} {act : Act} :
      Run c acts c' → Moves c' act c'' → Run c (acts ++ [act]) c''

/-- A state that a core comes to, whatever blocks it is given or taken and whatever its memories
answer. -/
inductive Reachable : Core → Prop
  | idle (id : Nat) (blockDim : UInt8) : Reachable (.idle id blockDim)
  | start {c : Core} (b : Assignment) : Reachable c → Reachable (c.start b)
  | reset {c : Core} : Reachable c → Reachable c.reset
  | move {c c' : Core} {act : Act} : Reachable c → Moves c act c' → Reachable c'

end Core

/-! ## Lanes -/

namespace Lane

theorem Fits.listen_wait {l : Lane} {touches : Bool} (h : l.Fits touches .wait) :
    l.listen.Fits touches .wait where
  phase := LoadStoreUnit.listen_phase_eq_idle.trans h.phase
  port := h.port.listen

theorem Fits.issue {l : Lane} (i : Instruction) (h : l.Fits i.op.touchesMemory .request) :
    (l.issue i).Fits i.op.touchesMemory .wait := by
  have hp : l.memory.phase = .idle := h.phase
  cases ht : i.op.touchesMemory with
  | true =>
    constructor
    · simp [Lane.issue, ht, LoadStorePhase.Suits]
    · simp [Lane.issue, ht, LoadStoreUnit.PortFits, LoadStorePhase.isBusy, Port.issue]
  | false =>
    constructor
    · simpa [Lane.issue, ht, LoadStorePhase.Suits, Lane.latch] using hp
    · simpa [Lane.issue, ht, Lane.latch] using h.port

theorem Fits.of_not_busy {l : Lane} {touches : Bool} (h : l.Fits touches .wait)
    (hb : l.memory.phase.isBusy = false) : l.Fits touches .execute := by
  refine ⟨?_, h.port⟩
  have hp := h.phase
  cases hq : l.memory.phase <;> cases touches <;>
    simp_all [LoadStorePhase.Suits, LoadStorePhase.isBusy]

theorem Fits.not_busy {l : Lane} {touches : Bool} {stage : Stage} (h : l.Fits touches stage)
    (hs : stage ≠ .wait) : l.memory.phase.isBusy = false := by
  have hp := h.phase
  cases stage <;> cases touches <;> simp_all [LoadStorePhase.Suits, LoadStorePhase.isBusy]

theorem Fits.retire {l : Lane} {touches : Bool} (i : Instruction) (h : l.Fits touches .update) :
    (l.retire i).memory.phase = .idle ∧ (l.retire i).memory.PortFits := by
  refine ⟨rfl, ?_⟩
  have hq : l.memory.port = .quiet := h.port_eq_quiet (h.not_busy (by simp))
  simp [Lane.retire, LoadStoreUnit.PortFits, LoadStorePhase.isBusy, hq]

theorem Fits.answered {l : Lane} {touches : Bool} {stage : Stage} {r : Request UInt8} (v : UInt8)
    (h : l.Fits touches stage) (hr : l.port.pending = some r) :
    (l.answered v).Fits touches stage := by
  refine ⟨h.phase, ?_⟩
  have hb : l.memory.phase.isBusy = true := by
    apply eq_true_of_ne_false
    intro hb
    rw [h.port_eq_quiet hb] at hr
    simp [Port.quiet] at hr
  simp [Lane.answered, withPort, LoadStoreUnit.PortFits, hb, Port.answered]

end Lane

/-! ## Strands -/

namespace Strand

variable {held : Bool} {fetched : Option UInt16} {s s' : Strand}

theorem Fits.map {f : Lane → Lane} {x : Context} (h : s.Fits)
    (hx : x.finished = true ↔ x.stage = .done)
    (hf : ∀ l ∈ s.lanes, l.Fits s.instruction.op.touchesMemory s.context.stage →
      (f l).Fits s.instruction.op.touchesMemory x.stage) :
    Fits ⟨x, s.word, s.lanes.map f⟩ where
  lane := List.forall_mem_map.2 fun l hl ↦ hf l hl (h.lane l hl)
  finished := hx

theorem Fits.resume (h : s.Fits) (hst : s.context.stage = .wait) (hb : s.isBusy = false) :
    Fits { s with context := { s.context with stage := .execute } } := by
  constructor
  · intro l hl
    have hq := h.lane l hl
    rw [hst] at hq
    exact hq.of_not_busy (lane_not_busy hb hl)
  · simpa [hst] using h.finished

theorem Advances.fits (h : s.Advances held fetched s') (hs : s.Fits) : s'.Fits := by
  have hf := hs.finished
  cases h with
  | starve | done => exact hs
  | take hst | decode hst =>
    constructor
    · intro l hl
      have hp := (hs.lane l hl).phase
      exact ⟨by simpa only [hst, LoadStorePhase.Suits] using hp, (hs.lane l hl).port⟩
    · simpa [hst] using hf
  | stall => exact hs.map hf fun l _ hq ↦ ⟨hq.phase, hq.port⟩
  | issue hst =>
    apply hs.map (by simpa [hst] using hf)
    intro l _ hq
    rw [hst] at hq
    exact hq.issue s.instruction
  | await hst =>
    apply hs.map hf
    intro l _ hq
    rw [hst] at hq ⊢
    exact hq.listen_wait
  | resume hst hb => exact hs.resume hst hb
  | execute hst =>
    apply hs.map (by simpa [hst] using hf)
    intro l _ hq
    rw [hst] at hq
    exact ⟨hq.phase, hq.port⟩
  | retire hst | finish hst =>
    apply hs.map (by simp_all)
    intro l _ hq
    rw [hst] at hq
    exact ⟨(hq.retire s.instruction).1, (hq.retire s.instruction).2⟩

theorem Rests.fits (h : s.Rests s') (hs : s.Fits) : s'.Fits := by
  cases h with
  | wake hst hb => exact hs.resume hst hb
  | listen =>
    apply hs.map hs.finished
    intro l _ hq
    by_cases hst : s.context.stage = .wait
    · rw [hst] at hq ⊢
      exact hq.listen_wait
    · rwa [Lane.listen_of_not_busy (hq.not_busy hst)]

/-- A word that the strand holds past its fetch is genuine, if the one that it may take is. -/
theorem Advances.genuine {genuine : UInt8 → UInt16 → Prop} (h : s.Advances held fetched s')
    (hw : s.context.stage.hasWord = true → genuine s.context.pc s.word)
    (hf : ∀ w, s.context.stage = .fetch → fetched = some w → genuine s.context.pc w)
    (hs : s'.context.stage.hasWord = true) : genuine s'.context.pc s'.word := by
  cases h with
  | take hst hw => exact hf _ hst hw
  | starve hst | retire hst => simp_all [Stage.hasWord]
  | decode hst | issue hst | resume hst | execute hst | finish hst | stall hst | await hst
  | done hst => exact hw (by simp [hst, Stage.hasWord])

theorem Rests.genuine {genuine : UInt8 → UInt16 → Prop} (h : s.Rests s')
    (hw : s.context.stage.hasWord = true → genuine s.context.pc s.word)
    (hs : s'.context.stage.hasWord = true) : genuine s'.context.pc s'.word := by
  cases h with
  | wake hst => exact hw (by simp [hst, Stage.hasWord])
  | listen => exact hw hs

theorem Rests.stage (h : s.Rests s') :
    s'.context.stage = s.context.stage ∨ s.context.stage = .wait ∧ s'.context.stage = .execute := by
  cases h with
  | wake hst => exact .inr ⟨hst, rfl⟩
  | listen => exact .inl rfl

theorem Advances.stage_ne_idle (h : s.Advances held fetched s') :
    s'.context.stage ≠ .idle := by
  cases h <;> simp_all

theorem Advances.context_of_starved (h : s.Advances held none s') (hs : s.context.stage = .fetch) :
    s'.context = s.context := by
  cases h <;> simp_all

theorem Rests.context_of_ne_wait (h : s.Rests s') (hs : s.context.stage ≠ .wait) :
    s'.context = s.context := by
  cases h with
  | wake hw => exact absurd hw hs
  | listen => rfl

theorem Advances.stage_done (h : s.Advances held fetched s') (hs : s.context.stage = .done) :
    s' = s := by
  cases h <;> simp_all

/-- Only a strand that finds the bus free sends requests out. -/
theorem Advances.idle_lanes (h : s.Advances held fetched s')
    (hl : ∀ l ∈ s.lanes, l.memory.phase = .idle) (hh : held = true) :
    ∀ l ∈ s'.lanes, l.memory.phase = .idle := by
  cases h with
  | starve | done | take | decode | resume => exact hl
  | stall | execute => exact List.forall_mem_map.2 hl
  | issue hst hm =>
    have ht : s.instruction.op.touchesMemory = false := by simpa [hh] using hm
    refine List.forall_mem_map.2 ?_
    intro l hm
    simpa [Lane.issue, Lane.latch, ht] using hl l hm
  | await =>
    exact List.forall_mem_map.2 fun l hm ↦ LoadStoreUnit.listen_phase_eq_idle.2 (hl l hm)
  | retire | finish => exact List.forall_mem_map.2 fun l _ ↦ rfl

theorem Rests.idle_lanes (h : s.Rests s') (hl : ∀ l ∈ s.lanes, l.memory.phase = .idle) :
    ∀ l ∈ s'.lanes, l.memory.phase = .idle := by
  cases h with
  | wake => exact hl
  | listen =>
    exact List.forall_mem_map.2 fun l hm ↦ LoadStoreUnit.listen_phase_eq_idle.2 (hl l hm)

theorem Fits.idle_lanes (h : s.Fits) (hs : s.context.stage = .idle ∨ s.context.stage = .done) :
    ∀ l ∈ s.lanes, l.memory.phase = .idle := by
  intro l hl
  have hp := (h.lane l hl).phase
  rcases hs with hs | hs <;> simpa only [hs, LoadStorePhase.Suits] using hp

end Strand

/-! ## The fetcher -/

namespace Fetcher

variable {genuine : UInt8 → UInt16 → Prop} {f : Fetcher} {progress progress' : ContextTag → Context}

/-- The fetcher works for a context that keeps fetching at the same address. -/
theorem Fits.keep (h : f.Fits genuine progress)
    (hk : f.phase ≠ .idle → progress' f.owner = progress f.owner) : f.Fits genuine progress' := by
  cases hp : f.phase with
  | idle => simpa only [Fits, hp] using h
  | fetching | fetched =>
    have ho := hk (by simp [hp])
    simpa only [Fits, hp, ho] using h

theorem fits_request {d : Drive} (hs : (progress d.active).stage = .fetch)
    (hd : d.pc = (progress d.active).pc) : (f.request d).Fits genuine progress := by
  simp [Fits, request, hs, hd]

/-- A cycle of the fetcher, seen with the contexts as they were before the cycle. Only if the active
context takes its word over, the fetcher lets it go. -/
theorem Fits.tick {d : Drive} (h : f.Fits genuine progress)
    (hs : d.stage = (progress d.active).stage) (hd : d.pc = (progress d.active).pc) :
    (f.tick d).Fits genuine progress := by
  cases hp : f.phase with
  | idle =>
    by_cases hf : d.stage = .fetch
    · simp only [Fetcher.tick, hp, hf, if_true]
      exact fits_request (hs.symm.trans hf) hd
    · simpa only [Fetcher.tick, hp, hf, if_false] using h
  | fetching =>
    have hq := h
    simp only [Fits, hp] at hq
    obtain ⟨ho, hq | ⟨w, hw, hq⟩⟩ := hq
    · simpa only [Fetcher.tick, hp, hq, Port.issue] using h
    · simpa [Fetcher.tick, hp, hq, Fits, Port.taken, Port.quiet] using ⟨ho, hw⟩
  | fetched =>
    have hq := h
    simp only [Fits, hp] at hq
    simp only [Fetcher.tick, hp]
    split
    · exact hq.2.1
    · split
      · next hf => exact fits_request (by simp_all) hd
      · exact h

end Fetcher

/-! ## Cores -/

namespace ContextTag

theorem forall_of_active {p : ContextTag → Prop} (t : ContextTag) (h : p t) (ho : p t.other) :
    ∀ u, p u := by
  cases t <;> intro u <;> cases u <;> assumption

end ContextTag

namespace Core

variable {genuine : UInt8 → UInt16 → Prop} {c c' : Core} {t : ContextTag}

/-- The context for which the fetcher works stands still until the fetcher lets its word go. -/
theorem fits_tick (hF : c.fetcher.Fits genuine c.scheduler.get)
    (hA : (c.strand t).Advances c.scheduler.busHeld (c.fetchedFor t) (c'.strand t))
    (hR : (c.strand t.other).Rests (c'.strand t.other))
    (hf : c'.fetcher = c.fetcher.tick (c.fetchDrive t)) :
    c'.fetcher.Fits genuine c'.scheduler.get := by
  have hF : c'.fetcher.Fits genuine c.scheduler.get := hf ▸ hF.tick rfl rfl
  apply hF.keep
  intro hp
  have ho : (c.scheduler.get c'.fetcher.owner).stage = .fetch := by
    cases hq : c'.fetcher.phase <;> simp_all [Fetcher.Fits]
  revert ho
  refine ContextTag.forall_of_active (p := fun u ↦ (c.scheduler.get u).stage = .fetch →
    c'.scheduler.get u = c.scheduler.get u) t (fun hs ↦ ?_) (fun hs ↦ ?_) c'.fetcher.owner
  · cases hq : c.fetcher.completeFor t with
    | true =>
      -- the word at hand is taken over, and the fetcher is idle afterwards
      refine absurd ?_ hp
      simp_all [Fetcher.tick, fetchDrive, Fetcher.completeFor]
    | false =>
      rw [fetchedFor, hq] at hA
      exact hA.context_of_starved hs
  · exact hR.context_of_ne_wait (by simp [hs])

theorem eq_wait_or_done_of_active_b (h : c.scheduler.active = .b) :
    c.scheduler.a.stage = .wait ∨ c.scheduler.a.stage = .done := by
  cases hs : c.scheduler.a.stage <;> simp_all [Scheduler.active, selectActive]

theorem Sound.phase_ne_idle (hc : c.Sound genuine) {l : Lane}
    (hl : l ∈ c.lanes.get t) (hp : l.isBusy = true ∨ l.port.isPending = true) :
    l.memory.phase ≠ .idle := by
  intro hi
  have hb : l.memory.phase.isBusy = false := by simp [hi, LoadStorePhase.isBusy]
  have hq := ((hc.fits t).lane l hl).port_eq_quiet hb
  simp_all [Lane.isBusy, Port.isPending, Port.quiet]

/-- Data memory is asked by `b` only once `a` is done. -/
theorem Sound.done_of_pending (hc : c.Sound genuine) {l : Lane} (hl : l ∈ c.lanes.b)
    (hr : l.port.isPending = true) : c.scheduler.a.stage = .done :=
  hc.exclusive ⟨l, hl, hc.phase_ne_idle (t := .b) hl (.inr hr)⟩

/-- While `a` is not done, `b` finds the bus held or sends out no request. -/
theorem Sound.tick_exclusive (hc : c.Sound genuine) (ht : c.scheduler.active = t)
    (hA : (c.strand t).Advances c.scheduler.busHeld (c.fetchedFor t) (c'.strand t))
    (hR : (c.strand t.other).Rests (c'.strand t.other))
    (hb : ∃ l ∈ c'.lanes.b, l.memory.phase ≠ .idle) : c'.scheduler.a.stage = .done := by
  obtain ⟨l, hl, hp⟩ := hb
  by_cases hi : ∀ l ∈ c.lanes.b, l.memory.phase = .idle
  · -- a request of `b` goes out in this cycle, so `b` is active and `a` does not wait
    cases t with
    | a => exact absurd (hR.idle_lanes hi l hl) hp
    | b =>
      rcases eq_wait_or_done_of_active_b ht with hw | hd
      · exact absurd (hA.idle_lanes hi (by simp [Scheduler.busHeld, ht, hw]) l hl) hp
      · have hq := hR.context_of_ne_wait (by simp [ContextTag.other, PerContext.get, hd])
        exact (congrArg Context.stage hq).trans hd
  · have hd : c.scheduler.a.stage = .done := hc.exclusive (by simpa using hi)
    cases t with
    | a =>
      have hq := congrArg Strand.context (hA.stage_done hd)
      exact (congrArg Context.stage hq).trans hd
    | b =>
      have hq := hR.context_of_ne_wait (by simp [ContextTag.other, PerContext.get, hd])
      exact (congrArg Context.stage hq).trans hd

/-- A word at hand is genuine for the address at which its context fetches. -/
theorem genuine_of_fetchedFor (hF : c.fetcher.Fits genuine c.scheduler.get) {w : UInt16}
    (h : c.fetchedFor t = some w) : genuine (c.scheduler.get t).pc w := by
  cases hp : c.fetcher.phase <;>
    simp_all [Core.fetchedFor, Fetcher.completeFor, Fetcher.Fits]

theorem Sound.bootstrap (hc : c.Sound genuine) (ha : c.assignment.isSome)
    (hs : ∀ t, (c.scheduler.get t).stage = .idle) :
    Sound genuine { c with scheduler := c.scheduler.map fun _ x ↦ { x with stage := .fetch } } where
  fits t := by
    have hf := hc.fits t
    refine ⟨fun l hl ↦ ⟨?_, (hf.lane l hl).port⟩, ?_⟩
    · have hp := (hf.lane l hl).phase
      simpa only [strand_context, hs t, PerContext.get_map, LoadStorePhase.Suits] using hp
    · simpa [hs t] using hf.finished
  word t := by simp [Stage.hasWord]
  fetcher := by
    have hi := hc.fetcher_idle fun t ↦ by simp [hs t]
    simpa only [Fetcher.Fits, hi] using hc.fetcher
  idle := by simp [PerContext.map, PerContext.ofFn]
  asleep h := by simp_all
  exclusive := by
    rintro ⟨l, hl, hp⟩
    exact absurd ((hc.fits .b).idle_lanes (.inl (hs .b)) l hl) hp

theorem Sound.run (hc : c.Sound genuine) (ht : c.scheduler.active = t)
    (hs : ∀ t, (c.scheduler.get t).stage ≠ .idle)
    (hA : (c.strand t).Advances c.scheduler.busHeld (c.fetchedFor t) (c'.strand t))
    (hR : (c.strand t.other).Rests (c'.strand t.other))
    (hf : c'.fetcher = c.fetcher.tick (c.fetchDrive t)) (ha : c'.assignment = c.assignment) :
    c'.Sound genuine := by
  have hi : ∀ u, (c'.scheduler.get u).stage ≠ .idle := by
    refine ContextTag.forall_of_active t hA.stage_ne_idle ?_
    rcases hR.stage with hq | ⟨-, hq⟩
    · exact fun h ↦ hs t.other (hq.symm.trans h)
    · exact fun h ↦ by simp_all
  exact
    { fits := ContextTag.forall_of_active t (hA.fits (hc.fits t)) (hR.fits (hc.fits t.other))
      word := by
        refine ContextTag.forall_of_active t ?_ (hR.genuine (hc.word t.other))
        exact hA.genuine (hc.word t) fun w _ h ↦ genuine_of_fetchedFor hc.fetcher h
      fetcher := fits_tick hc.fetcher hA hR hf
      idle := iff_of_false (hi .a) (hi .b)
      asleep := fun h ↦ absurd (hc.asleep (ha.symm.trans h)) (hs .a)
      exclusive := hc.tick_exclusive ht hA hR }

theorem Sound.tick (hc : c.Sound genuine) : c.tick.1.Sound genuine := by
  have h := hc.cycle
  generalize c.tick.1 = c' at h ⊢
  cases h with
  | asleep => exact hc
  | bootstrap ha hs => exact hc.bootstrap ha hs
  | run t ht hs hA hR hf _ _ ha => exact hc.run ht hs hA hR hf ha

theorem Sound.stage_of_done (hc : c.Sound genuine) (h : c.done = true) (t : ContextTag) :
    (c.scheduler.get t).stage = .done := by
  have hf : c.scheduler.a.finished = true ∧ c.scheduler.b.finished = true := by
    simpa [done, Scheduler.done] using (Bool.and_eq_true_iff.1 h).2
  cases t with
  | a => exact (hc.fits .a).finished.1 hf.1
  | b => exact (hc.fits .b).finished.1 hf.2

/-! ## Answers of the memories -/

@[simp] theorem strand_withLanes_self (c : Core) (t : ContextTag) (ls : List Lane) :
    (c.withLanes t ls).strand t = { c.strand t with lanes := ls } := by
  simp [strand, withLanes]

@[simp] theorem strand_withLanes_other (c : Core) (t : ContextTag) (ls : List Lane) :
    (c.withLanes t ls).strand t.other = c.strand t.other := by
  simp [strand, withLanes]

/-- The fetcher has asked for the address of its owner, so that an answer fits, whatever makes the
word of this answer genuine. -/
theorem fits_answerFetch {genuine' : UInt8 → UInt16 → Prop}
    (hF : c.fetcher.Fits genuine c.scheduler.get) {addr : UInt8} {w : UInt16}
    (hp : c.fetcher.port.pending = some (.read addr)) (hw : genuine' addr w) :
    (c.answerFetch w).fetcher.Fits genuine' c.scheduler.get := by
  cases hq : c.fetcher.phase with
  | idle | fetched => simp_all [Fetcher.Fits, Port.quiet]
  | fetching =>
    simp only [Fetcher.Fits, hq] at hF
    obtain ⟨hs, hi | ⟨w', -, hi⟩⟩ := hF
    · have ha : (c.scheduler.get c.fetcher.owner).pc = addr := by
        simpa [hi, Port.issue] using hp
      simp only [Fetcher.Fits, Core.answerFetch, Port.answered, hq, hs, ha, true_and]
      exact .inr ⟨w, hw, rfl⟩
    · simp [hi] at hp

theorem Sound.answerFetch (hc : c.Sound genuine) {addr : UInt8} {w : UInt16}
    (hp : c.fetcher.port.pending = some (.read addr)) (hw : genuine addr w) :
    (c.answerFetch w).Sound genuine :=
  { hc with fetcher := fits_answerFetch hc.fetcher hp hw }

/-- An answer comes only for a lane that waits in a strand of which nothing else changes. -/
theorem Sound.access (hc : c.Sound genuine) {pre post : List Lane} {l : Lane} {r : Request UInt8}
    (v : UInt8) (hl : c.lanes.get t = pre ++ l :: post) (hr : l.port.pending = some r) :
    (c.withLanes t (pre ++ l.answered v :: post)).Sound genuine := by
  have hm : l ∈ c.lanes.get t := by simp [hl]
  have hlane : ∀ l' ∈ pre ++ l.answered v :: post,
      l'.Fits (c.strand t).instruction.op.touchesMemory (c.scheduler.get t).stage := by
    have hall := (hc.fits t).lane
    rw [strand_lanes, hl] at hall
    exact forall_mem_replace hall (((hc.fits t).lane l hm).answered v hr)
  refine ⟨ContextTag.forall_of_active t ?_ ?_, hc.word, hc.fetcher, hc.idle, hc.asleep, ?_⟩
  · rw [strand_withLanes_self]
    exact ⟨hlane, (hc.fits t).finished⟩
  · rw [strand_withLanes_other]
    exact hc.fits t.other
  · intro hx
    refine hc.exclusive ?_
    cases t with
    | a => exact hx
    | b =>
      have hb : c.lanes.b = pre ++ l :: post := hl
      obtain ⟨l', hl', hp⟩ := hx
      rcases mem_replace.1 hl' with rfl | hl'
      · exact ⟨l, hm, hp⟩
      · exact ⟨l', hb ▸ mem_replace.2 (.inr hl'), hp⟩

theorem Sound.move {act : Act} (hc : c.Sound genuine) (h : c.Moves act c')
    (hg : act.Genuine genuine) : c'.Sound genuine := by
  cases h with
  | tick => exact hc.tick
  | fetch w hp => exact hc.answerFetch hp hg
  | access v hl hr => exact hc.access v hl hr

theorem Sound.move_done (hc : c.Sound genuine) {act : Act} (h : c.Moves act c')
    (hd : (c.scheduler.get t).stage = .done) : (c'.scheduler.get t).stage = .done := by
  cases h with
  | fetch | access => exact hd
  | tick =>
    have hcy := hc.cycle
    generalize c.tick.1 = c' at hcy ⊢
    cases hcy with
    | asleep => exact hd
    | bootstrap _ hs => simp [hs] at hd
    | run u _ _ hA hR =>
      revert hd
      refine ContextTag.forall_of_active (p := fun t ↦ (c.scheduler.get t).stage = .done →
        (c'.scheduler.get t).stage = .done) u (fun hd ↦ ?_) (fun hd ↦ ?_) t
      · exact (congrArg (fun s ↦ s.context.stage) (hA.stage_done hd)).trans hd
      · exact (congrArg Context.stage (hR.context_of_ne_wait (by simp [hd]))).trans hd

/-! ## Blocks begin and end -/

theorem sound_idle (genuine : UInt8 → UInt16 → Prop) (id : Nat) (blockDim : UInt8) :
    (idle id blockDim).Sound genuine where
  fits t := by
    have hq : Context.initial.finished = true ↔ Context.initial.stage = .done := by decide
    cases t <;> exact ⟨nofun, hq⟩
  word t := by
    cases t <;> simp [idle, Scheduler.initial, PerContext.both, PerContext.get, Context.initial,
      Stage.hasWord]
  fetcher := rfl
  idle := Iff.rfl
  asleep _ := rfl
  exclusive := by simp [idle, PerContext.both]

theorem sound_start (genuine : UInt8 → UInt16 → Prop) (c : Core) (b : Assignment) :
    (c.start b).Sound genuine := by
  have hs := sound_idle genuine c.id c.blockDim
  refine ⟨fun t ↦ ⟨?_, (hs.fits t).finished⟩, hs.word, hs.fetcher, hs.idle, fun _ ↦ rfl, ?_⟩
  · have hl : (c.start b).lanes.get t = (c.start b).lanes.a := by
      cases t <;> rfl
    have hq : (c.start b).scheduler.get t = .initial := by
      cases t <;> rfl
    rw [strand_lanes, strand_context, hl, hq]
    exact List.forall_mem_map.2 fun _ _ ↦ ⟨rfl, rfl⟩
  · rintro ⟨l, hl, hp⟩
    obtain ⟨_, -, rfl⟩ := List.mem_map.1 hl
    exact absurd rfl hp

theorem Run.sound {acts : List Act} (h : Run c acts c') (hc : c.Sound genuine)
    (hg : ∀ act ∈ acts, act.Genuine genuine) : c'.Sound genuine := by
  induction h with
  | nil => exact hc
  | snoc _ hm ih => exact (ih fun x hx ↦ hg x (by simp [hx])).move hm (hg _ (by simp))

theorem Reachable.sound (h : Reachable c) : c.Sound fun _ _ ↦ True := by
  induction h with
  | idle id blockDim => exact sound_idle _ id blockDim
  | start b => exact sound_start _ _ b
  | reset => exact sound_idle _ _ _
  | move _ hm ih => exact ih.move hm (by cases hm <;> trivial)

end Core

end SimtMachine
