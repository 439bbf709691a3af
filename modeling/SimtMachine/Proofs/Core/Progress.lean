import SimtMachine.Proofs.Core.Debt

/-!
# Progress of a core

The two contexts get into each other's way at the fetcher and on the bus, but never for ever: what
both owe together is less after every cycle in which no memory has a request of the core to answer,
and after every answer. A context that has not got hold of the fetcher owes more than one that has,
and `a` owes so much more than `b` in this case that it can pay for the word of `b` that it drops.
-/

namespace SimtMachine

open SimtMachine.Core (wordOf)

/-! ## The fetcher -/

/-- What a context that fetches owes before the fetcher works for it. -/
def ContextTag.patience : ContextTag → Nat
  | a => 8
  | b => 4

namespace Fetcher

/-- What is left of the fetch of a context. -/
def debt (f : Fetcher) (t : ContextTag) : Nat :=
  if f.owner = t then
    match f.phase with
    | .idle => t.patience
    | .fetching => if f.port.isPending then 3 else 2
    | .fetched => 1
  else t.patience

variable {f : Fetcher} {d : Drive} {t : ContextTag}

theorem debt_of_ne (h : f.owner ≠ t) : f.debt t = t.patience := if_neg h

theorem debt_of_idle (h : f.phase = .idle) : f.debt t = t.patience := by
  unfold debt
  rw [h]
  split <;> rfl

theorem debt_le (f : Fetcher) (t : ContextTag) : f.debt t ≤ 8 := by
  unfold debt
  cases t <;> cases f.phase <;> simp only [ContextTag.patience] <;> split <;> (try split) <;> omega

theorem debt_request (f : Fetcher) (d : Drive) : (f.request d).debt d.active = 3 := by
  simp [debt, request, Port.issue, Port.isPending]

/-- As long as nobody fetches, the fetcher does no more than to take its answer. -/
theorem debt_tick_le (hs : d.stage ≠ .fetch) (ha : d.accept = false) :
    (f.tick d).debt t ≤ f.debt t := by
  cases hp : f.phase with
  | idle => simp [tick, hp, hs]
  | fetched => simp [tick, hp, hs, ha]
  | fetching =>
    cases hr : f.port.ready with
    | none => simp [tick, hp, hr]
    | some w =>
      simp only [tick, hp, hr, debt]
      split
      · split <;> omega
      · exact Nat.le_refl _

end Fetcher

/-! ## Cores -/

namespace Core

variable {program : Image UInt16} {genuine : UInt8 → UInt16 → Prop} {c c' : Core} {t : ContextTag}
  {m m' fin : Image UInt8} {r : Nat}

/-- What is left of the fetch of a context, if it fetches. -/
def fetchDebt (c : Core) (t : ContextTag) : Nat :=
  if (c.scheduler.get t).stage = .fetch then c.fetcher.debt t else 0

/-- No memory has a request of the core to answer. -/
structure Unblocked (c : Core) : Prop where
  fetcher : c.fetcher.port.isPending = false
  lanes : ∀ t, ∀ l ∈ c.lanes.get t, l.port.isPending = false

theorem fetchDebt_of_ne (h : (c.scheduler.get t).stage ≠ .fetch) : c.fetchDebt t = 0 := if_neg h

theorem fetchDebt_le (c : Core) (t : ContextTag) : c.fetchDebt t ≤ 8 := by
  unfold fetchDebt
  split
  · exact c.fetcher.debt_le t
  · exact Nat.zero_le 8

/-- While the active context waits for its word, the fetcher goes on, be it for the other context.
Only a word of `b` is dropped, and `a` has paid for it. -/
theorem Sound.starve (hc : c.Sound genuine) (ht : c.scheduler.active = t)
    (hs : (c.scheduler.get t).stage = .fetch) (hq : c.fetcher.completeFor t = false)
    (hf : c'.fetcher = c.fetcher.tick (c.fetchDrive t))
    (hst : ∀ u, (c'.scheduler.get u).stage = .fetch ↔ (c.scheduler.get u).stage = .fetch) :
    c'.fetchDebt t + c'.fetchDebt t.other ≤ c.fetchDebt t + c.fetchDebt t.other ∧
      (c.fetcher.port.isPending = false →
        c'.fetchDebt t + c'.fetchDebt t.other < c.fetchDebt t + c.fetchDebt t.other) := by
  have hF := hc.fetcher
  have hne := ContextTag.other_ne t
  have hreq : (c.fetcher.request (c.fetchDrive t)).debt t = 3 := Fetcher.debt_request _ _
  have hother : (c.fetcher.request (c.fetchDrive t)).debt t.other = t.other.patience :=
    Fetcher.debt_of_ne (Ne.symm hne)
  simp only [fetchDebt, hst, hs, if_true, hf]
  cases hp : c.fetcher.phase with
  | idle =>
    have hr : c.fetcher.tick (c.fetchDrive t) = c.fetcher.request (c.fetchDrive t) := by
      simp [Fetcher.tick, hp, fetchDrive, hs]
    have hlt : 3 < t.patience := by cases t <;> decide
    rw [hr, hreq, hother, Fetcher.debt_of_idle hp, Fetcher.debt_of_idle hp]
    exact ⟨Nat.add_le_add_right hlt.le _, fun _ ↦ Nat.add_lt_add_right hlt _⟩
  | fetching =>
    simp only [Fetcher.Fits, hp] at hF
    obtain ⟨ho, hport | ⟨w, -, hport⟩⟩ := hF
    · have hr : c.fetcher.tick (c.fetchDrive t) = c.fetcher := by
        simp [Fetcher.tick, hp, hport, Port.issue]
      rw [hr]
      exact ⟨Nat.le_refl _, by simp [hport, Port.issue, Port.isPending]⟩
    · by_cases hw : c.fetcher.owner = t
      · simp [Fetcher.tick, Fetcher.debt, hp, hport, Port.isPending, hw, Ne.symm hne]
      · have hw' := ContextTag.eq_other_of_ne hw
        rw [hw'] at ho
        simp [Fetcher.tick, Fetcher.debt, hp, hport, Port.isPending, hw', hne, ho]
  | fetched =>
    simp only [Fetcher.Fits, hp] at hF
    have hw : c.fetcher.owner = t.other := by
      apply ContextTag.eq_other_of_ne
      simpa [Fetcher.completeFor, hp] using hq
    have ho := hF.1
    rw [hw] at ho
    -- the fetcher holds a word of the other context, which `b` cannot find when it is its turn
    cases t with
    | b =>
      have hfetch : c.scheduler.a.stage = .fetch := ho
      have hn := eq_wait_or_done_of_active_b ht
      simp [hfetch] at hn
    | a =>
      have hr : c.fetcher.tick (c.fetchDrive .a) = c.fetcher.request (c.fetchDrive .a) := by
        simp [Fetcher.tick, hp, fetchDrive, hs, hq, hw, ContextTag.other]
      have hd : c.fetcher.debt ContextTag.a.other = 1 := by simp [Fetcher.debt, hw, hp]
      rw [hr, hreq, hother, if_pos ho, if_pos ho, hd,
        Fetcher.debt_of_ne (by simp [hw, ContextTag.other])]
      exact ⟨by decide, fun _ ↦ by decide⟩

/-- A strand that rests neither begins nor ends a fetch. -/
theorem stage_rests_iff (hR : (c.strand t).Rests (c'.strand t)) :
    (c'.scheduler.get t).stage = .fetch ↔ (c.scheduler.get t).stage = .fetch := by
  rcases hR.stage with hq | ⟨hw, he⟩
  · rw [← strand_context, hq]
    rfl
  · simp only [strand_context] at hw he
    simp [hw, he]

theorem fetchDebt_rests_le (hR : (c.strand t).Rests (c'.strand t))
    (hle : c'.fetcher.debt t ≤ c.fetcher.debt t) : c'.fetchDebt t ≤ c.fetchDebt t := by
  unfold fetchDebt
  simp only [stage_rests_iff hR]
  split
  · exact hle
  · exact Nat.le_refl 0

/-- The fetcher does not take from the other context in a cycle in which the active one does not
starve. -/
theorem debt_other_le (hf : c'.fetcher = c.fetcher.tick (c.fetchDrive t))
    (hs : (c.scheduler.get t).stage ≠ .fetch ∨ c.fetcher.completeFor t = true) :
    c'.fetcher.debt t.other ≤ c.fetcher.debt t.other := by
  by_cases hst : (c.scheduler.get t).stage = .fetch
  · have hq := hs.resolve_left (not_not_intro hst)
    obtain ⟨hp, ho⟩ : c.fetcher.phase = .fetched ∧ c.fetcher.owner = t := by
      simpa [Fetcher.completeFor] using hq
    have hr : c'.fetcher.phase = .idle := by
      simp [hf, Fetcher.tick, hp, fetchDrive, hst, hq]
    have hne : c.fetcher.owner ≠ t.other := by
      rw [ho]
      exact Ne.symm (ContextTag.other_ne t)
    rw [Fetcher.debt_of_idle hr, Fetcher.debt_of_ne hne]
  · rw [hf]
    exact Fetcher.debt_tick_le hst (by simp [fetchDrive, hst])

theorem fetchedFor_eq_none (hq : c.fetcher.completeFor t = false) : c.fetchedFor t = none := by
  simp [fetchedFor, hq]

/-- A fetch of the other context is not set back unless the active context starves. -/
theorem fetchDebt_other_le
    (hA : (c.strand t).Advances c.scheduler.busHeld (c.fetchedFor t) (c'.strand t))
    (hR : (c.strand t.other).Rests (c'.strand t.other))
    (hf : c'.fetcher = c.fetcher.tick (c.fetchDrive t))
    (hs : (c.scheduler.get t).stage ≠ .fetch ∨ (c'.scheduler.get t).stage ≠ .fetch) :
    c'.fetchDebt t.other ≤ c.fetchDebt t.other := by
  refine fetchDebt_rests_le hR (debt_other_le hf ?_)
  by_cases hst : (c.scheduler.get t).stage = .fetch
  · refine .inr (eq_true_of_ne_false fun hq ↦ ?_)
    rw [fetchedFor_eq_none hq] at hA
    have hstage := congrArg Context.stage (hA.context_of_starved hst)
    exact hs.elim (· hst) (· (hstage.trans hst))
  · exact .inl hst

theorem Sound.active_owes (hc : c.Sound (wordOf program)) (ht : c.scheduler.active = t)
    (hA : (c.strand t).Advances c.scheduler.busHeld (c.fetchedFor t) (c'.strand t))
    (hR : (c.strand t.other).Rests (c'.strand t.other))
    (hf : c'.fetcher = c.fetcher.tick (c.fetchDrive t)) (ho : (c.strand t).Owes program fin m r) :
    ∃ r', (c'.strand t).Owes program fin m r' ∧
      r' + (c'.fetchDebt t + c'.fetchDebt t.other) ≤ r + (c.fetchDebt t + c.fetchDebt t.other) ∧
      (c.Unblocked → ((c.scheduler.get t).stage = .request → c.scheduler.busHeld = false) →
        (c.scheduler.get t).stage ≠ .done →
          r' + (c'.fetchDebt t + c'.fetchDebt t.other) <
            r + (c.fetchDebt t + c.fetchDebt t.other)) := by
  obtain ⟨r', ho', h⟩ := hA.owes (hc.fits t) (hc.word t) ho
  refine ⟨r', ho', ?_⟩
  have settled := fetchDebt_other_le hA hR hf
  -- a new fetch is paid for by what the strand has saved, an ended one only takes something off
  rcases h with ⟨hu, hlt⟩ | ⟨hlt, hne⟩ | ⟨hle, heq, hstuck⟩
  · have hother := settled (.inl (by simp_all))
    have hle := c'.fetchDebt_le t
    omega
  · have hother := settled (.inr hne)
    have hzero : c'.fetchDebt t = 0 := fetchDebt_of_ne hne
    omega
  · have hstage : (c'.scheduler.get t).stage = (c.scheduler.get t).stage :=
      congrArg Context.stage heq
    by_cases hst : (c.scheduler.get t).stage = .fetch
    · have hiff := ContextTag.forall_of_active (p := fun u ↦ (c'.scheduler.get u).stage = .fetch ↔
        (c.scheduler.get u).stage = .fetch) t (by rw [hstage]) (stage_rests_iff hR)
      have hq : c.fetcher.completeFor t = false := by
        have hn := hA.starved hst (hstage.trans hst)
        apply eq_false_of_ne_true
        intro hq
        simp [fetchedFor, hq] at hn
      obtain ⟨h1, h2⟩ := hc.starve ht hst hq hf hiff
      exact ⟨Nat.add_le_add hle h1, fun hn _ _ ↦ Nat.add_lt_add_of_le_of_lt hle (h2 hn.fetcher)⟩
    · have hother := settled (.inl hst)
      have hzero : c'.fetchDebt t = 0 := fetchDebt_of_ne (hstage ▸ hst)
      refine ⟨by omega, fun hn hh hd ↦ ?_⟩
      cases hstuck with
      | starved hs => exact absurd hs hst
      | held hs hb => exact absurd ((hh hs).symm.trans hb) (by simp)
      | asked hl hp => exact absurd ((hn.lanes t _ hl).symm.trans hp) (by simp)
      | done hs => exact absurd hs hd

/-- The core has a block to work on, and nothing keeps it from doing so. -/
structure Able (c : Core) : Prop extends c.Unblocked where
  assigned : c.assignment.isSome = true
  unfinished : c.done = false

theorem Sound.done_of_stages (hc : c.Sound genuine) (ha : c.assignment.isSome = true)
    (hs : ∀ t, (c.scheduler.get t).stage = .done) : c.done = true := by
  have hf (t : ContextTag) : (c.scheduler.get t).finished = true := (hc.fits t).finished.2 (hs t)
  have h := And.intro (hf .a) (hf .b)
  simp only [PerContext.get] at h
  simp [done, Scheduler.done, ha, h]

/-- The active context of a core that is not done is at work, unless it leaves the bus to the
other. -/
theorem Sound.active_works (hc : c.Sound genuine) (hd : c.Able) (ht : c.scheduler.active = t)
    (hw : (c.scheduler.get t.other).stage ≠ .wait) :
    c.scheduler.busHeld = false ∧ (c.scheduler.get t).stage ≠ .done := by
  cases t with
  | a =>
    refine ⟨by simp [Scheduler.busHeld, ht], fun hs ↦ ?_⟩
    have ha : c.scheduler.a.stage = .done := hs
    have hb : c.scheduler.b.stage = .done := by
      apply Decidable.byContradiction
      intro hb
      simp [Scheduler.active, selectActive, ha, hb] at ht
    have hdone := hc.done_of_stages hd.assigned fun t ↦ by cases t <;> assumption
    exact absurd (hdone.symm.trans hd.unfinished) (by simp)
  | b =>
    have hn : c.scheduler.a.stage ≠ .wait := hw
    have ha := (eq_wait_or_done_of_active_b ht).resolve_left hn
    refine ⟨by simp [Scheduler.busHeld, ha], fun hs ↦ ?_⟩
    have hb : c.scheduler.b.stage = .done := hs
    simp [Scheduler.active, selectActive, ha, hb] at ht

theorem Sound.run_owes {m' fin' : Image UInt8} {r₂ : Nat} (hc : c.Sound (wordOf program))
    (ht : c.scheduler.active = t)
    (hA : (c.strand t).Advances c.scheduler.busHeld (c.fetchedFor t) (c'.strand t))
    (hR : (c.strand t.other).Rests (c'.strand t.other))
    (hf : c'.fetcher = c.fetcher.tick (c.fetchDrive t)) (ho : (c.strand t).Owes program fin m r)
    (ho₂ : (c.strand t.other).Owes program fin' m' r₂) :
    ∃ r' r₂', (c'.strand t).Owes program fin m r' ∧ (c'.strand t.other).Owes program fin' m' r₂' ∧
      r' + r₂' + (c'.fetchDebt t + c'.fetchDebt t.other) ≤
        r + r₂ + (c.fetchDebt t + c.fetchDebt t.other) ∧
      (c.Able → r' + r₂' + (c'.fetchDebt t + c'.fetchDebt t.other) <
        r + r₂ + (c.fetchDebt t + c.fetchDebt t.other)) := by
  obtain ⟨r', ho', hle, hlt⟩ := hc.active_owes ht hA hR hf ho
  obtain ⟨r₂', ho₂', hle₂, hlt₂⟩ := hR.owes (hc.fits t.other) ho₂
  refine ⟨r', r₂', ho', ho₂', by omega, fun hable ↦ ?_⟩
  by_cases hw : (c.scheduler.get t.other).stage = .wait
  · have hlt₂ := hlt₂ hw (hable.lanes t.other)
    omega
  · obtain ⟨hheld, hdone⟩ := hc.active_works hable ht hw
    have hlt := hlt hable.toUnblocked (fun _ ↦ hheld) hdone
    omega

/-- A cycle never adds to what both contexts owe, and it takes something off unless the core has to
wait for a memory. -/
theorem Sound.tick_owes {ma mb fa fb : Image UInt8} {ra rb : Nat} (hc : c.Sound (wordOf program))
    (ha : (c.strand .a).Owes program fa ma ra) (hb : (c.strand .b).Owes program fb mb rb) :
    ∃ ra' rb', (c.tick.1.strand .a).Owes program fa ma ra' ∧
      (c.tick.1.strand .b).Owes program fb mb rb' ∧
      ra' + rb' + (c.tick.1.fetchDebt .a + c.tick.1.fetchDebt .b) ≤
        ra + rb + (c.fetchDebt .a + c.fetchDebt .b) ∧
      (c.Able → ra' + rb' + (c.tick.1.fetchDebt .a + c.tick.1.fetchDebt .b) <
        ra + rb + (c.fetchDebt .a + c.fetchDebt .b)) := by
  have h := hc.cycle
  generalize c.tick.1 = c' at h ⊢
  cases h with
  | asleep hn =>
    refine ⟨ra, rb, ha, hb, Nat.le_refl _, fun hable ↦ ?_⟩
    have hsome := hable.assigned
    simp [hn] at hsome
  | bootstrap _ hs =>
    obtain ⟨ra', ha', hla⟩ := ha.bootstrap (hs .a)
    obtain ⟨rb', hb', hlb⟩ := hb.bootstrap (hs .b)
    have hle := fetchDebt_le
      { c with scheduler := c.scheduler.map fun _ x ↦ { x with stage := .fetch } }
    have hlea := hle .a
    have hleb := hle .b
    refine ⟨ra', rb', ha', hb', ?_, fun _ ↦ ?_⟩ <;> omega
  | run t ht _ hA hR hf =>
    cases t with
    | a => exact hc.run_owes ht hA hR hf ha hb
    | b =>
      obtain ⟨rb', ra', hb', ha', hle, hlt⟩ := hc.run_owes ht hA hR hf hb ha
      simp only [ContextTag.other] at ha' hle hlt
      exact ⟨ra', rb', ha', hb', by omega, fun hable ↦ by have := hlt hable; omega⟩

/-! ## Two passes -/

/-- What a core owes for the two passes over its block, which leave `fin` behind. Until `a` is done,
`b` is where it would be on the memory that `a` will leave. -/
inductive Owes (program : Image UInt16) (fin : Image UInt8) (c : Core) (m : Image UInt8) :
    Nat → Prop
  | first {mid : Image UInt8} {ra rb : Nat} : c.scheduler.a.stage ≠ .done →
      (c.strand .a).Owes program mid m ra → (c.strand .b).Owes program fin mid rb →
      Owes program fin c m (ra + rb + (c.fetchDebt .a + c.fetchDebt .b))
  | second {mid base : Image UInt8} {ra rb : Nat} : c.scheduler.a.stage = .done →
      (c.strand .a).Owes program mid base ra → (c.strand .b).Owes program fin m rb →
      Owes program fin c m (ra + rb + (c.fetchDebt .a + c.fetchDebt .b))

/-- A cycle of a core that is not done and has no request under way brings it nearer to its end, and
any other cycle does no harm. -/
theorem Owes.tick (h : Owes program fin c m r) (hc : c.Sound (wordOf program)) :
    ∃ r', Owes program fin c.tick.1 m r' ∧ r' ≤ r ∧ (c.Able → r' < r) := by
  cases h with
  | first _ ha hb =>
    obtain ⟨ra', rb', ha', hb', hle, hlt⟩ := hc.tick_owes ha hb
    refine ⟨_, ?_, hle, hlt⟩
    by_cases hd : c.tick.1.scheduler.a.stage = .done
    · -- the memory that `b` has been measured on is now the real one
      obtain ⟨-, rfl⟩ := ha'.of_done hd
      exact .second hd ha' hb'
    · exact .first hd ha' hb'
  | second hd ha hb =>
    obtain ⟨ra', rb', ha', hb', hle, hlt⟩ := hc.tick_owes ha hb
    exact ⟨_, .second (hc.move_done (.tick c) (t := .a) hd) ha' hb', hle, hlt⟩

theorem Owes.fetch {addr : UInt8} (h : Owes program fin c m r) (hc : c.Sound (wordOf program))
    (hp : c.fetcher.port.pending = some (.read addr)) (w : UInt16) :
    ∃ r' < r, Owes program fin (c.answerFetch w) m r' := by
  have hlt : (c.answerFetch w).fetchDebt .a + (c.answerFetch w).fetchDebt .b <
      c.fetchDebt .a + c.fetchDebt .b := by
    have hF := hc.fetcher
    cases hq : c.fetcher.phase with
    | idle | fetched => simp_all [Fetcher.Fits, Port.quiet]
    | fetching =>
      simp only [Fetcher.Fits, hq] at hF
      have hst := hF.1
      cases ho : c.fetcher.owner <;> rw [ho] at hst <;>
        simp [fetchDebt, Core.answerFetch, Fetcher.debt, hq, ho, Port.answered, Port.isPending, hp,
          hst]
  cases h with
  | first hd ha hb => exact ⟨_, Nat.add_lt_add_left hlt _, .first hd ha hb⟩
  | second hd ha hb => exact ⟨_, Nat.add_lt_add_left hlt _, .second hd ha hb⟩

theorem Owes.access {t : ContextTag} {pre post : List Lane} {l : Lane} {a : Request UInt8}
    (h : Owes program fin c m r) (hc : c.Sound (wordOf program))
    (hl : c.lanes.get t = pre ++ l :: post) (ha : l.port.pending = some a)
    (hp : ∀ l' ∈ pre, l'.port.pending = none) :
    ∃ r' < r, Owes program fin (c.withLanes t (pre ++ l.answered (a.answer m) :: post))
      (a.apply m) r' := by
  have hm : l ∈ c.lanes.get t := by simp [hl]
  have hst : (c.scheduler.get t).stage = .wait := (hc.fits t).stage_of_pending hm ha
  cases t with
  | a =>
    cases h with
    | first hd hA hB =>
      obtain ⟨ra', hlt, hA'⟩ := hA.access (hc.fits .a) hl ha hp
      exact ⟨_, Nat.add_lt_add_right (Nat.add_lt_add_right hlt _) _, .first hd hA' hB⟩
    | second hd => exact absurd (hd.symm.trans hst) (by simp)
  | b =>
    cases h with
    | first hd => exact absurd (hc.done_of_pending hm (by simp [Port.isPending, ha])) hd
    | second hd hA hB =>
      obtain ⟨rb', hlt, hB'⟩ := hB.access (hc.fits .b) hl ha hp
      exact ⟨_, Nat.add_lt_add_right (Nat.add_lt_add_left hlt _) _, .second hd hA hB'⟩

/-- Every answer brings a core nearer to its end. -/
theorem Owes.answers (h : Owes program fin c m r) (hc : c.Sound (wordOf program))
    (ha : Answers program (c, m) (c', m')) : ∃ r' < r, Owes program fin c' m' r' := by
  cases ha with
  | fetch m hp => exact h.fetch hc hp _
  | access m hl hr hp => exact h.access hc hl hr hp

theorem Owes.of_done (h : Owes program fin c m r) (hc : c.Sound (wordOf program))
    (hd : c.done = true) : m = fin := by
  have ha : c.scheduler.a.stage = .done := hc.stage_of_done hd .a
  have hb : c.scheduler.b.stage = .done := hc.stage_of_done hd .b
  cases h with
  | first hn => exact absurd ha hn
  | second _ _ hB => exact (hB.of_done hb).2

/-- What a core owes at the start of a block depends on the block and the memory alone. -/
theorem exists_owes_start {dim : UInt8} {b : Assignment}
    (h : b.FinishesTwice program dim m fin) :
    ∃ r, ∀ c : Core, c.blockDim = dim → Owes program fin (c.start b) m r := by
  obtain ⟨mid, hA, hB⟩ := h
  obtain ⟨ka, hA⟩ := hA.exists_finishesIn
  obtain ⟨kb, hB⟩ := hB.exists_finishesIn
  generalize hn : b.threads.toNat = n
  have owes (c : Core) (t : ContextTag) {m fin : Image UInt8} {k : Nat}
      (hk : Lockstep.FinishesIn program k (b.enter c.blockDim m) fin) :
      ((c.start b).strand t).Owes program fin m ((14 + 4 * n) * k + (15 + 4 * n)) := by
    refine ⟨_, k, tracks_start program c b m t, hk, ?_⟩
    cases t <;> simp [strand, start, Strand.price, Strand.debt, Core.reset, idle,
      Scheduler.initial, PerContext.both, PerContext.get, Context.initial, hn]
  refine ⟨(14 + 4 * n) * ka + (15 + 4 * n) + ((14 + 4 * n) * kb + (15 + 4 * n)), fun c hc ↦ ?_⟩
  subst hc
  have hidle : (c.start b).scheduler.a.stage = .idle := rfl
  exact .first (by simp [hidle]) (owes c .a hA) (owes c .b hB)

end Core

end SimtMachine
