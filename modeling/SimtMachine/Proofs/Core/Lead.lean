import SimtMachine.Proofs.Core.TwoPasses

/-!
# The lead of context `a`

Nothing in the scheduler says that `b` stays behind `a`. It does so because an instruction of `a`
that does not touch memory leaves the datapath to `b` for a single cycle, while every instruction
needs five. Once an instruction of `a` touches memory, `b` may catch up, but not beyond this
instruction: both contexts execute the same ones up to there, and `b` is kept off the bus.
-/

namespace SimtMachine

open SimtMachine.Core (wordOf)
open Relation (ReflTransGen)

/-! ## Blocks before their first access -/

namespace Lockstep

variable {program : Image UInt16} {s q q' : Lockstep} {n n' : Nat}

/-- The next instruction of the block loads or stores. -/
def Touches (program : Image UInt16) (q : Lockstep) : Prop :=
  (q.instruction program).op.touchesMemory = true

/-- The block comes from `s` to the given state by `n` steps that do not touch memory. -/
inductive Strides (program : Image UInt16) (s : Lockstep) : Nat → Lockstep → Prop
  | start : Strides program s 0 s
  | next {n : Nat} {q q' : Lockstep} : Strides program s n q → ¬ q.Touches program →
      q.step program = some q' → Strides program s (n + 1) q'

theorem Strides.unique (h : s.Strides program n q) (h' : s.Strides program n q') : q = q' := by
  induction h generalizing q' with
  | start =>
    cases h'
    rfl
  | next _ _ hs ih =>
    cases h' with
    | next h' _ hs' =>
      obtain rfl := ih h'
      exact Option.some.inj (hs.symm.trans hs')

theorem Strides.passes (h : s.Strides program n' q') (hn : n < n') :
    ∃ q, s.Strides program n q ∧ ¬ q.Touches program ∧ q.step program ≠ none := by
  induction h with
  | start => exact absurd hn (Nat.not_lt_zero n)
  | @next n' q q' h ht hs ih =>
    rcases Nat.lt_succ_iff_lt_or_eq.1 hn with hlt | rfl
    · exact ih hlt
    · exact ⟨q, h, ht, by simp [hs]⟩

/-- No stride leads beyond a state that touches memory or returns. -/
theorem Strides.le (h : s.Strides program n q) (hq : q.Touches program ∨ q.step program = none)
    (h' : s.Strides program n' q') : n' ≤ n := by
  apply Nat.le_of_not_lt
  intro hn
  obtain ⟨q₀, h₀, ht, hs⟩ := h'.passes hn
  obtain rfl := h.unique h₀
  exact hq.elim ht hs

theorem not_touches_of_step_eq_none (h : q.step program = none) : ¬ q.Touches program := by
  have hr := step_eq_none.1 h
  intro ht
  cases ho : (q.instruction program).op <;>
    simp_all [Touches, Operation.returns, Operation.touchesMemory, Operation.loads,
      Operation.stores]

end Lockstep

/-! ## Shares of the datapath -/

namespace Stage

/-- The cycles that an instruction in this stage has had of the datapath, at least. The way out of
the wait stage needs none. -/
def share : Stage → Nat
  | idle | fetch | done => 0
  | decode => 1
  | request => 2
  | wait | execute => 3
  | update => 4

/-- The cycles that an instruction in this stage has left to the other context, if it does not touch
memory. -/
def granted : Stage → Nat
  | execute | update => 1
  | idle | fetch | decode | request | wait | done => 0

def isPastRequest : Stage → Bool
  | wait | execute | update => true
  | idle | fetch | decode | request | done => false

end Stage

namespace Strand

variable {program : Image UInt16} {start q : Lockstep} {s s' : Strand} {m : Image UInt8}
  {held : Bool} {fetched : Option UInt16} {n : Nat}

/-- The instructions that the strand retires in a cycle: one or none. -/
def retired (s s' : Strand) : Nat :=
  if s.context.stage = .update ∧ s'.context.stage ≠ .update then 1 else 0

/-- The return that a finished strand has retired. -/
def returned (s : Strand) : Nat :=
  if s.context.stage = .done then 1 else 0

/-- The strand has retired `n` instructions, and neither one of them nor one that is past its
request touches memory. -/
def Clear (program : Image UInt16) (start : Lockstep) (m : Image UInt8) (n : Nat) (s : Strand) :
    Prop :=
  ∃ k q, start.Strides program k q ∧ s.Tracks program q m ∧ n = k + s.returned ∧
    (s.context.stage.isPastRequest = true → ¬ q.Touches program)

theorem Tracks.pc_eq (h : s.Tracks program q m) (hs : s.context.stage ≠ .done) :
    s.context.pc = q.pc := by
  cases hst : s.context.stage <;> simp only [Tracks, hst] at h
  case done => exact absurd hst hs
  case update => exact h.1.pc
  all_goals exact h.pc

theorem Tracks.instruction_eq (h : s.Tracks program q m) (hs : s.context.stage ≠ .done)
    (hw : wordOf program s.context.pc s.word) : q.instruction program = s.instruction := by
  rw [Lockstep.instruction, ← h.pc_eq hs, ← hw]
  rfl

theorem Fits.idle_of_not_touches (h : s.Fits) (ht : s.instruction.op.touchesMemory = false) :
    ∀ l ∈ s.lanes, l.memory.phase = .idle := by
  intro l hl
  have hp := (h.lane l hl).phase
  cases hst : s.context.stage <;> simpa [hst, ht, LoadStorePhase.Suits] using hp

theorem isBusy_of_idle (h : ∀ l ∈ s.lanes, l.memory.phase = .idle) : s.isBusy = false := by
  rw [isBusy, List.any_eq_false]
  intro l hl
  simp [Lane.isBusy, h l hl, LoadStorePhase.isBusy]

@[simp] theorem retired_self (s : Strand) : s.retired s = 0 := by
  simp [retired]

theorem retired_of_ne_update (h : s.context.stage ≠ .update) (s' : Strand) : s.retired s' = 0 :=
  if_neg fun hu ↦ h hu.1

theorem Advances.share_le (h : s.Advances held fetched s') :
    5 * s.retired s' + s'.context.stage.share ≤ s.context.stage.share + 1 := by
  cases h <;> simp_all [retired, Stage.share]

theorem Rests.share_eq (h : s.Rests s') :
    s.retired s' = 0 ∧ s'.context.stage.share = s.context.stage.share := by
  cases h <;> simp_all [retired, Stage.share]

theorem Advances.returned_eq (h : s.Advances held fetched s') (hp : ¬ s.Proceeds s') :
    s'.returned = s.returned + s.retired s' := by
  cases h <;> simp_all [retired, returned, Proceeds]

theorem Rests.returned_eq (h : s.Rests s') : s'.returned = s.returned := by
  cases h <;> simp_all [returned]

/-- With the bus held, no instruction that touches memory gets past its request. -/
theorem Advances.isPastRequest (h : s.Advances true fetched s')
    (hp : s'.context.stage.isPastRequest = true) :
    s.context.stage.isPastRequest = true ∨
      s.context.stage = .request ∧ s.instruction.op.touchesMemory = false := by
  cases h <;> simp_all [Stage.isPastRequest]

theorem Rests.isPastRequest (h : s.Rests s') :
    s'.context.stage.isPastRequest = s.context.stage.isPastRequest := by
  cases h <;> simp_all [Stage.isPastRequest]

theorem Advances.clear (h : s.Advances true fetched s') (hs : s.Fits)
    (hw : s.context.stage.hasWord = true → wordOf program s.context.pc s.word)
    (hc : s.Clear program start m n) : s'.Clear program start m (n + s.retired s') := by
  obtain ⟨k, q, hq, ht, rfl, hpast⟩ := hc
  rcases h.tracks hs hw ht with ⟨hp, ht'⟩ | ⟨⟨hu, hf⟩, q', hstep, ht'⟩
  · refine ⟨k, q, hq, ht', by rw [h.returned_eq hp, Nat.add_assoc], fun hr ↦ ?_⟩
    rcases h.isPastRequest hr with hr | ⟨hst, hm⟩
    · exact hpast hr
    · rw [Lockstep.Touches, ht.instruction_eq (by simp [hst]) (hw (by simp [hst, Stage.hasWord])),
        hm]
      exact Bool.false_ne_true
  · have hnt := hpast (by simp [hu, Stage.isPastRequest])
    refine ⟨k + 1, q', hq.next hnt hstep, ht', ?_, by simp [hf, Stage.isPastRequest]⟩
    simp [returned, retired, hu, hf]

theorem Rests.clear (h : s.Rests s') (hs : s.Fits) (hc : s.Clear program start m n) :
    s'.Clear program start m (n + s.retired s') := by
  obtain ⟨k, q, hq, ht, rfl, hpast⟩ := hc
  refine ⟨k, q, hq, h.tracks hs ht, ?_, h.isPastRequest ▸ hpast⟩
  rw [h.share_eq.1, h.returned_eq, Nat.add_zero]

theorem Clear.bootstrap (hs : s.context.stage = .idle) (hc : s.Clear program start m n) :
    Clear program start m n { s with context := { s.context with stage := .fetch } } := by
  obtain ⟨k, q, hq, ht, rfl, -⟩ := hc
  simp only [Tracks, hs] at ht
  refine ⟨k, q, hq, ⟨ht.pc, ht.threads, ht.memory⟩, ?_, by simp [Stage.isPastRequest]⟩
  simp [returned, hs]

/-- An instruction that does not touch memory waits for one cycle. -/
theorem Advances.granted_eq (h : s.Advances held fetched s') (hs : s.context.stage ≠ .wait) :
    s.retired s' + s'.context.stage.granted = s.context.stage.granted := by
  cases h <;> simp_all [retired, Stage.granted]

theorem Rests.granted_eq (h : s.Rests s') (hb : s.isBusy = false) :
    s.retired s' + s'.context.stage.granted =
      s.context.stage.granted + if s.context.stage = .wait then 1 else 0 := by
  cases h with
  | wake hst => simp [retired, Stage.granted, hst]
  | listen hn =>
    have hst : s.context.stage ≠ .wait := fun hst ↦ hn ⟨hst, hb⟩
    simp [retired, hst]

end Strand

namespace Core

variable {genuine : UInt8 → UInt16 → Prop} {program : Image UInt16} {start : Lockstep}
  {m : Image UInt8} {c c' : Core} {na nb : Nat} {b : Assignment} {acts : List Act} {act : Act}

/-! ## Both contexts together -/

/-- Where the two contexts of a core are, after they have retired `na` and `nb` instructions of the
block that begins at `start`. -/
inductive Race (program : Image UInt16) (start : Lockstep) (m : Image UInt8) (c : Core)
    (na nb : Nat) : Prop
  /-- `a` has not come to an instruction that touches memory -/
  | level {q : Lockstep} : c.scheduler.a.stage ≠ .done → (c.strand .b).Clear program start m nb →
      start.Strides program na q → (c.strand .a).Tracks program q m → ¬ q.Touches program →
      5 * nb + c.scheduler.b.stage.share ≤ na + c.scheduler.a.stage.granted →
      Race program start m c na nb
  /-- `a` has come to instruction number `k`, the first one that touches memory -/
  | ahead {k : Nat} {q : Lockstep} : c.scheduler.a.stage ≠ .done →
      (c.strand .b).Clear program start m nb → start.Strides program k q → q.Touches program →
      k ≤ na → Race program start m c na nb
  | decided : c.scheduler.a.stage = .done → Race program start m c na nb

/-- While `a` is not done, `b` advances only when `a` waits, and then with the bus held. -/
theorem Sound.tick_b (hc : c.Sound (wordOf program)) (ha : c.scheduler.a.stage ≠ .done)
    (hb : (c.strand .b).Clear program start m nb) :
    (c.tick.1.strand .b).Clear program start m
        (nb + (c.strand .b).retired (c.tick.1.strand .b)) ∧
      5 * (c.strand .b).retired (c.tick.1.strand .b) + c.tick.1.scheduler.b.stage.share ≤
        c.scheduler.b.stage.share + if c.scheduler.a.stage = .wait then 1 else 0 := by
  have hcy := hc.cycle
  generalize c.tick.1 = c' at hcy ⊢
  cases hcy with
  | asleep => exact ⟨by simpa using hb, by simp⟩
  | bootstrap _ hs =>
    have hi : (c.strand .b).context.stage = .idle := hs .b
    rw [Strand.retired_of_ne_update (by rw [hi]; decide)]
    refine ⟨hb.bootstrap hi, ?_⟩
    simp [PerContext.map, PerContext.ofFn, Stage.share]
  | run t ht _ hA hR =>
    cases t with
    | a =>
      have hR : (c.strand .b).Rests (c'.strand .b) := hR
      obtain ⟨hr, hs⟩ := hR.share_eq
      refine ⟨hR.clear (hc.fits .b) hb, ?_⟩
      rw [hr, Nat.mul_zero, Nat.zero_add]
      exact Nat.le_add_right_of_le (Nat.le_of_eq hs)
    | b =>
      have hw := (eq_wait_or_done_of_active_b ht).resolve_right ha
      have hh : c.scheduler.busHeld = true := by simp [Scheduler.busHeld, ht, hw]
      rw [hh] at hA
      rw [if_pos hw]
      exact ⟨hA.clear (hc.fits .b) (hc.word .b) hb, hA.share_le⟩

theorem Sound.a_not_busy {q : Lockstep} (hc : c.Sound (wordOf program))
    (ht : (c.strand .a).Tracks program q m) (hn : ¬ q.Touches program) :
    (c.strand .a).isBusy = false := by
  by_cases hs : (c.strand .a).context.stage = .wait
  · have hi := ht.instruction_eq (by rw [hs]; decide) (hc.word .a (congrArg Stage.hasWord hs))
    rw [Lockstep.Touches, hi, Bool.not_eq_true] at hn
    exact Strand.isBusy_of_idle ((hc.fits .a).idle_of_not_touches hn)
  · exact (hc.fits .a).isBusy_eq_false hs

theorem Sound.tick_a {q : Lockstep} (hc : c.Sound (wordOf program))
    (ht : (c.strand .a).Tracks program q m) (hn : ¬ q.Touches program) :
    (c.strand .a).retired (c.tick.1.strand .a) + c.tick.1.scheduler.a.stage.granted =
      c.scheduler.a.stage.granted + if c.scheduler.a.stage = .wait then 1 else 0 := by
  have hcy := hc.cycle
  generalize c.tick.1 = c' at hcy ⊢
  cases hcy with
  | asleep ha => simp [hc.asleep ha]
  | bootstrap _ hs =>
    have hi : c.scheduler.a.stage = .idle := hs .a
    rw [Strand.retired_of_ne_update (by rw [strand_context, hs]; decide)]
    simp [hi, PerContext.map, PerContext.ofFn, Stage.granted]
  | run t hact _ hA hR =>
    cases t with
    | a =>
      have hw : c.scheduler.a.stage ≠ .wait := by
        intro hw
        simp [Scheduler.active, selectActive, hw] at hact
      rw [if_neg hw]
      exact hA.granted_eq hw
    | b => exact hR.granted_eq (hc.a_not_busy ht hn)

/-- A context that neither goes on to its next instruction nor is done has retired none. -/
theorem Sound.retired_eq_zero {t : ContextTag} (hc : c.Sound genuine)
    (hp : ¬ (c.strand t).Proceeds (c.tick.1.strand t))
    (hd : (c.tick.1.scheduler.get t).stage ≠ .done) :
    (c.strand t).retired (c.tick.1.strand t) = 0 := by
  by_cases hi : (c.scheduler.get t).stage = .idle
  · exact Strand.retired_of_ne_update (by simp [hi]) _
  rcases hc.strand_cases hi with ⟨_, hA⟩ | hR
  · have hr : (c.tick.1.strand t).returned = 0 := if_neg hd
    have hq := hA.returned_eq hp
    omega
  · exact hR.share_eq.1

theorem Race.tick (hc : c.Sound (wordOf program)) (h : Race program start m c na nb) :
    Race program start m c.tick.1 (na + (c.strand .a).retired (c.tick.1.strand .a))
      (nb + (c.strand .b).retired (c.tick.1.strand .b)) := by
  by_cases ha' : c.tick.1.scheduler.a.stage = .done
  · exact .decided ha'
  cases h with
  | decided ha => exact .decided (hc.move_done (.tick c) (t := .a) ha)
  | ahead ha hb hq ht hk =>
    exact .ahead ha' (hc.tick_b ha hb).1 hq ht (Nat.le_add_right_of_le hk)
  | @level q ha hb hq ht hn hle =>
    obtain ⟨hb', hshare⟩ := hc.tick_b ha hb
    have hgrant := hc.tick_a ht hn
    have hle' : 5 * (nb + (c.strand .b).retired (c.tick.1.strand .b)) +
        c.tick.1.scheduler.b.stage.share ≤
          na + (c.strand .a).retired (c.tick.1.strand .a) + c.tick.1.scheduler.a.stage.granted := by
      omega
    rcases hc.tick_tracks .a ht with ⟨hp, ht'⟩ | ⟨⟨hu, hf⟩, q', hstep, ht'⟩
    · have hr : (c.strand .a).retired (c.tick.1.strand .a) = 0 :=
        hc.retired_eq_zero hp ha'
      rw [hr] at hle' ⊢
      exact .level ha' hb' hq ht' hn hle'
    · have hr : (c.strand .a).retired (c.tick.1.strand .a) = 1 := by
        simp_all [Strand.retired]
      rw [hr] at hle' ⊢
      by_cases hq' : q'.Touches program
      · exact .ahead ha' hb' (hq.next hn hstep) hq' (Nat.le_refl _)
      · exact .level ha' hb' (hq.next hn hstep) ht' hq' hle'

theorem Race.move (hc : c.Sound (wordOf program)) (h : Race program start m c na nb)
    (hm : Moves c act c') :
    Race program start m c' (na + (c.strand .a).retired (c'.strand .a))
      (nb + (c.strand .b).retired (c'.strand .b)) := by
  cases hm with
  | tick => exact h.tick hc
  | fetch w =>
    have hs (t : ContextTag) : (c.answerFetch w).strand t = c.strand t := rfl
    rw [hs, hs, Strand.retired_self, Strand.retired_self]
    cases h with
    | level ha hb hq ht hn hle => exact .level ha hb hq ht hn hle
    | ahead ha hb hq ht hk => exact .ahead ha hb hq ht hk
    | decided ha => exact .decided ha
  | @access t pre post l r v hl hr =>
    have hmem : l ∈ c.lanes.get t := by simp [hl]
    have hpend : l.port.isPending = true := by simp [Port.isPending, hr]
    have hret (u : ContextTag) : (c.strand u).retired
        ((c.withLanes t (pre ++ l.answered v :: post)).strand u) = 0 := by
      simp [Strand.retired, withLanes]
    rw [hret, hret]
    cases h with
    | decided ha => exact .decided ha
    | ahead ha hb hq ht hk =>
      cases t with
      | a => exact .ahead ha hb hq ht hk
      | b => exact absurd (hc.done_of_pending hmem hpend) ha
    | @level q ha hb hq ht hn hle =>
      cases t with
      | a =>
        -- an instruction under way that does not touch memory has no request
        have hst : c.scheduler.a.stage = .wait := (hc.fits .a).stage_of_pending hmem hr
        have hi := ht.instruction_eq (by simp [PerContext.get, hst])
          (hc.word .a (by simp [PerContext.get, hst, Stage.hasWord]))
        rw [Lockstep.Touches, hi, Bool.not_eq_true] at hn
        exact absurd ((hc.fits .a).idle_of_not_touches hn l hmem)
          (hc.phase_ne_idle hmem (.inr hpend))
      | b => exact absurd (hc.done_of_pending hmem hpend) ha

theorem race_start (program : Image UInt16) (c : Core) (b : Assignment) (m : Image UInt8) :
    Race program (b.enter c.blockDim m) m (c.start b) 0 0 := by
  have ht := tracks_start program c b m
  have hs (t : ContextTag) : ((c.start b).scheduler.get t).stage = .idle := by cases t <;> rfl
  have ha : ((c.start b).scheduler.get .a).stage ≠ .done := by simp [hs]
  have hb : ((c.start b).strand .b).Clear program (b.enter c.blockDim m) m 0 :=
    ⟨0, _, .start, ht .b, rfl, by simp [hs, Stage.isPastRequest]⟩
  by_cases hq : (b.enter c.blockDim m).Touches program
  · exact .ahead ha hb .start hq (Nat.le_refl 0)
  · exact .level ha hb .start (ht .a) hq (Nat.zero_le _)

/-- While `a` is not done, neither is `b`, and `b` has not retired more. -/
theorem Race.lead (h : Race program start m c na nb) (ha : c.scheduler.a.stage ≠ .done) :
    c.scheduler.b.stage ≠ .done ∧ nb ≤ na := by
  cases h with
  | decided hd => exact absurd hd ha
  | @level q _ hb hq ht hn hle =>
    obtain ⟨k, q', hk, ht', rfl, -⟩ := hb
    have hg : c.scheduler.a.stage.granted ≤ 1 := by
      cases c.scheduler.a.stage <;> decide
    refine ⟨fun hd ↦ ?_, by omega⟩
    have hd' : (c.strand .b).context.stage = .done := hd
    simp only [Strand.Tracks, hd'] at ht'
    have hle' := hk.le (.inr ht'.1) hq
    simp only [Strand.returned, hd', if_true] at hle
    omega
  | @ahead k q _ hb hq ht hk =>
    obtain ⟨k', q', hk', ht', rfl, -⟩ := hb
    have hle := hq.le (.inl ht) hk'
    have hd : c.scheduler.b.stage ≠ .done := by
      intro hd
      have hd' : (c.strand .b).context.stage = .done := hd
      simp only [Strand.Tracks, hd'] at ht'
      have heq := Nat.le_antisymm hle (hk'.le (.inr ht'.1) hq)
      subst heq
      obtain rfl := hq.unique hk'
      exact Lockstep.not_touches_of_step_eq_none ht'.1 ht
    have hr : (c.strand .b).returned = 0 := if_neg hd
    exact ⟨hd, by omega⟩

/-! ## Counting along a run -/

/-- A run of a core in which `a` retires `na` and `b` retires `nb` instructions. -/
inductive Tally (c : Core) : List Act → Nat → Nat → Core → Prop
  | nil : Tally c [] 0 0 c
  | snoc {c' c'' : Core} {acts : List Act} {act : Act} {na nb : Nat} : Tally c acts na nb c' →
      Moves c' act c'' →
      Tally c (acts ++ [act]) (na + (c'.strand .a).retired (c''.strand .a))
        (nb + (c'.strand .b).retired (c''.strand .b)) c''

theorem Tally.race (h : Tally (c.start b) acts na nb c')
    (hg : ∀ act ∈ acts, act.Genuine (wordOf program)) (m : Image UInt8) :
    c'.Sound (wordOf program) ∧ Race program (b.enter c.blockDim m) m c' na nb := by
  induction h with
  | nil => exact ⟨sound_start _ c b, race_start program c b m⟩
  | snoc _ hm ih =>
    obtain ⟨hc, hr⟩ := ih fun x hx ↦ hg x (by simp [hx])
    exact ⟨hc.move hm (hg _ (by simp)), hr.move hc hm⟩

/-- Whatever the memories answer and when, `b` is not finished before `a`, and until `a` is finished
`b` has not retired more instructions. -/
theorem b_never_overtakes (h : Tally (c.start b) acts na nb c')
    (hg : ∀ act ∈ acts, act.Genuine (wordOf program)) :
    (c'.scheduler.b.finished = true → c'.scheduler.a.finished = true) ∧
      (c'.scheduler.a.finished = false → nb ≤ na) := by
  obtain ⟨hc, hr⟩ := h.race hg (Image.ofArray #[])
  have hf (t : ContextTag) := (hc.fits t).finished
  constructor
  · intro hb
    apply Decidable.byContradiction
    intro ha
    exact (hr.lead fun hd ↦ ha ((hf .a).2 hd)).1 ((hf .b).1 hb)
  · intro ha
    exact (hr.lead fun hd ↦ Bool.false_ne_true (ha.symm.trans ((hf .a).2 hd))).2

theorem Run.exists_tally (h : Run c acts c') : ∃ na nb, Tally c acts na nb c' := by
  induction h with
  | nil => exact ⟨0, 0, .nil⟩
  | snoc _ hm ih =>
    obtain ⟨na, nb, ht⟩ := ih
    exact ⟨_, _, ht.snoc hm⟩

theorem Answers.scheduler {s s' : Core × Image UInt8} (h : Answers program s s') :
    s'.1.scheduler = s.1.scheduler := by
  cases h <;> rfl

/-- Answers retire nothing. -/
theorem Tally.answers {s s' : Core × Image UInt8} (h : Tally c acts na nb s.1)
    (hg : ∀ act ∈ acts, act.Genuine (wordOf program)) (ha : ReflTransGen (Answers program) s s') :
    s'.1.scheduler = s.1.scheduler ∧ ∃ acts', Tally c acts' na nb s'.1 ∧
      ∀ act ∈ acts', act.Genuine (wordOf program) := by
  induction ha with
  | refl => exact ⟨rfl, acts, h, hg⟩
  | @tail s₁ s₂ _ ha ih =>
    obtain ⟨hs, acts', ht, hg'⟩ := ih
    obtain ⟨act, hm, hga⟩ := ha.works.moves
    have hr (t : ContextTag) : (s₁.1.strand t).retired (s₂.1.strand t) = 0 := by
      simp [Strand.retired, ha.scheduler]
    have ht' := ht.snoc hm
    rw [hr, hr] at ht'
    refine ⟨ha.scheduler.trans hs, _, ht', fun x hx ↦ ?_⟩
    rcases List.mem_append.1 hx with hx | hx
    · exact hg' x hx
    · exact List.mem_singleton.1 hx ▸ hga

end Core

namespace Solo

/-- The instructions that a context retires in the first `n` cycles. -/
def retired (s : Solo) (t : ContextTag) : Nat → Nat
  | 0 => 0
  | n + 1 => s.retired t n + ((s.after n).core.strand t).retired ((s.after (n + 1)).core.strand t)

theorem exists_tally {s : Solo} (hs : s.core.Sound (wordOf s.program.cells)) (n : Nat) :
    ∃ acts, Core.Tally s.core acts (s.retired .a n) (s.retired .b n) (s.after n).core ∧
      ∀ act ∈ acts, act.Genuine (wordOf s.program.cells) := by
  induction n with
  | zero => exact ⟨[], .nil, by simp⟩
  | succ n ih =>
    obtain ⟨acts, ht, hg⟩ := ih
    obtain ⟨hw, hp⟩ := works_after hs n
    obtain ⟨-, c, hc, hq⟩ := answers_step (hs.works_all hw)
    rw [hp] at hc
    obtain ⟨hsched, acts', ht', hg'⟩ := Core.Tally.answers (s := (s.after n).site) ht hg hc
    have hsched : c.scheduler = (s.after n).core.scheduler := hsched
    have hr (t : ContextTag) : (c.strand t).retired (c.tick.1.strand t) =
        ((s.after n).core.strand t).retired ((s.after (n + 1)).core.strand t) := by
      simp only [Strand.retired, Core.strand_context, hsched, after, hq]
    have hstep := ht'.snoc (.tick c)
    rw [hr, hr, ← hq] at hstep
    exact ⟨_, hstep, fun x hx ↦ (List.mem_append.1 hx).elim (hg' x) fun hx ↦ by
      rw [List.mem_singleton.1 hx]
      trivial⟩

/-- A thread whose second instruction loads from a slow memory. While `a` waits for it, `b` retires
its first instruction and is kept off the bus. -/
def stalled : Solo where
  core := (Core.idle 0 1).start ⟨0, 1⟩
  program := ⟨Image.ofArray #[0x9201, 0x7100, 0xF000], 1, 1, Nat.zero_lt_one, Nat.zero_lt_one⟩
  data := ⟨Image.ofArray #[5], 1, 24, Nat.zero_lt_one, by decide⟩
  cycle := 0

end Solo

theorem Core.b_never_overtakes_stalled :
    (Solo.stalled.after 22).core.scheduler.a.finished = false ∧
      ∃ acts, Tally ((idle 0 1).start ⟨0, 1⟩) acts 1 1 (Solo.stalled.after 22).core ∧
        ((Solo.stalled.after 22).core.scheduler.b.finished = true →
          (Solo.stalled.after 22).core.scheduler.a.finished = true) ∧ 1 ≤ 1 := by
  have hs := sound_start (wordOf Solo.stalled.program.cells) (idle 0 1) ⟨0, 1⟩
  obtain ⟨acts, ht, hg⟩ := Solo.exists_tally (s := Solo.stalled) hs 22
  have hn : Solo.stalled.retired .a 22 = 1 ∧ Solo.stalled.retired .b 22 = 1 := by decide +kernel
  rw [hn.1, hn.2] at ht
  have ha : (Solo.stalled.after 22).core.scheduler.a.finished = false := by decide +kernel
  obtain ⟨hb, hle⟩ := b_never_overtakes (c := idle 0 1) (b := ⟨0, 1⟩) ht hg
  exact ⟨ha, acts, ht, hb, hle ha⟩

end SimtMachine
