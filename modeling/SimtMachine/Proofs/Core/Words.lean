import SimtMachine.Proofs.Core.Service

/-!
# The words that a context executes

The two contexts share one fetcher, which may be asked for one context and answered when the other
is active. What it holds was nevertheless always asked for at the program counter of its owner, and
a context takes over nothing else.
-/

namespace SimtMachine

open Relation (ReflTransGen)

/-- What program memory answered, if it answered. -/
def Act.word? : Act → Option (UInt8 × UInt16)
  | .fetch addr w => some (addr, w)
  | .tick | .access .. => none

/-- The last answer of program memory, with the address that was asked for. -/
def lastWord (acts : List Act) : Option (UInt8 × UInt16) := (acts.filterMap Act.word?).getLast?

theorem lastWord_snoc (acts : List Act) (act : Act) :
    lastWord (acts ++ [act]) = act.word?.or (lastWord acts) := by
  cases act <;> simp [lastWord, Act.word?]

namespace Strand

variable {held : Bool} {fetched : Option UInt16} {s s' : Strand}

theorem Advances.takes (h : s.Advances held fetched s') (hs : s.context.stage = .fetch)
    (hd : s'.context.stage = .decode) : fetched = some s'.word := by
  cases h <;> simp_all

theorem Advances.word_of_ne_fetch (h : s.Advances held fetched s')
    (hs : s.context.stage ≠ .fetch) : s'.word = s.word := by
  cases h with
  | take hst => exact absurd hst hs
  | starve | decode | stall | issue | await | resume | execute | retire | finish | done => rfl

theorem Rests.word (h : s.Rests s') : s'.word = s.word := by
  cases h <;> rfl

end Strand

namespace Core

variable {genuine : UInt8 → UInt16 → Prop} {program : Image UInt16} {c c' : Core} {t : ContextTag}
  {acts : List Act} {b : Assignment}

/-- A cycle keeps what is true of the words of the fetcher, whatever this is. -/
theorem Sound.tick_fits {p : UInt8 → UInt16 → Prop} (hc : c.Sound genuine)
    (hF : c.fetcher.Fits p c.scheduler.get) : c.tick.1.fetcher.Fits p c.tick.1.scheduler.get := by
  have h := hc.cycle
  generalize c.tick.1 = c' at h ⊢
  cases h with
  | asleep => exact hF
  | bootstrap _ hs =>
    have hi := hc.fetcher_idle fun t ↦ by simp [hs t]
    simpa only [Fetcher.Fits, hi] using hF
  | run t _ _ hA hR hf => exact fits_tick hF hA hR hf

/-- A word that the fetcher holds is the last answer of program memory, and the address of this
answer is the program counter of the context that the fetcher works for. -/
theorem Run.fits_lastWord (h : Run (c.start b) acts c') (hg : ∀ act ∈ acts, act.Genuine genuine) :
    c'.Sound genuine ∧
      c'.fetcher.Fits (fun pc w ↦ lastWord acts = some (pc, w)) c'.scheduler.get := by
  generalize hs : c.start b = c₀ at h
  induction h with
  | nil =>
    subst hs
    exact ⟨sound_start genuine c b, rfl⟩
  | @snoc c' c'' acts act _ hm ih =>
    obtain ⟨hc, hF⟩ := ih fun x hx ↦ hg x (by simp [hx])
    refine ⟨hc.move hm (hg act (by simp)), ?_⟩
    simp only [lastWord_snoc]
    cases hm with
    | tick => exact hc.tick_fits hF
    | fetch w hp => exact fits_answerFetch hF hp rfl
    | access => exact hF

/-- A context that enters its decode stage has taken over a word that was at hand for it. -/
theorem Sound.fetchedFor_of_decode (hc : c.Sound genuine) (hs : (c.scheduler.get t).stage = .fetch)
    (hd : (c.tick.1.scheduler.get t).stage = .decode) :
    c.fetchedFor t = some (c.tick.1.instruction.get t) := by
  rcases hc.strand_cases (t := t) (by simp [hs]) with ⟨_, hA⟩ | hR
  · exact hA.takes hs hd
  · have hq := hR.context_of_ne_wait (by simp [hs])
    simp_all

/-- Past its fetch stage a context keeps the word in its instruction register. -/
theorem Sound.word_tick (hc : c.Sound genuine) (hi : (c.scheduler.get t).stage ≠ .idle)
    (hs : (c.scheduler.get t).stage ≠ .fetch) :
    c.tick.1.instruction.get t = c.instruction.get t := by
  rcases hc.strand_cases hi with ⟨_, hA⟩ | hR
  · exact hA.word_of_ne_fetch hs
  · exact hR.word

/-- However late and in whatever order program memory answers, a fetcher at work has asked, or has
been answered last, at the program counter of a context in its fetch stage. Past this stage a
context has the word of the program at its program counter in its instruction register, its lanes
execute this word, and it took it over from an answer to a request of its own. -/
theorem executes_own_words (h : Run (c.start b) acts c')
    (hg : ∀ act ∈ acts, act.Genuine (wordOf program)) :
    (∀ t, c'.fetcher.owner = t → c'.fetcher.phase ≠ .idle → (c'.scheduler.get t).stage = .fetch) ∧
    (∀ t, c'.fetcher.owner = t → c'.fetcher.phase = .fetching →
      c'.fetcher.port = .issue (.read (c'.scheduler.get t).pc) ∨
      c'.fetcher.port = .answered (program.read (c'.scheduler.get t).pc) ∧
        lastWord acts = some ((c'.scheduler.get t).pc, program.read (c'.scheduler.get t).pc)) ∧
    (∀ t, c'.fetcher.owner = t → c'.fetcher.phase = .fetched →
      c'.fetcher.instruction = program.read (c'.scheduler.get t).pc ∧
        lastWord acts = some ((c'.scheduler.get t).pc, program.read (c'.scheduler.get t).pc)) ∧
    (∀ t, (c'.scheduler.get t).stage ≠ .idle → (c'.scheduler.get t).stage ≠ .fetch →
      c'.instruction.get t = program.read (c'.scheduler.get t).pc ∧
        (c'.laneDrive t).instruction = decode (program.read (c'.scheduler.get t).pc)) ∧
    (∀ t, (c'.scheduler.get t).stage = .fetch → (c'.tick.1.scheduler.get t).stage = .decode →
      c'.tick.1.instruction.get t = program.read (c'.scheduler.get t).pc ∧
        lastWord acts = some ((c'.scheduler.get t).pc, program.read (c'.scheduler.get t).pc)) := by
  obtain ⟨hc, hl⟩ := h.fits_lastWord hg
  have hF := hc.fetcher
  refine ⟨?_, ?_, ?_, fun t hi hf ↦ ?_, fun t hs hd ↦ ?_⟩
  · rintro t rfl hp
    cases hq : c'.fetcher.phase <;> simp_all [Fetcher.Fits]
  · rintro t rfl hp
    simp only [Fetcher.Fits, hp] at hF hl
    obtain ⟨-, hF | ⟨w, rfl, hF⟩⟩ := hF
    · exact .inl hF
    · obtain ⟨-, hl | ⟨w, hl, hw⟩⟩ := hl
      · exact .inl hl
      · obtain rfl : program.read _ = w := by simpa [hF] using hw
        exact .inr ⟨hF, hl⟩
  · rintro t rfl hp
    simp only [Fetcher.Fits, hp] at hF hl
    obtain ⟨-, -, hF⟩ := hF
    exact ⟨hF, hF ▸ hl.2.2⟩
  · have hw : c'.instruction.get t = program.read (c'.scheduler.get t).pc :=
      hc.word t (by cases hs : (c'.scheduler.get t).stage <;> simp_all [Stage.hasWord])
    refine ⟨hw, ?_⟩
    rw [laneDrive, hc.word_tick hi hf, hw]
  · have hq := hc.fetchedFor_of_decode hs hd
    have hw : c'.tick.1.instruction.get t = program.read (c'.scheduler.get t).pc :=
      genuine_of_fetchedFor hF hq
    exact ⟨hw, hw ▸ genuine_of_fetchedFor hl hq⟩

/-- A thread whose first instruction does not touch memory. While `a` is past its fetch, the fetcher
reads for `b`, and `a` drops this word for its second instruction. -/
def preempted : Solo where
  core := (idle 0 1).start ⟨0, 1⟩
  program := ⟨Image.ofArray #[0x9201, 0x7100, 0xF000], 1, 1, Nat.zero_lt_one, Nat.zero_lt_one⟩
  data := ⟨Image.ofArray #[5], 1, 1, Nat.zero_lt_one, Nat.zero_lt_one⟩
  cycle := 0

theorem executes_own_words_preempted :
    (preempted.after 9).core.fetcher.completeFor .b = true ∧
      (preempted.after 11).core.fetcher.completeFor .a = true ∧
      ∃ acts, Run preempted.core acts (preempted.after 11).core ∧
        lastWord acts = some (1, 0x7100) ∧
        (preempted.after 11).core.tick.1.instruction.a = 0x7100 := by
  obtain ⟨acts, hr, hg⟩ :=
    preempted.exists_run_after (sound_start _ (idle 0 1) ⟨0, 1⟩) 11
  have hw : preempted.program.cells.read ((preempted.after 11).core.scheduler.get .a).pc =
      0x7100 := by decide +kernel
  have hpc : ((preempted.after 11).core.scheduler.get .a).pc = 1 := by decide +kernel
  obtain ⟨-, -, -, -, h⟩ := executes_own_words (c := idle 0 1) (b := ⟨0, 1⟩) hr hg
  obtain ⟨hi, hl⟩ := h .a (by decide +kernel) (by decide +kernel)
  exact ⟨by decide +kernel, by decide +kernel, acts, hr, by rw [hl, hw, hpc], hi.trans hw⟩

end Core

end SimtMachine
