import SimtMachine.Proofs.Core.Simulation

/-!
# Two passes

The first pass of a core over its block is made by context `a`. Until `a` is done, `b` has executed
no instruction that touches memory, so that `b` is at the same place for every memory that `a` may
leave; from then on `b` makes the second pass on what `a` has left.
-/

namespace SimtMachine

open Relation (ReflTransGen)

namespace Core

variable {program : Image UInt16} {dim : UInt8} {b : Assignment} {base m m' : Image UInt8}
  {c c' : Core} {start : Lockstep}

/-- Where a core is in the two passes over a block that it began on the memory `base`. -/
inductive Pass (program : Image UInt16) (dim : UInt8) (b : Assignment) (base : Image UInt8)
    (c : Core) (m : Image UInt8) : Prop
  | first : c.scheduler.a.stage ≠ .done →
      (c.strand .a).Follows program (b.enter dim base) m →
      (∀ m', (c.strand .b).Follows program (b.enter dim m') m') → Pass program dim b base c m
  | second {mid : Image UInt8} : c.scheduler.a.stage = .done →
      Lockstep.Finishes program (b.enter dim base) mid →
      (c.strand .b).Follows program (b.enter dim mid) m → Pass program dim b base c m

/-- A core executes a block that it began on the memory `base`. -/
structure Executes (program : Image UInt16) (dim : UInt8) (b : Assignment) (base : Image UInt8)
    (c : Core) (m : Image UInt8) : Prop where
  sound : c.Sound (wordOf program)
  pass : Pass program dim b base c m

theorem Pass.of_follows (ha : (c.strand .a).Follows program (b.enter dim base) m)
    (hb : ∀ m', (c.strand .b).Follows program (b.enter dim m') m') :
    Pass program dim b base c m := by
  by_cases hd : c.scheduler.a.stage = .done
  · exact .second hd (ha.finishes hd) (hb m)
  · exact .first hd ha hb

/-- A cycle leaves memory alone and brings a strand to the next step of its block only if the strand
goes on to its next instruction. -/
theorem Sound.tick_tracks {q : Lockstep} (hc : c.Sound (wordOf program)) (t : ContextTag)
    (ht : (c.strand t).Tracks program q m) :
    ¬ (c.strand t).Proceeds (c.tick.1.strand t) ∧ (c.tick.1.strand t).Tracks program q m ∨
      (c.strand t).Proceeds (c.tick.1.strand t) ∧
        ∃ q', q.step program = some q' ∧ (c.tick.1.strand t).Tracks program q' m := by
  by_cases hi : (c.scheduler.get t).stage = .idle
  · refine .inl ⟨by simp [Strand.Proceeds, hi], ?_⟩
    simp only [Strand.Tracks, strand_context, hi] at ht
    have hcy := hc.cycle
    generalize c.tick.1 = c' at hcy ⊢
    cases hcy with
    | asleep => simpa only [Strand.Tracks, strand_context, hi] using ht
    | bootstrap =>
      simp only [Strand.Tracks, strand_context, PerContext.get_map]
      exact ⟨by simpa using ht.pc, ht.threads, ht.memory⟩
    | run _ _ hs => exact absurd hi (hs t)
  · rcases hc.strand_cases hi with ⟨_, hA⟩ | hR
    · exact hA.tracks (hc.fits t) (hc.word t) ht
    · exact .inl ⟨hR.not_proceeds, hR.tracks (hc.fits t) ht⟩

theorem Sound.tick_follows (hc : c.Sound (wordOf program)) (t : ContextTag)
    (h : (c.strand t).Follows program start m) : (c.tick.1.strand t).Follows program start m := by
  obtain ⟨q, hq, ht⟩ := h
  rcases hc.tick_tracks t ht with ⟨-, ht'⟩ | ⟨-, q', hstep, ht'⟩
  · exact ⟨q, hq, ht'⟩
  · exact ⟨q', hq.tail hstep, ht'⟩

theorem Pass.tick (hc : c.Sound (wordOf program)) (h : Pass program dim b base c m) :
    Pass program dim b base c.tick.1 m := by
  cases h with
  | first _ ha hb => exact .of_follows (hc.tick_follows .a ha) fun m' ↦ hc.tick_follows .b (hb m')
  | second hd hf hb =>
    exact .second (hc.move_done (.tick c) (t := .a) hd) hf (hc.tick_follows .b hb)

/-- Data memory answers `a` only in the first pass and `b` only in the second. -/
theorem Pass.access {t : ContextTag} {pre post : List Lane} {l : Lane} {r : Request UInt8}
    (hc : c.Sound (wordOf program)) (h : Pass program dim b base c m)
    (hl : c.lanes.get t = pre ++ l :: post) (hr : l.port.pending = some r)
    (hp : ∀ l' ∈ pre, l'.port.pending = none) :
    Pass program dim b base (c.withLanes t (pre ++ l.answered (r.answer m) :: post))
      (r.apply m) := by
  have hm : l ∈ c.lanes.get t := by simp [hl]
  have hst : (c.scheduler.get t).stage = .wait := (hc.fits t).stage_of_pending hm hr
  cases t with
  | a =>
    cases h with
    | first hd ha hb => exact .first hd (ha.access (hc.fits .a) hl hr hp) hb
    | second hd => exact absurd (hd.symm.trans hst) (by simp)
  | b =>
    cases h with
    | first hd => exact absurd (hc.done_of_pending hm (by simp [Port.isPending, hr])) hd
    | second hd hf hb => exact .second hd hf (hb.access (hc.fits .b) hl hr hp)

theorem Executes.works (h : Executes program dim b base c m)
    (hw : Works program (c, m) (c', m')) : Executes program dim b base c' m' := by
  refine ⟨h.sound.works hw, ?_⟩
  have hp := h.pass
  cases hw with
  | tick => exact hp.tick h.sound
  | fetch =>
    cases hp with
    | first hd ha hb => exact .first hd ha hb
    | second hd hf hb => exact .second hd hf hb
  | access _ hl hr hpre => exact hp.access h.sound hl hr hpre

theorem Executes.works_all {s s' : Core × Image UInt8} (h : Executes program dim b base s.1 s.2)
    (hw : ReflTransGen (Works program) s s') : Executes program dim b base s'.1 s'.2 := by
  induction hw with
  | refl => exact h
  | tail _ hw ih => exact ih.works hw

theorem tracks_start (program : Image UInt16) (c : Core) (b : Assignment) (m : Image UInt8)
    (t : ContextTag) : ((c.start b).strand t).Tracks program (b.enter c.blockDim m) m := by
  have hl : ((List.range b.threads.toNat).map fun t ↦
      Lane.seeded b.block c.blockDim (UInt8.ofNat t)).map Lane.thread =
        (b.enter c.blockDim m).threads := List.map_map
  cases t <;> exact ⟨rfl, hl, rfl⟩

theorem executes_start (program : Image UInt16) (c : Core) (b : Assignment) (m : Image UInt8) :
    Executes program c.blockDim b m (c.start b) m := by
  have hf (t : ContextTag) (m : Image UInt8) :
      ((c.start b).strand t).Follows program (b.enter c.blockDim m) m :=
    ⟨_, .refl, tracks_start program c b m t⟩
  exact ⟨sound_start _ c b, .of_follows (hf .a m) (hf .b)⟩

theorem Executes.finishes (h : Executes program dim b base c m) (hd : c.done = true) :
    b.FinishesTwice program dim base m := by
  have ha : c.scheduler.a.stage = .done := h.sound.stage_of_done hd .a
  have hb : c.scheduler.b.stage = .done := h.sound.stage_of_done hd .b
  cases h.pass with
  | first hne => exact absurd ha hne
  | second _ hf hF => exact ⟨_, hf, hF.finishes hb⟩

/-- Every request under way belongs to one of the two passes. -/
theorem Executes.issues {t : ContextTag} {l : Lane} {r : Request UInt8}
    (h : Executes program dim b base c m) (hl : l ∈ c.lanes.get t)
    (hr : l.port.pending = some r) : b.Issues program dim base r := by
  have hs := h.sound
  have hst : (c.scheduler.get t).stage = .wait := (hs.fits t).stage_of_pending hl hr
  cases t with
  | a =>
    cases h.pass with
    | first _ ha => exact .inl (ha.issues (hs.fits .a) (hs.word .a) hl hr)
    | second hd => exact absurd (hd.symm.trans hst) (by simp)
  | b =>
    cases h.pass with
    | first hd => exact absurd (hs.done_of_pending hl (by simp [Port.isPending, hr])) hd
    | second _ hf hb => exact .inr ⟨_, hf, hb.issues (hs.fits .b) (hs.word .b) hl hr⟩

end Core

/-! ## A core on its own -/

/-- Whatever program, data and block it is given, and however slow its two memories are, a core that
is done has made exactly two passes over its block, the second on what the first left. -/
theorem Solo.two_passes {program : Array UInt16} {data : Array UInt8}
    {programMemory : Memory UInt16} {dataMemory : Memory UInt8}
    {programChannels programInterval dataChannels dataInterval : Nat}
    (hp : Memory.create program programChannels programInterval = .ok programMemory)
    (hd : Memory.create data dataChannels dataInterval = .ok dataMemory)
    (c : Core) (b : Assignment) (cycle n : Nat)
    (hdone : (Solo.after ⟨c.start b, programMemory, dataMemory, cycle⟩ n).core.done = true) :
    b.FinishesTwice (Image.ofArray program) c.blockDim (Image.ofArray data)
      (Solo.after ⟨c.start b, programMemory, dataMemory, cycle⟩ n).data.cells := by
  have h := Core.executes_start programMemory.cells c b dataMemory.cells
  have hw := (Solo.works_after (s := ⟨c.start b, programMemory, dataMemory, cycle⟩) h.sound n).1
  have hf := (h.works_all hw).finishes hdone
  rwa [Memory.cells_of_create hp, Memory.cells_of_create hd] at hf

/-- A block of two threads that each add one to the cell at address 0. Both threads load before
either stores, so that a pass adds one. -/
def Solo.counter : Solo where
  core := (Core.idle 0 2).start ⟨0, 2⟩
  program :=
    ⟨Image.ofArray #[0x9201, 0x7100, 0x3112, 0x8001, 0xF000], 1, 1, Nat.zero_lt_one,
      Nat.zero_lt_one⟩
  data := ⟨Image.ofArray #[5], 2, 2, Nat.two_pos, Nat.two_pos⟩
  cycle := 0

theorem Solo.two_passes_counter :
    (Solo.counter.after 120).core.done = true ∧ (Solo.counter.after 120).data.cells.read 0 = 7 ∧
      Assignment.FinishesTwice (Image.ofArray #[0x9201, 0x7100, 0x3112, 0x8001, 0xF000]) 2 ⟨0, 2⟩
        (Image.ofArray #[5]) (Solo.counter.after 120).data.cells := by
  have hp : Memory.create #[0x9201, 0x7100, 0x3112, 0x8001, 0xF000] 1 1 =
      .ok Solo.counter.program := rfl
  have hm : Memory.create #[5] 2 2 = .ok Solo.counter.data := rfl
  have hd : (Solo.counter.after 120).core.done = true := by decide +kernel
  have h := Solo.two_passes hp hm (Core.idle 0 2) ⟨0, 2⟩ 0 120
  have hs : Solo.mk ((Core.idle 0 2).start ⟨0, 2⟩) Solo.counter.program Solo.counter.data 0 =
      Solo.counter := rfl
  rw [hs] at h
  exact ⟨hd, by decide +kernel, h hd⟩

end SimtMachine
