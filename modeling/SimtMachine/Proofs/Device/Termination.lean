import SimtMachine.Proofs.Device.Bookkeeping
import SimtMachine.Proofs.Device.Meter
import SimtMachine.Proofs.Device.Sequence
import SimtMachine.Proofs.Dispatch.Completion

/-!
# Every kernel comes to an end

Both memories serve together again and again. Whenever they do, a launch under way moves on: there
is a request that is answered, or no core has a request under way, and then some core goes on with
its block, gives it up or is handed one. So whatever the configuration, the device is done as soon
as the blocks owe nothing any more, provided that their passes come to an end by themselves and do
not depend on who is faster.
-/

namespace SimtMachine

open Relation (ReflTransGen)
open SimtMachine.Core (wordOf)

namespace Device

variable {program : Image UInt16} {n : Nat} {dim : UInt8} {d d' : Device} {p : Pool}
  {inputs : List DispatchInput} {outputs : List (List Order)} {left served : Nat}

/-- In a cycle in which both memories serve, something is answered or nobody has asked. -/
theorem progresses_serve (hp : d.program.servesAt d.cycle = true)
    (hd : d.data.servesAt d.cycle = true) (hs : ∀ c ∈ d.cores, c.Sound (wordOf d.program.cells))
    (w done : List Assignment) :
    Pool.Progresses d.program.cells ⟨d.cores, d.data.cells, w, done⟩
        ⟨d.serve.2.2, d.serve.2.1.cells, w, done⟩ ∨
      d.serve.2.2 = d.cores ∧ ∀ c ∈ d.cores, c.Unblocked := by
  have hcores : d.serve.2.2 = (sweep Core.visitData ⟨d.data.cells, d.data.channels⟩
      (sweep Core.visitProgram ⟨d.program.cells, d.program.channels⟩ d.cores).2).2 := by
    simp [serve, Memory.serviceWith, hp, hd]
  have hcells : d.serve.2.1.cells = (sweep Core.visitData ⟨d.data.cells, d.data.channels⟩
      (sweep Core.visitProgram ⟨d.program.cells, d.program.channels⟩ d.cores).2).1.cells := by
    simp [serve, Memory.serviceWith, hp, hd]
  have hfetch : ReflTransGen (Pool.Pushes d.program.cells) ⟨d.cores, d.data.cells, w, done⟩
      ⟨(sweep Core.visitProgram ⟨d.program.cells, d.program.channels⟩ d.cores).2, d.data.cells, w,
        done⟩ := (pushes_visitProgram _ _ hs rfl).2
  have hload : ReflTransGen (Pool.Pushes d.program.cells)
      ⟨(sweep Core.visitProgram ⟨d.program.cells, d.program.channels⟩ d.cores).2, d.data.cells, w,
        done⟩ ⟨d.serve.2.2, d.serve.2.1.cells, w, done⟩ := by
    rw [hcores, hcells]
    exact pushes_visitData _ ⟨d.data.cells, d.data.channels⟩ _
  -- a service that leaves the cores as they are has seen all their requests, and there are none
  by_cases hq : (sweep Core.visitProgram ⟨d.program.cells, d.program.channels⟩ d.cores).2 = d.cores
  · by_cases hq' : d.serve.2.2 = d.cores
    · right
      refine ⟨hq', fun c hc ↦ ⟨?_, ?_⟩⟩
      · exact (sweep_eq_self (fun s ↦ s.free ≠ 0)
          (fun _ _ ↦ Core.visitProgram_eq_self) d.program.channels_pos.ne' hq).2 c hc
      · rw [hcores, hq] at hq'
        exact (sweep_eq_self (fun s ↦ s.free ≠ 0)
          (fun _ _ ↦ Core.visitData_eq_self) d.data.channels_pos.ne' hq').2 c hc
    · left
      refine Pool.progresses_of_pushes (hfetch.trans hload) fun h ↦ hq' ?_
      exact (congrArg Pool.cores h).symm
  · left
    refine (Pool.progresses_of_pushes hfetch fun h ↦ hq ?_).trans_moves
      (Pool.moves_of_pushes hload)
    exact (congrArg Pool.cores h).symm

/-! ## Cycles in which both memories serve -/

/-- A launch under way that has no block at work has blocks left, and a core waits for one. -/
theorem Consistent.awaits (h : d.Consistent inputs outputs left served)
    (hl : d.dispatcher.launched = true) (hn : ∀ c ∈ d.cores, c.assignment = none) :
    0 < left ∧ ∃ s ∈ d.dispatcher.slots, s.awaiting = true := by
  have hbusy : ∀ s ∈ d.dispatcher.slots, s.busy = false := by
    intro s hs
    have hm : s.block? ∈ d.cores.map Core.assignment := h.booked ▸ List.mem_map_of_mem hs
    obtain ⟨c, hc, hq⟩ := List.mem_map.1 hm
    apply eq_false_of_ne_true
    intro hb
    obtain ⟨b, -, hs⟩ := (h.log.fits s hs).of_busy hb
    exact absurd ((hn c hc).symm.trans (hq.trans hs)) (by simp)
  have hleft : 0 < left := by
    have hcount := h.log.dispatchedCount_eq
    rw [List.countP_eq_zero.2 fun s hs ↦ by simp [hbusy s hs], h.log.books.completed] at hcount
    have hall := h.log.books.dispatched
    cases h.log.progress with
    | fresh _ hq => simp [hq, Dispatcher.initial] at hl
    | running _ _ hlt => omega
    | finished _ hq => exact absurd (hl.symm.trans hq.1) (by simp)
  refine ⟨hleft, ?_⟩
  have hpos : 0 < d.dispatcher.slots.length := by
    rw [h.log.length_slots]
    exact (Config.pos_of_valid h.valid).1
  obtain ⟨s, hs⟩ := List.exists_mem_of_length_pos hpos
  have hstaffed := (h.log.staffed hl).resolve_left hleft.ne' s hs
  exact ⟨s, hs, hstaffed.resolve_left (by simp [hbusy s hs])⟩

/-- While a launch is under way, nothing is at a standstill in a cycle in which both memories
serve. -/
theorem Matches.stirs (h : d.Matches program n p) (hc : d.Consistent inputs outputs left served)
    (hl : d.dispatcher.launched = true) (hp : d.program.servesAt d.cycle = true)
    (hd : d.data.servesAt d.cycle = true) : d.Stirs p := by
  have hserve := progresses_serve hp hd hc.sound p.waiting p.completed
  rw [← h.cores, ← h.memory] at hserve
  rcases hserve with hserve | ⟨hcores, hun⟩
  · exact .inl hserve
  · by_cases hb : ∃ c ∈ p.cores, c.assignment.isSome = true
    · obtain ⟨c, hm, hsome⟩ := hb
      exact .inr (.inl ⟨c, hcores ▸ hm, hsome, hun c hm⟩)
    · have hn : ∀ c ∈ d.cores, c.assignment = none := by simpa [h.cores] using hb
      obtain ⟨hleft, hs⟩ := hc.awaits hl hn
      refine .inr (.inr ⟨?_, hs⟩)
      obtain ⟨left', hw, hbooks⟩ := h.waiting
      have h1 := hbooks.dispatched
      have h2 := hc.log.books.dispatched
      rw [← hbooks.blocks] at h1
      rw [← hc.log.books.blocks] at h2
      rw [hw]
      refine List.ne_nil_of_length_pos ?_
      rw [length_launchBlocks]
      omega

/-! ## Runs -/

/-- The device is done after some number of cycles, and a longer run changes nothing. -/
def Ends (d : Device) : Prop :=
  ∃ enough, ∀ fuel ≥ enough, ∃ d' cycles, d.runFor fuel = (d', .ok cycles)

theorem ends_of_done (h : d.isDone = true) : d.Ends := by
  refine ⟨0, fun fuel _ ↦ ⟨d, d.cycle, ?_⟩⟩
  unfold runFor
  rw [if_pos h]

theorem ends_of_step (h : d.isDone = false) (hs : d.step = .ok d') (he : d'.Ends) : d.Ends := by
  obtain ⟨enough, he⟩ := he
  refine ⟨enough + 1, fun fuel hf ↦ ?_⟩
  cases fuel with
  | zero => exact absurd hf (Nat.not_succ_le_zero enough)
  | succ fuel =>
    rw [runFor, if_neg (by simp [h]), hs]
    exact he fuel (Nat.le_of_succ_le_succ hf)

/-- Both memories serve in this cycle. -/
def CommonService (d : Device) (cycle : Nat) : Prop :=
  d.program.interval * d.data.interval ∣ cycle

theorem CommonService.servesAt (h : d.CommonService d.cycle) :
    d.program.servesAt d.cycle = true ∧ d.data.servesAt d.cycle = true := by
  have hp : d.program.interval ∣ d.cycle := (Nat.dvd_mul_right _ _).trans h
  have hd : d.data.interval ∣ d.cycle := (Nat.dvd_mul_left _ _).trans h
  simp [Memory.servesAt, Nat.mod_eq_zero_of_dvd hp, Nat.mod_eq_zero_of_dvd hd]

theorem commonService_advance (d : Device) (cycle : Nat) :
    d.advance.CommonService cycle ↔ d.CommonService cycle := by
  have hp : d.advance.program.interval = d.program.interval :=
    (Memory.settings_serviceWith ..).2
  have hd : d.advance.data.interval = d.data.interval :=
    (Memory.settings_serviceWith ..).2
  rw [CommonService, CommonService, hp, hd]

theorem exists_commonService (d : Device) : ∃ k, d.CommonService (d.cycle + k) := by
  have hpos : 0 < d.program.interval * d.data.interval :=
    Nat.mul_pos d.program.interval_pos d.data.interval_pos
  refine ⟨d.cycle * (d.program.interval * d.data.interval) - d.cycle, ?_⟩
  rw [Nat.add_sub_cancel' (Nat.le_mul_of_pos_right _ hpos)]
  exact Nat.dvd_mul_left _ _

/-- A launch whose blocks owe at most `r`. -/
structure Owes (program : Image UInt16) (n : Nat) (dim : UInt8) (P : Pool → Nat → Prop) (r : Nat)
    (d : Device) : Prop where
  reachable : d.Reachable
  pool : ∃ p : Pool, d.Matches program n p ∧ p.Staffed program dim ∧ P p r

variable {P : Pool → Nat → Prop} {r : Nat}

/-- A cycle of a launch does not add to what is owed, and it takes something off if both memories
serve. -/
theorem Owes.advance (hP : Pool.Meter program P) (h : d.Owes program n dim P r)
    (hd : d.isDone = false) :
    d.step = .ok d.advance ∧ ∃ r' ≤ r, d.advance.Owes program n dim P r' ∧
      (d.CommonService d.cycle → r' < r) := by
  obtain ⟨hr, p, hm, hs, hp⟩ := h
  obtain ⟨inputs, outputs, left, served, hc⟩ := hr.consistent
  have hl : d.dispatcher.launched = true := by
    rcases hm.stage with ⟨hl, -⟩ | ⟨ht, -⟩
    · exact hl
    · exact nomatch hd.symm.trans ht
  obtain ⟨p', hmoves, hprogress, hm'⟩ := hm.advance hs hl hd
  have hs' := Pool.staffed_of_moves hmoves hs
  have hr' : d.advance.Reachable := .step hr hc.step_eq
  refine ⟨hc.step_eq, ?_⟩
  by_cases hservice : d.CommonService d.cycle
  · obtain ⟨hsp, hsd⟩ := hservice.servesAt
    obtain ⟨r', hlt, hp'⟩ := hP.progresses hp (hprogress (hm.stirs hc hl hsp hsd))
    exact ⟨r', hlt.le, ⟨hr', p', hm', hs', hp'⟩, fun _ ↦ hlt⟩
  · obtain ⟨r', hle, hp'⟩ := hP.moves_all hp hmoves
    exact ⟨r', hle, ⟨hr', p', hm', hs', hp'⟩, fun h ↦ absurd h hservice⟩

/-- A launch whose blocks owe a finite amount comes to an end: they owe less after the next cycle in
which both memories serve. -/
theorem Owes.ends (hP : Pool.Meter program P) :
    ∀ {r : Nat} {d : Device}, d.Owes program n dim P r → d.Ends := by
  intro r
  induction r using Nat.strong_induction_on with
  | _ r ihr =>
    -- the inner induction is on the cycles to the next common service
    have until_service : ∀ (k : Nat) {d : Device}, d.CommonService (d.cycle + k) →
        d.Owes program n dim P r → d.Ends := by
      intro k
      induction k with
      | zero =>
        intro d hk h
        cases hd : d.isDone with
        | true => exact ends_of_done hd
        | false =>
          obtain ⟨hstep, r', -, h', hlt⟩ := h.advance hP hd
          exact ends_of_step hd hstep (ihr r' (hlt hk) h')
      | succ k ih =>
        intro d hk h
        cases hd : d.isDone with
        | true => exact ends_of_done hd
        | false =>
          obtain ⟨hstep, r', hle, h', -⟩ := h.advance hP hd
          refine ends_of_step hd hstep ?_
          rcases Nat.lt_or_eq_of_le hle with hlt | rfl
          · exact ihr r' hlt h'
          · refine ih ((commonService_advance d _).2 ?_) h'
            have hcycle : d.advance.cycle = d.cycle + 1 := rfl
            rwa [hcycle, Nat.add_right_comm]
    intro d h
    obtain ⟨k, hk⟩ := d.exists_commonService
    exact until_service k hk h

/-! ## Launches -/

section Opening

variable {c : Config} {data m : Image UInt8}
  {Agree : (Assignment → Image UInt8) → Image UInt8 → Prop}

theorem exists_alone_opening (hc : c.coreCount = 1)
    (ht : Assignment.InTurn program c.threadsPerBlock (c.blocks n) data m) :
    ∃ r, Pool.Alone program c.threadsPerBlock (openingPool c data n) r := by
  obtain ⟨r, hr⟩ := Pool.exists_bill ht
  exact ⟨r, .vacant (opening_cores_of_one hc data n) (Core.sound_idle _ _ _) rfl rfl hr⟩

theorem exists_apart_opening
    (iso : Isolation program c.threadsPerBlock (c.blocks n) data Agree)
    (hf : ∀ b ∈ c.blocks n, ∃ m, b.FinishesTwice program c.threadsPerBlock data m) :
    ∃ r, Pool.Apart program c.threadsPerBlock (c.blocks n) data Agree (openingPool c data n) r := by
  -- one amount for each block, whatever core it gets
  have hcost : ∀ b, ∃ r, b ∈ c.blocks n → ∃ fin, ∀ x : Core, x.blockDim = c.threadsPerBlock →
      Core.Owes program fin (x.start b) data r := by
    intro b
    by_cases hb : b ∈ c.blocks n
    · obtain ⟨fin, hb⟩ := hf b hb
      obtain ⟨r, hr⟩ := Core.exists_owes_start hb
      exact ⟨r, fun _ ↦ ⟨fin, hr⟩⟩
    · exact ⟨0, fun h ↦ absurd h hb⟩
  obtain ⟨cost, hcost⟩ := Classical.skolem.1 hcost
  refine ⟨_, opening_staffed _ _ _ _, .of_eq (opening_blocks _ _ _), _, fun b ↦ cost b + 2,
    ⟨opening_isolated iso, fun b hb ↦ ?_, fun x hx b hb ↦ ?_⟩, rfl⟩
  · obtain ⟨fin, hr⟩ := hcost b hb
    exact ⟨fin, cost b, rfl, hr⟩
  · obtain ⟨_, -, rfl⟩ := List.mem_map.1 hx
    exact nomatch hb

end Opening

theorem Opens.ends {P : Pool → Nat → Prop} {r : Nat} (hP : Pool.Meter d.program.cells P)
    (h : d.Opens n) (hr : d.Reachable) (hp : P (openingPool d.config d.data.cells n) r) :
    d.Ends := by
  obtain ⟨_, _, _, _, hc⟩ := hr.consistent
  have hd : d.isDone = false := by
    rw [isDone, h.dispatcher]
    rfl
  have hs := opening_staffed d.program.cells d.config d.data.cells n
  exact ends_of_step hd hc.step_eq (Owes.ends hP ⟨.step hr hc.step_eq, _, h.matches, hs, hp⟩)

theorem Ends.run (h : d.Ends) (hc : d.cycle = 0) :
    ∃ enough, ∀ max ≥ enough, ∃ d' cycles, d.run max = (d', .ok cycles) := by
  obtain ⟨enough, h⟩ := h
  refine ⟨enough, fun max hmax ↦ ?_⟩
  obtain ⟨d', cycles, hr⟩ := h max hmax
  refine ⟨d', cycles, ?_⟩
  simp only [Device.run, hc, Nat.sub_zero, hr]
  rfl

/-- A kernel whose blocks come to an end when they make their two passes in turn comes to an end on
every device with one core, and on every device at all if no block touches what a different one
stores: a run that is given enough cycles is never broken off. -/
theorem terminates {c : Config} {program : Array UInt16} {data : Array UInt8} {n : Nat}
    {fresh launched : Device} {m : Image UInt8} (hc : create c program data = .ok fresh)
    (hl : fresh.launch n = .ok launched)
    (ht : Assignment.InTurn (Image.ofArray program) c.threadsPerBlock (c.blocks n)
      (Image.ofArray data) m)
    (ho : c.coreCount = 1 ∨ ApartInTurn (Image.ofArray program) c.threadsPerBlock (c.blocks n)
      (Image.ofArray data)) :
    ∃ enough, ∀ max ≥ enough, ∃ d cycles, launched.run max = (d, .ok cycles) := by
  obtain ⟨hopens, rfl, hp, hd⟩ := opens_of_launch hc hl
  have hr : launched.Reachable := .launch (.create hc) hl
  have hcycle : launched.cycle = 0 := ((fresh_of_create hc).consistent.launch hl).clock
  rw [← hp, ← hd] at ht ho
  have hends : launched.Ends := by
    rcases ho with hone | hapart
    · obtain ⟨r, hr'⟩ := exists_alone_opening hone ht
      exact hopens.ends (Pool.meter_alone _ _) hr hr'
    · have hn := nodup_launchBlocks n launched.config.threadsPerBlock hopens.capacity
      have iso := (hapart.nonInterfering hn ht).isolation
      obtain ⟨r, hr'⟩ := exists_apart_opening iso fun b hb ↦ hapart.finishesTwice hn ht hb
      exact hopens.ends (Pool.meter_apart iso hn) hr hr'
  exact hends.run hcycle

/-- Two cores that share one channel to a slow data memory, for two blocks that add one to cells of
their own. -/
theorem terminates_increment :
    ∃ fresh launched m, create pair increment #[10, 20, 30] = .ok fresh ∧
      fresh.launch 3 = .ok launched ∧ pair.coreCount = 2 ∧
      Assignment.InTurn (Image.ofArray increment) pair.threadsPerBlock (pair.blocks 3)
        (Image.ofArray #[10, 20, 30]) m ∧
      ApartInTurn (Image.ofArray increment) pair.threadsPerBlock (pair.blocks 3)
        (Image.ofArray #[10, 20, 30]) ∧
      ∃ enough, ∀ max ≥ enough, ∃ d cycles, launched.run max = (d, .ok cycles) := by
  have hsome : ((create pair increment #[10, 20, 30]).toOption.bind fun d ↦
      (d.launch 3).toOption).isSome = true := by decide +kernel
  have hkeep : keepApart (Image.ofArray increment) pair.threadsPerBlock 8 (pair.blocks 3)
      (Image.ofArray #[10, 20, 30]) = true := by decide +kernel
  obtain ⟨⟨m, ht⟩, hapart⟩ := apartInTurn_of_keepApart hkeep
  cases hc : create pair increment #[10, 20, 30] with
  | error e => simp [hc, Except.toOption] at hsome
  | ok fresh =>
    cases hl : fresh.launch 3 with
    | error e => simp [hc, hl, Except.toOption] at hsome
    | ok launched =>
      exact ⟨fresh, launched, m, rfl, hl, rfl, ht, hapart, terminates hc hl ht (.inr hapart)⟩

end Device

end SimtMachine
