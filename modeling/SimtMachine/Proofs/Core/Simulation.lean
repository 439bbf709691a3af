import SimtMachine.Proofs.Core.Service
import SimtMachine.Proofs.Lockstep.Passes

/-!
# Strands follow a lockstep run

A strand spreads over many cycles what the lockstep block does in one step, and its lanes get their
answers one by one. The relation below says for each stage how much of the step has been done: from
the request on, the strand agrees with the block once the requests still under way are settled.
-/

namespace SimtMachine

open SimtMachine.Core (wordOf)

/-! ## One lane -/

namespace Lane

variable {i : Instruction} {l : Lane} {m : Image UInt8} {r : Request UInt8}

/-- The thread that the lane executes. -/
def thread (l : Lane) : Thread := ⟨l.registers.regs, l.branch.flags⟩

/-- What memory and the thread come to once the request of the lane is settled and its instruction
is through. -/
def outlook (i : Instruction) (m : Image UInt8) (l : Lane) : Image UInt8 × Thread :=
  match l.port.pending with
  | some r => (r.apply m, l.thread.finish i (r.answer m))
  | none => (m, l.thread.finish i (l.port.ready.getD l.memory.loaded))

/-- The lane holds the operands of its instruction, and a request under way is the one that they
make. -/
structure Latched (i : Instruction) (l : Lane) : Prop where
  rs : l.registers.rs = l.registers.regs.read i.rs
  rt : l.registers.rt = l.registers.regs.read i.rt
  asks : ∀ r, l.port.pending = some r → l.thread.request i = some r

theorem outlook_of_pending (h : l.port.pending = some r) :
    outlook i m l = (r.apply m, l.thread.finish i (r.answer m)) := by
  simp only [outlook, h]

theorem outlook_of_not_pending (h : l.port.pending = none) :
    outlook i m l = (m, l.thread.finish i (l.port.ready.getD l.memory.loaded)) := by
  simp only [outlook, h]

theorem outlook_listen : outlook i m l.listen = outlook i m l := by
  cases hp : l.memory.phase with
  | idle | done => rw [listen_of_not_busy (by simp [isBusy, hp, LoadStorePhase.isBusy])]
  | requesting => simp [outlook, listen, LoadStoreUnit.listen, hp, port, thread]
  | waiting =>
    cases hr : l.memory.port.ready <;>
      simp [outlook, listen, LoadStoreUnit.listen, hp, hr, port, thread, Port.taken]

theorem Latched.listen (h : l.Latched i) : l.listen.Latched i := by
  refine ⟨h.rs, h.rt, fun r hr ↦ h.asks r ?_⟩
  cases hp : l.memory.phase with
  | idle | done => rwa [listen_of_not_busy (by simp [isBusy, hp, LoadStorePhase.isBusy])] at hr
  | requesting => simpa [Lane.listen, LoadStoreUnit.listen, hp, port] using hr
  | waiting =>
    cases hq : l.memory.port.ready <;>
      simpa [Lane.listen, LoadStoreUnit.listen, hp, hq, port, Port.taken] using hr

theorem thread_issue : (l.issue i).thread = l.thread := by
  cases h : i.op.touchesMemory <;> simp [issue, latch, thread, h]

theorem pending_issue (hq : l.port = .quiet) : (l.issue i).port.pending = l.thread.request i := by
  cases h : i.op.touchesMemory with
  | true => simp [issue, latch, h, port, Port.issue, Thread.request, thread]
  | false =>
    have hl : (l.issue i).port = l.port := by simp [issue, latch, h, port]
    simp [hl, hq, Port.quiet, Thread.request, h]

theorem outlook_issue (hq : l.port = .quiet) :
    outlook i m (l.issue i) = (l.thread.execute i m).swap := by
  have hp := pending_issue (i := i) hq
  cases h : l.thread.request i with
  | some r =>
    rw [outlook_of_pending (hp.trans h), thread_issue, Thread.execute_of_request h]
    rfl
  | none =>
    rw [outlook_of_not_pending (hp.trans h), thread_issue, Thread.execute_of_no_request h]
    rfl

theorem latched_issue (hq : l.port = .quiet) : (l.issue i).Latched i := by
  refine ⟨?_, ?_, fun r hr ↦ ?_⟩
  · cases h : i.op.touchesMemory <;> simp [issue, latch, h]
  · cases h : i.op.touchesMemory <;> simp [issue, latch, h]
  · rwa [thread_issue, ← pending_issue hq]

theorem outlook_answered {v : UInt8} :
    outlook i m (l.answered v) = (m, l.thread.finish i v) := rfl

theorem Latched.answered (h : l.Latched i) (v : UInt8) : (l.answered v).Latched i :=
  ⟨h.rs, h.rt, nofun⟩

/-- The condition bit of a comparison lies within the three bits that the branch unit keeps. -/
theorem comparison_and_seven (a b : UInt8) : comparison a b &&& 7 = comparison a b := by
  unfold comparison
  split
  · decide
  · split <;> decide

theorem thread_retire (h : l.Latched i)
    (ho : l.arithmetic.output = i.op.compute l.registers.rs l.registers.rt) :
    (l.retire i).thread = l.thread.finish i l.memory.loaded := by
  rw [h.rs, h.rt] at ho
  cases hw : i.op.writesRegister <;> cases hf : i.op.setsFlags <;>
    simp [thread, retire, Thread.finish, hw, hf, ho, Operation.compute, comparison_and_seven]

end Lane

/-! ## One strand -/

namespace Strand

variable {program : Image UInt16} {start q : Lockstep} {s s' : Strand} {m : Image UInt8}
  {held : Bool} {fetched : Option UInt16}

/-- Before its next request, the strand stands where the block does. -/
structure Between (s : Strand) (q : Lockstep) (m : Image UInt8) : Prop where
  pc : s.context.pc = q.pc
  threads : s.lanes.map Lane.thread = q.threads
  memory : m = q.memory

/-- From its request on, the strand will come to where the block is after its next step. -/
structure Within (s : Strand) (q : Lockstep) (m : Image UInt8) : Prop where
  pc : s.context.pc = q.pc
  threads : s.lanes.map Lane.thread = q.threads
  latched : ∀ l ∈ s.lanes, l.Latched s.instruction
  outlook : sweep (Lane.outlook s.instruction) m s.lanes =
    sweep (fun m t ↦ (t.execute s.instruction m).swap) q.memory q.threads

/-- The units that work in the execute stage have put out their results. -/
def Computed (s : Strand) : Prop :=
  ∀ l ∈ s.lanes,
    l.arithmetic.output = s.instruction.op.compute l.registers.rs l.registers.rt ∧
      l.branch.next =
        if s.instruction.taken l.branch.flags then s.instruction.imm else s.context.pc + 1

/-- How a strand and data memory agree with a block between two instructions. -/
def Tracks (program : Image UInt16) (q : Lockstep) (s : Strand) (m : Image UInt8) : Prop :=
  match s.context.stage with
  | .idle | .fetch | .decode | .request => s.Between q m
  | .wait | .execute => s.Within q m
  | .update => s.Within q m ∧ s.Computed
  | .done => q.step program = none ∧ m = q.memory

/-- The strand has come to where a run of the block from `start` comes. -/
def Follows (program : Image UInt16) (start : Lockstep) (s : Strand) (m : Image UInt8) : Prop :=
  ∃ q, Lockstep.Reaches program start q ∧ s.Tracks program q m

theorem Between.map {f : Lane → Lane} {x : Context} {w : UInt16} (h : s.Between q m)
    (hx : x.pc = s.context.pc) (hf : ∀ l, (f l).thread = l.thread) :
    Between ⟨x, w, s.lanes.map f⟩ q m where
  pc := hx.trans h.pc
  threads := by
    rw [← h.threads, List.map_map]
    exact List.map_congr_left fun l _ ↦ hf l
  memory := h.memory

theorem Within.map {f : Lane → Lane} {x : Context} (h : s.Within q m) (hx : x.pc = s.context.pc)
    (ht : ∀ l, (f l).thread = l.thread) (hl : ∀ l ∈ s.lanes, (f l).Latched s.instruction)
    (ho : ∀ m, ∀ l ∈ s.lanes, (f l).outlook s.instruction m = l.outlook s.instruction m) :
    Within ⟨x, s.word, s.lanes.map f⟩ q m where
  pc := hx.trans h.pc
  threads := by
    rw [← h.threads, List.map_map]
    exact List.map_congr_left fun l _ ↦ ht l
  latched := List.forall_mem_map.2 hl
  outlook := (sweep_map _ f m s.lanes).trans ((sweep_congr ho m).trans h.outlook)

theorem Between.issue {x : Context} (h : s.Between q m) (hx : x.pc = s.context.pc)
    (hl : ∀ l ∈ s.lanes, l.port = .quiet) :
    Within ⟨x, s.word, s.lanes.map (Lane.issue s.instruction)⟩ q m where
  pc := hx.trans h.pc
  threads := by
    rw [← h.threads, List.map_map]
    exact List.map_congr_left fun l _ ↦ Lane.thread_issue
  latched := List.forall_mem_map.2 fun l hm ↦ Lane.latched_issue (hl l hm)
  outlook := by
    have hi : instruction ⟨x, s.word, s.lanes.map (Lane.issue s.instruction)⟩ = s.instruction := rfl
    rw [hi, ← h.threads, ← h.memory, sweep_map, sweep_map]
    exact sweep_congr (fun m l hm ↦ Lane.outlook_issue (hl l hm)) m

/-- Once no request is under way, the step of the block is what the lanes are about to write. -/
theorem Within.settled (h : s.Within q m) (hc : s.Computed) (hl : ∀ l ∈ s.lanes, l.port = .quiet) :
    sweep (fun m t ↦ (t.execute s.instruction m).swap) q.memory q.threads =
      (m, (s.lanes.map (Lane.retire s.instruction)).map Lane.thread) := by
  rw [← h.outlook, List.map_map]
  refine sweep_of_keep (fun m l hm ↦ ?_) m
  have hq := hl l hm
  rw [Lane.outlook_of_not_pending (by rw [hq]; rfl), hq, Function.comp_apply,
    Lane.thread_retire (h.latched l hm) (hc l hm).1]
  rfl

theorem Within.nextPc (h : s.Within q m) (hc : s.Computed) : s.nextPc = q.nextPc s.instruction := by
  rw [Strand.nextPc, Lockstep.nextPc, ← h.threads, List.getLast?_map]
  cases hl : s.lanes.getLast? with
  | none => rfl
  | some l =>
    have hm : l ∈ s.lanes := List.mem_of_getLast? hl
    exact (hc l hm).2.trans (by rw [h.pc]; rfl)

theorem Fits.quiet (h : s.Fits) (hs : s.context.stage ≠ .wait) : ∀ l ∈ s.lanes, l.port = .quiet :=
  fun l hl ↦ (h.lane l hl).port_eq_quiet ((h.lane l hl).not_busy hs)

theorem Within.instruction_eq (h : s.Within q m) (hw : wordOf program s.context.pc s.word) :
    q.instruction program = s.instruction := by
  rw [Lockstep.instruction, ← h.pc, ← hw]
  rfl

theorem Within.step (h : s.Within q m) (hc : s.Computed) (hl : ∀ l ∈ s.lanes, l.port = .quiet)
    (hw : wordOf program s.context.pc s.word) (hr : s.instruction.op.returns = false) :
    q.step program =
      some ⟨s.nextPc, (s.lanes.map (Lane.retire s.instruction)).map Lane.thread, m⟩ := by
  rw [Lockstep.step, h.instruction_eq hw, if_neg (by simp [hr]), h.settled hc hl, h.nextPc hc]

theorem Within.returns (h : s.Within q m) (hc : s.Computed) (hl : ∀ l ∈ s.lanes, l.port = .quiet)
    (hw : wordOf program s.context.pc s.word) (hr : s.instruction.op.returns = true) :
    q.step program = none ∧ m = q.memory := by
  refine ⟨by rw [Lockstep.step, h.instruction_eq hw, if_pos hr], ?_⟩
  have hk : sweep (fun m t ↦ (Thread.execute s.instruction t m).swap) q.memory q.threads =
      (q.memory, q.threads.map fun t ↦ t.finish s.instruction 0) := by
    refine sweep_of_keep (fun m t _ ↦ ?_) q.memory
    rw [Thread.execute_of_no_request (Thread.request_of_returns hr _) m 0]
    rfl
  rw [h.settled hc hl] at hk
  exact congrArg Prod.fst hk

/-- The strand has retired its instruction and goes on to the next one. -/
def Proceeds (s s' : Strand) : Prop :=
  s.context.stage = .update ∧ s'.context.stage = .fetch

theorem Rests.not_proceeds (h : s.Rests s') : ¬ s.Proceeds s' := by
  rintro ⟨hu, hf⟩
  cases h with
  | wake hw => simp [hw] at hu
  | listen => simp [hu] at hf

/-- A cycle of the active strand is a part of a step of the block, and the last part only if the
strand goes on to its next instruction. -/
theorem Advances.tracks (h : s.Advances held fetched s') (hs : s.Fits)
    (hw : s.context.stage.hasWord = true → wordOf program s.context.pc s.word)
    (ht : s.Tracks program q m) :
    ¬ s.Proceeds s' ∧ s'.Tracks program q m ∨
      s.Proceeds s' ∧ ∃ q', q.step program = some q' ∧ s'.Tracks program q' m := by
  cases h with
  | starve hst => exact .inl ⟨by simp [Proceeds, hst], ht⟩
  | done hst => exact .inl ⟨by simp [Proceeds, hst], ht⟩
  | take hst =>
    simp only [Tracks, hst] at ht
    exact .inl ⟨by simp [Proceeds], ht.pc, ht.threads, ht.memory⟩
  | decode hst =>
    simp only [Tracks, hst] at ht
    exact .inl ⟨by simp [Proceeds], ht.pc, ht.threads, ht.memory⟩
  | stall hst =>
    refine .inl ⟨by simp [Proceeds, hst], ?_⟩
    simp only [Tracks, hst] at ht ⊢
    exact ht.map rfl fun _ ↦ rfl
  | issue hst =>
    simp only [Tracks, hst] at ht
    exact .inl ⟨by simp [Proceeds], ht.issue rfl (hs.quiet (by simp [hst]))⟩
  | await hst =>
    refine .inl ⟨by simp [Proceeds, hst], ?_⟩
    simp only [Tracks, hst] at ht ⊢
    exact ht.map rfl (fun _ ↦ rfl) (fun l hl ↦ (ht.latched l hl).listen)
      fun _ _ _ ↦ Lane.outlook_listen
  | resume hst =>
    simp only [Tracks, hst] at ht
    exact .inl ⟨by simp [Proceeds], ht.pc, ht.threads, ht.latched, ht.outlook⟩
  | execute hst =>
    simp only [Tracks, hst] at ht
    refine .inl ⟨by simp [Proceeds], ht.map rfl (fun _ ↦ rfl) (fun l hl ↦ ?_) fun _ _ _ ↦ rfl, ?_⟩
    · exact ⟨(ht.latched l hl).rs, (ht.latched l hl).rt, (ht.latched l hl).asks⟩
    · exact List.forall_mem_map.2 fun l _ ↦ ⟨rfl, rfl⟩
  | retire hst hr =>
    simp only [Tracks, hst] at ht
    have hl := hs.quiet (by simp [hst])
    have hstep := ht.1.step ht.2 hl (hw (by simp [hst, Stage.hasWord])) hr
    exact .inr ⟨⟨hst, rfl⟩, _, hstep, rfl, rfl, rfl⟩
  | finish hst hr =>
    simp only [Tracks, hst] at ht
    have hl := hs.quiet (by simp [hst])
    have hret := ht.1.returns ht.2 hl (hw (by simp [hst, Stage.hasWord])) hr
    exact .inl ⟨by simp [Proceeds], hret⟩

theorem Rests.tracks (h : s.Rests s') (hs : s.Fits) (ht : s.Tracks program q m) :
    s'.Tracks program q m := by
  cases h with
  | wake hst =>
    simp only [Tracks, hst] at ht
    exact ⟨ht.pc, ht.threads, ht.latched, ht.outlook⟩
  | listen =>
    by_cases hst : s.context.stage = .wait
    · simp only [Tracks, hst] at ht ⊢
      exact ht.map rfl (fun _ ↦ rfl) (fun l hl ↦ (ht.latched l hl).listen)
        fun _ _ _ ↦ Lane.outlook_listen
    · rwa [map_listen_of_not_busy (hs.isBusy_eq_false hst)]

/-! ## Answers -/

theorem Fits.stage_of_pending {l : Lane} {r : Request UInt8} (h : s.Fits) (hl : l ∈ s.lanes)
    (hr : l.port.pending = some r) : s.context.stage = .wait := by
  apply Decidable.byContradiction
  intro hs
  rw [h.quiet hs l hl] at hr
  simp [Port.quiet] at hr

/-- The lanes before the first request under way leave memory alone, so that answering this request
now is what the block does in its turn. -/
theorem Within.access {pre post : List Lane} {l : Lane} {r : Request UInt8} (h : s.Within q m)
    (hl : s.lanes = pre ++ l :: post) (hr : l.port.pending = some r)
    (hp : ∀ l' ∈ pre, l'.port.pending = none) :
    { s with lanes := pre ++ l.answered (r.answer m) :: post }.Within q (r.apply m) where
  pc := h.pc
  threads := by
    rw [← h.threads, hl, List.map_append, List.map_append]
    rfl
  latched := by
    have hall := h.latched
    rw [hl] at hall
    exact forall_mem_replace hall ((hall l List.mem_append_cons_self).answered _)
  outlook := by
    have hk : ∀ m, sweep (Lane.outlook s.instruction) m pre = (m, pre.map fun l ↦
        l.thread.finish s.instruction (l.port.ready.getD l.memory.loaded)) :=
      sweep_of_keep fun m l' hl' ↦ Lane.outlook_of_not_pending (hp l' hl')
    have ho := h.outlook
    rw [hl, sweep_append, hk, sweep_cons, Lane.outlook_of_pending hr] at ho
    have hi (ls : List Lane) : instruction { s with lanes := ls } = s.instruction := rfl
    simp only [hi]
    rw [← ho, sweep_append, hk, sweep_cons, Lane.outlook_answered]

theorem Tracks.access {pre post : List Lane} {l : Lane} {r : Request UInt8}
    (ht : s.Tracks program q m) (hs : s.Fits) (hl : s.lanes = pre ++ l :: post)
    (hr : l.port.pending = some r) (hp : ∀ l' ∈ pre, l'.port.pending = none) :
    { s with lanes := pre ++ l.answered (r.answer m) :: post }.Tracks program q (r.apply m) := by
  have hst := hs.stage_of_pending (by simp [hl]) hr
  simp only [Tracks, hst] at ht ⊢
  exact ht.access hl hr hp

theorem Follows.access {pre post : List Lane} {l : Lane} {r : Request UInt8}
    (h : s.Follows program start m) (hs : s.Fits) (hl : s.lanes = pre ++ l :: post)
    (hr : l.port.pending = some r) (hp : ∀ l' ∈ pre, l'.port.pending = none) :
    { s with lanes := pre ++ l.answered (r.answer m) :: post }.Follows program start
      (r.apply m) := by
  obtain ⟨q, hq, ht⟩ := h
  exact ⟨q, hq, ht.access hs hl hr hp⟩

/-- Every request under way is one that a thread of the block makes. -/
theorem Follows.issues {l : Lane} {r : Request UInt8} (h : s.Follows program start m) (hs : s.Fits)
    (hw : s.context.stage.hasWord = true → wordOf program s.context.pc s.word) (hl : l ∈ s.lanes)
    (hr : l.port.pending = some r) : start.Issues program r := by
  obtain ⟨q, hq, ht⟩ := h
  have hst := hs.stage_of_pending hl hr
  simp only [Tracks, hst] at ht
  have hi := ht.instruction_eq (hw (by simp [hst, Stage.hasWord]))
  refine ⟨q, hq, l.thread, ?_, ?_⟩
  · rw [← ht.threads]
    exact List.mem_map_of_mem hl
  · rw [hi]
    exact (ht.latched l hl).asks r hr

theorem Follows.finishes (h : s.Follows program start m) (hs : s.context.stage = .done) :
    Lockstep.Finishes program start m := by
  obtain ⟨q, hq, ht⟩ := h
  simp only [Tracks, hs] at ht
  exact hq.finishes (ht.2 ▸ .ret ht.1)

end Strand

end SimtMachine
