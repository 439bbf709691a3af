import SimtMachine.Core.Basic

/-!
# Strands

A strand is what belongs to one of the two contexts of a core: its progress, its instruction
register and its lanes. In a cycle the strand of the active context advances and the other one
rests. The two relations below list everything that a strand can do, stage by stage, for strands
whose load and store units are where the stage wants them.
-/

namespace SimtMachine

/-! ## The handshake of one lane -/

namespace LoadStoreUnit

/-- The part of a cycle that goes on while the context is switched out. -/
def listen (u : LoadStoreUnit) : LoadStoreUnit :=
  match u.phase with
  | .requesting => { u with phase := .waiting }
  | .waiting =>
    match u.port.ready with
    | some v => { u with phase := .done, loaded := v, port := u.port.taken }
    | none => u
  | .idle | .done => u

/-- A busy unit has either a request or an answer at its port, and any other unit has neither. -/
def PortFits (u : LoadStoreUnit) : Prop :=
  if u.phase.isBusy then u.port.pending.isSome = u.port.ready.isNone else u.port = .quiet

theorem listen_of_not_busy {u : LoadStoreUnit} (h : u.phase.isBusy = false) : u.listen = u := by
  cases hp : u.phase <;> simp_all [listen, LoadStorePhase.isBusy]

theorem listen_phase_eq_idle {u : LoadStoreUnit} :
    u.listen.phase = .idle ↔ u.phase = .idle := by
  cases hp : u.phase with
  | idle | requesting | done => simp [listen, hp]
  | waiting => cases hr : u.port.ready <;> simp [listen, hp, hr]

theorem tick_eq_listen {u : LoadStoreUnit} {d : Drive} (rs rt : UInt8)
    (hi : (d.active && d.issue) = false) (hu : (d.active && d.stage = .update) = false) :
    u.tick d rs rt = u.listen := by
  cases hp : u.phase with
  | idle => simp [tick, listen, hp, hi]
  | requesting => simp [tick, listen, hp]
  | waiting => cases hr : u.port.ready <;> simp [tick, listen, hp, hr]
  | done => simp [tick, listen, hp, hu]

theorem PortFits.listen {u : LoadStoreUnit} (h : u.PortFits) : u.listen.PortFits := by
  cases hp : u.phase with
  | idle | done => rwa [listen_of_not_busy (by simp [hp, LoadStorePhase.isBusy])]
  | requesting =>
    simpa [LoadStoreUnit.listen, PortFits, hp, LoadStorePhase.isBusy] using h
  | waiting =>
    cases hr : u.port.ready with
    | none => simpa [LoadStoreUnit.listen, hp, hr] using h
    | some v =>
      have hn : u.port.pending = none := by
        simpa [PortFits, hp, hr, LoadStorePhase.isBusy] using h
      simp [LoadStoreUnit.listen, PortFits, hp, hr, LoadStorePhase.isBusy, Port.taken,
        Port.quiet, hn]

end LoadStoreUnit

/-- Where the load and store unit of a lane is in a given stage, for an instruction that does or
does not touch memory. -/
def LoadStorePhase.Suits (p : LoadStorePhase) (touches : Bool) : Stage → Prop
  | .wait => p = .idle ↔ touches = false
  | .execute | .update => p = if touches then .done else .idle
  | .idle | .fetch | .decode | .request | .done => p = .idle

namespace Lane

/-- The lane goes on with its handshake and does nothing else. -/
def listen (l : Lane) : Lane := { l with memory := l.memory.listen }

/-- The operands of an instruction are read from the registers. -/
def latch (i : Instruction) (l : Lane) : Lane :=
  { l with
    registers :=
      { l.registers with rs := l.registers.regs.read i.rs, rt := l.registers.regs.read i.rt } }

/-- The operands of an instruction are read, and its memory request, if it makes one, goes out. -/
def issue (i : Instruction) (l : Lane) : Lane :=
  let l := l.latch i
  if i.op.touchesMemory then
    { l with
      memory := { l.memory with
        phase := .requesting
        port := .issue (i.request l.registers.rs l.registers.rt) } }
  else l

/-- The arithmetic unit and the branch unit put out their results. -/
def compute (i : Instruction) (pc : UInt8) (l : Lane) : Lane :=
  { l with
    arithmetic := ⟨i.op.compute l.registers.rs l.registers.rt⟩
    branch := { l.branch with next := if i.taken l.branch.flags then i.imm else pc + 1 } }

/-- The results of an instruction are written, and the load and store unit is free again. -/
def retire (i : Instruction) (l : Lane) : Lane :=
  { registers :=
      if i.op.writesRegister then
        { l.registers with
          regs := l.registers.regs.write i.rd (i.result l.arithmetic.output l.memory.loaded) }
      else l.registers
    memory := { l.memory with phase := .idle }
    arithmetic := l.arithmetic
    branch :=
      if i.op.setsFlags then { l.branch with flags := l.arithmetic.output &&& 7 } else l.branch }

/-- The load and store unit is where the stage wants it, and its port agrees. -/
structure Fits (l : Lane) (touches : Bool) (stage : Stage) : Prop where
  phase : l.memory.phase.Suits touches stage
  port : l.memory.PortFits

theorem Fits.port_eq_quiet {l : Lane} {touches : Bool} {stage : Stage} (h : l.Fits touches stage)
    (hb : l.memory.phase.isBusy = false) : l.port = .quiet := by
  have hq := h.port
  rwa [LoadStoreUnit.PortFits, if_neg (by simp [hb])] at hq

theorem listen_of_not_busy {l : Lane} (h : l.isBusy = false) : l.listen = l := by
  rw [listen, LoadStoreUnit.listen_of_not_busy h]

theorem tick_of_inactive {l : Lane} {d : Drive} (h : d.active = false) : l.tick d = l.listen := by
  have hm := l.memory.tick_eq_listen (d := d) l.registers.rs l.registers.rt (by simp [h])
    (by simp [h])
  simp [tick, listen, RegisterUnit.tick, ArithmeticUnit.tick, BranchUnit.tick, h, hm]

theorem tick_of_resting {l : Lane} {d : Drive} (hi : d.issue = false)
    (hr : d.stage ≠ .request) (he : d.stage ≠ .execute) (hu : d.stage ≠ .update) :
    l.tick d = l.listen := by
  have hm := l.memory.tick_eq_listen (d := d) l.registers.rs l.registers.rt (by simp [hi])
    (by simp [hu])
  cases hs : d.stage <;>
    simp_all [tick, listen, RegisterUnit.tick, ArithmeticUnit.tick, BranchUnit.tick]

theorem tick_request {l : Lane} {d : Drive} (ha : d.active = true) (hs : d.stage = .request)
    (hp : l.memory.phase = .idle) :
    l.tick d = if d.issue then l.issue d.instruction else l.latch d.instruction := by
  cases hi : d.issue <;> cases ht : d.instruction.op.touchesMemory <;>
    simp [tick, latch, issue, RegisterUnit.tick, LoadStoreUnit.tick, ArithmeticUnit.tick,
      BranchUnit.tick, ha, hs, hp, hi, ht]

theorem tick_execute {l : Lane} {d : Drive} (ha : d.active = true) (hs : d.stage = .execute)
    (hi : d.issue = false) (hp : l.memory.phase.isBusy = false) :
    l.tick d = l.compute d.instruction d.pc := by
  cases hq : l.memory.phase <;>
    simp_all [tick, compute, RegisterUnit.tick, LoadStoreUnit.tick, ArithmeticUnit.tick,
      BranchUnit.tick, LoadStorePhase.isBusy]

theorem tick_update {l : Lane} {d : Drive} (ha : d.active = true) (hs : d.stage = .update)
    (hi : d.issue = false) (hp : l.memory.phase.isBusy = false) :
    l.tick d = l.retire d.instruction := by
  obtain ⟨_, ⟨phase, _, _⟩, _, _⟩ := l
  cases phase <;>
    simp_all [tick, retire, RegisterUnit.tick, LoadStoreUnit.tick, ArithmeticUnit.tick,
      BranchUnit.tick, LoadStorePhase.isBusy]

end Lane

/-! ## The two strands of a core -/

/-- What a core keeps for one of its contexts. -/
structure Strand where
  context : Context
  /-- the instruction register -/
  word : UInt16
  lanes : List Lane

namespace Strand

/-- The instruction in the instruction register. -/
def instruction (s : Strand) : Instruction := decode s.word

/-- Some lane waits for data memory. -/
def isBusy (s : Strand) : Bool := s.lanes.any Lane.isBusy

/-- Where the strand goes after its instruction: the last lane decides. -/
def nextPc (s : Strand) : UInt8 :=
  match s.lanes.getLast? with
  | some l => l.branch.next
  | none => 0

/-- The load and store units are where the stage wants them, and only a strand that has finished
stands in the last stage. -/
structure Fits (s : Strand) : Prop where
  lane : ∀ l ∈ s.lanes, l.Fits s.instruction.op.touchesMemory s.context.stage
  finished : s.context.finished = true ↔ s.context.stage = .done

/-- A cycle of the active strand, which may find a word fetched for it. While the bus is `held`, no
memory request goes out. -/
inductive Advances (held : Bool) (fetched : Option UInt16) (s : Strand) : Strand → Prop
  | starve : s.context.stage = .fetch → fetched = none → Advances held fetched s s
  | take {w : UInt16} : s.context.stage = .fetch → fetched = some w →
      Advances held fetched s
        { s with context := { s.context with stage := .decode }, word := w }
  | decode : s.context.stage = .decode →
      Advances held fetched s { s with context := { s.context with stage := .request } }
  | stall : s.context.stage = .request → held = true → s.instruction.op.touchesMemory = true →
      Advances held fetched s { s with lanes := s.lanes.map (Lane.latch s.instruction) }
  | issue : s.context.stage = .request → (held && s.instruction.op.touchesMemory) = false →
      Advances held fetched s
        { s with
          context := { s.context with stage := .wait }
          lanes := s.lanes.map (Lane.issue s.instruction) }
  | await : s.context.stage = .wait → s.isBusy = true →
      Advances held fetched s { s with lanes := s.lanes.map Lane.listen }
  | resume : s.context.stage = .wait → s.isBusy = false →
      Advances held fetched s { s with context := { s.context with stage := .execute } }
  | execute : s.context.stage = .execute →
      Advances held fetched s
        { s with
          context := { s.context with stage := .update }
          lanes := s.lanes.map (Lane.compute s.instruction s.context.pc) }
  | retire : s.context.stage = .update → s.instruction.op.returns = false →
      Advances held fetched s
        { s with
          context := { s.context with stage := .fetch, pc := s.nextPc }
          lanes := s.lanes.map (Lane.retire s.instruction) }
  | finish : s.context.stage = .update → s.instruction.op.returns = true →
      Advances held fetched s
        { s with
          context := { s.context with stage := .done, finished := true }
          lanes := s.lanes.map (Lane.retire s.instruction) }
  | done : s.context.stage = .done → Advances held fetched s s

/-- A cycle in which the other strand is active. -/
inductive Rests (s : Strand) : Strand → Prop
  | wake : s.context.stage = .wait → s.isBusy = false →
      Rests s { s with context := { s.context with stage := .execute } }
  | listen : ¬ (s.context.stage = .wait ∧ s.isBusy = false) →
      Rests s { s with lanes := s.lanes.map Lane.listen }

theorem Fits.isBusy_eq_false {s : Strand} (h : s.Fits) (hs : s.context.stage ≠ .wait) :
    s.isBusy = false := by
  rw [isBusy, List.any_eq_false]
  intro l hl
  have hp := (h.lane l hl).phase
  cases hst : s.context.stage <;> cases ht : s.instruction.op.touchesMemory <;>
    simp_all [LoadStorePhase.Suits, Lane.isBusy, LoadStorePhase.isBusy]

theorem lane_not_busy {s : Strand} (h : s.isBusy = false) {l : Lane} (hl : l ∈ s.lanes) :
    l.memory.phase.isBusy = false := by
  simpa [Lane.isBusy] using List.any_eq_false.1 h l hl

theorem map_listen_of_not_busy {s : Strand} (h : s.isBusy = false) :
    s.lanes.map Lane.listen = s.lanes := by
  refine (List.map_congr_left fun l hl ↦ ?_).trans (List.map_id _)
  exact Lane.listen_of_not_busy (lane_not_busy h hl)

end Strand

end SimtMachine
