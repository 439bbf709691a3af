import SimtMachine.Core.Stage
import SimtMachine.Instruction.Word
import SimtMachine.Memory.Port

/-!
# Lanes

A lane executes the instructions of one thread. It consists of four units that all see the same
drive signals: the register file, the load and store unit, the arithmetic unit and the branch unit.
Each unit acts in the stages that concern it, and, but for the handshake of the load and store unit
with memory, only while the context of the lane is active.
-/

namespace SimtMachine

/-- What every lane of a context sees in one cycle. -/
structure Drive where
  /-- the context drives the datapath -/
  active : Bool
  stage : Stage
  /-- the context hands its memory request on in this cycle -/
  issue : Bool
  pc : UInt8
  instruction : Instruction

/-- The registers of a lane and the latches for the operands of its instruction. -/
structure RegisterUnit where
  regs : Registers
  rs : UInt8
  rt : UInt8
deriving DecidableEq

/-- The operands are latched in the request stage, and the result, of which the arithmetic unit
holds `computed` and the load and store unit `loaded`, is written in the update stage. -/
def RegisterUnit.tick (u : RegisterUnit) (d : Drive) (computed loaded : UInt8) : RegisterUnit :=
  let i := d.instruction
  if d.active then
    match d.stage with
    | .request => { u with rs := u.regs.read i.rs, rt := u.regs.read i.rt }
    | .update =>
      if i.op.writesRegister then { u with regs := u.regs.write i.rd (i.result computed loaded) }
      else u
    | _ => u
  else u

/-- How far a load or store has come. -/
inductive LoadStorePhase
  | idle | requesting | waiting | done
deriving DecidableEq

namespace LoadStorePhase

def isBusy : LoadStorePhase → Bool
  | requesting | waiting => true
  | idle | done => false

def title : LoadStorePhase → String
  | idle => "Idle"
  | requesting => "Requesting"
  | waiting => "Waiting"
  | done => "Done"

end LoadStorePhase

/-- The load and store unit with its port to data memory. -/
structure LoadStoreUnit where
  phase : LoadStorePhase
  /-- the last answer of memory -/
  loaded : UInt8
  port : Port UInt8
deriving DecidableEq

def LoadStoreUnit.initial : LoadStoreUnit := ⟨.idle, 0, .quiet⟩

/-- The request that an instruction with operands `rs` and `rt` makes. -/
def Instruction.request (i : Instruction) (rs rt : UInt8) : Request UInt8 :=
  if i.op.loads then .read rs else .write rs rt

/-- The handshake goes on while the context is switched out; only to issue a request and to retire
it the context has to be active. -/
def LoadStoreUnit.tick (u : LoadStoreUnit) (d : Drive) (rs rt : UInt8) : LoadStoreUnit :=
  match u.phase with
  | .idle =>
    if d.active && d.issue && d.instruction.op.touchesMemory then
      { u with phase := .requesting, port := .issue (d.instruction.request rs rt) }
    else u
  | .requesting => { u with phase := .waiting }
  | .waiting =>
    match u.port.ready with
    | some v => { u with phase := .done, loaded := v, port := u.port.taken }
    | none => u
  | .done => if d.active && d.stage = .update then { u with phase := .idle } else u

structure ArithmeticUnit where
  output : UInt8
deriving DecidableEq

/-- The output follows the operands in the execute stage. -/
def ArithmeticUnit.tick (u : ArithmeticUnit) (d : Drive) (rs rt : UInt8) : ArithmeticUnit :=
  if d.active && d.stage = .execute then ⟨d.instruction.op.compute rs rt⟩ else u

/-- The branch unit holds the condition bits and the address of the next instruction. -/
structure BranchUnit where
  next : UInt8
  flags : UInt8
deriving DecidableEq

/-- The next address is chosen in the execute stage, and the condition bits are replaced in the
update stage by the low three bits of what the arithmetic unit `computed`. -/
def BranchUnit.tick (u : BranchUnit) (d : Drive) (computed : UInt8) : BranchUnit :=
  let i := d.instruction
  if d.active then
    match d.stage with
    | .execute => { u with next := if i.taken u.flags then i.imm else d.pc + 1 }
    | .update => if i.op.setsFlags then { u with flags := computed &&& 7 } else u
    | _ => u
  else u

/-- The execution resources of one thread. -/
structure Lane where
  registers : RegisterUnit
  memory : LoadStoreUnit
  arithmetic : ArithmeticUnit
  branch : BranchUnit
deriving DecidableEq

namespace Lane

def seeded (block dim thread : UInt8) : Lane where
  registers := ⟨.seeded block dim thread, 0, 0⟩
  memory := .initial
  arithmetic := ⟨0⟩
  branch := ⟨0, 0⟩

/-- One clock cycle. The register file works with what the other units put out in earlier cycles;
the other units see the operands, and the branch unit the result, of this one. -/
def tick (l : Lane) (d : Drive) : Lane :=
  let registers := l.registers.tick d l.arithmetic.output l.memory.loaded
  let arithmetic := l.arithmetic.tick d registers.rs registers.rt
  { registers
    memory := l.memory.tick d registers.rs registers.rt
    arithmetic
    branch := l.branch.tick d arithmetic.output }

def isBusy (l : Lane) : Bool := l.memory.phase.isBusy

def port (l : Lane) : Port UInt8 := l.memory.port

def withPort (l : Lane) (p : Port UInt8) : Lane :=
  { l with memory := { l.memory with port := p } }

end Lane

end SimtMachine
