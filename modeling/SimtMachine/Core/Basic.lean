import SimtMachine.Core.Fetcher
import SimtMachine.Core.Lane
import SimtMachine.Core.Scheduler
import SimtMachine.Memory.Service

/-!
# Cores

A core executes one block at a time, in both of its contexts. Each context has an instruction
register and one lane per thread of the block; the scheduler and the fetcher are shared.
-/

namespace SimtMachine

/-- A block of threads handed to a core. -/
structure Assignment where
  block : UInt8
  threads : UInt8
deriving DecidableEq

structure Core where
  id : Nat
  /-- threads of a full block, as the threads can read it -/
  blockDim : UInt8
  assignment : Option Assignment
  scheduler : Scheduler
  fetcher : Fetcher
  /-- instruction register of each context -/
  instruction : PerContext UInt16
  /-- lanes of each context, one per thread -/
  lanes : PerContext (List Lane)
deriving DecidableEq

namespace Core

/-- A core without a block. -/
def idle (id : Nat) (blockDim : UInt8) : Core where
  id := id
  blockDim := blockDim
  assignment := none
  scheduler := .initial
  fetcher := .initial
  instruction := .both 0
  lanes := .both []

def reset (c : Core) : Core := idle c.id c.blockDim

/-- Begins a block with fresh lanes in both contexts. -/
def start (c : Core) (b : Assignment) : Core :=
  { c.reset with
    assignment := some b
    lanes := .both ((List.range b.threads.toNat).map fun t ↦
      Lane.seeded b.block c.blockDim (UInt8.ofNat t)) }

def done (c : Core) : Bool := c.assignment.isSome && c.scheduler.done

/-- What the scheduler sees of a context. The last lane decides where the context goes next. -/
def signals (c : Core) (t : ContextTag) : Signals :=
  let lanes := c.lanes.get t
  let i := decode (c.instruction.get t)
  { fetchComplete := c.fetcher.completeFor t
    memAccess := i.op.touchesMemory
    ret := i.op.returns
    lsuBusy := lanes.any Lane.isBusy
    nextPc := match lanes.getLast? with
      | some l => l.branch.next
      | none => 0 }

/-- One clock cycle. The scheduler moves first, from signals as they were at the end of the cycle
before; fetcher and lanes act on the stage that the active context was in. -/
def tick (c : Core) : Core × Transition :=
  let pc := c.scheduler.currentPc
  let (scheduler, step) := c.scheduler.tick c.assignment.isSome (.ofFn c.signals)
  let accept := step.acceptsFetch
  let instruction :=
    if accept then c.instruction.set step.active c.fetcher.instruction else c.instruction
  let fetcher := c.fetcher.tick { active := step.active, stage := step.before, pc, accept }
  let drive (t : ContextTag) : Drive :=
    let active := t = step.active && !step.bootstrap
    { active
      stage := if active then step.before else (scheduler.get t).stage
      issue := active && step.issuesRequest
      pc
      instruction := decode (instruction.get t) }
  let lanes := c.lanes.map fun t ls ↦
    let d := drive t
    ls.map fun l ↦ l.tick d
  ({ c with scheduler, fetcher, instruction, lanes }, step)

def visitLane (s : Pass UInt8) (l : Lane) : Pass UInt8 × Lane :=
  let (s, p) := s.visit l.port
  (s, l.withPort p)

/-- Serves the data requests of a core in a cycle of data memory, context `a` before `b` and the
lanes of a context in ascending order. -/
def visitData (s : Pass UInt8) (c : Core) : Pass UInt8 × Core :=
  let (s, a) := sweep visitLane s c.lanes.a
  let (s, b) := sweep visitLane s c.lanes.b
  (s, { c with lanes := ⟨a, b⟩ })

def visitProgram (s : Pass UInt16) (c : Core) : Pass UInt16 × Core :=
  let (s, p) := s.visit c.fetcher.port
  (s, { c with fetcher := { c.fetcher with port := p } })

/-- The data ports of a core in the order in which they are served. -/
def dataPorts (c : Core) : List (Port UInt8) :=
  (c.lanes.a ++ c.lanes.b).map Lane.port

/-- One line about a core: its block, and the program counter and stage of both contexts, of which
the active one is marked. -/
def display (c : Core) : String :=
  let contextText (t : ContextTag) : String :=
    let ctx := c.scheduler.get t
    " | " ++ (if c.scheduler.active = t then "*" else " ") ++ t.letter ++
      " pc=" ++ Numeral.address ctx.pc.toNat ++ " " ++ ctx.stage.display
  "core" ++ toString c.id ++
    (match c.assignment with
      | some b => " block " ++ Numeral.alignRight 2 (toString b.block.toNat)
      | none => " --------") ++
    contextText .a ++ contextText .b

end Core

end SimtMachine
