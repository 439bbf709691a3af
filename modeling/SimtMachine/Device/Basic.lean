import SimtMachine.Device.Config
import SimtMachine.Device.Trace
import SimtMachine.Dispatch

/-!
# Devices

A device is a dispatcher, a number of cores, a program memory and a data memory, all driven by one
clock. A host launches a kernel on it and runs the clock until the kernel is done.
-/

namespace SimtMachine

/-- The state of a device. -/
structure Device where
  config : Config
  threads : Nat
  /-- a kernel was launched since the last reset -/
  start : Bool
  dispatcher : Dispatcher
  cores : List Core
  program : Memory UInt16
  data : Memory UInt8
  cycle : Nat
  trace : Trace

namespace Device

inductive BuildError
  | config (d : Config.Defect)
  | program (d : Memory.Defect)
  | data (d : Memory.Defect)
deriving DecidableEq

def BuildError.message : BuildError → String
  | config d => d.message
  | program d => d.message "program"
  | data d => d.message "data"

/-- The cores of a device with the given configuration, none of which has a block. -/
def idleCores (c : Config) : List Core :=
  (List.range c.coreCount).map fun id ↦ Core.idle id c.threadsPerBlock

/-- A device that has not launched anything, with the given images in its memories. -/
def create (c : Config) (program : Array UInt16) (data : Array UInt8) :
    Except BuildError Device := do
  if let some d := c.defect? then throw (.config d)
  let program ← (Memory.create program c.programChannels c.programInterval).mapError .program
  let data ← (Memory.create data c.dataChannels c.dataInterval).mapError .data
  return {
    config := c
    threads := 0
    start := false
    dispatcher := .initial c.coreCount c.threadsPerBlock
    cores := idleCores c
    program
    data
    cycle := 0
    trace := .empty }

inductive LaunchError
  | alreadyLaunched
  | tooManyBlocks (threads blocks : Nat)
deriving DecidableEq

def LaunchError.message : LaunchError → String
  | alreadyLaunched => "a kernel is already launched, reset the device first"
  | tooManyBlocks t b =>
      toString t ++ " threads need " ++ toString b ++ " blocks, at most " ++ toString maxBlocks ++
        " are supported"

/-- Requests a kernel of the given number of threads. -/
def launch (d : Device) (threads : Nat) : Except LaunchError Device :=
  let blocks := blockCount threads d.config.threadsPerBlock
  if d.start then .error .alreadyLaunched
  else if blocks > maxBlocks then .error (.tooManyBlocks threads blocks)
  else .ok { d with threads, start := true }

/-- Takes back the launch and aborts the kernel. The memories keep their content. -/
def reset (d : Device) : Device :=
  { d with
    threads := 0
    start := false
    dispatcher := .initial d.config.coreCount d.config.threadsPerBlock
    cores := d.cores.map Core.reset
    cycle := 0
    trace := .empty }

def isDone (d : Device) : Bool := d.dispatcher.done

/-- A core at the end of a cycle, with what the cycle adds to the trace. -/
structure CoreCycle where
  core : Core
  events : List Event
  sample : Option StageSample

/-- The stages of a core before it moves. -/
def stageSample (cycle : Nat) (c : Core) : StageSample where
  cycle := cycle
  core := c.id
  active := c.scheduler.active
  stages := c.scheduler.map fun _ ctx ↦ ctx.stage

/-- One core's cycle under an order of the dispatcher. A core in reset rests; a core that begins a
block takes its first step in the same cycle. -/
def coreCycle (cycle : Nat) (traceStages : Bool) (c : Core) (o : Order) : CoreCycle :=
  let completed := match o.completed with
    | some b => [Event.complete cycle c.id b.block]
    | none => []
  if o.reset then { core := c.reset, events := completed, sample := none }
  else
    let (c, started) := match o.start with
      | some b => (c.start b, [Event.dispatch cycle c.id b.block b.threads])
      | none => (c, [])
    { core := c.tick.1
      events := completed ++ started
      sample := if traceStages then some (stageSample cycle c) else none }

/-- What the dispatcher sees of the host and the cores in this cycle. -/
def dispatchInput (d : Device) : DispatchInput :=
  ⟨d.start, d.threads, d.cores.map Core.done⟩

/-- The cores after both memories have served them, with those memories. -/
def serve (d : Device) : Memory UInt16 × Memory UInt8 × List Core :=
  let (program, cores, _) := d.program.serviceWith d.cycle (sweep Core.visitProgram) d.cores
  let (data, cores, _) := d.data.serviceWith d.cycle (sweep Core.visitData) cores
  (program, data, cores)

/-- One clock cycle in which the dispatcher refuses nothing: the dispatcher moves on the done lines
of the cycle before, then the memories serve, then the cores follow their orders. -/
def advance (d : Device) : Device :=
  let (dispatcher, orders) := d.dispatcher.advance d.dispatchInput
  let (program, data, cores) := d.serve
  let cycles := List.zipWith (coreCycle d.cycle d.config.traceStages) cores orders
  let finish := if dispatcher.done && !d.isDone then [Event.kernelDone d.cycle] else []
  { d with
    dispatcher, program, data
    cores := cycles.map CoreCycle.core
    cycle := d.cycle + 1
    trace := d.trace.extend (cycles.flatMap CoreCycle.events ++ finish)
      (cycles.filterMap CoreCycle.sample) }

def step (d : Device) : Except Dispatcher.Fault Device :=
  match d.dispatcher.check d.dispatchInput with
  | .error f => .error f
  | .ok () => .ok d.advance

inductive RunError
  | cycleLimit (max : Nat)
  | fault (f : Dispatcher.Fault)
deriving DecidableEq

def RunError.message : RunError → String
  | cycleLimit n => "exceed maximum cycle limit (" ++ toString n ++ ")"
  | fault f => f.message

/-- Runs the clock until the kernel is done, for at most `fuel` cycles. A failed run returns `none`
if the cycles did not suffice. -/
def runFor : (fuel : Nat) → Device → Device × Except (Option Dispatcher.Fault) Nat
  | fuel, d =>
    if d.isDone then (d, .ok d.cycle)
    else match fuel with
      | 0 => (d, .error none)
      | fuel + 1 =>
        match d.step with
        | .error f => (d, .error (some f))
        | .ok d => runFor fuel d

/-- Runs the clock until the kernel is done or the cycle counter has reached `max`. The counter at
the end is the result; a run that fails leaves the device where it stopped. -/
def run (d : Device) (max : Nat) : Device × Except RunError Nat :=
  let (d, r) := d.runFor (max - d.cycle)
  (d, r.mapError fun
    | none => .cycleLimit max
    | some f => .fault f)

/-- One line about the clock and the blocks completed, handed out and launched, and one line per
core. -/
def display (d : Device) : String :=
  "cycle " ++ Numeral.alignRight 6 (toString d.cycle) ++ " | blocks " ++
    toString d.dispatcher.completedCount ++ "/" ++ toString d.dispatcher.dispatchedCount ++ "/" ++
    toString d.dispatcher.blocks ++ "\n" ++
    String.join (d.cores.map fun c ↦ "  " ++ c.display ++ "\n")

end Device

end SimtMachine
