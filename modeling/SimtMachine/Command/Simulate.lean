import SimtMachine.Assembly.Assembler
import SimtMachine.Command.Exit
import SimtMachine.DataText
import SimtMachine.Device.Basic
import SimtMachine.Device.ConfigText
import SimtMachine.Device.TraceText
import SimtMachine.Memory.Dump

/-!
# The simulator command

Assembles a kernel, runs it on a device and prints how long it took, in which order its blocks were
handed out and completed, and what it did to data memory.
-/

namespace SimtMachine.Command.Simulate

open Arguments (Setting Grammar Given natural? byte?)

inductive Key
  | threads | data | config | cores | blockSize | latency | trace | dump | verbose | quiet
deriving DecidableEq

def grammar : Grammar Key where
  options :=
    [⟨.threads, some 't', "threads", .value fun s ↦ (natural? s).isSome⟩,
      ⟨.data, some 'd', "data", .value fun _ ↦ true⟩,
      ⟨.config, some 'c', "config", .value fun _ ↦ true⟩,
      ⟨.cores, none, "cores", .value fun s ↦ (natural? s).isSome⟩,
      ⟨.blockSize, none, "block-size", .value fun s ↦ (byte? s).isSome⟩,
      ⟨.latency, none, "latency", .value fun s ↦ (natural? s).isSome⟩,
      ⟨.trace, none, "trace", .value fun _ ↦ true⟩,
      ⟨.dump, none, "dump", .flag false⟩] ++ verbosityOptions .verbose .quiet
  positionals := 1

structure Request where
  input : String
  threads : Nat
  data : Option String
  config : Option String
  cores : Option Nat
  blockSize : Option UInt8
  latency : Option Nat
  trace : Option String
  /-- whether to print the whole data memory instead of what has changed -/
  dump : Bool

/-- The request that arguments make. The kernel and its number of threads must be given, and the
log cannot be made more and less verbose at once. -/
def request? (g : Given Key) : Option Request := do
  if g.has .verbose && g.has .quiet then none
  else return {
    input := ← g.positionals.head?
    threads := ← (← g.value? .threads) |> natural?
    data := g.value? .data
    config := g.value? .config
    cores := (g.value? .cores).bind natural?
    blockSize := (g.value? .blockSize).bind byte?
    latency := (g.value? .latency).bind natural?
    trace := g.value? .trace
    dump := g.has .dump }

/-- The configuration with what the request sets itself. -/
def Request.adjust (r : Request) (c : Config) : Config :=
  { c with
    coreCount := r.cores.getD c.coreCount
    threadsPerBlock := r.blockSize.getD c.threadsPerBlock
    dataInterval := r.latency.getD c.dataInterval
    traceStages := c.traceStages || r.trace.isSome }

def blockList (bs : List UInt8) : String :=
  "[" ++ ", ".intercalate (bs.map fun b ↦ toString b.toNat) ++ "]"

/-- Headline of the report about a file that could not be read. -/
def unreadable (path : String) : String := "could not read file `" ++ path ++ "`"

def loadConfig (path : String) : Task Config := do
  let text ← Task.read ("could not read config `" ++ path ++ "`") path
  Task.ofExcept (fun e ↦ ("in `" ++ path ++ "`") :: e.report) (ConfigText.read text)

def loadData (path : String) : Task (List UInt8) := do
  let text ← Task.read (unreadable path) path
  Task.ofExcept (fun e ↦ [e.message]) (DataText.read text)

/-- The summary of a kernel that took `cycles` cycles. -/
def summary (cycles : Nat) (t : Trace) : String :=
  "kernel done in " ++ toString cycles ++ " cycles\n" ++
    "dispatch order:   " ++ blockList t.dispatchOrder ++ "\n" ++
    "completion order: " ++ blockList t.completionOrder ++ "\n"

def Request.task (r : Request) : Task Unit := do
  let source ← Task.read (unreadable r.input) r.input
  let program ← Task.ofExcept Assembly.Error.report (Assembly.assemble source)
  let data ← match r.data with
    | some path => loadData path
    | none => pure []
  let config ← match r.config with
    | some path => loadConfig path
    | none => pure .standard
  let config := r.adjust config
  let device ← Task.ofExcept (fun e ↦ [e.message])
    (Device.create config program.words data.toArray)
  let device ← Task.ofExcept (fun e ↦ [e.message]) (device.launch r.threads)
  let (device, result) := device.run config.maxCycles
  let cycles ← Task.ofExcept (fun e ↦ [e.message]) result
  Task.print (summary cycles device.trace)
  let final := device.data.cells.toArray
  Task.print (if r.dump then Dump.image final else Dump.diff data.toArray final)
  if let some path := r.trace then
    Task.write ("could not write file `" ++ path ++ "`") path device.trace.toText
    Task.print ("writing to file `" ++ path ++ "`\n")

def help : String :=
  "Run a kernel on a cycle-level model of a dual-context accelerator\n\n" ++
  "Usage: simt [OPTIONS] --threads <THREADS> <INPUT>\n"

def command (args : List String) : Script Exit :=
  run grammar help (fun g ↦ (request? g).map Request.task) args

end SimtMachine.Command.Simulate
