import SimtMachine.Core.Context
import SimtMachine.Memory.Port

/-!
# Fetcher

The two contexts share one port to program memory. The fetcher reads an instruction for the active
context and keeps it until that context takes it over. When the other context starts a fetch of its
own first, the instruction at hand is dropped.
-/

namespace SimtMachine

inductive FetchPhase
  | idle | fetching | fetched
deriving DecidableEq

def FetchPhase.title : FetchPhase → String
  | idle => "Idle"
  | fetching => "Fetching"
  | fetched => "Fetched"

/-- The fetcher with its port to program memory. -/
structure Fetcher where
  phase : FetchPhase
  /-- the last instruction word that memory returned -/
  instruction : UInt16
  /-- the context of the last request -/
  owner : ContextTag
  port : Port UInt16
deriving DecidableEq

namespace Fetcher

def initial : Fetcher := ⟨.idle, 0, .a, .quiet⟩

/-- What the fetcher sees of the core in one cycle. -/
structure Drive where
  active : ContextTag
  stage : Stage
  pc : UInt8
  /-- the active context takes the instruction over in this cycle -/
  accept : Bool

def request (f : Fetcher) (d : Drive) : Fetcher :=
  { f with phase := .fetching, owner := d.active, port := .issue (.read d.pc) }

def tick (f : Fetcher) (d : Drive) : Fetcher :=
  match f.phase with
  | .idle => if d.stage = .fetch then f.request d else f
  | .fetching =>
    match f.port.ready with
    | some w => { f with phase := .fetched, instruction := w, port := f.port.taken }
    | none => f
  | .fetched =>
    if d.accept then { f with phase := .idle }
    else if d.stage = .fetch && f.owner ≠ d.active then f.request d
    else f

/-- Whether an instruction for the given context is at hand. -/
def completeFor (f : Fetcher) (t : ContextTag) : Bool :=
  f.phase = .fetched && f.owner = t

end Fetcher

end SimtMachine
