import SimtMachine.Core.Context

/-!
# Execution traces

A trace records which core got which block when, and on demand the stages of every core on every
cycle. It is written as JSON with an indentation of two blanks.
-/

namespace SimtMachine

inductive Event
  | dispatch (cycle core : Nat) (block threads : UInt8)
  | complete (cycle core : Nat) (block : UInt8)
  | kernelDone (cycle : Nat)
deriving DecidableEq

def Event.cycle : Event → Nat
  | dispatch c _ _ _ => c
  | complete c _ _ => c
  | kernelDone c => c

/-- The stages of a core at the start of a cycle. -/
structure StageSample where
  cycle : Nat
  core : Nat
  active : ContextTag
  stages : PerContext Stage
deriving DecidableEq

/-- The record of a kernel. The entries are kept newest first, so that recording is cheap. -/
structure Trace where
  eventLog : List Event
  sampleLog : List StageSample
deriving DecidableEq

namespace Trace

def empty : Trace := ⟨[], []⟩

def events (t : Trace) : List Event := t.eventLog.reverse

def samples (t : Trace) : List StageSample := t.sampleLog.reverse

/-- Records events and samples, in the given order. -/
def extend (t : Trace) (events : List Event) (samples : List StageSample) : Trace :=
  ⟨events.reverse ++ t.eventLog, samples.reverse ++ t.sampleLog⟩

@[simp] theorem events_empty : empty.events = [] := rfl

@[simp] theorem events_extend (t : Trace) (es : List Event) (ss : List StageSample) :
    (t.extend es ss).events = t.events ++ es := by
  simp [events, extend]

@[simp] theorem samples_extend (t : Trace) (es : List Event) (ss : List StageSample) :
    (t.extend es ss).samples = t.samples ++ ss := by
  simp [samples, extend]

/-- The blocks in the order in which they were handed out. -/
def dispatchOrder (t : Trace) : List UInt8 :=
  t.events.filterMap fun
    | .dispatch _ _ b _ => some b
    | _ => none

/-- The blocks in the order in which they were completed. -/
def completionOrder (t : Trace) : List UInt8 :=
  t.events.filterMap fun
    | .complete _ _ b => some b
    | _ => none

end Trace

end SimtMachine
