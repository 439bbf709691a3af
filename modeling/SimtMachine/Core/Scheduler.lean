import SimtMachine.Core.Context

/-!
# Scheduler

Every cycle one context is active and drives the datapath that both share. Context `a` has strict
priority: `b` runs only while `a` waits for memory or is done. A waiting context that is not active
goes on by itself as soon as its memory requests are answered.
-/

namespace SimtMachine

structure Signals where
  /-- an instruction fetched for the context is at hand -/
  fetchComplete : Bool
  /-- the instruction of the context touches data memory -/
  memAccess : Bool
  ret : Bool
  /-- some lane waits for data memory -/
  lsuBusy : Bool
  /-- where the context goes after the instruction -/
  nextPc : UInt8
deriving DecidableEq

instance : Inhabited Signals := ⟨⟨false, false, false, false, 0⟩⟩

structure Transition where
  /-- the context that drove the datapath -/
  active : ContextTag
  before : Stage
  after : Stage
  /-- the context that left its wait without being active -/
  woke : Option ContextTag
  /-- both contexts left idle together, and the datapath rested -/
  bootstrap : Bool
deriving DecidableEq

namespace Transition

def issuesRequest (t : Transition) : Bool :=
  !t.bootstrap && t.before = .request && t.after = .wait

def acceptsFetch (t : Transition) : Bool :=
  !t.bootstrap && t.before = .fetch && t.after = .decode

end Transition

/-- The context that a core with contexts in the given stages works on. -/
def selectActive : (a b : Stage) → ContextTag
  | .wait, _ => .b
  | .done, b => if b = .done then .a else .b
  | _, _ => .a

/-- One cycle of the active context. While `busHeld`, the other context has a request under way,
and no memory request may join it. -/
def Context.advance (c : Context) (start busHeld : Bool) (sig : Signals) : Context :=
  match c.stage with
  | .idle => if start then { c with stage := .fetch } else c
  | .fetch => if sig.fetchComplete then { c with stage := .decode } else c
  | .decode => { c with stage := .request }
  | .request => if busHeld && sig.memAccess then c else { c with stage := .wait }
  | .wait => if sig.lsuBusy then c else { c with stage := .execute }
  | .execute => { c with stage := .update }
  | .update =>
    if sig.ret then { c with stage := .done, finished := true }
    else { c with stage := .fetch, pc := sig.nextPc }
  | .done => c

/-- Whether a context that is not active leaves its wait. -/
def Context.wakes (c : Context) (sig : Signals) : Bool :=
  c.stage = .wait && !sig.lsuBusy

/-- The state of the scheduler is the progress of the two contexts. -/
abbrev Scheduler := PerContext Context

namespace Scheduler

def initial : Scheduler := .both .initial

def active (s : Scheduler) : ContextTag := selectActive s.a.stage s.b.stage

def currentPc (s : Scheduler) : UInt8 := (s.get s.active).pc

def currentStage (s : Scheduler) : Stage := (s.get s.active).stage

/-- Both contexts have executed their return. -/
def done (s : Scheduler) : Bool := s.a.finished && s.b.finished

def isIdle (s : Scheduler) : Bool := s.a.stage = .idle && s.b.stage = .idle

/-- Only `b` is ever kept off the bus, and only while `a` waits. -/
def busHeld (s : Scheduler) : Bool := s.active = .b && s.a.stage = .wait

/-- One clock cycle. An idle scheduler that is told to start spends the cycle on sending both
contexts to their first fetch. -/
def tick (s : Scheduler) (start : Bool) (sig : PerContext Signals) : Scheduler × Transition :=
  if start && s.isIdle then
    (s.map fun _ c ↦ { c with stage := .fetch },
      { active := .a, before := .idle, after := .fetch, woke := none, bootstrap := true })
  else
    let active := s.active
    let parked := active.other
    let moved := (s.get active).advance start s.busHeld (sig.get active)
    let wakes := (s.get parked).wakes (sig.get parked)
    let rested := if wakes then { s.get parked with stage := .execute } else s.get parked
    ((s.set active moved).set parked rested,
      { active, before := (s.get active).stage, after := moved.stage,
        woke := if wakes then some parked else none, bootstrap := false })

end Scheduler

end SimtMachine
