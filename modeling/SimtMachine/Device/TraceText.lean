import SimtMachine.Device.Trace
import SimtMachine.Json.Pretty

/-!
# Trace files

The JSON form of a trace: the events in order, then the stage samples if there are any.
-/

namespace SimtMachine

open Json

/-- An event as an object that begins with the kind of the event. -/
def Event.toJson : Event → Value
  | dispatch cycle core block threads =>
    .object [("event", .string "dispatch"), ("cycle", .number cycle), ("core", .number core),
      ("block_id", .number block.toNat), ("thread_count", .number threads.toNat)]
  | complete cycle core block =>
    .object [("event", .string "complete"), ("cycle", .number cycle), ("core", .number core),
      ("block_id", .number block.toNat)]
  | kernelDone cycle => .object [("event", .string "kernel_done"), ("cycle", .number cycle)]

/-- A stage sample as an object. -/
def StageSample.toJson (s : StageSample) : Value :=
  .object [("cycle", .number s.cycle), ("core", .number s.core),
    ("active", .string s.active.letter),
    ("stages", .array (s.stages.toList.map fun st ↦ .string st.name))]

def Trace.toText (t : Trace) : String :=
  let samples := t.samples.map StageSample.toJson
  let events := t.events.map Event.toJson
  (Value.object
    (("events", .array events) ::
      if samples.isEmpty then [] else [("stage_samples", .array samples)])).pretty 0

end SimtMachine
