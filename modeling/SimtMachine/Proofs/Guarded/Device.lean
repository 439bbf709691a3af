import SimtMachine.Proofs.Device.Chronicle
import SimtMachine.Proofs.Guarded.Dispatch

/-!
# A guarded device

A host creates a device and calls it in any order: it launches, steps, runs and resets, and some of
the launches and runs fail. With every check and every access guarded, such a session goes as it
does without the guards, unless the cycle counter gets too large for its word.
-/

namespace SimtMachine

namespace Device

inductive HostCall
  | launch (threads : Nat)
  | step
  | run (max : Nat)
  | reset
deriving DecidableEq

inductive Reply
  | done
  | launched (r : Except LaunchError Unit)
  | ran (r : Except RunError Nat)
  | failed (f : Dispatcher.Fault)
deriving DecidableEq

/-- The device and the reply after a launch, which changes nothing if it fails. -/
def afterLaunch (d : Device) (r : Except LaunchError Device) : Device × Reply :=
  match r with
  | .ok d => (d, .launched (.ok ()))
  | .error e => (d, .launched (.error e))

def perform (d : Device) : HostCall → Device × Reply
  | .launch n => d.afterLaunch (d.launch n)
  | .step =>
    match d.step with
    | .ok d => (d, .done)
    | .error f => (d, .failed f)
  | .run max => ((d.run max).1, .ran (d.run max).2)
  | .reset => (d.reset, .done)

def session (d : Device) (calls : List HostCall) : Device × List Reply :=
  sweep perform d calls

variable {d : Device} {inputs : List DispatchInput} {outputs : List (List Order)}
  {left served : Nat}

theorem Reachable.step_eq (h : d.Reachable) : d.step = .ok d.advance := by
  obtain ⟨_, _, _, _, hc⟩ := h.consistent
  exact hc.step_eq

theorem Reachable.valid (h : d.Reachable) : d.config.defect? = none := by
  obtain ⟨_, _, _, _, hc⟩ := h.consistent
  exact hc.valid

theorem Reachable.perform (h : d.Reachable) (call : HostCall) : (d.perform call).1.Reachable := by
  cases call with
  | launch n =>
    rw [Device.perform]
    cases hl : d.launch n with
    | error e => exact h
    | ok d' => exact h.launch hl
  | step =>
    rw [Device.perform, h.step_eq]
    exact h.step h.step_eq
  | run max => exact h.run max
  | reset => exact h.reset

theorem defect?_eq_none_iff {c : Config} :
    c.defect? = none ↔ c.coreCount ≠ 0 ∧
      (c.threadsPerBlock ≠ 0 ∧ c.threadsPerBlock.toNat ≤ maxBlockSize) ∧
      (c.dataChannels ≠ 0 ∧ c.programChannels ≠ 0) ∧
      c.dataInterval ≠ 0 ∧ c.programInterval ≠ 0 := by
  unfold Config.defect?
  constructor
  · intro h
    split at h
    · cases h
    · next hcores =>
      split at h
      · cases h
      · next hsize =>
        split at h
        · cases h
        · next hchannels =>
          split at h
          · cases h
          · next hintervals =>
            rw [not_or] at hsize hchannels hintervals
            exact ⟨hcores, ⟨hsize.1, Nat.le_of_not_lt hsize.2⟩, hchannels, hintervals⟩
  · rintro ⟨hcores, hsize, hchannels, hintervals⟩
    rw [if_neg hcores, if_neg (not_or.2 ⟨hsize.1, Nat.not_lt.2 hsize.2⟩),
      if_neg (not_or.2 hchannels), if_neg (not_or.2 hintervals)]

theorem exists_memory {α : Type} [Inhabited α] {init : Array α} {channels interval : Nat}
    (hs : init.size ≤ addressSpace) (hc : channels ≠ 0) (hi : interval ≠ 0) :
    ∃ m, Memory.create init channels interval = .ok m := by
  unfold Memory.create
  rw [if_neg (Nat.not_lt.2 hs), dif_neg hc, dif_neg hi]
  exact ⟨_, rfl⟩

theorem exists_create_iff {c : Config} {program : Array UInt16} {data : Array UInt8} :
    (∃ d, create c program data = .ok d) ↔
      c.defect? = none ∧ program.size ≤ addressSpace ∧ data.size ≤ addressSpace := by
  constructor
  · rintro ⟨d, hd⟩
    obtain ⟨hvalid, _, _, hp, hm, -⟩ := eq_of_create hd
    exact ⟨hvalid, Memory.size_le_of_create hp, Memory.size_le_of_create hm⟩
  · rintro ⟨hvalid, hp, hd⟩
    obtain ⟨-, -, hchannels, hintervals⟩ := defect?_eq_none_iff.1 hvalid
    obtain ⟨p, hp⟩ := exists_memory hp hchannels.2 hintervals.2
    obtain ⟨m, hm⟩ := exists_memory hd hchannels.1 hintervals.1
    cases hc : create c program data with
    | ok d => exact ⟨d, rfl⟩
    | error e =>
      simp [create, hvalid, hp, hm, Except.mapError, bind, Except.bind, pure, Except.pure] at hc

def slowMemory : Config := { Config.standard with dataInterval := 3, traceStages := true }

end Device

end SimtMachine
