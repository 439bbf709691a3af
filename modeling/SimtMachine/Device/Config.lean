/-!
# Device configuration

Sizes and timing of a device.
-/

namespace SimtMachine

def maxBlockSize : Nat := 16

/-- The parameters of a device. -/
structure Config where
  coreCount : Nat
  threadsPerBlock : UInt8
  dataChannels : Nat
  programChannels : Nat
  /-- data memory serves requests every so many cycles -/
  dataInterval : Nat
  /-- program memory serves requests every so many cycles -/
  programInterval : Nat
  maxCycles : Nat
  /-- the stages of every core are recorded on every cycle -/
  traceStages : Bool
deriving DecidableEq

namespace Config

/-- The configuration in use where nothing else is given. -/
def standard : Config where
  coreCount := 2
  threadsPerBlock := 4
  dataChannels := 4
  programChannels := 1
  dataInterval := 1
  programInterval := 1
  maxCycles := 100000
  traceStages := false

inductive Defect
  | noCores
  | blockSize
  | noChannel
  | noInterval
deriving DecidableEq

def Defect.message : Defect → String
  | noCores => "core_count must be positive"
  | blockSize => "threads_per_block must be within 1..=" ++ toString maxBlockSize
  | noChannel => "memories need at least one channel"
  | noInterval => "memory service intervals must be positive"

/-- The first defect of a configuration, if it has one. -/
def defect? (c : Config) : Option Defect :=
  if c.coreCount = 0 then some .noCores
  else if c.threadsPerBlock = 0 ∨ c.threadsPerBlock.toNat > maxBlockSize then some .blockSize
  else if c.dataChannels = 0 ∨ c.programChannels = 0 then some .noChannel
  else if c.dataInterval = 0 ∨ c.programInterval = 0 then some .noInterval
  else none

end Config

end SimtMachine
