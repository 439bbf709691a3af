import SimtMachine.Core.Basic

/-!
# A core on its own

One core with a program memory and a data memory that nobody else uses, and a cycle counter.
-/

namespace SimtMachine

/-- A core with memories of its own. -/
structure Solo where
  core : Core
  program : Memory UInt16
  data : Memory UInt8
  cycle : Nat

namespace Solo

/-- What happened in one cycle: how many requests each memory served, and the move of the core. -/
structure Report where
  fetched : Nat
  served : Nat
  step : Transition

/-- One clock cycle: both memories serve the core, then the core moves. -/
def step (s : Solo) : Solo × Report :=
  let (program, core, fetched) := s.program.serviceWith s.cycle Core.visitProgram s.core
  let (data, core, served) := s.data.serviceWith s.cycle Core.visitData core
  let (core, step) := core.tick
  ({ core, program, data, cycle := s.cycle + 1 }, { fetched, served, step })

/-- Runs the clock until the core is done, for at most `fuel` cycles. -/
def runFor : (fuel : Nat) → Solo → Solo
  | 0, s => s
  | fuel + 1, s => if s.core.done then s else runFor fuel s.step.1

end Solo

end SimtMachine
