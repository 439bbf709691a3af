import SimtMachine.Sweep
import SimtMachine.Thread

/-!
# Lockstep execution

The meaning of a block on a core, without any notion of cycles or contexts: all threads of the block
share one program counter and execute each instruction one after another, in ascending order. Where
the block goes next is decided by its last thread, and the first return ends it.
-/

namespace SimtMachine

/-- A block between two instructions. -/
structure Lockstep where
  pc : UInt8
  threads : List Thread
  memory : Image UInt8
deriving DecidableEq

namespace Lockstep

/-- A block of `count` threads before its first instruction. -/
def start (block dim count : UInt8) (m : Image UInt8) : Lockstep where
  pc := 0
  threads := (List.range count.toNat).map fun t ↦ Thread.seeded block dim (UInt8.ofNat t)
  memory := m

def instruction (program : Image UInt16) (s : Lockstep) : Instruction :=
  decode (program.read s.pc)

/-- The address after an instruction, which is that of the last thread. -/
def nextPc (i : Instruction) (s : Lockstep) : UInt8 :=
  match s.threads.getLast? with
  | some t => if i.taken t.flags then i.imm else s.pc + 1
  | none => 0

/-- The block after its next instruction, unless that is a return. An unmapped operation does
nothing. -/
def step (program : Image UInt16) (s : Lockstep) : Option Lockstep :=
  let i := s.instruction program
  if i.op.returns then none
  else
    let (memory, threads) := sweep (fun m t ↦ (t.execute i m).swap) s.memory s.threads
    some { pc := s.nextPc i, threads, memory }

/-- The block reaches a return and leaves the memory `m` behind. -/
inductive Finishes (program : Image UInt16) : Lockstep → Image UInt8 → Prop
  | ret {s : Lockstep} : s.step program = none → Finishes program s s.memory
  | next {s s' : Lockstep} {m : Image UInt8} :
      s.step program = some s' → Finishes program s' m → Finishes program s m

/-- A block leaves only one memory behind. -/
theorem Finishes.unique {program : Image UInt16} {s : Lockstep} {m m' : Image UInt8}
    (h : Finishes program s m) (h' : Finishes program s m') : m = m' := by
  induction h with
  | ret hs =>
    cases h' with
    | ret => rfl
    | next hs' => simp [hs] at hs'
  | next hs _ ih =>
    cases h' with
    | ret hs' => simp [hs] at hs'
    | next hs' hf =>
      rw [hs] at hs'
      cases hs'
      exact ih hf

end Lockstep

end SimtMachine
