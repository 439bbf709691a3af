import SimtMachine.Instruction.Word
import SimtMachine.Memory.Image

/-!
# Threads

What one instruction does to one thread and to data memory, without any notion of cycles. The
sequential interpreter repeats this step, and a lane of the pipelined machine spreads it over the
stages of an instruction.
-/

namespace SimtMachine

/-- The registers and condition bits of a thread. -/
structure Thread where
  regs : Registers
  flags : UInt8
deriving DecidableEq

namespace Thread

def seeded (block dim thread : UInt8) : Thread where
  regs := Registers.seeded block dim thread
  flags := 0

/-- The thread and the memory after an instruction. The operands are the registers `rs` and `rt`
as they were before; `rs` is also the address of a memory access and `rt` the stored byte. -/
def execute (i : Instruction) (t : Thread) (m : Image UInt8) : Thread × Image UInt8 :=
  let a := t.regs.read i.rs
  let b := t.regs.read i.rt
  let v := i.op.compute a b
  ({ regs := if i.op.writesRegister then t.regs.write i.rd (i.result v (m.read a)) else t.regs
     flags := if i.op.setsFlags then v else t.flags },
   if i.op.stores then m.write a b else m)

end Thread

end SimtMachine
