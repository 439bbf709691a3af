import SimtMachine.Instruction.Word

/-!
# Instructions of the assembly language

The eight forms of an instruction, over a type of registers and a type of immediates. As written,
registers and immediates are names and literals; resolving replaces them step by step until
registers are numbers and immediates are bytes, and the instruction can be encoded.
-/

namespace SimtMachine.Assembly

/-- An instruction with registers in `ρ` and immediates in `ι`. -/
inductive Inst (ρ ι : Type)
  | nop
  | ret
  | branch (mask : UInt8) (target : ι)
  | compare (rs rt : ρ)
  | arith (f : Arith) (rd rs rt : ρ)
  | load (rd rs : ρ)
  | store (rs rt : ρ)
  | const (rd : ρ) (imm : ι)
deriving DecidableEq

namespace Inst

variable {ρ ρ' ι ι' ε : Type}

/-- Replaces the registers and immediates from left to right, up to the first that has no
replacement. -/
def resolve (reg : ρ → Except ε ρ') (imm : ι → Except ε ι') :
    Inst ρ ι → Except ε (Inst ρ' ι')
  | nop => return nop
  | ret => return ret
  | branch m t => return branch m (← imm t)
  | compare rs rt => return compare (← reg rs) (← reg rt)
  | arith f rd rs rt => return arith f (← reg rd) (← reg rs) (← reg rt)
  | load rd rs => return load (← reg rd) (← reg rs)
  | store rs rt => return store (← reg rs) (← reg rt)
  | const rd i => return const (← reg rd) (← imm i)

/-- The instruction word. Fields that the operation does not use are zero. -/
def encode : Inst Reg UInt8 → UInt16
  | nop => registerWord .nop 0 0 0
  | ret => registerWord .ret 0 0 0
  | branch m t => branchWord m t
  | compare rs rt => registerWord .compare 0 rs rt
  | arith f rd rs rt => registerWord (.arith f) rd rs rt
  | load rd rs => registerWord .load rd rs 0
  | store rs rt => registerWord .store 0 rs rt
  | const rd i => constWord rd i

end Inst

end SimtMachine.Assembly
