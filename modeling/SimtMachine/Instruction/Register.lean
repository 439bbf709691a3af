/-!
# Registers

A thread owns sixteen byte registers. The last three are seeded by the hardware with the thread's
place in the kernel and are read-only.
-/

namespace SimtMachine

abbrev Reg := Fin 16

/-- Every number taken modulo the number of registers is that of a register. -/
instance Reg.neZero : @NeZero Nat Zero.ofOfNat0 16 := ⟨by decide⟩

namespace Reg

/-- The register that holds the block index. -/
def blockIdx : Reg := 13

/-- The register that holds the number of lanes per block. -/
def blockDim : Reg := 14

/-- The register that holds the lane index within the block. -/
def threadIdx : Reg := 15

/-- Instructions can write the registers below `blockIdx` only. -/
def isWritable (r : Reg) : Bool :=
  r < blockIdx

/-- How register number `r` is written in assembly. -/
def operandText (r : Nat) : String :=
  if r = blockIdx then "%blockIdx"
  else if r = blockDim then "%blockDim"
  else if r = threadIdx then "%threadIdx"
  else "R" ++ toString r

/-- Symbolic constant for register number `r`. -/
def constantName (r : Nat) : String :=
  if r = blockIdx then "BLOCK_IDX"
  else if r = blockDim then "BLOCK_DIM"
  else if r = threadIdx then "THREAD_IDX"
  else if r < 16 then "R" ++ toString r
  else "no name"

end Reg

abbrev Registers := Vector UInt8 16

namespace Registers

/-- All registers zero, except for the three that place the thread in the kernel. -/
def seeded (block dim thread : UInt8) : Registers :=
  Vector.ofFn fun r ↦
    if r = Reg.blockIdx then block
    else if r = Reg.blockDim then dim
    else if r = Reg.threadIdx then thread
    else 0

def read (regs : Registers) (r : Reg) : UInt8 :=
  regs[r]

/-- The registers after `v` went to `r`; a read-only register keeps its content. -/
def write (regs : Registers) (r : Reg) (v : UInt8) : Registers :=
  if r.isWritable then Vector.set regs r.val v r.isLt else regs

theorem read_write (regs : Registers) (r q : Reg) (v : UInt8) :
    (regs.write r v).read q = if q = r ∧ r.isWritable then v else regs.read q := by
  unfold read write
  by_cases h : r.isWritable
  · simp only [h, if_true, and_true, Fin.getElem_fin, Vector.getElem_set, Fin.ext_iff]
    by_cases hq : (r : Nat) = q
    · simp [hq]
    · simp [hq, Ne.symm hq]
  · simp [h]

end Registers

end SimtMachine
