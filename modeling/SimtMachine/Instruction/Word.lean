import SimtMachine.Instruction.Operation
import SimtMachine.Instruction.Register

/-!
# Instruction words

An instruction is a word of sixteen bits. The operation code fills the top four; the other twelve
hold either three register numbers `rd`, `rs`, `rt`, or a condition mask in bits 9 to 11 and an
immediate in the low byte. Decoding reads every field of every word, whether or not its operation
uses it.
-/

namespace SimtMachine

structure Instruction where
  op : Operation
  rd : Reg
  /-- first operand register, the address of a memory access -/
  rs : Reg
  /-- second operand register, the data of a store -/
  rt : Reg
  /-- condition bits under which a branch is taken -/
  mask : UInt8
  /-- constant or branch target -/
  imm : UInt8
deriving DecidableEq

def registerWord (op : Operation) (rd rs rt : Reg) : UInt16 :=
  UInt16.ofNat (op.code.toNat * 4096 + rd * 256 + rs * 16 + rt)

def branchWord (mask imm : UInt8) : UInt16 :=
  UInt16.ofNat (Operation.branch.code.toNat * 4096 + mask.toNat * 512 + imm.toNat)

/-- The word that loads a constant into a register. -/
def constWord (rd : Reg) (imm : UInt8) : UInt16 :=
  UInt16.ofNat (Operation.const.code.toNat * 4096 + rd * 256 + imm.toNat)

def decode (w : UInt16) : Instruction where
  op := Operation.ofCode (UInt8.ofNat (w.toNat / 4096))
  rd := Fin.ofNat 16 (w.toNat / 256)
  rs := Fin.ofNat 16 (w.toNat / 16)
  rt := Fin.ofNat 16 w.toNat
  mask := UInt8.ofNat (w.toNat / 512 % 8)
  imm := UInt8.ofNat w.toNat

/-- A word of an operation on registers decodes to that operation on those registers. -/
theorem decode_registerWord {op : Operation} (h : op.isMapped) (rd rs rt : Reg) :
    decode (registerWord op rd rs rt) =
      { op, rd, rs, rt
        mask := UInt8.ofNat (rd.val / 2)
        imm := UInt8.ofNat (rs.val * 16 + rt.val) } := by
  have hc := Operation.code_lt h
  have hw : (registerWord op rd rs rt).toNat = op.code.toNat * 4096 + rd * 256 + rs * 16 + rt := by
    simp only [registerWord, UInt16.toNat_ofNat']
    omega
  have ho : UInt8.ofNat ((op.code.toNat * 4096 + rd * 256 + rs * 16 + rt) / 4096) = op.code := by
    rw [← UInt8.toNat_inj, UInt8.toNat_ofNat']
    omega
  simp only [decode, hw, ho, Operation.ofCode_code h, Instruction.mk.injEq, true_and]
  refine ⟨Fin.ext ?_, Fin.ext ?_, Fin.ext ?_, ?_, ?_⟩
  · simp only [Fin.ofNat]; omega
  · simp only [Fin.ofNat]; omega
  · simp only [Fin.ofNat]; omega
  · congr 1; omega
  · rw [← UInt8.toNat_inj, UInt8.toNat_ofNat', UInt8.toNat_ofNat']; omega

/-- The word of a branch decodes to the branch with its mask and target. -/
theorem decode_branchWord {mask : UInt8} (h : mask < 8) (imm : UInt8) :
    decode (branchWord mask imm) =
      { op := .branch
        rd := Fin.ofNat 16 (mask.toNat * 2)
        rs := Fin.ofNat 16 (imm.toNat / 16)
        rt := Fin.ofNat 16 imm.toNat
        mask, imm } := by
  have hm : mask.toNat < 8 := UInt8.lt_iff_toNat_lt.1 h
  have hi := imm.toNat_lt
  have hw : (branchWord mask imm).toNat = 4096 + mask.toNat * 512 + imm.toNat := by
    have hc : Operation.branch.code.toNat = 1 := rfl
    simp only [branchWord, hc, UInt16.toNat_ofNat']
    omega
  have ho : (4096 + mask.toNat * 512 + imm.toNat) / 4096 = 1 := by omega
  simp only [decode, hw, ho, Instruction.mk.injEq]
  refine ⟨rfl, Fin.ext ?_, Fin.ext ?_, Fin.ext ?_, ?_, ?_⟩
  · simp only [Fin.ofNat]; omega
  · simp only [Fin.ofNat]; omega
  · simp only [Fin.ofNat]; omega
  · rw [← UInt8.toNat_inj, UInt8.toNat_ofNat']; omega
  · rw [← UInt8.toNat_inj, UInt8.toNat_ofNat']; omega

/-- The word that loads a constant decodes to that load. -/
theorem decode_constWord (rd : Reg) (imm : UInt8) :
    decode (constWord rd imm) =
      { op := .const
        rd
        rs := Fin.ofNat 16 (imm.toNat / 16)
        rt := Fin.ofNat 16 imm.toNat
        mask := UInt8.ofNat (rd.val / 2)
        imm } := by
  have hi := imm.toNat_lt
  have hw : (constWord rd imm).toNat = 36864 + rd * 256 + imm.toNat := by
    have hc : Operation.const.code.toNat = 9 := rfl
    simp only [constWord, hc, UInt16.toNat_ofNat']
    omega
  have ho : (36864 + rd * 256 + imm.toNat) / 4096 = 9 := by omega
  simp only [decode, hw, ho, Instruction.mk.injEq]
  refine ⟨rfl, Fin.ext ?_, Fin.ext ?_, Fin.ext ?_, ?_, ?_⟩
  · simp only [Fin.ofNat]; omega
  · simp only [Fin.ofNat]; omega
  · simp only [Fin.ofNat]; omega
  · congr 1; omega
  · rw [← UInt8.toNat_inj, UInt8.toNat_ofNat']; omega

namespace Instruction

/-- The word zero decodes to the operation that does nothing. -/
instance : Inhabited Instruction := ⟨decode 0⟩

/-- The value written to the destination register, given the output of the arithmetic unit and
the answer of memory. -/
def result (i : Instruction) (computed loaded : UInt8) : UInt8 :=
  match i.op.source with
  | .arithmetic => computed
  | .memory => loaded
  | .constant => i.imm

/-- Whether the instruction is a branch that the condition bits `flags` take. -/
def taken (i : Instruction) (flags : UInt8) : Bool :=
  i.op.branches && flags &&& i.mask != 0

end Instruction

end SimtMachine
