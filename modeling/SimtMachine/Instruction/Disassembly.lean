import SimtMachine.Instruction.Word
import SimtMachine.Text.Numeral

/-!
# Disassembly

The text of an instruction word in the language of the assembler.
-/

namespace SimtMachine

/-- The letters of the condition bits set in `mask`. -/
def conditionLetters (mask : UInt8) : String :=
  (if mask &&& flagLess != 0 then "n" else "") ++
  (if mask &&& flagEqual != 0 then "z" else "") ++
  (if mask &&& flagGreater != 0 then "p" else "")

/-- The text of an instruction word. Operands are separated by a comma and a blank, and an
immediate is marked by a number sign. -/
def disassemble (w : UInt16) : String :=
  let i := decode w
  let rd := Reg.operandText i.rd
  let rs := Reg.operandText i.rs
  let rt := Reg.operandText i.rt
  let imm := "#" ++ toString i.imm.toNat
  match i.op with
  | .nop | .ret => i.op.name
  | .branch => "BR" ++ conditionLetters i.mask ++ " " ++ imm
  | .compare | .store => i.op.name ++ " " ++ rs ++ ", " ++ rt
  | .arith _ => i.op.name ++ " " ++ rd ++ ", " ++ rs ++ ", " ++ rt
  | .load => i.op.name ++ " " ++ rd ++ ", " ++ rs
  | .const => i.op.name ++ " " ++ rd ++ ", " ++ imm
  | .unmapped _ => "<invalid " ++ Numeral.word w.toNat ++ ">"

end SimtMachine
