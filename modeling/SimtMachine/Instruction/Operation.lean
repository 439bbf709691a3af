/-!
# Operations

The eleven operations of the instruction set, their operation codes, and what each of them makes
the datapath do. A code that no operation claims decodes to `Operation.unmapped`, which does
nothing.
-/

namespace SimtMachine

inductive Arith
  | add | sub | mul | div
deriving DecidableEq

/-- Eight-bit arithmetic modulo 256; a quotient by zero is zero. -/
def Arith.apply : Arith → UInt8 → UInt8 → UInt8
  | .add, a, b => a + b
  | .sub, a, b => a - b
  | .mul, a, b => a * b
  | .div, a, b => a / b

/-- The condition bit for "the first byte is below the second". -/
def flagLess : UInt8 := 4

/-- The condition bit for "the two bytes are equal". -/
def flagEqual : UInt8 := 2

/-- The condition bit for "the first byte is above the second". -/
def flagGreater : UInt8 := 1

/-- The condition bit that comparing `a` with `b` as unsigned bytes raises. -/
def comparison (a b : UInt8) : UInt8 :=
  if a < b then flagLess else if a = b then flagEqual else flagGreater

/-- Where the value written to the destination register comes from. -/
inductive ResultSource
  | arithmetic | memory | constant
deriving DecidableEq

/-- What an instruction does, without its operands. -/
inductive Operation
  | nop
  | branch
  | compare
  | arith (f : Arith)
  | load
  | store
  | const
  | ret
  | unmapped (code : UInt8)
deriving DecidableEq

namespace Operation

/-- The operation that an operation code stands for. -/
def ofCode : UInt8 → Operation
  | 0 => nop
  | 1 => branch
  | 2 => compare
  | 3 => arith .add
  | 4 => arith .sub
  | 5 => arith .mul
  | 6 => arith .div
  | 7 => load
  | 8 => store
  | 9 => const
  | 15 => ret
  | c => unmapped c

/-- The operation code, which fills the top four bits of an instruction word. -/
def code : Operation → UInt8
  | nop => 0
  | branch => 1
  | compare => 2
  | arith .add => 3
  | arith .sub => 4
  | arith .mul => 5
  | arith .div => 6
  | load => 7
  | store => 8
  | const => 9
  | ret => 15
  | unmapped c => c

/-- Every code is the code of the operation it stands for. -/
@[simp] theorem code_ofCode (c : UInt8) : (ofCode c).code = c := by
  unfold ofCode
  split <;> rfl

def isMapped : Operation → Bool
  | unmapped _ => false
  | _ => true

/-- Every operation that claims a code is what its code stands for. -/
theorem ofCode_code {op : Operation} (h : op.isMapped) : ofCode op.code = op := by
  cases op with
  | arith f => cases f <;> rfl
  | unmapped => simp [isMapped] at h
  | _ => rfl

/-- A claimed code fits into four bits. -/
theorem code_lt {op : Operation} (h : op.isMapped) : op.code.toNat < 16 := by
  cases op with
  | arith f => cases f <;> decide
  | unmapped => simp [isMapped] at h
  | _ => decide

def writesRegister : Operation → Bool
  | arith _ | load | const => true
  | _ => false

def loads : Operation → Bool
  | load => true
  | _ => false

def stores : Operation → Bool
  | store => true
  | _ => false

/-- Whether a data memory request is made at all. -/
def touchesMemory (op : Operation) : Bool :=
  op.loads || op.stores

/-- Whether the condition bits are replaced; exactly then the arithmetic unit compares. -/
def setsFlags : Operation → Bool
  | compare => true
  | _ => false

/-- Whether the next address may come from the immediate. -/
def branches : Operation → Bool
  | branch => true
  | _ => false

def returns : Operation → Bool
  | ret => true
  | _ => false

def source : Operation → ResultSource
  | load => .memory
  | const => .constant
  | _ => .arithmetic

def function : Operation → Arith
  | arith f => f
  | _ => .add

/-- Output of the arithmetic unit on the operands `a` and `b`. -/
def compute (op : Operation) (a b : UInt8) : UInt8 :=
  if op.setsFlags then comparison a b else op.function.apply a b

/-- Mnemonic of the operation, with every condition letter for the branch. -/
def name : Operation → String
  | nop => "NOP"
  | branch => "BRNZP"
  | compare => "CMP"
  | arith .add => "ADD"
  | arith .sub => "SUB"
  | arith .mul => "MUL"
  | arith .div => "DIV"
  | load => "LDR"
  | store => "STR"
  | const => "CONST"
  | ret => "RET"
  | unmapped _ => "no name"

end Operation

end SimtMachine
