import SimtMachine.Assembly.Inst
import SimtMachine.Assembly.Lexeme

/-!
# Lines of assembly

A line holds, each of them optional, a label, an instruction and a comment. An instruction begins
with a mnemonic, which decides the operands that follow.
-/

namespace SimtMachine.Assembly

inductive Mnemonic
  | nop
  | ret
  | branch (mask : UInt8)
  | compare
  | arith (f : Arith)
  | load
  | store
  | const
deriving DecidableEq

/-- The condition mask of a branch with the given letters. Without any the branch is taken
whenever a comparison has happened. -/
def branchMask (less equal greater : Bool) : UInt8 :=
  if less || equal || greater then
    (if less then flagLess else 0) ||| (if equal then flagEqual else 0) |||
      (if greater then flagGreater else 0)
  else flagLess ||| flagEqual ||| flagGreater

/-- A word that nothing may continue, even after blanks. -/
def loneWord (word : String) (cs : List Char) : Option (List Char) := do
  let rest ← keyword word.toList cs
  if endsWord (skip rest) then some (skip rest) else none

/-- A word that nothing directly continues. -/
def wholeWord (word : String) (cs : List Char) : Option (List Char) := do
  let rest ← keyword word.toList cs
  if endsWord rest then some rest else none

/-- A branch mnemonic with its condition letters. -/
def branchWord? (cs : List Char) : Option (UInt8 × List Char) := do
  let cs ← keyword ['b', 'r'] cs
  let (less, cs) := optional 'n' cs
  let (equal, cs) := optional 'z' cs
  let (greater, cs) := optional 'p' cs
  if endsWord cs then some (branchMask less equal greater, cs) else none

/-- A mnemonic and the rest of the line. -/
def mnemonic (cs : List Char) : Option (Mnemonic × List Char) :=
  (loneWord "nop" cs).map (.nop, ·) <|>
  (loneWord "ret" cs).map (.ret, ·) <|>
  (branchWord? cs).map (fun (m, rest) ↦ (.branch m, rest)) <|>
  (keyword "cmp".toList cs).map (.compare, ·) <|>
  (wholeWord "add" cs).map (.arith .add, ·) <|>
  (wholeWord "sub" cs).map (.arith .sub, ·) <|>
  (wholeWord "mul" cs).map (.arith .mul, ·) <|>
  (wholeWord "div" cs).map (.arith .div, ·) <|>
  (keyword "ldr".toList cs).map (.load, ·) <|>
  (keyword "str".toList cs).map (.store, ·) <|>
  (keyword "const".toList cs).map (.const, ·)

abbrev WrittenInst := Inst RegisterName Operand

/-- The operands that a mnemonic asks for, and the rest of the line. -/
def operands (m : Mnemonic) (cs : List Char) : Option (WrittenInst × List Char) := do
  match m with
  | .nop => some (.nop, cs)
  | .ret => some (.ret, cs)
  | .branch mask =>
    let (t, cs) ← target (skip cs)
    some (.branch mask t, cs)
  | .compare =>
    let (rs, cs) ← register (skip cs)
    let (rt, cs) ← register (skip (← comma cs))
    some (.compare rs rt, cs)
  | .arith f =>
    let (rd, cs) ← register (skip cs)
    let (rs, cs) ← register (skip (← comma cs))
    let (rt, cs) ← register (skip (← comma cs))
    some (.arith f rd rs rt, cs)
  | .load =>
    let (rd, cs) ← register (skip cs)
    let (rs, cs) ← register (skip (← comma cs))
    some (.load rd rs, cs)
  | .store =>
    let (rs, cs) ← register (skip cs)
    let (rt, cs) ← register (skip (← comma cs))
    some (.store rs rt, cs)
  | .const =>
    let (rd, cs) ← register (skip cs)
    let (text, cs) ← immediate (skip (← comma cs))
    some (.const rd (.number text), cs)

def instruction (cs : List Char) : Option (WrittenInst × List Char) := do
  let (m, rest) ← mnemonic cs
  operands m rest

structure Line where
  label : Option (List Char)
  inst : Option WrittenInst
  /-- the text of the line from its first lexeme on, without what follows the last -/
  source : List Char
deriving DecidableEq

/-- The longest part of a line that is well formed, and the rest. -/
def lineBody (cs : List Char) : Line × List Char :=
  let start := skip cs
  let (name, afterLabel) := match label start with
    | some (name, rest) => (some name, skip rest)
    | none => (none, start)
  let (inst, rest) := match instruction afterLabel with
    | some (i, rest) => (some i, rest)
    | none => (none, afterLabel)
  ({ label := name, inst, source := start.take (start.length - rest.length) }, rest)

def Line.read? (cs : List Char) : Option Line :=
  let (line, rest) := lineBody cs
  if (skip rest).isEmpty then some line else none

end SimtMachine.Assembly
