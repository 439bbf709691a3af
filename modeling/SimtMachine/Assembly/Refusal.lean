import SimtMachine.Assembly.Line

/-!
# Where a line is refused

A line that is not well formed is reported at the furthest place where a part of a line was looked
for and not found. The parts that count are labels, instructions, registers with their special names
and numbers, immediates with their numbers, names, and the end of the text; a comma does not count.
A place is given by how many characters are left from it on, so the furthest place is the least.
-/

namespace SimtMachine.Assembly

/-- What an operand is looked for as. -/
inductive OperandKind
  | register | immediate | target
deriving DecidableEq

/-- The operands after a mnemonic. -/
def Mnemonic.operandKinds : Mnemonic → List OperandKind
  | nop | ret => []
  | branch _ => [.target]
  | compare | load | store => [.register, .register]
  | arith _ => [.register, .register, .register]
  | const => [.register, .immediate]

/-- The line after an operand. -/
def OperandKind.rest? (cs : List Char) : OperandKind → Option (List Char)
  | register => (Assembly.register cs).map Prod.snd
  | immediate => (Assembly.immediate cs).map Prod.snd
  | target => (Assembly.target cs).map Prod.snd

/-- The furthest place where a part of a missing operand was looked for: the number of a register
after its letter, the number of an immediate after its sign, or the operand itself. -/
def OperandKind.missing (cs : List Char) : OperandKind → Nat
  | register => match cs with
    | c :: rest => if c.toLower = 'r' then rest.length else cs.length
    | [] => 0
  | immediate | target => match cs with
    | '#' :: rest => rest.length
    | _ => cs.length

/-- The furthest place where a part of an operand was looked for in vain although the operand is
there. Only a general register has such a place, its start, where it is no special register. -/
def OperandKind.passed? (cs : List Char) : OperandKind → Option Nat
  | register => if (specialRegister cs).isSome then none else some cs.length
  | immediate | target => none

/-- The furthest refusal among the operands that follow, where `best` is the furthest before. -/
def operandRefusal (best : Nat) (cs : List Char) : List OperandKind → Nat
  | [] => best
  | k :: ks =>
    let cs := skip cs
    match k.rest? cs with
    | none => min best (k.missing cs)
    | some rest =>
      let best := match k.passed? cs with
        | some n => min best n
        | none => best
      match comma rest with
      | none => best
      | some rest => operandRefusal best rest ks

/-- The furthest refusal on a line that is not well formed. -/
def refusal (cs : List Char) : Nat :=
  let (line, rest) := lineBody cs
  let stop := (skip rest).length
  if line.inst.isSome then stop
  else match mnemonic rest with
    | some (m, rest) => operandRefusal stop rest m.operandKinds
    | none => stop

end SimtMachine.Assembly
