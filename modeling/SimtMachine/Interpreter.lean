import SimtMachine.Thread
import SimtMachine.Text.Numeral

/-!
# Sequential interpreter

The reference meaning of a kernel: every thread runs to completion, one after another, on a shared
data memory. A thread ends at its first return; a program counter past the program, an unmapped
operation and a thread that runs for too long are errors.
-/

namespace SimtMachine.Interpreter

/-- Why a kernel has no sequential meaning. -/
inductive Error
  | emptyBlocks
  | dataTooLarge
  | pastProgram (thread pc : Nat)
  | tooManySteps (thread : Nat)
  | unmapped (thread : Nat) (word : UInt16) (pc : Nat)
deriving DecidableEq

def Error.message : Error → String
  | emptyBlocks => "block dimension must be positive"
  | dataTooLarge => "data does not fit in memory"
  | pastProgram t pc =>
      "thread " ++ toString t ++ ": pc " ++ Numeral.address pc ++ " runs past the program"
  | tooManySteps t => "thread " ++ toString t ++ ": exceed step limit"
  | unmapped t w pc =>
      "thread " ++ toString t ++ ": invalid instruction " ++ Numeral.word w.toNat ++ " at " ++
        Numeral.address pc

/-- Most instructions that one thread may execute, its return included. -/
def stepLimit : Nat := 65536

/-- The address of the next instruction. It does not wrap: running off the end of the program is
an error of its own. -/
def nextPc (i : Instruction) (flags : UInt8) (pc : Nat) : Nat :=
  if i.taken flags then i.imm.toNat else pc + 1

/-- Runs thread number `tid` from address `pc` for at most `fuel` more instructions, and returns
the memory it leaves and how many instructions it executed. -/
def runThread (program : Array UInt16) (tid : Nat) :
    (fuel pc : Nat) → Thread → Image UInt8 → Except Error (Image UInt8 × Nat)
  | fuel, pc, t, m =>
    match program[pc]?, fuel with
    | none, _ => .error (.pastProgram tid pc)
    | some _, 0 => .error (.tooManySteps tid)
    | some w, fuel + 1 =>
      let i := decode w
      if !i.op.isMapped then .error (.unmapped tid w pc)
      else if i.op.returns then .ok (m, 1)
      else
        let (t', m') := t.execute i m
        (runThread program tid fuel (nextPc i t.flags pc) t' m').map fun (m, n) ↦ (m, n + 1)

/-- Runs `count` threads from thread number `tid` on, in ascending order, and counts all their
instructions. -/
def runThreads (program : Array UInt16) (dim : UInt8) :
    (count tid : Nat) → Image UInt8 → Except Error (Image UInt8 × Nat)
  | 0, _, m => .ok (m, 0)
  | count + 1, tid, m =>
    let block := UInt8.ofNat (tid / dim.toNat)
    let lane := UInt8.ofNat (tid % dim.toNat)
    match runThread program tid stepLimit 0 (.seeded block dim lane) m with
    | .error e => .error e
    | .ok (m', n) => (runThreads program dim count (tid + 1) m').map fun (m, k) ↦ (m, n + k)

/-- Runs a kernel of `threads` threads in blocks of `dim` on the given data: the final data memory
and the number of executed instructions. -/
def run (program : Array UInt16) (data : Array UInt8) (threads : Nat) (dim : UInt8) :
    Except Error (Image UInt8 × Nat) :=
  if dim = 0 then .error .emptyBlocks
  else if data.size > addressSpace then .error .dataTooLarge
  else runThreads program dim threads 0 (Image.ofArray data)

end SimtMachine.Interpreter
