import SimtMachine.Assembly.Line
import SimtMachine.Instruction.Disassembly
import SimtMachine.Memory.Image
import SimtMachine.Sweep
import SimtMachine.Text.Blank

/-!
# Assembled programs

The words of a program from address zero on, with the source lines they came from and the addresses
of the labels.
-/

namespace SimtMachine.Assembly

/-- An immediate that waits for the addresses of the labels. -/
inductive Immediate
  | value (v : UInt8)
  | label (name : String)
deriving DecidableEq

/-- The addresses of the labels. -/
abbrev Symbols := List (String × UInt8)

/-- An immediate where the addresses of the labels are known; an unknown label is an error. -/
def Immediate.resolve (symbols : Symbols) : Immediate → Except String UInt8
  | value v => .ok v
  | label name =>
    match symbols.lookup name with
    | some a => .ok a
    | none => .error name

/-- An instruction whose labels have no address yet. -/
abbrev PlacedInst := Inst Reg Immediate

/-- The word of an instruction, or the label in it that is not known. -/
def PlacedInst.word (symbols : Symbols) (i : PlacedInst) : Except String UInt16 :=
  (i.resolve pure (Immediate.resolve symbols)).map Inst.encode

/-- A source line with what became of it. -/
structure ListingLine where
  address : Option UInt8
  inst : Option PlacedInst
  label : Option String
  word : Option UInt16
  source : String
deriving DecidableEq

/-- The line with the word that its instruction has under the given symbols. -/
def ListingLine.encode (symbols : Symbols) (l : ListingLine) : Except String ListingLine :=
  match l.inst with
  | none => .ok { l with word := none }
  | some i => (PlacedInst.word symbols i).map fun w ↦ { l with word := some w }

structure Program where
  words : Array UInt16
  symbols : Symbols
  lines : List ListingLine
deriving DecidableEq

inductive LinkFault
  | unknownLabel (name : String)
  /-- the next free cell is not the one that the line has as its address -/
  | misplaced
deriving DecidableEq

/-- Encodes a line and appends its word to the words before it. The words stay as they are if the
line holds no instruction or cannot be linked. -/
def linkLine (symbols : Symbols) (words : Array UInt16) (l : ListingLine) :
    Array UInt16 × Except LinkFault ListingLine :=
  match l.encode symbols with
  | .error name => (words, .error (.unknownLabel name))
  | .ok l =>
    match l.address, l.word with
    | some a, some w =>
      if a.toNat = words.size then (words.push w, .ok l) else (words, .error .misplaced)
    | _, _ => (words, .ok l)

/-- Links lines, one after another, to the words before them, under other symbols than those of
their program. A line that cannot be linked is left out. -/
def relink (symbols : Symbols) (words : Array UInt16) (lines : List ListingLine) :
    Array UInt16 × List (Except LinkFault ListingLine) :=
  sweep (linkLine symbols) words lines

/-- The image of program memory: the words, filled up with zeros. Words past the last cell are
dropped. -/
def programImage (words : Array UInt16) : Image UInt16 := Image.ofArray words

/-- One line of a listing: address and word of the instruction if there is one, then the source. -/
def ListingLine.text (l : ListingLine) : String :=
  let code := match l.address, l.word with
    | some a, some w => Numeral.address a.toNat ++ ": " ++ Numeral.hex 4 w.toNat
    | _, _ => Numeral.alignLeft 10 ""
  code ++ " | " ++ String.ofList (Text.trimEnd l.source.toList) ++ "\n"

/-- The listing of a program, one line per source line. -/
def listing (lines : List ListingLine) : String :=
  String.join (lines.map ListingLine.text)

def disassemblyFrom : (address : Nat) → List UInt16 → String
  | _, [] => ""
  | a, w :: ws =>
    Numeral.address a ++ ": " ++ disassemble w ++ "\n" ++ disassemblyFrom (a + 1) ws

def disassembly (words : Array UInt16) : String :=
  disassemblyFrom 0 words.toList

end SimtMachine.Assembly
