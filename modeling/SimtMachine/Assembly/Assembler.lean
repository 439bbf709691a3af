import SimtMachine.Assembly.Error
import SimtMachine.Assembly.Program
import SimtMachine.Assembly.Refusal
import SimtMachine.Assembly.SourceText
import SimtMachine.Text.Literal

/-!
# Assembler

A source text becomes a program in four passes over its lines: reading them, placing the
instructions at consecutive addresses, collecting the labels, and encoding. Each pass goes from the
first line to the last and stops at the first error, so an error of an earlier pass wins.
-/

namespace SimtMachine.Assembly

/-- A line as written, with the row that reports give it. -/
structure NumberedLine where
  row : Nat
  line : Line
deriving DecidableEq

def readLine (l : PlacedLine) : Except Error NumberedLine :=
  match Line.read? l.text with
  | some line => .ok ⟨l.row, line⟩
  | none => .error (.malformed l.row (l.column + (l.text.length - refusal l.text)))

def read (text : List Char) : Except Error (List NumberedLine) :=
  (placedLines text).mapM readLine

def registerNumber (row : Nat) : RegisterName → Except Error Reg
  | .special r => .ok r
  | .general letter digits =>
    match Literal.unsigned? 10 digits with
    | some n => if h : n < 16 then .ok ⟨n, h⟩ else refuse letter digits
    | none => refuse letter digits
where
  refuse (letter : Char) (digits : List Char) : Except Error Reg :=
    .error (.invalidRegister row (String.ofList (letter :: digits)))

/-- The value of an immediate that is written as a number, or the label that stands for it. -/
def immediateValue (row : Nat) : Operand → Except Error Immediate
  | .label name => .ok (.label (String.ofList name))
  | .number text =>
    match Literal.read? text with
    | none => .error (.invalidNumber row (String.ofList text))
    | some v =>
      if v < 256 then .ok (.value (UInt8.ofNat v)) else .error (.immediateTooLarge row v)

/-- A line whose instruction has its address. -/
structure PlacedSource where
  row : Nat
  here : Nat
  label : Option String
  inst : Option PlacedInst
  source : String
deriving DecidableEq

/-- Places one line, where `here` instructions come before it. -/
def placeLine (here : Nat) (l : NumberedLine) : Except Error PlacedSource := do
  let label := l.line.label.map String.ofList
  let source := String.ofList l.line.source
  match l.line.inst with
  | some i =>
    if here ≥ addressSpace then throw (.tooManyInstructions l.row)
    let inst ← i.resolve (registerNumber l.row) (immediateValue l.row)
    return ⟨l.row, here, label, some inst, source⟩
  | none =>
    if label.isSome && here ≥ addressSpace then throw (.labelPastEnd l.row)
    return ⟨l.row, here, label, none, source⟩

/-- Places lines, where `here` instructions come before them. -/
def place : (here : Nat) → List NumberedLine → Except Error (List PlacedSource)
  | _, [] => .ok []
  | here, l :: ls => do
    let p ← placeLine here l
    let ps ← place (if p.inst.isSome then here + 1 else here) ls
    return p :: ps

/-- Adds the labels of lines to those already known. A label stands for the first instruction on or
after its line. -/
def collect : Symbols → List PlacedSource → Except Error Symbols
  | known, [] => .ok known
  | known, l :: ls =>
    match l.label with
    | none => collect known ls
    | some name =>
      if (known.lookup name).isSome then .error (.duplicateLabel l.row name)
      else collect (known ++ [(name, UInt8.ofNat l.here)]) ls

/-- The listing line of a placed line, still without its word. -/
def PlacedSource.toListing (l : PlacedSource) : ListingLine where
  address := l.inst.map fun _ ↦ UInt8.ofNat l.here
  inst := l.inst
  label := l.label
  word := none
  source := l.source

def encodeLine (symbols : Symbols) (l : PlacedSource) : Except Error ListingLine :=
  (l.toListing.encode symbols).mapError fun name ↦
    .unknownLabel l.row (String.ofList (Text.trim l.source.toList)) name

/-- Assembles a source text. -/
def assemble (text : String) : Except Error Program := do
  let lines ← read text.toList
  let placed ← place 0 lines
  let symbols ← collect [] placed
  let lines ← placed.mapM (encodeLine symbols)
  return ⟨(lines.filterMap ListingLine.word).toArray, symbols, lines⟩

end SimtMachine.Assembly
