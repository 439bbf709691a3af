import SimtMachine.Text.Literal

/-!
# Command line arguments

Options by a long name after two dashes, or by a letter after one. Letters may be joined, and a
value may follow its option directly, after an equals sign, or as the next argument; there it must
not look like an option. After two dashes alone, and wherever an argument does not begin with a
dash, it is a positional argument.
-/

namespace SimtMachine.Arguments

/-- What follows an option. -/
inductive Arity
  /-- nothing; the option may be repeated if `repeatable` -/
  | flag (repeatable : Bool)
  /-- a value of the form that `accepts` -/
  | value (accepts : String → Bool)

structure Setting (κ : Type) where
  key : κ
  short : Option Char
  long : String
  arity : Arity

/-- Why the arguments are not all read. -/
inductive Stop
  | usage
  | help
  | version
deriving DecidableEq

/-- The options given so far, with the values of those that have one, and the positional
arguments, oldest first. -/
structure Given (κ : Type) where
  options : List (κ × String)
  positionals : List String

structure Grammar (κ : Type) where
  options : List (Setting κ)
  positionals : Nat

variable {κ : Type} [DecidableEq κ]

namespace Given

def has (g : Given κ) (k : κ) : Bool := g.options.any fun o ↦ o.1 = k

/-- The value of an option that was given. -/
def value? (g : Given κ) (k : κ) : Option String :=
  (g.options.find? fun o ↦ o.1 = k).map Prod.snd

def count (g : Given κ) (k : κ) : Nat := g.options.countP fun o ↦ o.1 = k

/-- Adds an option. Only a repeatable flag may be given twice, and a value must be acceptable. -/
def add (g : Given κ) (o : Setting κ) (v : String) : Except Stop (Given κ) :=
  let ok := match o.arity with
    | .flag repeatable => repeatable || !g.has o.key
    | .value accepts => !g.has o.key && accepts v
  if ok then .ok { g with options := g.options ++ [(o.key, v)] } else .error .usage

/-- Adds a positional argument if there is room for one. -/
def addPositional (grammar : Grammar κ) (g : Given κ) (v : String) : Except Stop (Given κ) :=
  if g.positionals.length < grammar.positionals then
    .ok { g with positionals := g.positionals ++ [v] }
  else .error .usage

end Given

/-- What a read argument leaves to the next: nothing, or an option that waits for its value. -/
abbrev Waiting (κ : Type) := Option (Setting κ)

def readLetters (grammar : Grammar κ) (g : Given κ) :
    List Char → Except Stop (Given κ × Waiting κ)
  | [] => .ok (g, none)
  | 'h' :: _ => .error .help
  | 'V' :: _ => .error .version
  | c :: rest =>
    match grammar.options.find? fun o ↦ o.short = some c with
    | none => .error .usage
    | some o =>
      match o.arity, rest with
      | .flag _, _ => do readLetters grammar (← g.add o "") rest
      | .value _, [] => .ok (g, some o)
      | .value _, '=' :: v => (g.add o (String.ofList v)).map (·, none)
      | .value _, v => (g.add o (String.ofList v)).map (·, none)

/-- Reads a long name with an optional value after an equals sign. -/
def readLong (grammar : Grammar κ) (g : Given κ) (cs : List Char) :
    Except Stop (Given κ × Waiting κ) :=
  let name := String.ofList (cs.takeWhile (· ≠ '='))
  let value := match cs.dropWhile (· ≠ '=') with
    | _ :: v => some (String.ofList v)
    | [] => none
  if name = "help" then .error (if value.isNone then .help else .usage)
  else if name = "version" then .error (if value.isNone then .version else .usage)
  else match grammar.options.find? fun o ↦ o.long = name with
    | none => .error .usage
    | some o =>
      match o.arity, value with
      | .flag _, none => (g.add o "").map (·, none)
      | .flag _, some _ => .error .usage
      | .value _, none => .ok (g, some o)
      | .value _, some v => (g.add o v).map (·, none)

/-- Reads the arguments after the first ones, of which the last may wait for its value. -/
def readFrom (grammar : Grammar κ) :
    Given κ → Waiting κ → List String → Except Stop (Given κ)
  | g, none, [] => .ok g
  | _, some _, [] => .error .usage
  | g, waiting, arg :: args =>
    match waiting, arg.toList with
    | some _, ['-', '-'] => .error .usage
    | none, ['-', '-'] => args.foldlM (Given.addPositional grammar) g
    | some _, '-' :: _ :: _ => .error .usage
    | none, '-' :: '-' :: name => do
      let (g, waiting) ← readLong grammar g name
      readFrom grammar g waiting args
    | none, '-' :: c :: letters => do
      let (g, waiting) ← readLetters grammar g (c :: letters)
      readFrom grammar g waiting args
    | some o, _ => do readFrom grammar (← g.add o arg) none args
    | none, _ => do readFrom grammar (← g.addPositional grammar arg) none args

def read (grammar : Grammar κ) (args : List String) : Except Stop (Given κ) :=
  readFrom grammar ⟨[], []⟩ none args

/-- The value of a decimal number without sign, or with a plus sign, if 64 bits hold it. -/
def natural? (s : String) : Option Nat := Literal.unsigned? 10 s.toList

/-- The value of a decimal number that is a byte. Zero may have a minus sign. -/
def byte? (s : String) : Option UInt8 :=
  let n := match s.toList with
    | '-' :: ds => (Literal.digits? 10 ds).filter (· = 0)
    | _ => natural? s
  (n.filter (· < 256)).map UInt8.ofNat

end SimtMachine.Arguments
