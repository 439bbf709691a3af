import SimtMachine.Device.Config
import SimtMachine.Json.Scalar
import SimtMachine.Number.Shortest
import SimtMachine.Text.Quoted

/-!
# Configuration files

A configuration as a JSON text: an object with any of the fields by name, each at most once, or an
array with the fields in their order. Fields that are not given have the value of the standard
configuration. The text is read from left to right and the first fault is reported, be it malformed
JSON or a value that does not fit its field.
-/

namespace SimtMachine.ConfigText

open Json

/-- What a value is expected to be. -/
inductive Expected
  | config
  | size
  | byte
  | count
  | flag
deriving DecidableEq

def Expected.text : Expected → String
  | config => "struct GpuConfig"
  | size => "usize"
  | byte => "u8"
  | count => "u64"
  | flag => "a boolean"

inductive Field
  | coreCount | threadsPerBlock | dataChannels | programChannels
  | dataInterval | programInterval | maxCycles | traceStages
deriving DecidableEq

namespace Field

def all : List Field :=
  [coreCount, threadsPerBlock, dataChannels, programChannels, dataInterval, programInterval,
    maxCycles, traceStages]

def name : Field → String
  | coreCount => "core_count"
  | threadsPerBlock => "threads_per_block"
  | dataChannels => "data_channels"
  | programChannels => "program_channels"
  | dataInterval => "data_interval"
  | programInterval => "program_interval"
  | maxCycles => "max_cycles"
  | traceStages => "trace_stages"

def ofName? (s : String) : Option Field := all.find? fun f ↦ f.name == s

def expected : Field → Expected
  | coreCount | dataChannels | programChannels => .size
  | threadsPerBlock => .byte
  | dataInterval | programInterval | maxCycles => .count
  | traceStages => .flag

end Field

/-- Why a well-formed text is no configuration. -/
inductive Misfit
  | invalidType (found : Head) (expected : Expected)
  | invalidValue (found : Int) (expected : Expected)
  | unknownField (name : String)
  | duplicateField (f : Field)
deriving DecidableEq

def describe : Head → String
  | .array => "sequence"
  | .object => "map"
  | .scalar .null => "null"
  | .scalar (.bool b) => "boolean `" ++ (if b then "true" else "false") ++ "`"
  | .scalar (.integer n) => "integer `" ++ toString n ++ "`"
  | .scalar (.float negative x) =>
      "floating point `" ++ (if negative then "-" else "") ++ x.text ++ "`"
  | .scalar (.string s) => "string " ++ Text.quote s

def Misfit.message : Misfit → String
  | invalidType found e => "invalid type: " ++ describe found ++ ", expected " ++ e.text
  | invalidValue n e => "invalid value: integer `" ++ toString n ++ "`, expected " ++ e.text
  | unknownField name =>
      "unknown field `" ++ name ++ "`, expected one of " ++
        ", ".intercalate (Field.all.map fun f ↦ "`" ++ f.name ++ "`")
  | duplicateField f => "duplicate field `" ++ f.name ++ "`"

/-- A fault, with the rest of the text at the place where it is reported. -/
inductive Fault
  | malformed (rest : List Char)
  | misfit (m : Misfit) (rest : List Char)
deriving DecidableEq

def natural (max : Nat) (e : Expected) : Scalar → Except Misfit Nat
  | .integer n =>
    if 0 ≤ n ∧ n ≤ max then .ok n.toNat else .error (.invalidValue n e)
  | s => .error (.invalidType (.scalar s) e)

/-- The greatest number of 64 bits. -/
def maxCount : Nat := Nat.pow 2 64 - 1

/-- The configuration with the given value in a field. -/
def Field.store (f : Field) (c : Config) (s : Scalar) : Except Misfit Config :=
  match f with
  | .coreCount => (natural maxCount f.expected s).map fun n ↦ { c with coreCount := n }
  | .threadsPerBlock =>
    (natural 255 f.expected s).map fun n ↦ { c with threadsPerBlock := UInt8.ofNat n }
  | .dataChannels => (natural maxCount f.expected s).map fun n ↦ { c with dataChannels := n }
  | .programChannels => (natural maxCount f.expected s).map fun n ↦ { c with programChannels := n }
  | .dataInterval => (natural maxCount f.expected s).map fun n ↦ { c with dataInterval := n }
  | .programInterval => (natural maxCount f.expected s).map fun n ↦ { c with programInterval := n }
  | .maxCycles => (natural maxCount f.expected s).map fun n ↦ { c with maxCycles := n }
  | .traceStages =>
    match s with
    | .bool b => .ok { c with traceStages := b }
    | s => .error (.invalidType (.scalar s) f.expected)

def readValue (f : Field) (c : Config) (cs : List Char) : Except Fault (Config × List Char) :=
  let cs := skipSpace cs
  match head? cs with
  | none => .error (.malformed cs)
  | some (.scalar s, rest) =>
    match f.store c s with
    | .ok c => .ok (c, rest)
    | .error m => .error (.misfit m rest)
  | some (h, rest) => .error (.misfit (.invalidType h f.expected) rest)

/-- Where a misfit of a field's name is reported: at the next part of the text, or behind it if it
ends the object. -/
def afterName (cs : List Char) : List Char :=
  match skipSpace cs with
  | '\x7d' :: rest => rest
  | rest => rest

/-- Reads the name of a field that is not among those `seen`, and the colon after it. -/
def readName (seen : List Field) (cs : List Char) : Except Fault (Field × List Char) :=
  match string? cs with
  | none => .error (.malformed cs)
  | some (name, rest) =>
    match Field.ofName? name with
    | none => .error (.misfit (.unknownField name) (afterName rest))
    | some f =>
      if f ∈ seen then .error (.misfit (.duplicateField f) (afterName rest))
      else match skipSpace rest with
        | ':' :: rest => .ok (f, rest)
        | rest => .error (.malformed rest)

/-- Reads the members of an object up to its closing brace. The text holds at most `fuel`
members. -/
def readMembers : (fuel : Nat) → (seen : List Field) → Config → List Char →
    Except Fault (Config × List Char)
  | 0, _, _, cs => .error (.malformed cs)
  | fuel + 1, seen, c, cs =>
    match skipSpace cs with
    | '\x7d' :: rest => .ok (c, rest)
    | cs =>
      let start : Except Fault (List Char) :=
        if seen.isEmpty then .ok cs
        else match cs with
          | ',' :: rest => .ok (skipSpace rest)
          | _ => .error (.malformed cs)
      do
        let (f, rest) ← readName seen (← start)
        let (c, rest) ← readValue f c rest
        readMembers fuel (f :: seen) c rest

/-- Reads the elements of an array up to its closing bracket: the values of the given fields, or of
the first of them. -/
def readElements : (first : Bool) → List Field → Config → List Char →
    Except Fault (Config × List Char)
  | first, fields, c, cs =>
    match skipSpace cs, fields with
    | ']' :: rest, _ => .ok (c, rest)
    | cs, [] => .error (.malformed cs)
    | cs, f :: fields => do
      let rest ←
        if first then .ok cs
        else match cs with
          | ',' :: rest => .ok (skipSpace rest)
          | _ => .error (.malformed cs)
      let (c, rest) ← readValue f c rest
      readElements false fields c rest

/-- Reads a configuration from the beginning of a text. -/
def readConfig (cs : List Char) : Except Fault (Config × List Char) :=
  match skipSpace cs with
  | '\x7b' :: rest => readMembers (rest.length + 1) [] .standard rest
  | '[' :: rest => readElements true Field.all .standard rest
  | cs =>
    match head? cs with
    | none => .error (.malformed cs)
    | some (h, rest) => .error (.misfit (.invalidType h .config) rest)

/-- A place in a text: the line, and how many bytes of it come before the place. -/
structure Place where
  line : Nat
  column : Nat
deriving DecidableEq

/-- The place after the given text. -/
def placeAfter (read : List Char) : Place :=
  let lastLine := read.reverse.takeWhile (· ≠ '\n')
  ⟨read.count '\n' + 1, lastLine.foldl (fun n c ↦ n + c.utf8Size) 0⟩

/-- Why a text gives no configuration of a device. -/
inductive Error
  | malformed (p : Place)
  | misfit (m : Misfit) (p : Place)
  | defect (d : Config.Defect)
deriving DecidableEq

def Place.text (p : Place) : String :=
  " at line " ++ toString p.line ++ " column " ++ toString p.column

/-- The report of an error: a headline, followed by its cause if that is told apart. -/
def Error.report : Error → List String
  | malformed p => ["invalid configuration", "malformed JSON" ++ p.text]
  | misfit m p => ["invalid configuration", m.message ++ p.text]
  | defect d => [d.message]

/-- Reads a configuration for which there is a device. -/
def read (text : String) : Except Error Config :=
  let cs := text.toList
  let place (rest : List Char) : Place := placeAfter (cs.take (cs.length - rest.length))
  match readConfig cs with
  | .error (.malformed rest) => .error (.malformed (place rest))
  | .error (.misfit m rest) => .error (.misfit m (place rest))
  | .ok (c, rest) =>
    if (skipSpace rest).isEmpty then
      match c.defect? with
      | none => .ok c
      | some d => .error (.defect d)
    else .error (.malformed (place rest))

end SimtMachine.ConfigText
