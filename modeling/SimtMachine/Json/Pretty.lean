import SimtMachine.Text.Numeral

/-!
# Indented JSON

A JSON document laid out with one element or member per line and two blanks per level. An empty
array or object stays on its line.
-/

namespace SimtMachine.Json

/-- The JSON values that reports are made of. -/
inductive Value
  | number (n : Nat)
  | string (s : String)
  | array (items : List Value)
  | object (members : List (String × Value))

def escape (c : Char) : String :=
  if c = '"' then "\\\""
  else if c = '\\' then "\\\\"
  else if c = '\n' then "\\n"
  else if c = '\r' then "\\r"
  else if c = '\t' then "\\t"
  else if c.toNat = 8 then "\\b"
  else if c.toNat = 12 then "\\f"
  else if c.toNat < 32 then "\\u" ++ Numeral.hex 4 c.toNat
  else c.toString

def quote (s : String) : String :=
  "\"" ++ String.join (s.toList.map escape) ++ "\""

/-- A line break and the indentation of a level. -/
def newline (level : Nat) : String :=
  "\n" ++ String.ofList (List.replicate (2 * level) ' ')

/-- The parts of an array or object of the given level between its brackets. -/
def enclose (level : Nat) (opening closing : String) (parts : List String) : String :=
  if parts.isEmpty then opening ++ closing
  else
    opening ++ newline (level + 1) ++ ("," ++ newline (level + 1)).intercalate parts ++
      newline level ++ closing

mutual

/-- The text of a value whose first line is indented to the given level. -/
def Value.pretty (level : Nat) : Value → String
  | .number n => toString n
  | .string s => quote s
  | .array items => enclose level "[" "]" (Value.prettyItems (level + 1) items)
  | .object members => enclose level "\x7b" "\x7d" (Value.prettyMembers (level + 1) members)

/-- The texts of the elements of an array. -/
def Value.prettyItems (level : Nat) : List Value → List String
  | [] => []
  | v :: vs => v.pretty level :: Value.prettyItems level vs

/-- The texts of the members of an object. -/
def Value.prettyMembers (level : Nat) : List (String × Value) → List String
  | [] => []
  | (k, v) :: ms => (quote k ++ ": " ++ v.pretty level) :: Value.prettyMembers level ms

end

end SimtMachine.Json
