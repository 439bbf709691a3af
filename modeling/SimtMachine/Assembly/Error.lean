/-!
# Assembly errors
-/

namespace SimtMachine.Assembly

/-- Why a source text cannot be assembled. Places count from one. -/
inductive Error
  /-- the text is not well formed from this place on -/
  | malformed (row column : Nat)
  | tooManyInstructions (row : Nat)
  | labelPastEnd (row : Nat)
  | duplicateLabel (row : Nat) (name : String)
  | invalidRegister (row : Nat) (name : String)
  /-- a number of more than 64 bits -/
  | invalidNumber (row : Nat) (text : String)
  | immediateTooLarge (row value : Nat)
  | unknownLabel (row : Nat) (source name : String)
deriving DecidableEq

namespace Error

/-- The report of an error: a headline, followed by its cause if that is told apart. -/
def report : Error → List String
  | malformed r c =>
      ["fail to assemble", "fail to parse assembly", "at " ++ toString r ++ ":" ++ toString c]
  | tooManyInstructions r => ["line " ++ toString r ++ ": program exceeds 256 instructions"]
  | labelPastEnd r => ["line " ++ toString r ++ ": label past the end of program memory"]
  | duplicateLabel r l => ["line " ++ toString r ++ ": duplicate label `" ++ l ++ "`"]
  | invalidRegister r s => ["line " ++ toString r, "invalid register `" ++ s ++ "`"]
  | invalidNumber r s => ["line " ++ toString r, "invalid number `" ++ s ++ "`"]
  | immediateTooLarge r v =>
      ["line " ++ toString r, "immediate " ++ toString v ++ " does not fit in 8 bits"]
  | unknownLabel r s l =>
      ["line " ++ toString r ++ ": `" ++ s ++ "`", "unknown label `" ++ l ++ "`"]

end Error

end SimtMachine.Assembly
