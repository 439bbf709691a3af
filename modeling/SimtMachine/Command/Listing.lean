import SimtMachine.Assembly.Assembler
import SimtMachine.Command.Exit

/-!
# The assembler command

Assembles a kernel and writes its listing, or the disassembly of its words, to a file beside it.
-/

namespace SimtMachine.Command.Listing

open Arguments (Grammar Given)

inductive Key
  | output | disasm | verbose | quiet
deriving DecidableEq

def grammar : Grammar Key where
  options :=
    [⟨.output, some 'o', "output", .value fun _ ↦ true⟩, ⟨.disasm, none, "disasm", .flag false⟩] ++
      verbosityOptions .verbose .quiet
  positionals := 1

structure Request where
  input : String
  output : Option String
  /-- whether to write the disassembly instead of the listing -/
  disasm : Bool

/-- The request that arguments make. The kernel must be given, and the log cannot be made more and
less verbose at once. -/
def request? (g : Given Key) : Option Request := do
  if g.has .verbose && g.has .quiet then none
  else return {
    input := ← g.positionals.head?
    output := g.value? .output
    disasm := g.has .disasm }

/-- A path, in reverse, without the separators and the references to the directory itself at its
end. -/
def dropTrailing : List Char → List Char
  | '/' :: rest => dropTrailing rest
  | '.' :: '/' :: rest => dropTrailing rest
  | path => path

/-- A file name, in reverse, without its extension: what follows the last dot, unless the name
begins with that dot. -/
def dropExtension (name : List Char) : List Char :=
  match name.dropWhile (· ≠ '.') with
  | '.' :: stem => if stem.isEmpty then name else stem
  | _ => name

/-- The path with the extension of its file replaced. A path that does not end in the name of a
file stays as it is. -/
def withExtension (extension path : String) : String :=
  let reversed := dropTrailing path.toList.reverse
  let name := reversed.takeWhile (· ≠ '/')
  if name = [] ∨ name = ['.'] ∨ name = ['.', '.'] then path
  else
    String.ofList ((dropExtension name ++ reversed.dropWhile (· ≠ '/')).reverse) ++ "." ++ extension

def Request.task (r : Request) : Task Unit := do
  let source ← Task.read ("could not read file `" ++ r.input ++ "`") r.input
  let program ← Task.ofExcept Assembly.Error.report (Assembly.assemble source)
  let path := r.output.getD (withExtension "lst" r.input)
  let text := if r.disasm then Assembly.disassembly program.words
    else Assembly.listing program.lines
  Task.write ("could not write file `" ++ path ++ "`") path text
  Task.print ("writing to file `" ++ path ++ "`\n")

def help : String :=
  "Assembler for the kernel language\n\nUsage: sas [OPTIONS] <INPUT>\n"

def command (args : List String) : Script Exit :=
  run grammar help (fun g ↦ (request? g).map Request.task) args

end SimtMachine.Command.Listing
