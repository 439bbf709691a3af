import SimtMachine.Command.Directory
import SimtMachine.Command.Listing
import SimtMachine.Command.Simulate

/-!
# The program

Two commands in one program: the simulator `simt` and the assembler `sas`. The first argument names
the command.
-/

namespace SimtMachine

/-- The cause of a failed access to a file, in the words of the system. -/
def failureCause : IO.Error → String
  | .noFileOrDirectory .. => Directory.notFound
  | .permissionDenied .. => "Permission denied (os error 13)"
  | .inappropriateType _ code _ =>
    if code = 21 then Directory.isDirectory else Directory.notDirectory
  | .invalidArgument _ 36 _ => Directory.nameTooLong
  | .resourceExhausted _ 28 _ => Directory.noSpace
  | .userError _ => "stream did not contain valid UTF-8"
  | e => toString e

/-- Runs a script on the file system. -/
def perform {α : Type} : Script α → IO α
  | .done a => return a
  | .print text next => do
    IO.print text
    perform next
  | .read path next => do
    let answer ← try
        let text ← IO.FS.readFile path
        pure (.ok text)
      catch e => pure (.error (failureCause e))
    perform (next answer)
  | .write path text next => do
    let answer ← try
        IO.FS.writeFile path text
        pure (.ok ())
      catch e => pure (.error (failureCause e))
    perform (next answer)

end SimtMachine

open SimtMachine

/-- Runs the command that the first argument names on the other arguments. -/
def main (args : List String) : IO UInt32 := do
  let script := match args with
    | "simt" :: args => Command.Simulate.command args
    | "sas" :: args => Command.Listing.command args
    | _ => .done .usage
  let exit ← perform script
  if let some r := exit.report then IO.eprint r.text
  return UInt32.ofNat exit.code
