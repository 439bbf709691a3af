import SimtMachine.Command.Arguments
import SimtMachine.Command.Script

/-!
# How commands end

A command exits with code 0 if all went well, with code 1 and a report if its task failed, and with
code 2 if its arguments are wrong.
-/

namespace SimtMachine

structure Exit where
  code : Nat
  report : Option Report
deriving DecidableEq

namespace Exit

def success : Exit := ⟨0, none⟩

def failure (r : Report) : Exit := ⟨1, some r⟩

def usage : Exit := ⟨2, none⟩

end Exit

namespace Command

def versionText : String := "simt-sim 0.1.0\n"

/-- The options for the verbosity of the log, which every command has. -/
def verbosityOptions {κ : Type} (verbose quiet : κ) : List (Arguments.Setting κ) :=
  [⟨verbose, some 'v', "verbose", .flag true⟩, ⟨quiet, some 'q', "quiet", .flag true⟩]

/-- A task as a script that ends with an exit. -/
def runTask (t : Task Unit) : Script Exit := do
  match ← t.run with
  | .ok () => return .success
  | .error r => return .failure r

/-- Runs a command on its arguments. Here `usage` is the help text and `interpret` makes a task of
the arguments, unless they are wrong. -/
def run {κ : Type} [DecidableEq κ] (grammar : Arguments.Grammar κ) (help : String)
    (interpret : Arguments.Given κ → Option (Task Unit)) (args : List String) : Script Exit :=
  match Arguments.read grammar args with
  | .error .usage => .done .usage
  | .error .help => .print help (.done .success)
  | .error .version => .print versionText (.done .success)
  | .ok given =>
    match interpret given with
    | none => .done .usage
    | some task => runTask task

end Command

end SimtMachine
