/-!
# Scripts

What a command does to the world: it prints, reads files and writes files, and each step may depend
on the answers to the steps before. A script says only this; whoever runs it decides what a file is.
-/

namespace SimtMachine

/-- A sequence of actions with a result. A file that cannot be read or written answers with the
cause of the failure. -/
inductive Script (α : Type)
  | done (a : α)
  | print (text : String) (next : Script α)
  | read (path : String) (next : Except String String → Script α)
  | write (path text : String) (next : Except String Unit → Script α)

namespace Script

variable {α β : Type}

def bind : Script α → (α → Script β) → Script β
  | done a, f => f a
  | print s next, f => print s (next.bind f)
  | read p next, f => read p fun r ↦ (next r).bind f
  | write p s next, f => write p s fun r ↦ (next r).bind f

instance : Monad Script where
  pure := done
  bind := bind

end Script

/-- The report of an error: a headline and its causes, the outermost first. -/
abbrev Report := List String

/-- Continuation lines of a text are indented. -/
def indentLines (indent : String) (text : String) : String :=
  String.join (text.toList.map fun c ↦ if c = '\n' then "\n" ++ indent else c.toString)

/-- The causes in the text of a report, numbered if there are several. -/
def causeTexts (causes : List String) : List String :=
  match causes with
  | [cause] => ["    " ++ indentLines "    " cause]
  | causes => causes.zipIdx.map fun (cause, i) ↦
      "    " ++ toString i ++ ": " ++ indentLines "       " cause

/-- The text of a report. -/
def Report.text : Report → String
  | [] => "Error: \n"
  | [headline] => "Error: " ++ headline ++ "\n"
  | headline :: causes =>
    "Error: " ++ headline ++ "\n\nCaused by:\n" ++ "\n".intercalate (causeTexts causes) ++ "\n"

/-- A script that may end early with a report. -/
abbrev Task := ExceptT Report Script

namespace Task

def print (text : String) : Task Unit := ExceptT.mk (.print text (.done (.ok ())))

/-- The text of a file. On failure the report begins with `headline`. -/
def read (headline path : String) : Task String :=
  ExceptT.mk (.read path fun
    | .ok text => .done (.ok text)
    | .error cause => .done (.error [headline, cause]))

def write (headline path text : String) : Task Unit :=
  ExceptT.mk (.write path text fun
    | .ok () => .done (.ok ())
    | .error cause => .done (.error [headline, cause]))

/-- Ends with the report of an error if there is one. -/
def ofExcept {ε α : Type} (report : ε → Report) : Except ε α → Task α
  | .ok a => pure a
  | .error e => throw (report e)

end Task

end SimtMachine
