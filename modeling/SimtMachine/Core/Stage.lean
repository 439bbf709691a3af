import SimtMachine.Text.Ansi
import SimtMachine.Text.Numeral

/-!
# Pipeline stages

An instruction passes the stages from fetch to update; a context is idle before its first
instruction and done after its last.
-/

namespace SimtMachine

/-- Where a context stands in its current instruction. -/
inductive Stage
  | idle | fetch | decode | request | wait | execute | update | done
deriving DecidableEq

namespace Stage

instance : Inhabited Stage := ⟨idle⟩

/-- The stages in pipeline order. -/
def all : List Stage :=
  [idle, fetch, decode, request, wait, execute, update, done]

def name : Stage → String
  | idle => "IDLE"
  | fetch => "FETCH"
  | decode => "DECODE"
  | request => "REQUEST"
  | wait => "WAIT"
  | execute => "EXECUTE"
  | update => "UPDATE"
  | done => "DONE"

def title : Stage → String
  | idle => "Idle"
  | fetch => "Fetch"
  | decode => "Decode"
  | request => "Request"
  | wait => "Wait"
  | execute => "Execute"
  | update => "Update"
  | done => "Done"

/-- How a stage is coloured on a terminal. -/
def style : Stage → Ansi.Style
  | idle => .dim .white
  | fetch => .plain .blue
  | decode => .plain .cyan
  | request => .plain .yellow
  | wait => .bold .red
  | execute => .plain .green
  | update => .plain .purple
  | done => .bold .white

/-- The coloured name of a stage in a column of seven characters. -/
def display (s : Stage) : String :=
  s.style.paint (Numeral.alignLeft 7 s.name)

end Stage

end SimtMachine
