/-!
# Verbosity

How much of a log is shown. Each step of verbosity unlocks one more level; with none, errors are
shown.
-/

namespace SimtMachine

/-- The levels of a log, the most important first. -/
inductive LogLevel
  | error | warn | info | debug | trace
deriving DecidableEq

namespace LogLevel

def all : List LogLevel := [error, warn, info, debug, trace]

def title : LogLevel → String
  | error => "Error"
  | warn => "Warn"
  | info => "Info"
  | debug => "Debug"
  | trace => "Trace"

def name : LogLevel → String
  | error => "ERROR"
  | warn => "WARN"
  | info => "INFO"
  | debug => "DEBUG"
  | trace => "TRACE"

/-- The least important level that is shown at a verbosity. -/
def shown : Option LogLevel → LogLevel
  | none => error
  | some error => warn
  | some warn => info
  | some info => debug
  | some debug => trace
  | some trace => trace

end LogLevel

end SimtMachine
