/-! Severity of events. -/

namespace ScriptMachine

/-- Levels from the most to the least talkative. -/
inductive Level where
  | trace
  | debug
  | info
  | warn
  | error
  deriving DecidableEq, Repr

namespace Level

def all : List Level :=
  [.trace, .debug, .info, .warn, .error]

/-- The word for a level in a configuration. -/
def word : Level → String
  | .trace => "trace"
  | .debug => "debug"
  | .info => "info"
  | .warn => "warn"
  | .error => "error"

def ofWord? (s : String) : Option Level :=
  all.find? (·.word == s)

/-- The label of a level on an event. -/
def tag : Level → String
  | .trace => "TRACE"
  | .debug => "DEBUG"
  | .info => "INFO"
  | .warn => "WARN"
  | .error => "ERROR"

def severity : Level → Nat
  | .trace => 0
  | .debug => 1
  | .info => 2
  | .warn => 3
  | .error => 4

/-- A threshold admits events that are at least as severe. -/
def admits (threshold event : Level) : Bool :=
  decide (threshold.severity ≤ event.severity)

end Level

end ScriptMachine
