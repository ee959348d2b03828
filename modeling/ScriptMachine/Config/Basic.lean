import ScriptMachine.Limits
import ScriptMachine.Log.Level
import ScriptMachine.Json.Parse
import ScriptMachine.Json.Print

/-! Configuration: limits of the machine, levels of the log, options of the assembler. -/

namespace ScriptMachine

/-- Levels of the log. A phase without a level of its own has the global one. -/
structure LogConfig where
  global : Level := .info
  compiler : Option Level := none
  vm : Option Level := none
  deriving DecidableEq, Repr

structure Config where
  log : LogConfig := {}
  limits : Limits := {}
  /-- Whether blocks tell the file they come from. -/
  debugInfo : Bool := true
  deriving DecidableEq, Repr

/-! ### Phases -/

inductive Phase where
  | compiler
  | vm
  deriving DecidableEq, Repr

namespace Phase

def word : Phase → String
  | .compiler => "compiler"
  | .vm => "vm"

/-- The target of the events of a phase. -/
def target (p : Phase) : String :=
  "azote::" ++ p.word

end Phase

namespace LogConfig

def level (c : LogConfig) : Phase → Level
  | .compiler => c.compiler.getD c.global
  | .vm => c.vm.getD c.global

/-- The threshold for events of a target. Targets within that of a phase belong to the phase. -/
def threshold (c : LogConfig) (target : String) : Level :=
  match [Phase.compiler, .vm].find? fun p => p.target.isPrefixOf target with
  | some p => c.level p
  | none => c.global

/-- Whether events of a level and a target are kept. -/
def enables (c : LogConfig) (target : String) (level : Level) : Bool :=
  (c.threshold target).admits level

end LogConfig

/-! ### Errors -/

inductive ConfigError where
  | malformed
  | invalidLimit (limit : LimitName)
  deriving DecidableEq, Repr

namespace ConfigError

def message : ConfigError → String
  | .malformed => "invalid config document"
  | .invalidLimit limit => "invalid limit `" ++ limit.word ++ "`: must be at least 1"

def name : ConfigError → String
  | .malformed => "ConfigParse"
  | .invalidLimit _ => "InvalidLimit"

end ConfigError

end ScriptMachine
