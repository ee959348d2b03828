import ScriptMachine.Config.Basic

/-! Configurations as JSON documents. -/

namespace ScriptMachine

/-! ### Reading -/

namespace Json

/-- A level by its word, or as an object with that word as its only key and null under it. -/
def level? : Json → Option Level
  | .object [(key, .null)] => do Level.ofWord? (String.ofList (← decode? key))
  | j => do Level.ofWord? (← j.text?)

/-- Null, or a level. -/
def optionalLevel? : Json → Option (Option Level)
  | .null => some none
  | j => j.level?.map some

/-- A number of 64 bits without sign. -/
def limit? (j : Json) : Option Nat := do
  let n ← j.nat?
  if n < UInt64.size then some n else none

def logConfig? (j : Json) : Option LogConfig := do
  let fields ← j.record? ["global", "compiler", "vm"]
  return {
    global := ← field fields "global" .info level?
    compiler := ← field fields "compiler" none optionalLevel?
    vm := ← field fields "vm" none optionalLevel? }

def limits? (j : Json) : Option Limits := do
  let fields ← j.record? ["max_stack_size", "max_recursion_depth"]
  return {
    maxStackSize := ← field fields "max_stack_size" 1024 limit?
    maxRecursionDepth := ← field fields "max_recursion_depth" 256 limit? }

def machineLimits? (j : Json) : Option Limits := do
  let fields ← j.record? ["limits"]
  field fields "limits" {} limits?

def debugInfo? (j : Json) : Option Bool := do
  let fields ← j.record? ["emit_debug_info"]
  field fields "emit_debug_info" true bool?

def config? (j : Json) : Option Config := do
  let fields ← j.record? ["log", "vm", "compiler"]
  return {
    log := ← field fields "log" {} logConfig?
    limits := ← field fields "vm" {} machineLimits?
    debugInfo := ← field fields "compiler" true debugInfo? }

end Json

namespace Config

/-- Reads a configuration. Fields that the document leaves out have their defaults. -/
def parse (s : String) : Except ConfigError Config :=
  match (Json.parse? s).bind Json.config? with
  | none => .error .malformed
  | some c =>
    match c.limits.invalid? with
    | some limit => .error (.invalidLimit limit)
    | none => .ok c

/-! ### Writing -/

def levelDocument (l : Level) : Json :=
  .text l.word.toList

def optionalDocument (l : Option Level) : Json :=
  l.elim .null levelDocument

/-- Every field, in the order of their definition. -/
def document (c : Config) : Json :=
  .object [
    ("log".toList, .object [
      ("global".toList, levelDocument c.log.global),
      ("compiler".toList, optionalDocument c.log.compiler),
      ("vm".toList, optionalDocument c.log.vm)]),
    ("vm".toList, .object [
      ("limits".toList, .object [
        ("max_stack_size".toList, .ofNat c.limits.maxStackSize),
        ("max_recursion_depth".toList, .ofNat c.limits.maxRecursionDepth)])]),
    ("compiler".toList, .object [
      ("emit_debug_info".toList, .bool c.debugInfo)])]

def print (c : Config) : String :=
  String.ofList (Json.pretty 0 c.document)

end Config

end ScriptMachine
