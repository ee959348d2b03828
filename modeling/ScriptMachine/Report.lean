import ScriptMachine.Assembler.Basic
import ScriptMachine.Config.Basic
import ScriptMachine.Machine.Basic

/-! Failures of every phase, and the reports that tools and users get about them. -/

namespace ScriptMachine

/-- All that can go wrong between a configuration and the end of a run. -/
inductive Failure where
  | exception (e : Exception) (trace : Backtrace)
  | fault (f : Fault) (trace : Backtrace)
  | assembly (e : AssemblyError)
  | config (e : ConfigError)
  | scope (e : ScopeError)

namespace Failure

/-- The value of a run that returned one, or how it failed. -/
def ofOutcome : Outcome → Except Failure Value
  | .value v => .ok v
  | .exception e trace => .error (.exception e trace)
  | .fault f trace => .error (.fault f trace)

def phase : Failure → String
  | .exception .. | .fault .. => "runtime"
  | .assembly _ => "compiler"
  | .config _ => "config"
  | .scope _ => "setup"

/-- The name under which tools look a failure up. -/
def name : Failure → String
  | .exception e _ => if e.isPanic then "Panic" else "Exception"
  | .fault f _ => f.name
  | .assembly e => e.name
  | .config e => e.name
  | .scope e => e.name

def message : Failure → String
  | .exception e _ => e.message
  | .fault f _ => f.message
  | .assembly e => e.message
  | .config e => e.message
  | .scope e => e.message

/-- The failure in one line. -/
def text : Failure → String
  | .exception e _ => e.text
  | .fault f _ => "Fatal error: " ++ f.message
  | .assembly e => "Compile error: " ++ e.message
  | .config e => "Config error: " ++ e.message
  | .scope e => "Environment error: " ++ e.message

/-- The frames that were active; only failures of a run have any. -/
def trace? : Failure → Option Backtrace
  | .exception _ trace | .fault _ trace => some trace
  | _ => none

end Failure

/-! ### Reports -/

structure Report where
  phase : String
  name : String
  message : String
  trace : Backtrace

namespace Report

def ofFailure (f : Failure) : Report :=
  ⟨f.phase, f.name, f.message, f.trace?.getD []⟩

/-- The report for a terminal: a heading, and a line for each frame. -/
def text (r : Report) : String :=
  "[" ++ r.phase ++ "] " ++ r.name ++ ": " ++ r.message
    ++ String.join (r.trace.map fun e => "\n" ++ Backtrace.entryText e)

def short (r : Report) : String :=
  r.phase ++ ": " ++ r.message

def entryDocument (e : TraceEntry) : Json :=
  .object [
    ("name".toList, .ofString e.name),
    ("filename".toList, .ofString e.filename),
    ("offset".toList, .ofNat e.offset)]

/-- The report for a tool. A report without frames does not mention them. -/
def document (r : Report) : Json :=
  let trace :=
    if r.trace.isEmpty then []
    else [("backtrace".toList, Json.array (r.trace.map entryDocument))]
  .object ([
    ("phase".toList, .ofString r.phase),
    ("error_kind".toList, .ofString r.name),
    ("message".toList, .ofString r.message)] ++ trace)

def json (r : Report) : String :=
  String.ofList r.document.compact

end Report

end ScriptMachine
