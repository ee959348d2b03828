import ScriptMachine.Code.Listing
import ScriptMachine.Config.Document
import ScriptMachine.Machine.Host
import ScriptMachine.Prelude
import ScriptMachine.Report

/-! Interpreters: the prelude in a scope of its own, captured output, failures as one type. -/

namespace ScriptMachine

/-! ### Settings -/

structure Settings where
  /-- Whether the listing of a block is reported before it runs. -/
  dumpListing : Bool := false
  /-- Whether the scope of a run is reported after it. -/
  dumpScope : Bool := false
  debugInfo : Bool := true
  limits : Limits := {}
  deriving DecidableEq, Repr

namespace Settings

def ofConfig (c : Config) : Settings :=
  { debugInfo := c.debugInfo, limits := c.limits }

def parse (s : String) : Except ConfigError Settings :=
  (Config.parse s).map ofConfig

end Settings

/-- Settings for a whole program, which are fixed when they are first given or asked for. -/
abbrev SharedSettings := Option Settings

namespace SharedSettings

/-- The shared settings, the default ones if none were given before. -/
def get (s : SharedSettings) : Settings × SharedSettings :=
  let settings := s.getD {}
  (settings, some settings)

/-- Gives the settings unless there are some, in which case it answers the refused ones. -/
def init (s : SharedSettings) (settings : Settings) : Except Settings SharedSettings :=
  match s with
  | none => .ok (some settings)
  | some _ => .error settings

end SharedSettings

/-! ### Assembling -/

namespace Machine

/-- Finishes a block, reports it and keeps it. -/
def build (m : Machine) (a : Assembler) : Except AssemblyError (CodeId × Machine) := do
  let b ← a.build
  let m := m.report
    (.blockBuilt b.name b.code.size b.constants.size b.maxStack b.maxBlocks)
  let (id, store) := m.store.addBlock b
  return (id, { m with store })

end Machine

/-! ### Interpreters -/

structure Interpreter where
  globals : ScopeId
  /-- Where its `print` writes. -/
  output : Nat
  settings : Settings

/-- The result of a run: the value and all that was printed. -/
structure Execution where
  value : Value
  printed : String

namespace Interpreter

/-- A new interpreter with a global scope that holds the prelude. -/
def create (settings : Settings) (m : Machine) : Except ScopeError (Interpreter × Machine) := do
  let (globals, scopes) := m.store.scopes.newRoot
  let (output, store) := { m.store with scopes }.newOutput
  let m ← { m with store }.registerAll globals (Prelude.natives output)
  return ({ globals, output, settings }, m)

/-- Reports the listing of a block, a line at a time. -/
def reportListing (code : CodeBlock) (m : Machine) : Machine :=
  match m.store.listing code with
  | .ok text => (Text.lines text).foldl (fun m line => m.report (.listed line)) m
  | .error f => m.report (.listingFailed f)

/-- What happens before the first step of a run. -/
def prepare (i : Interpreter) (code : CodeBlock) (m : Machine) : Machine :=
  let m := { m with limits := i.settings.limits }.report (.executionStarted code.name)
  if i.settings.dumpListing then reportListing code m else m

/-- What happens after the last step of a run. The output is taken even if the run failed. -/
def conclude (i : Interpreter) (e : ScopeId) (o : Outcome) (m : Machine) :
    Except Failure Execution × Machine :=
  let m := if i.settings.dumpScope then m.report (.scopeDumped (m.store.dump e 0)) else m
  let (printed, store) := m.store.takeOutput i.output
  let m := { m with store }
  match Failure.ofOutcome o with
  | .ok value => (.ok { value, printed }, m.report .executionCompleted)
  | .error f => (.error f, m)

/-- Runs a block in a scope; no answer if the run crashes the host, or takes more steps than the
budget. -/
def executeIn (i : Interpreter) (budget : Nat) (code : CodeBlock) (e : ScopeId) (m : Machine) :
    Option (Except Failure Execution × Machine) :=
  ((i.prepare code m).hostedIn budget code e).result?.map fun (o, m) => i.conclude e o m

/-- Runs a block in a new scope inside the global one. -/
def execute (i : Interpreter) (budget : Nat) (code : CodeBlock) (m : Machine) :
    Option (Except Failure Execution × Machine) :=
  let (e, scopes) := m.store.scopes.enclose i.globals
  i.executeIn budget code e { m with store := { m.store with scopes } }

end Interpreter

/-- Runs a block with an interpreter of its own. -/
def Machine.executeOnce (m : Machine) (settings : Settings) (budget : Nat) (code : CodeBlock) :
    Option (Except Failure Execution × Machine) :=
  match Interpreter.create settings m with
  | .ok (i, m) => i.execute budget code m
  | .error e => some (.error (.scope e), m)

end ScriptMachine
