import ScriptMachine.Fault
import ScriptMachine.Log.Level

/-! Events that assembling and running code reports. -/

namespace ScriptMachine

inductive Event where
  | blockBuilt (name : String) (bytes constants maxStack maxBlocks : Nat)
  | executionStarted (name : String)
  | executionCompleted
  /-- A line of the listing of the block that is about to run. -/
  | listed (line : String)
  | listingFailed (fault : Fault)
  /-- The scope of a run after it, as text. -/
  | scopeDumped (text : String)
  /-- A frame was entered; `depth` frames are now active. -/
  | framePushed (name : String) (depth : Nat)
  /-- A frame has returned; `depth` frames remain. -/
  | framePopped (name : String) (depth : Nat)
  /-- A frame without a handler was left by an exception. -/
  | frameUnwound (name : String)
  | raised (message : String)
  | caught (message : String) (entry : Nat)
  | escaped (message : String)
  | panicked (message : String)
  | aborted (fault : Fault) (depth : Nat)
  deriving DecidableEq, Repr

namespace Event

def level : Event → Level
  | .executionStarted _ | .executionCompleted => .info
  | .framePushed .. | .framePopped .. | .frameUnwound _ => .trace
  | .aborted .. => .error
  | _ => .debug

/-- The part of the system that an event comes from. -/
def target : Event → String
  | .blockBuilt .. | .listed _ | .listingFailed _ => "azote::compiler"
  | .executionStarted _ | .executionCompleted | .scopeDumped _ => "azote::api"
  | _ => "azote::vm"

/-- An event as text: its fixed message first, then its data. -/
def fields : Event → List (String × String)
  | .blockBuilt name bytes constants maxStack maxBlocks =>
    [("message", "code block built"), ("name", name), ("bytes", toString bytes),
      ("constants", toString constants), ("max_stack", toString maxStack),
      ("max_blocks", toString maxBlocks)]
  | .executionStarted name => [("message", "Starting execution"), ("name", name)]
  | .executionCompleted => [("message", "Execution completed")]
  | .listed line => [("message", line)]
  | .listingFailed fault => [("message", "disassembly failed"), ("fault", fault.message)]
  | .scopeDumped text => [("message", "environment:\n" ++ text)]
  | .framePushed name depth =>
    [("message", "push frame"), ("name", name), ("depth", toString depth)]
  | .framePopped name depth =>
    [("message", "pop frame"), ("name", name), ("depth", toString depth)]
  | .frameUnwound name => [("message", "unwind frame"), ("name", name)]
  | .raised message => [("message", "exception raised"), ("message", message)]
  | .caught message entry =>
    [("message", "exception caught"), ("message", message), ("catch", toString entry)]
  | .escaped message => [("message", "exception escaped"), ("message", message)]
  | .panicked message => [("message", "panic raised"), ("message", message)]
  | .aborted fault depth =>
    [("message", "execution aborted"), ("fault", fault.message), ("depth", toString depth)]

end Event

end ScriptMachine
