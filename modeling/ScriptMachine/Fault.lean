import ScriptMachine.Text.Column

/-! What ends or interrupts a run: faults of the engine, exceptions of the script. -/

namespace ScriptMachine

/-- The two kinds of entries on a frame's block stack. -/
inductive BlockKind where
  | loop
  | handler
  deriving DecidableEq, Repr

def BlockKind.name : BlockKind → String
  | .loop => "loop"
  | .handler => "handler"

/-! ### Faults -/

/-- A broken promise of the code that runs; no script can recover from one. -/
inductive Fault where
  | stackOverflow (capacity : Nat)
  | stackExhausted
  | blockStackOverflow (capacity : Nat)
  | blockStackExhausted
  | noMatchingBlock (kind : BlockKind)
  | constantOutOfBounds (index length : Nat)
  | nameOutOfBounds (index length : Nat)
  | localOutOfBounds (index length : Nat)
  | invalidOpcode (byte : UInt8) (offset : Nat)
  | truncatedInstruction (offset : Nat)
  | jumpOutOfBounds (target length : Nat)
  | divisionByZero
  | scopeUnderflow
  | noActiveFrame
  | stackLimitExceeded (declared limit : Nat)
  | blockLimitExceeded (declared limit : Nat)
  deriving DecidableEq, Repr

def Fault.message : Fault → String
  | .stackOverflow capacity => s!"stack overflow (capacity {capacity})"
  | .stackExhausted => "stack exhausted"
  | .blockStackOverflow capacity => s!"block stack overflow (capacity {capacity})"
  | .blockStackExhausted => "block stack exhausted"
  | .noMatchingBlock kind =>
    "block stack exhausted while looking for a " ++ kind.name ++ " block"
  | .constantOutOfBounds index length =>
    s!"constant index {index} out of bounds ({length} constants)"
  | .nameOutOfBounds index length => s!"name index {index} out of bounds ({length} names)"
  | .localOutOfBounds index length => s!"local index {index} out of bounds ({length} locals)"
  | .invalidOpcode byte offset =>
    "invalid opcode 0x" ++ Text.hexByte byte ++ s!" at offset {offset}"
  | .truncatedInstruction offset => s!"truncated instruction at offset {offset}"
  | .jumpOutOfBounds target length =>
    s!"jump target {target} outside of code (length {length})"
  | .divisionByZero => "integer division by zero"
  | .scopeUnderflow => "scope underflow: no enclosing environment to restore"
  | .noActiveFrame => "no active frame"
  | .stackLimitExceeded declared limit =>
    s!"code block declares stack size {declared}, limit is {limit}"
  | .blockLimitExceeded declared limit =>
    s!"code block declares block depth {declared}, limit is {limit}"

/-- The name under which tools look a fault up. -/
def Fault.name : Fault → String
  | .stackOverflow _ => "StackOverflow"
  | .stackExhausted => "StackExhausted"
  | .blockStackOverflow _ => "BlockStackOverflow"
  | .blockStackExhausted => "BlockStackExhausted"
  | .noMatchingBlock _ => "NoMatchingBlock"
  | .constantOutOfBounds .. => "ConstantOutOfBounds"
  | .nameOutOfBounds .. => "NameOutOfBounds"
  | .localOutOfBounds .. => "LocalOutOfBounds"
  | .invalidOpcode .. => "InvalidOpcode"
  | .truncatedInstruction _ => "TruncatedInstruction"
  | .jumpOutOfBounds .. => "JumpOutOfBounds"
  | .divisionByZero => "DivisionByZero"
  | .scopeUnderflow => "ScopeUnderflow"
  | .noActiveFrame => "NoActiveFrame"
  | .stackLimitExceeded .. => "StackLimitExceeded"
  | .blockLimitExceeded .. => "BlockLimitExceeded"

/-! ### Exceptions -/

/-- An exception of the script. One that is not catchable is a panic and passes every handler. -/
structure Exception where
  message : String
  catchable : Bool
  /-- Whether some handler has already received it. -/
  caught : Bool
  deriving DecidableEq, Hashable, Repr

namespace Exception

/-- A catchable exception that no handler has received yet. -/
def thrown (message : String) : Exception :=
  ⟨message, true, false⟩

def panic (message : String) : Exception :=
  ⟨message, false, false⟩

def isPanic (e : Exception) : Bool :=
  !e.catchable

/-- Catchable and still on its way to a handler. -/
def inFlight (e : Exception) : Bool :=
  e.catchable && !e.caught

def markCaught (e : Exception) : Exception :=
  { e with caught := true }

def text (e : Exception) : String :=
  (if e.catchable then "Exception: " else "Panic: ") ++ e.message

end Exception

/-! ### Interrupts -/

/-- What an instruction or a native function answers in place of a result. -/
inductive Interrupt where
  | raised (e : Exception)
  | fault (f : Fault)
  deriving DecidableEq, Repr

def Interrupt.text : Interrupt → String
  | .raised e => e.text
  | .fault f => "fatal: " ++ f.message

end ScriptMachine
