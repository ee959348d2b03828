import ScriptMachine.Code.Instruction
import ScriptMachine.Value

/-! Code blocks: the compiled body of a script or a function. -/

namespace ScriptMachine

structure CodeBlock where
  name : String
  /-- The source file, for diagnostics. -/
  filename : String
  code : Array UInt8
  constants : Array Value
  /-- Names of global variables and attributes. -/
  names : Array String
  /-- Names of local variables. -/
  locals : Array String
  /-- The number of operands for which an activation has room. -/
  maxStack : Nat
  /-- The number of open blocks for which an activation has room. -/
  maxBlocks : Nat
  deriving Inhabited

namespace CodeBlock

/-- The filename of a block that names none. -/
def unknownFile : String :=
  "<unknown>"

def constant (b : CodeBlock) (index : Nat) : Except Fault Value :=
  match b.constants[index]? with
  | some v => .ok v
  | none => .error (.constantOutOfBounds index b.constants.size)

def nameAt (b : CodeBlock) (index : Nat) : Except Fault String :=
  match b.names[index]? with
  | some s => .ok s
  | none => .error (.nameOutOfBounds index b.names.size)

def localAt (b : CodeBlock) (index : Nat) : Except Fault String :=
  match b.locals[index]? with
  | some s => .ok s
  | none => .error (.localOutOfBounds index b.locals.size)

/-- A jump may go to any place in the code and to its end. -/
def jumpTarget (b : CodeBlock) (target : Nat) : Except Fault Nat :=
  if b.code.size < target then .error (.jumpOutOfBounds target b.code.size) else .ok target

/-- Every instruction in order, up to the first that cannot be read. -/
def instructions (b : CodeBlock) : List (Except Fault Instruction) :=
  Instruction.walk b.code 0

end CodeBlock

end ScriptMachine
