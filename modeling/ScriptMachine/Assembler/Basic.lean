import ScriptMachine.Assembler.Pool
import ScriptMachine.Code.Block

/-! The assembler: instructions, labels and tables of a block, put together piece by piece. -/

namespace ScriptMachine

/-- By how much an instruction changes the operand height when it does not jump. -/
def Opcode.stackEffect (o : Opcode) (arg : Nat) : Int :=
  match o with
  | .dupTop | .loadConst | .loadFast | .loadGlobal => 1
  | .popTop | .storeFast | .storeConst | .define | .storeGlobal | .loadIndex | .binary _
  | .compare | .popJumpIf _ | .jumpIfOrPop _ | .throw | .return_ => -1
  | .storeAttribute | .makeFunction => -2
  | .storeIndex => -3
  | .makeArray => 1 - (arg : Int)
  | .makeMap => 1 - 2 * (arg : Int)
  | .call => -(arg : Int)
  | .noop | .deleteFast | .deleteGlobal | .loadAttribute | .unaryNeg | .unaryNot
  | .jumpAbsolute | .jumpForward | .startLoop | .endBlock | .break_ | .continue_ | .startTry
  | .openScope | .closeScope => 0

/-! ### Patches -/

/-- A word in the code that waits for the offset of a label. -/
structure Patch where
  /-- Where the word stands. -/
  place : Nat
  label : Nat
  /-- Whether the word counts from its own end instead of the start of the code. -/
  forward : Bool
  deriving DecidableEq, Repr

namespace Patch

/-- The word for a label at a known offset. -/
def wordFor (p : Patch) (target : Nat) : Except AssemblyError UInt16 :=
  if p.forward && target < p.place + 2 then .error (.jumpOutOfRange target)
  else
    let operand := if p.forward then target - (p.place + 2) else target
    if 65535 < operand then .error (.jumpOutOfRange target) else .ok (UInt16.ofNat operand)

/-- Writes the word into the code. -/
def apply (p : Patch) (labels : Array (Option Nat)) (code : Array UInt8) :
    Except AssemblyError (Array UInt8) :=
  match (labels[p.label]?).join with
  | none => .error (.unboundLabel p.label)
  | some target => do
    let w ← p.wordFor target
    return (code.setIfInBounds p.place (w >>> 8).toUInt8).setIfInBounds (p.place + 1) w.toUInt8

end Patch

/-! ### The assembler -/

structure Assembler where
  name : String
  filename : String := CodeBlock.unknownFile
  /-- Whether the block will tell the file it comes from. -/
  debugInfo : Bool := true
  code : Array UInt8 := #[]
  constants : ConstantPool := {}
  names : NamePool := { table := "name" }
  locals : NamePool := { table := "local" }
  /-- The offset of each label that is bound. -/
  labels : Array (Option Nat) := #[]
  patches : Array Patch := #[]
  /-- The operand height after the instructions so far, if they are executed in order. -/
  depth : Nat := 0
  maxStack : Nat := 0
  /-- The number of blocks that the instructions so far leave open. -/
  blockDepth : Nat := 0
  maxBlocks : Nat := 0

/-- Steps of assembly. A step that fails keeps what it did before. -/
abbrev Assembly := EStateM AssemblyError Assembler

namespace Assembler

/-- The largest operand height that can be counted. -/
def maxDepth : Nat :=
  UInt64.size - 1

/-- Changes the operand height, which stays between zero and the largest that can be counted. -/
def adjusted (a : Assembler) (delta : Int) : Assembler :=
  let depth := min maxDepth (a.depth + delta).toNat
  { a with depth, maxStack := max a.maxStack depth }

/-- Accounts for an instruction on the path that executes instructions in order. -/
def accounted (a : Assembler) (o : Opcode) (arg : Nat) : Assembler :=
  let a := a.adjusted (o.stackEffect arg)
  match o with
  | .startLoop | .startTry =>
    { a with blockDepth := a.blockDepth + 1, maxBlocks := max a.maxBlocks (a.blockDepth + 1) }
  | .endBlock => { a with blockDepth := a.blockDepth - 1 }
  | _ => a

/-- Appends an instruction and accounts for it. -/
def appended (a : Assembler) (o : Opcode) (operand : Operand) : Assembler :=
  { a with code := a.code.push o.byte ++ operand.bytes.toArray }.accounted o operand.number

/-- Marks a word of the code for a label. -/
def patched (a : Assembler) (place label : Nat) (forward : Bool) : Assembler :=
  { a with patches := a.patches.push ⟨place, label, forward⟩ }

/-- The finished block. Patches are applied in the order in which they were made. -/
def build (a : Assembler) : Except AssemblyError CodeBlock := do
  let code ← a.patches.toList.foldlM (fun code p => p.apply a.labels code) a.code
  return {
    name := a.name
    filename := if a.debugInfo then a.filename else CodeBlock.unknownFile
    code
    constants := a.constants.values
    names := a.names.entries
    locals := a.locals.entries
    maxStack := a.maxStack
    maxBlocks := a.maxBlocks }

end Assembler

namespace Assembly

/-! ### Tables -/

/-- Looks at the assembler, which stays as it is. -/
def look {α : Type} (g : Assembler → Except AssemblyError α) : Assembly α := fun a =>
  match g a with
  | .ok x => .ok x a
  | .error e => .error e a

def addConstant (v : Value) : Assembly Nat := do
  let place ← look (·.constants.placeFor v)
  modify fun a => { a with constants := a.constants.putAt v place }
  return place

def addName (s : String) : Assembly Nat := do
  let place ← look (·.names.placeFor s)
  modify fun a => { a with names := a.names.putAt s place }
  return place

def addLocal (s : String) : Assembly Nat := do
  let place ← look (·.locals.placeFor s)
  modify fun a => { a with locals := a.locals.putAt s place }
  return place

/-! ### Instructions -/

/-- An instruction without operand. -/
def emit (o : Opcode) : Assembly Unit :=
  match o.form with
  | .none => modify (·.appended o .none)
  | _ => throw (.operandOutOfRange o 0 o.operandWidth)

/-- An instruction whose operand is one byte or one word. -/
def emitArg (o : Opcode) (arg : Nat) : Assembly Unit :=
  match o.form with
  | .byte =>
    if arg ≤ 255 then modify (·.appended o (.byte (UInt8.ofNat arg)))
    else throw (.operandOutOfRange o arg o.operandWidth)
  | .short =>
    if arg ≤ 65535 then modify (·.appended o (.short (UInt16.ofNat arg)))
    else throw (.operandOutOfRange o arg o.operandWidth)
  | _ => throw (.operandOutOfRange o arg o.operandWidth)

def loadConst (v : Value) : Assembly Unit := do
  emitArg .loadConst (← addConstant v)

/-- An instruction on a local variable. -/
def localOp (o : Opcode) (s : String) : Assembly Unit := do
  emitArg o (← addLocal s)

/-- An instruction on a global variable or an attribute. -/
def nameOp (o : Opcode) (s : String) : Assembly Unit := do
  emitArg o (← addName s)

def binary (op : BinaryOp) : Assembly Unit :=
  emit (.binary op)

def compare (op : CompareOp) : Assembly Unit :=
  emitArg .compare op.number

def call (argc : Nat) : Assembly Unit :=
  emitArg .call argc

/-! ### Labels and jumps -/

/-- A label that is not bound yet. Labels are numbered from zero. -/
def newLabel : Assembly Nat :=
  modifyGet fun a => (a.labels.size, { a with labels := a.labels.push none })

/-- Binds a label to the end of the code so far; a label may be bound again. -/
def bind (label : Nat) : Assembly Unit :=
  modify fun a => { a with labels := a.labels.setIfInBounds label (some a.code.size) }

def adjust (delta : Int) : Assembly Unit :=
  modify (·.adjusted delta)

/-- Binds the entry of a handler, where the exception is one operand more. -/
def bindCatch (label : Nat) : Assembly Unit := do
  bind label
  adjust 1

/-- Marks the last word of the code for a label. -/
def patchLast (label : Nat) (forward : Bool) : Assembly Unit :=
  modify fun a => a.patched (a.code.size - 2) label forward

/-- A jump to a label by its offset. -/
def jump (o : Opcode) (label : Nat) : Assembly Unit := do
  if o.hasAbsoluteTarget then
    emitArg o 0
    patchLast label false
  else throw (.operandOutOfRange o label o.operandWidth)

/-- A jump to a later label by its distance. -/
def jumpForward (label : Nat) : Assembly Unit := do
  emitArg .jumpForward 0
  patchLast label true

/-- Opens a loop that goes on at one label and ends at another. -/
def startLoop (iter finish : Nat) : Assembly Unit :=
  modify fun a =>
    let place := a.code.size + 1
    ((a.appended .startLoop (.pair 0 0)).patched place iter false).patched
      (place + 2) finish false

/-- Opens a handler whose entry is a label. -/
def startTry (entry : Nat) : Assembly Unit :=
  jump .startTry entry

end Assembly

/-! ### Directives -/

/-- The steps of assembly as data. -/
inductive Directive where
  | emit (o : Opcode)
  | emitArg (o : Opcode) (arg : Nat)
  | loadConst (v : Value)
  | localOp (o : Opcode) (s : String)
  | nameOp (o : Opcode) (s : String)
  | binary (op : BinaryOp)
  | compare (op : CompareOp)
  | call (argc : Nat)
  | newLabel
  | bind (label : Nat)
  | bindCatch (label : Nat)
  | jump (o : Opcode) (label : Nat)
  | jumpForward (label : Nat)
  | startLoop (iter finish : Nat)
  | startTry (entry : Nat)
  | adjust (delta : Int)
  | addConstant (v : Value)
  | addName (s : String)
  | addLocal (s : String)

namespace Directive

/-- A step without an answer. -/
def silently (step : Assembly Unit) : Assembly (Option Nat) := do
  step
  return none

/-- Performs a step; additions to a table answer the place of the entry. -/
def perform : Directive → Assembly (Option Nat)
  | .emit o => silently (Assembly.emit o)
  | .emitArg o arg => silently (Assembly.emitArg o arg)
  | .loadConst v => silently (Assembly.loadConst v)
  | .localOp o s => silently (Assembly.localOp o s)
  | .nameOp o s => silently (Assembly.nameOp o s)
  | .binary op => silently (Assembly.binary op)
  | .compare op => silently (Assembly.compare op)
  | .call argc => silently (Assembly.call argc)
  | .newLabel => some <$> Assembly.newLabel
  | .bind label => silently (Assembly.bind label)
  | .bindCatch label => silently (Assembly.bindCatch label)
  | .jump o label => silently (Assembly.jump o label)
  | .jumpForward label => silently (Assembly.jumpForward label)
  | .startLoop iter finish => silently (Assembly.startLoop iter finish)
  | .startTry entry => silently (Assembly.startTry entry)
  | .adjust delta => silently (Assembly.adjust delta)
  | .addConstant v => some <$> Assembly.addConstant v
  | .addName s => some <$> Assembly.addName s
  | .addLocal s => some <$> Assembly.addLocal s

/-- Performs steps in order, up to the first that fails. -/
def performAll (steps : List Directive) : Assembly Unit :=
  steps.forM fun d => discard d.perform

end Directive

/-- The block that a sequence of steps describes; the first step that fails is the answer. -/
def Assembler.assemble (a : Assembler) (steps : List Directive) : Except AssemblyError CodeBlock :=
  match Directive.performAll steps a with
  | .ok _ a => a.build
  | .error e _ => .error e

end ScriptMachine
