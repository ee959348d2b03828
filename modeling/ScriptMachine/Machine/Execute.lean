import ScriptMachine.Machine.Action

/-! What each instruction does. -/

namespace ScriptMachine

/-- How a frame goes on after an instruction: by itself, by a call, or not at all. -/
inductive Next where
  | proceed
  | enter (code : CodeBlock) (scope : ScopeId)
  | leave (v : Value)
  deriving Inhabited

namespace Action

/-! ### Variables, containers and operators -/

def loadAttribute (name : Nat) : Action Unit := do
  let target ← pop
  let name ← nameAt name
  push (← readHeap fun h => h.loadAttribute target name)

def storeAttribute (name : Nat) : Action Unit := do
  let target ← pop
  let value ← pop
  let name ← nameAt name
  write value (← readHeap fun _ => Heap.attributeSlot target name value)

def loadIndex : Action Unit := do
  let key ← pop
  let target ← pop
  push (← readHeap fun h => h.loadIndex target key)

def storeIndex : Action Unit := do
  let key ← pop
  let target ← pop
  let value ← pop
  write value (← readHeap fun h => h.indexSlot target key value)

def binary (op : BinaryOp) : Action Unit := do
  let right ← pop
  let left ← pop
  push (← keep (← readHeap (op.compute left right)))

def negate : Action Unit := do
  let v ← pop
  push (← readHeap fun _ => v.negate)

/-- The comparison is named by the operand of the instruction; other operands are invalid. -/
def compare (i : Instruction) : Action Unit := do
  match CompareOp.ofNumber? i.arg with
  | none => fault (.invalidOpcode i.opcode.byte i.offset)
  | some op =>
    let right ← pop
    let left ← pop
    push (← readHeap fun _ => op.apply left right)

/-- Keys and values by turns, as entries. Keys are texts. -/
def entriesOf : List Value → Except Interrupt (List (String × Value))
  | .string key :: v :: rest => (entriesOf rest).map ((key, v) :: ·)
  | key :: _ :: _ => .error (Misuse.mapKey key.kind).interrupt
  | _ => .ok []

def makeMap (pairs : Nat) : Action Unit := do
  let items ← popN (pairs * 2)
  let entries ← readHeap fun _ => entriesOf items
  push (← newMap (Dict.ofList entries))

/-! ### Functions -/

def parameterNames : List Value → Except Interrupt (List String)
  | [] => .ok []
  | .string name :: rest => (parameterNames rest).map (name :: ·)
  | v :: _ => .error (Misuse.parameterName v.kind).interrupt

/-- A function from a name, an array of parameter names and a body. It keeps the current scope. -/
def makeFunction : Action Unit := do
  let body ← pop
  let params ← pop
  let name ← pop
  match body, params with
  | .code code, .array params =>
    let params ← readHeap fun h => parameterNames (h.elements params).toList
    let scope ← currentScope
    let f ← onStore fun s =>
      let name := match name with
        | .string name => name
        | .null => "<anonymous>"
        | name => s.inspect name
      s.newClosure name params code scope
    push (.function f)
  | .code _, params => misuse (.functionParameters params.kind)
  | body, _ => misuse (.functionBody body.kind)

/-- The variable that holds the arguments beyond the parameters. -/
def argumentsName : String :=
  "arguments"

/-- Binds parameters in order; a parameter without an argument is null. -/
def bindParameters (e : ScopeId) : List String → List Value → Scopes → Scopes
  | [], _, s => s
  | p :: params, args, s =>
    bindParameters e params args.tail (s.setForce e p (args.headD .null) false)

/-- Binds the parameters in `e`, and then the remaining arguments as a new array. -/
def bindArguments (e : ScopeId) (params : List String) (args : List Value) : Action Unit := do
  onScopes fun s => ((), bindParameters e params args s)
  let rest ← newArray (args.drop params.length)
  onScopes fun s => ((), s.setForce e argumentsName rest false)

/-- Runs a native on the store. -/
def callNative (natives : Array Native) (f : NativeRef) (args : List Value) : Action Value :=
  fun ⟨frame, store⟩ =>
    match f.place.bind (natives[·]?) with
    | none => .ok .null ⟨frame, store⟩
    | some native =>
      match native.run frame.scope args store with
      | .ok v store => .ok v ⟨frame, store⟩
      | .error e store => .error e ⟨frame, store⟩

def codeBlock (id : CodeId) : Action CodeBlock :=
  onStore fun s => (s.block id, s)

/-- Calls the topmost operand with the `argc` operands below it. The body of a function runs in a
new scope inside the one where it was made, a plain code block in one inside the caller's. -/
def call (natives : Array Native) (argc : Nat) : Action Next := do
  let callee ← pop
  let args ← popN argc
  match callee with
  | .native f =>
    push (← callNative natives f args)
    return .proceed
  | .function f =>
    let scope ← encloseIn f.scope
    bindArguments scope f.params args
    return .enter (← codeBlock f.code) scope
  | .code id =>
    let scope ← encloseIn (← currentScope)
    bindArguments scope [] args
    return .enter (← codeBlock id) scope
  | v => misuse (.notCallable v.kind)

/-! ### Jumps and blocks -/

def popJumpIf (truth : Bool) (offset : Nat) : Action Unit := do
  let condition ← pop
  if condition.isBoolLike then
    if condition.truthy = truth then jump offset
  else misuse (.condition condition.kind)

def jumpIfOrPop (truth : Bool) (offset : Nat) : Action Unit := do
  if (← peek).truthy = truth then jump offset
  else discard pop

def startLoop (i : Instruction) : Action Unit := do
  match i.operand with
  | .pair iter finish =>
    let iter ← target iter.toNat
    let finish ← target finish.toNat
    openBlock fun f => .loop f.pc iter finish f.sp f.scope
  | _ => fault (.truncatedInstruction i.offset)

def startTry (entry : Nat) : Action Unit := do
  let entry ← target entry
  openBlock fun f => .handler entry f.sp f.scope

/-- Closes the innermost block in the regular way: only the scope is restored. -/
def endBlock : Action Unit := do
  enterScope (← popBlock).scope

/-- Leaves the innermost loop. -/
def breakLoop : Action Unit := do
  match ← exposeLoop with
  | .loop start iter finish sp scope =>
    discard popBlock
    resumeAt (.loop start iter finish sp scope) finish
  | .handler .. => fault (.noMatchingBlock .loop)

/-- Goes on with the next round of the innermost loop, which stays open. -/
def continueLoop : Action Unit := do
  match ← exposeLoop with
  | .loop start iter finish sp scope => resumeAt (.loop start iter finish sp scope) iter
  | .handler .. => fault (.noMatchingBlock .loop)

/-- A thrown value as an exception: an exception starts anew, anything else is its text. -/
def exceptionOf (s : Store) : Value → Exception
  | .exception e => { e with caught := false }
  | .string message => .thrown message
  | v => .thrown (s.inspect v)

def throwTop : Action Unit := do
  let v ← pop
  throw (.raised (← onStore fun s => (exceptionOf s v, s)))

def closeScope : Action Unit := do
  match ← readScopes fun s e => .ok (s.parent e) with
  | some e => enterScope e
  | none => fault .scopeUnderflow

end Action

namespace Instruction

open ScriptMachine.Action

/-- What an instruction does that neither calls nor returns. -/
def executeLocal (i : Instruction) : Action Unit :=
  match i.opcode with
  | .noop | .call | .return_ => return
  | .popTop => discard pop
  | .dupTop => do push (← peek)
  | .loadConst => do push (← constant i.arg)
  | .loadFast => do push (← getVariable (← localAt i.arg))
  | .storeFast => do
    let v ← pop
    setVariable (← localAt i.arg) v
  | .storeConst => do
    let v ← pop
    declare (← localAt i.arg) v true
  | .define => do
    let v ← pop
    declare (← localAt i.arg) v false
  | .deleteFast => do unsetLocal (← localAt i.arg)
  | .loadGlobal => do push (← getVariable (← nameAt i.arg))
  | .storeGlobal => do
    let v ← pop
    setVariable (← nameAt i.arg) v
  | .deleteGlobal => do unset (← nameAt i.arg)
  | .loadAttribute => loadAttribute i.arg
  | .storeAttribute => storeAttribute i.arg
  | .loadIndex => loadIndex
  | .storeIndex => storeIndex
  | .binary op => binary op
  | .unaryNeg => negate
  | .unaryNot => do push (← pop).not
  | .compare => compare i
  | .makeArray => do push (← newArray (← popN i.arg))
  | .makeMap => makeMap i.arg
  | .makeFunction => makeFunction
  | .jumpAbsolute => jump i.arg
  | .jumpForward => jumpForward i.arg
  | .popJumpIf truth => popJumpIf truth i.arg
  | .jumpIfOrPop truth => jumpIfOrPop truth i.arg
  | .startLoop => startLoop i
  | .endBlock => endBlock
  | .break_ => breakLoop
  | .continue_ => continueLoop
  | .startTry => startTry i.arg
  | .throw => throwTop
  | .openScope => do enterScope (← encloseIn (← currentScope))
  | .closeScope => closeScope

def execute (natives : Array Native) (i : Instruction) : Action Next :=
  match i.opcode with
  | .call => call natives i.arg
  | .return_ => return .leave (← pop)
  | _ => do
    i.executeLocal
    return .proceed

end Instruction

end ScriptMachine
