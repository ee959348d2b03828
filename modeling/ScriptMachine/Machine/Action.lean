import ScriptMachine.Machine.Frame
import ScriptMachine.Operator.Apply
import ScriptMachine.Template

/-! Actions: what one instruction may do to the frame that executes it and to the store. An action
cannot reach any other frame. -/

namespace ScriptMachine

/-! ### Native functions -/

/-- A function of the host. It is given the scope of its caller and the arguments, and may change
the store. -/
structure Native where
  name : String
  run : ScopeId → List Value → EStateM Interrupt Store Value

/-- A native that answers every call with a value built for it. -/
def Native.building (name : String) (t : Template) : Native :=
  ⟨name, fun _ _ s =>
    let (v, s) := t.build s
    .ok v s⟩

/-! ### Actions -/

/-- The frame that executes an instruction, with the store. -/
structure Activation where
  frame : Frame
  store : Store

/-- An action that is interrupted keeps what it has done so far. -/
abbrev Action := EStateM Interrupt Activation

namespace Action

variable {α : Type}

def onFrame (g : Frame → Except Fault (α × Frame)) : Action α := fun ⟨frame, store⟩ =>
  match g frame with
  | .ok (x, frame) => .ok x ⟨frame, store⟩
  | .error f => .error (.fault f) ⟨frame, store⟩

/-! What may fail only reads the store, and what changes the store cannot fail. -/

def readHeap (g : Heap → Except Interrupt α) : Action α := fun a =>
  match g a.store.heap with
  | .ok x => .ok x a
  | .error e => .error e a

/-- Reads the scopes from the current scope of the frame. -/
def readScopes (g : Scopes → ScopeId → Except ScopeError α) : Action α := fun a =>
  match g a.store.scopes a.frame.scope with
  | .ok x => .ok x a
  | .error e => .error e.interrupt a

def onStore (g : Store → α × Store) : Action α := fun ⟨frame, store⟩ =>
  let (x, store) := g store
  .ok x ⟨frame, store⟩

def onHeap (g : Heap → α × Heap) : Action α :=
  onStore fun ⟨heap, scopes, blocks, outputs, functions⟩ =>
    let (x, heap) := g heap
    (x, ⟨heap, scopes, blocks, outputs, functions⟩)

def onScopes (g : Scopes → α × Scopes) : Action α :=
  onStore fun ⟨heap, scopes, blocks, outputs, functions⟩ =>
    let (x, scopes) := g scopes
    (x, ⟨heap, scopes, blocks, outputs, functions⟩)

def fault (f : Fault) : Action α :=
  throw (.fault f)

def misuse (m : Misuse) : Action α :=
  throw m.interrupt

/-! ### Operands -/

def push (v : Value) : Action Unit :=
  onFrame fun f => (f.push v).map ((), ·)

def pop : Action Value :=
  onFrame Frame.pop

def peek : Action Value :=
  onFrame fun f => f.peek.map (·, f)

def popN (n : Nat) : Action (List Value) :=
  onFrame fun f => f.popN n

/-! ### Tables of the block -/

def constant (index : Nat) : Action Value :=
  onFrame fun f => (f.code.constant index).map (·, f)

def nameAt (index : Nat) : Action String :=
  onFrame fun f => (f.code.nameAt index).map (·, f)

def localAt (index : Nat) : Action String :=
  onFrame fun f => (f.code.localAt index).map (·, f)

/-! ### Control -/

/-- Refuses targets outside of the code. -/
def target (offset : Nat) : Action Nat :=
  onFrame fun f => (f.code.jumpTarget offset).map (·, f)

def goTo (offset : Nat) : Action Unit :=
  onFrame fun f => .ok ((), { f with pc := offset })

def jump (offset : Nat) : Action Unit := do
  goTo (← target offset)

/-- Jumps by a distance from the next instruction. -/
def jumpForward (distance : Nat) : Action Unit := do
  jump ((← onFrame fun f => .ok (f.pc, f)) + distance)

/-! ### Scopes -/

def enterScope (e : ScopeId) : Action Unit :=
  onFrame fun f => .ok ((), { f with scope := e })

/-- The scope in which the frame is. -/
def currentScope : Action ScopeId :=
  onFrame fun f => .ok (f.scope, f)

def getVariable (name : String) : Action Value :=
  readScopes fun s e => s.get e name

def setVariable (name : String) (v : Value) : Action Unit := do
  let e ← readScopes fun s e => s.assignable e name
  onScopes fun s => ((), s.bind e name ⟨v, false⟩)

def declare (name : String) (v : Value) (readonly : Bool) : Action Unit := do
  readScopes fun s e => s.vacant e name
  let e ← currentScope
  onScopes fun s => ((), s.bind e name ⟨v, readonly⟩)

def unsetLocal (name : String) : Action Unit := do
  let e ← currentScope
  onScopes fun s => ((), (s.unsetLocal e name).2)

def unset (name : String) : Action Unit := do
  let e ← currentScope
  onScopes fun s => ((), (s.unset e name).2)

/-- A new scope inside the given one. -/
def encloseIn (e : ScopeId) : Action ScopeId :=
  onScopes (·.enclose e)

/-! ### Open blocks -/

/-- Opens a block that remembers what it needs of the frame. -/
def openBlock (b : Frame → Block) : Action Unit :=
  onFrame fun f => (f.pushBlock (b f)).map ((), ·)

def popBlock : Action Block :=
  onFrame Frame.popBlock

/-- Closes the blocks inside the innermost loop and answers that loop, which stays open. -/
def exposeLoop : Action Block := do
  onFrame fun f => .ok ((), f.expose .loop)
  onFrame fun f => (f.exposed .loop).map (·, f)

/-- Restores the operand height and the scope that a block remembers, and goes on at `offset`. -/
def resumeAt (b : Block) (offset : Nat) : Action Unit :=
  onFrame fun f => .ok ((), { f.truncate b.sp with scope := b.scope, pc := offset })

/-! ### Containers -/

def newArray (xs : List Value) : Action Value :=
  onHeap fun h => h.newArray xs.toArray

def newMap (d : Dict Value) : Action Value :=
  onHeap fun h => h.newMap d

def keep (c : Computed) : Action Value :=
  onHeap fun h => h.keep c

def write (v : Value) (slot : Heap.Slot) : Action Unit :=
  onHeap fun h => ((), h.write v slot)

end Action

end ScriptMachine
