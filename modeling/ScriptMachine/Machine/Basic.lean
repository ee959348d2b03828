import ScriptMachine.Limits
import ScriptMachine.Machine.Execute
import ScriptMachine.Log.Event

/-! The machine: a stack of frames over a store, executed one instruction at a time. -/

namespace ScriptMachine

structure Machine where
  store : Store := {}
  natives : Array Native := #[]
  limits : Limits := {}
  /-- Active frames, the innermost on top. -/
  frames : Stack Frame := .empty
  log : Array Event := #[]
  deriving Inhabited

/-- How a run ends. -/
inductive Outcome where
  | value (v : Value)
  | exception (e : Exception) (trace : Backtrace)
  | fault (f : Fault) (trace : Backtrace)

/-- What one step makes of a machine. -/
inductive Progress where
  | running (m : Machine)
  | finished (o : Outcome) (m : Machine)

namespace Machine

def report (m : Machine) (e : Event) : Machine :=
  { m with log := m.log.push e }

def trace (m : Machine) : Backtrace :=
  .ofFrames m.frames.toList

/-! ### Interrupts -/

/-- A fault ends the run. -/
def abort (m : Machine) (f : Fault) : Progress :=
  .finished (.fault f m.trace) (m.report (.aborted f m.frames.height))

/-- Leaves frames until one has an open handler. -/
def unwind (m : Machine) : Machine :=
  let left := m.frames.toList.takeWhile (!·.catches)
  let m := { m with frames := m.frames.popWhile (!·.catches) }
  left.foldl (fun m f => m.report (.frameUnwound f.code.name)) m

/-- Delivers an exception to the innermost handler of a frame, which then is the innermost frame:
the operands and the scope of the handler's block are restored, and the exception lies on top. -/
def deliver (m : Machine) (e : Exception) (f : Frame) : Progress :=
  match f.takeHandler with
  | (none, f) => { m with frames := m.frames.push f }.abort (.noMatchingBlock .handler)
  | (some h, f) =>
    let f := { f.truncate h.sp with scope := h.scope, pc := h.entry }
    let m := m.report (.caught e.message h.entry)
    match f.push (.exception e.markCaught) with
    | .ok f => .running { m with frames := m.frames.push f }
    | .error fault => { m with frames := m.frames.push f }.abort fault

/-- Delivers an exception to the innermost frame with an open handler. A panic passes every
handler. -/
def raise (m : Machine) (e : Exception) : Progress :=
  if e.isPanic then .finished (.exception e m.trace) (m.report (.panicked e.message))
  else
    let frames := m.frames
    let m := (m.report (.raised e.message)).unwind
    match m.frames.pop? with
    | none =>
      .finished (.exception e (.ofFrames frames.toList)) (m.report (.escaped e.message))
    | some (f, below) => { m with frames := below }.deliver e f

def interrupt (m : Machine) : Interrupt → Progress
  | .raised e => m.raise e
  | .fault f => m.abort f

/-! ### Calls -/

/-- Why the limits refuse another frame for a block, if they do. -/
def refusal? (m : Machine) (code : CodeBlock) : Option Interrupt :=
  let limits := m.limits
  if limits.maxRecursionDepth ≤ m.frames.height then
    some (.raised (.panic s!"maximum recursion depth exceeded ({limits.maxRecursionDepth})"))
  else if limits.maxStackSize < code.maxStack then
    some (.fault (.stackLimitExceeded code.maxStack limits.maxStackSize))
  else if limits.maxStackSize < code.maxBlocks then
    some (.fault (.blockLimitExceeded code.maxBlocks limits.maxStackSize))
  else none

/-- Adds a frame if the limits allow it. Whether the host has the memory for it is not asked here,
but in runs on the host. -/
def enter (m : Machine) (code : CodeBlock) (scope : ScopeId) : Progress :=
  match m.refusal? code with
  | some e => m.interrupt e
  | none =>
    let m := m.report (.framePushed code.name (m.frames.height + 1))
    .running { m with frames := m.frames.push { code, scope } }

/-- The innermost frame returns a value to the frame below, or ends the run. -/
def leave (m : Machine) (v : Value) : Progress :=
  match m.frames.pop? with
  | none => m.abort .noActiveFrame
  | some (done, rest) =>
    let m := { m with frames := rest }.report (.framePopped done.code.name rest.height)
    match rest.pop? with
    | none => .finished (.value v) m
    | some (caller, below) =>
      match caller.push v with
      | .ok caller => .running { m with frames := below.push caller }
      | .error f => m.abort f

/-! ### Steps -/

def follow (m : Machine) : Next → Progress
  | .proceed => .running m
  | .enter code scope => m.enter code scope
  | .leave v => m.leave v

/-- Executes an instruction in the innermost frame `f`, with the given frames below. -/
def advance : Machine → Frame → Stack Frame → Instruction → Progress
  | ⟨store, natives, limits, _, log⟩, f, below, i =>
    match i.execute natives ⟨f, store⟩ with
    | .ok next ⟨f, store⟩ => follow ⟨store, natives, limits, below.push f, log⟩ next
    | .error e ⟨f, store⟩ => interrupt ⟨store, natives, limits, below.push f, log⟩ e

/-- Executes the next instruction of the innermost frame. The end of the code returns null. -/
def step (m : Machine) : Progress :=
  match m.frames.pop? with
  | none => m.abort .noActiveFrame
  | some (f, below) =>
    if f.code.code.size ≤ f.pc then m.leave .null
    else
      match Instruction.decodeAt f.code.code f.pc with
      | .error fault => m.abort fault
      | .ok i => m.advance { f with lastOffset := f.pc, pc := i.next } below i

/-- Steps until the run ends, but at most `budget` times. -/
def run : Nat → Machine → Option (Outcome × Machine)
  | 0, _ => none
  | budget + 1, m =>
    match m.step with
    | .running m => run budget m
    | .finished o m => some (o, m)

/-- The machine with a first frame for the block, or the end of a run that cannot start. -/
def start (m : Machine) (code : CodeBlock) (scope : ScopeId) : Progress :=
  { m with frames := .empty }.enter code scope

/-- Runs a block in a scope. The frames that a fault or a panic leaves behind are dropped. -/
def runIn (budget : Nat) (code : CodeBlock) (scope : ScopeId) (m : Machine) :
    Option (Outcome × Machine) :=
  let ended :=
    match m.start code scope with
    | .running m => m.run budget
    | .finished o m => some (o, m)
  ended.map fun (o, m) => (o, { m with frames := .empty })

/-! ### Natives -/

/-- Adds a native function. It is a new value even if an equal one exists. -/
def addNative (m : Machine) (n : Native) : Value × Machine :=
  let (f, store) := m.store.newNative n.name (some m.natives.size)
  (.native f, { m with store, natives := m.natives.push n })

/-- Binds a new native, read-only, in a scope. -/
def registerNative (m : Machine) (e : ScopeId) (n : Native) : Except ScopeError Machine := do
  let (v, m) := m.addNative n
  let scopes ← m.store.scopes.createConst e n.name v
  return { m with store := { m.store with scopes } }

end Machine

end ScriptMachine
