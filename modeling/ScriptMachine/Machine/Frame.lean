import ScriptMachine.Stack
import ScriptMachine.Store

/-! Frames: the activations of code blocks, with their operands and open blocks. -/

namespace ScriptMachine

/-- An open block remembers the height of the operand stack and the scope at its start. -/
inductive Block where
  /-- A loop: the start of its body, where it goes on and where it ends. -/
  | loop (start iter finish sp : Nat) (scope : ScopeId)
  /-- A handler: where a caught exception is delivered. -/
  | handler (entry sp : Nat) (scope : ScopeId)
  deriving DecidableEq, Repr

namespace Block

def kind : Block → BlockKind
  | .loop .. => .loop
  | .handler .. => .handler

def sp : Block → Nat
  | .loop _ _ _ sp _ => sp
  | .handler _ sp _ => sp

def scope : Block → ScopeId
  | .loop _ _ _ _ scope => scope
  | .handler _ _ scope => scope

end Block

structure Frame where
  code : CodeBlock
  /-- Operands. -/
  stack : Stack Value := .empty
  /-- Open blocks, the innermost on top. -/
  blocks : Stack Block := .empty
  /-- The offset of the next instruction. -/
  pc : Nat := 0
  /-- The offset of the instruction that was read last. -/
  lastOffset : Nat := 0
  scope : ScopeId
  deriving Inhabited

namespace Frame

/-! ### Operands -/

/-- The height of the operand stack. -/
def sp (f : Frame) : Nat :=
  f.stack.height

def push (f : Frame) (v : Value) : Except Fault Frame :=
  if f.sp < f.code.maxStack then .ok { f with stack := f.stack.push v }
  else .error (.stackOverflow f.code.maxStack)

def peek (f : Frame) : Except Fault Value :=
  match f.stack.top? with
  | none => .error .stackExhausted
  | some v => .ok v

def pop (f : Frame) : Except Fault (Value × Frame) :=
  match f.stack.pop? with
  | none => .error .stackExhausted
  | some (v, stack) => .ok (v, { f with stack })

/-- Takes `n` operands off, in the order in which they were pushed. -/
def popN (f : Frame) (n : Nat) : Except Fault (List Value × Frame) :=
  if f.sp < n then .error .stackExhausted
  else .ok ((f.stack.toList.take n).reverse, { f with stack := f.stack.drop n })

/-- Keeps the `height` lowest operands. -/
def truncate (f : Frame) (height : Nat) : Frame :=
  { f with stack := f.stack.lowest height }

/-- The operands as text, the topmost first. -/
def dumpStack (f : Frame) (inspect : Value → String) : String :=
  s!"Stack (sp={f.sp}, capacity={f.code.maxStack}):\n"
    ++ String.join ((f.stack.toList.zip (List.range f.sp).reverse).map fun (v, place) =>
      s!"  [{place}] " ++ inspect v ++ "\n")

/-! ### Open blocks -/

def pushBlock (f : Frame) (b : Block) : Except Fault Frame :=
  if f.blocks.height < f.code.maxBlocks then .ok { f with blocks := f.blocks.push b }
  else .error (.blockStackOverflow f.code.maxBlocks)

def popBlock (f : Frame) : Except Fault (Block × Frame) :=
  match f.blocks.pop? with
  | none => .error .blockStackExhausted
  | some (b, blocks) => .ok (b, { f with blocks })

/-- Closes blocks until the innermost one is of the given kind, or none is left. -/
def expose (f : Frame) (kind : BlockKind) : Frame :=
  { f with blocks := f.blocks.popWhile (·.kind != kind) }

/-- The innermost open block, if the search for one of the given kind has left any. -/
def exposed (f : Frame) (kind : BlockKind) : Except Fault Block :=
  match f.blocks.top? with
  | none => .error (.noMatchingBlock kind)
  | some b => .ok b

/-- Where a handler delivers an exception, and what it restores. -/
structure Handler where
  entry : Nat
  sp : Nat
  scope : ScopeId
  deriving DecidableEq, Repr

/-- Whether a handler is open. -/
def catches (f : Frame) : Bool :=
  f.blocks.toList.any (·.kind == .handler)

/-- Closes blocks up to and including the innermost handler, all of them if there is none. -/
def takeHandler (f : Frame) : Option Handler × Frame :=
  match (f.expose .handler).blocks.pop? with
  | some (.handler entry sp scope, blocks) => (some ⟨entry, sp, scope⟩, { f with blocks })
  | _ => (none, { f with blocks := .empty })

/-- A frame with an open handler has one to take. -/
theorem takeHandler_isSome {f : Frame} (h : f.catches) : f.takeHandler.1.isSome := by
  obtain ⟨b, mem, kind⟩ := List.any_eq_true.mp h
  have exposed : (f.expose .handler).blocks.toList
      = f.blocks.toList.dropWhile (·.kind != .handler) :=
    Stack.toList_popWhile ..
  cases found : (f.expose .handler).blocks.pop? with
  | none =>
      rw [Stack.pop?_eq_none_iff, exposed] at found
      have whole := List.takeWhile_append_dropWhile (p := (·.kind != BlockKind.handler))
        (l := f.blocks.toList)
      rw [found, List.append_nil] at whole
      have outside := List.all_takeWhile (p := (·.kind != BlockKind.handler))
        (l := f.blocks.toList)
      rw [whole] at outside
      have different := List.all_eq_true.mp outside b mem
      simp_all
  | some top =>
      obtain ⟨c, below⟩ := top
      have split := found
      rw [Stack.pop?_eq_some_iff] at split
      rw [split, Stack.toList_push] at exposed
      have stop := List.head?_dropWhile_not (·.kind != .handler) f.blocks.toList
      rw [← exposed] at stop
      cases c with
      | loop => simp [Block.kind] at stop
      | handler => simp [takeHandler, found]

/-- The innermost of the active frames. -/
def innermost : List Frame → Except Fault Frame
  | [] => .error .noActiveFrame
  | f :: _ => .ok f

/-- One line about a frame for programmers. -/
def debug (f : Frame) : String :=
  "Frame \x7b code: " ++ Text.quoted f.code.name
    ++ s!", pc: {f.pc}, sp: {f.sp}, blocks: {f.blocks.height} \x7d"

end Frame

/-! ### Backtraces -/

/-- A frame in a backtrace, with the instruction that it was executing. -/
structure TraceEntry where
  name : String
  filename : String
  offset : Nat
  deriving DecidableEq, Repr

/-- Frames from the innermost to the outermost. -/
abbrev Backtrace := List TraceEntry

namespace Backtrace

def ofFrames (frames : List Frame) : Backtrace :=
  frames.map fun f => ⟨f.code.name, f.code.filename, f.lastOffset⟩

def entryText (e : TraceEntry) : String :=
  "  at " ++ e.name ++ " (" ++ e.filename ++ ":" ++ Text.zeroPadded 4 e.offset ++ ")"

def text (t : Backtrace) : String :=
  String.join (t.map fun e => entryText e ++ "\n")

end Backtrace

end ScriptMachine
