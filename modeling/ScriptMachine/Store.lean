import ScriptMachine.Code.Block
import ScriptMachine.Heap.Copy
import ScriptMachine.Heap.Equal
import ScriptMachine.Heap.Inspect
import ScriptMachine.Scope.Dump

/-! All that outlives a run: containers, scopes, code blocks and what was printed. -/

namespace ScriptMachine

structure Store where
  heap : Heap := {}
  scopes : Scopes := {}
  blocks : Array CodeBlock := #[]
  /-- What was printed and not yet taken, one text for each interpreter. -/
  outputs : Array String := #[]
  /-- The number of functions made so far, of the script and of the host. -/
  functions : Nat := 0
  deriving Inhabited

namespace Store

def block (s : Store) (id : CodeId) : CodeBlock :=
  s.blocks.getD id default

def addBlock (s : Store) (b : CodeBlock) : CodeId × Store :=
  (s.blocks.size, { s with blocks := s.blocks.push b })

/-! ### Values as text -/

def label (s : Store) (id : CodeId) : String :=
  (s.block id).name

def inspect (s : Store) (v : Value) : String :=
  s.heap.inspect s.label v

def debug (s : Store) (v : Value) : String :=
  s.heap.debug s.label v

def dump (s : Store) (e : ScopeId) (indent : Nat) : String :=
  s.scopes.dump s.inspect e indent

/-! ### Values -/

def equal (s : Store) (v w : Value) : Bool :=
  s.heap.equal v w

def copy (s : Store) (v : Value) : Value × Store :=
  let (v, heap) := s.heap.copy v
  (v, { s with heap })

/-- A function like no other so far. -/
def newClosure (s : Store) (name : String) (params : List String) (code : CodeId)
    (scope : ScopeId) : Closure × Store :=
  (⟨s.functions, name, params, code, scope⟩, { s with functions := s.functions + 1 })

/-- A function of the host like no other so far. -/
def newNative (s : Store) (name : String) (place : Option Nat) : NativeRef × Store :=
  (⟨s.functions, name, place⟩, { s with functions := s.functions + 1 })

/-! ### Output -/

def newOutput (s : Store) : Nat × Store :=
  (s.outputs.size, { s with outputs := s.outputs.push "" })

def print (s : Store) (output : Nat) (text : String) : Store :=
  { s with outputs := s.outputs.modify output (· ++ text) }

/-- Takes what was printed; what is printed later starts afresh. -/
def takeOutput (s : Store) (output : Nat) : String × Store :=
  (s.outputs.getD output "", { s with outputs := s.outputs.setIfInBounds output "" })

end Store

end ScriptMachine
