import ScriptMachine.Code.Opcode
import ScriptMachine.Value
import Std.Data.HashMap

/-! The tables of a block that is being assembled. An entry keeps its place once it has one. -/

namespace ScriptMachine

inductive AssemblyError where
  | tableFull (table : String) (limit : Nat)
  | unboundLabel (label : Nat)
  | operandOutOfRange (opcode : Opcode) (operand width : Nat)
  | jumpOutOfRange (target : Nat)
  deriving DecidableEq, Repr

namespace AssemblyError

def message : AssemblyError → String
  | .tableFull table limit => table ++ s!" table is full (limit {limit} entries)"
  | .unboundLabel label => s!"label {label} was never bound"
  | .operandOutOfRange opcode operand width =>
    s!"operand {operand} does not fit in {width} bytes for " ++ opcode.mnemonic
  | .jumpOutOfRange target => s!"jump target {target} does not fit in a 16-bit operand"

def name : AssemblyError → String
  | .tableFull .. => "TableOverflow"
  | .unboundLabel _ => "UnboundLabel"
  | .operandOutOfRange .. => "OperandOutOfRange"
  | .jumpOutOfRange _ => "JumpOutOfRange"

end AssemblyError

/-- As many entries as a word can number. -/
def tableLimit : Nat :=
  65536

/-! ### Constants -/

/-- The constants of a block. A literal is stored once, any other value as often as it is added. -/
structure ConstantPool where
  values : Array Value := #[]
  /-- The places of the literals. -/
  places : Std.HashMap Value Nat := {}

namespace ConstantPool

def place? (p : ConstantPool) (v : Value) : Option Nat :=
  if v.isLiteral then p.places[v]? else none

/-- The place of a constant, a new one at the end if it has none. -/
def placeFor (p : ConstantPool) (v : Value) : Except AssemblyError Nat :=
  match p.place? v with
  | some place => .ok place
  | none =>
    if tableLimit ≤ p.values.size then .error (.tableFull "constant" tableLimit)
    else .ok p.values.size

/-- The pool with a constant at a place, which is the end unless the constant is there already. -/
def putAt (p : ConstantPool) (v : Value) (place : Nat) : ConstantPool :=
  if place < p.values.size then p
  else
    { values := p.values.push v
      places := if v.isLiteral then p.places.insert v place else p.places }

/-- Adds a constant and answers its place. -/
def insert (p : ConstantPool) (v : Value) : Except AssemblyError (Nat × ConstantPool) :=
  (p.placeFor v).map fun place => (place, p.putAt v place)

end ConstantPool

/-! ### Names -/

/-- A table of names without repetitions. -/
structure NamePool where
  /-- What the table holds, for messages. -/
  table : String
  entries : Array String := #[]

namespace NamePool

def place? (p : NamePool) (s : String) : Option Nat :=
  p.entries.idxOf? s

def contains (p : NamePool) (s : String) : Bool :=
  (p.place? s).isSome

/-- The place of a name, a new one at the end if it has none. -/
def placeFor (p : NamePool) (s : String) : Except AssemblyError Nat :=
  match p.place? s with
  | some place => .ok place
  | none =>
    if tableLimit ≤ p.entries.size then .error (.tableFull p.table tableLimit)
    else .ok p.entries.size

/-- The pool with a name at a place, which is the end unless the name is there already. -/
def putAt (p : NamePool) (s : String) (place : Nat) : NamePool :=
  if place < p.entries.size then p else { p with entries := p.entries.push s }

/-- Adds a name and answers its place. -/
def insert (p : NamePool) (s : String) : Except AssemblyError (Nat × NamePool) :=
  (p.placeFor s).map fun place => (place, p.putAt s place)

end NamePool

end ScriptMachine
