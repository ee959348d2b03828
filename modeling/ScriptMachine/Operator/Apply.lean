import ScriptMachine.Operator.Basic
import ScriptMachine.Heap.Basic

/-! What operators do to values. Nothing is coerced: operands of different kinds are refused, and
so are operators that the kind of the operands does not have. -/

namespace ScriptMachine

/-! ### Results -/

/-- A result that is not yet in the heap: a value, or the elements of a new array. -/
inductive Computed where
  | value (v : Value)
  | array (elements : Array Value)

def Heap.keep (h : Heap) : Computed → Value × Heap
  | .value v => (v, h)
  | .array elements => h.newArray elements

/-! ### Arithmetic -/

namespace BinaryOp

/-- The number of places to shift by; `none` stands for more places than a number has. -/
def shiftAmount (b : Int64) : Except Interrupt (Option Int64) :=
  if b < 0 then .error Misuse.negativeShift.interrupt
  else .ok (if b < 64 then some b else none)

/-- Shifting by 64 places or more leaves zero. -/
def shiftLeft (a b : Int64) : Except Interrupt Int64 :=
  return (← shiftAmount b).elim 0 (a <<< ·)

/-- Shifting by 64 places or more leaves the sign. -/
def shiftRight (a b : Int64) : Except Interrupt Int64 :=
  return (← shiftAmount b).elim (if a < 0 then -1 else 0) (a >>> ·)

/-- Integer arithmetic wraps. A zero divisor is a fault and a negative shift an exception. -/
def onIntegers (op : BinaryOp) (a b : Int64) : Except Interrupt Int64 :=
  match op with
  | .add => .ok (a + b)
  | .sub => .ok (a - b)
  | .mul => .ok (a * b)
  | .div => if b = 0 then .error (.fault .divisionByZero) else .ok (a / b)
  | .mod => if b = 0 then .error (.fault .divisionByZero) else .ok (a % b)
  | .shl => shiftLeft a b
  | .shr => shiftRight a b
  | .bitAnd => .ok (a &&& b)
  | .bitOr => .ok (a ||| b)
  | .bitXor => .ok (a ^^^ b)
  | .andNot => .ok (a &&& ~~~b)
  | .and | .or => .error (Misuse.unknownOperator .integer op.symbol .integer).interrupt

/-- Floats have the five arithmetic operators. -/
def onFloats? (op : BinaryOp) (a b : Double) : Option Double :=
  match op with
  | .add => some (a.add b)
  | .sub => some (a.sub b)
  | .mul => some (a.mul b)
  | .div => some (a.div b)
  | .mod => some (a.rem b)
  | _ => none

/-- Booleans have the two logical operators. -/
def onBooleans? (op : BinaryOp) (a b : Bool) : Option Bool :=
  match op with
  | .and => some (a && b)
  | .or => some (a || b)
  | _ => none

/-- What an operator computes from evaluated operands. Texts and arrays are joined by `+`; the
joined array holds the elements of both. -/
def compute (op : BinaryOp) (left right : Value) (h : Heap) : Except Interrupt Computed :=
  let unknown := Except.error (Misuse.unknownOperator left.kind op.symbol right.kind).interrupt
  if left.kind ≠ right.kind then
    .error (Misuse.typeMismatch left.kind op.symbol right.kind).interrupt
  else
    match left, right with
    | .integer a, .integer b => (op.onIntegers a b).map fun n => .value (.integer n)
    | .float a, .float b => (op.onFloats? a b).elim unknown fun x => .ok (.value (.float x))
    | .string a, .string b => if op = .add then .ok (.value (.string (a ++ b))) else unknown
    | .array a, .array b =>
      if op = .add then .ok (.array (h.elements a ++ h.elements b)) else unknown
    | .boolean a, .boolean b => (op.onBooleans? a b).elim unknown fun c => .ok (.value (.boolean c))
    | _, _ => unknown

/-- Applies an operator to evaluated operands. An array that it computes is a new one. -/
def apply (op : BinaryOp) (left right : Value) (h : Heap) : Except Interrupt (Value × Heap) :=
  (op.compute left right h).map h.keep

end BinaryOp

/-! ### Comparison -/

namespace CompareOp

def onIntegers (op : CompareOp) (a b : Int64) : Bool :=
  match op with
  | .lt => decide (a < b)
  | .gt => decide (b < a)
  | .eq => a == b
  | .ne => a != b
  | .le => decide (a ≤ b)
  | .ge => decide (b ≤ a)

/-- NaN differs from every number, itself included, and is neither below nor above one. -/
def onFloats (op : CompareOp) (a b : Double) : Bool :=
  match op with
  | .lt => a.lt b
  | .gt => b.lt a
  | .eq => a.eq b
  | .ne => !a.eq b
  | .le => a.le b
  | .ge => b.le a

/-- The answer of an equality operator, given whether the operands are equal. -/
def onEquality? (op : CompareOp) (same : Bool) : Option Bool :=
  match op with
  | .eq => some same
  | .ne => some (!same)
  | _ => none

/-- Compares evaluated operands. Numbers are ordered; texts, booleans and null are only equal or
not; other kinds are not compared. -/
def apply (op : CompareOp) (left right : Value) : Except Interrupt Value :=
  let answer (b? : Option Bool) : Except Interrupt Value :=
    match b? with
    | some b => .ok (.boolean b)
    | none => .error (Misuse.unknownOperator left.kind op.symbol right.kind).interrupt
  if left.kind ≠ right.kind then
    .error (Misuse.typeMismatch left.kind op.symbol right.kind).interrupt
  else
    match left, right with
    | .integer a, .integer b => answer (some (op.onIntegers a b))
    | .float a, .float b => answer (some (op.onFloats a b))
    | .string a, .string b => answer (op.onEquality? (a == b))
    | .boolean a, .boolean b => answer (op.onEquality? (a == b))
    | .null, .null => answer (op.onEquality? true)
    | _, _ => answer none

end CompareOp

/-! ### Unary operators -/

namespace Value

/-- Numbers are negated, integers modulo 2 ^ 64. -/
def negate : Value → Except Interrupt Value
  | .integer n => .ok (.integer (-n))
  | .float x => .ok (.float x.neg)
  | v => .error (Misuse.unknownNegation v.kind).interrupt

def not (v : Value) : Value :=
  .boolean (!v.truthy)

end Value

end ScriptMachine
