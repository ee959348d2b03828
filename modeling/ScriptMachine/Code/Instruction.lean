import ScriptMachine.Code.Opcode
import ScriptMachine.Fault

/-! Instructions as bytes: an operation code and its operand, and the walk over a code. -/

namespace ScriptMachine

/-! ### Words -/

def wordBytes (w : UInt16) : List UInt8 :=
  [(w >>> 8).toUInt8, w.toUInt8]

def wordOf (high low : UInt8) : UInt16 :=
  (high.toUInt16 <<< 8) ||| low.toUInt16

/-- A word is read back from its two bytes. -/
theorem wordOf_wordBytes (w : UInt16) : wordOf (w >>> 8).toUInt8 w.toUInt8 = w := by
  apply UInt16.toNat_inj.mp
  have bound := w.toNat_lt
  simp [wordOf, Nat.shiftLeft_eq, Nat.shiftRight_eq_div_pow]
  rw [Nat.mod_eq_of_lt (by omega), ← Nat.shiftLeft_eq _ 8,
    ← Nat.shiftLeft_add_eq_or_of_lt (by omega), Nat.shiftLeft_eq]
  omega

/-! ### Operands -/

inductive Operand where
  | none
  | byte (b : UInt8)
  | short (w : UInt16)
  /-- The two offsets of a loop: where it goes on and where it ends. -/
  | pair (first second : UInt16)
  deriving DecidableEq, Repr

namespace Operand

def form : Operand → OperandForm
  | .none => .none
  | .byte _ => .byte
  | .short _ => .short
  | .pair .. => .pair

def bytes : Operand → List UInt8
  | .none => []
  | .byte b => [b]
  | .short w => wordBytes w
  | .pair a b => wordBytes a ++ wordBytes b

/-- The operand as one number, zero if there is none. -/
def number : Operand → Nat
  | .none => 0
  | .byte b => b.toNat
  | .short w => w.toNat
  | .pair first _ => first.toNat

/-- Reads an operand of the given form; `none` if the code ends within it. -/
def read? (code : Array UInt8) (offset : Nat) : OperandForm → Option Operand
  | .none => some .none
  | .byte => do return .byte (← code[offset]?)
  | .short => do return .short (wordOf (← code[offset]?) (← code[offset + 1]?))
  | .pair => do
    return .pair (wordOf (← code[offset]?) (← code[offset + 1]?))
      (wordOf (← code[offset + 2]?) (← code[offset + 3]?))

end Operand

/-! ### Instructions -/

structure Instruction where
  /-- Where the operation code stands. -/
  offset : Nat
  opcode : Opcode
  operand : Operand
  deriving DecidableEq, Repr

namespace Instruction

def length (i : Instruction) : Nat :=
  1 + i.opcode.operandWidth

/-- The offset after the operand. -/
def next (i : Instruction) : Nat :=
  i.offset + i.length

def arg (i : Instruction) : Nat :=
  i.operand.number

def bytes (i : Instruction) : List UInt8 :=
  i.opcode.byte :: i.operand.bytes

/-- Reads the instruction at an offset. -/
def decodeAt (code : Array UInt8) (offset : Nat) : Except Fault Instruction :=
  match code[offset]? with
  | none => .error (.truncatedInstruction offset)
  | some byte =>
    match Opcode.ofByte? byte with
    | none => .error (.invalidOpcode byte offset)
    | some opcode =>
      match Operand.read? code (offset + 1) opcode.form with
      | none => .error (.truncatedInstruction offset)
      | some operand => .ok ⟨offset, opcode, operand⟩

/-- The instructions from an offset on, one after the other. A fault ends the walk. -/
def walk (code : Array UInt8) (offset : Nat) : List (Except Fault Instruction) :=
  if offset < code.size then
    match decodeAt code offset with
    | .error f => [.error f]
    | .ok i => .ok i :: walk code (offset + i.length)
  else []
termination_by code.size - offset
decreasing_by simp only [length]; omega

end Instruction

end ScriptMachine
