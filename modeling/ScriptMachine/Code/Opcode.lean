import ScriptMachine.Operator.Basic

/-! Operation codes: their bytes, their names and the form of their operands. -/

namespace ScriptMachine

/-! ### Operands -/

/-- The form of an instruction's operand: nothing, one byte, one word or two words. Words have two
bytes, the higher one first. -/
inductive OperandForm where
  | none
  | byte
  | short
  | pair
  deriving DecidableEq, Repr

def OperandForm.width : OperandForm → Nat
  | .none => 0
  | .byte => 1
  | .short => 2
  | .pair => 4

/-! ### Operation codes -/

inductive Opcode where
  | noop
  | popTop
  | dupTop
  | loadConst
  | loadFast
  | storeFast
  | storeConst
  | define
  | deleteFast
  | loadGlobal
  | storeGlobal
  | deleteGlobal
  | loadAttribute
  | storeAttribute
  | loadIndex
  | storeIndex
  | binary (op : BinaryOp)
  | unaryNeg
  | unaryNot
  | compare
  | makeArray
  | makeMap
  | makeFunction
  | jumpAbsolute
  | jumpForward
  /-- Pops a condition and jumps if its truth is the given one. -/
  | popJumpIf (truth : Bool)
  /-- Jumps with the condition kept if its truth is the given one, and pops it otherwise. -/
  | jumpIfOrPop (truth : Bool)
  | startLoop
  | endBlock
  | break_
  | continue_
  | startTry
  | throw
  | openScope
  | closeScope
  | call
  | return_
  deriving DecidableEq, Repr

namespace Opcode

def byte : Opcode → UInt8
  | .noop => 0x00
  | .popTop => 0x01
  | .dupTop => 0x02
  | .loadConst => 0x10
  | .loadFast => 0x11
  | .storeFast => 0x12
  | .storeConst => 0x13
  | .define => 0x14
  | .deleteFast => 0x15
  | .loadGlobal => 0x16
  | .storeGlobal => 0x17
  | .deleteGlobal => 0x18
  | .loadAttribute => 0x19
  | .storeAttribute => 0x1a
  | .loadIndex => 0x1b
  | .storeIndex => 0x1c
  | .binary .add => 0x20
  | .binary .sub => 0x21
  | .binary .mul => 0x22
  | .binary .div => 0x23
  | .binary .mod => 0x24
  | .binary .shl => 0x25
  | .binary .shr => 0x26
  | .binary .bitAnd => 0x27
  | .binary .bitOr => 0x28
  | .binary .bitXor => 0x29
  | .binary .andNot => 0x2a
  | .binary .and => 0x2b
  | .binary .or => 0x2c
  | .unaryNeg => 0x30
  | .unaryNot => 0x31
  | .compare => 0x38
  | .makeArray => 0x40
  | .makeMap => 0x41
  | .makeFunction => 0x42
  | .jumpAbsolute => 0x50
  | .jumpForward => 0x51
  | .popJumpIf true => 0x52
  | .popJumpIf false => 0x53
  | .jumpIfOrPop true => 0x54
  | .jumpIfOrPop false => 0x55
  | .startLoop => 0x60
  | .endBlock => 0x61
  | .break_ => 0x62
  | .continue_ => 0x63
  | .startTry => 0x64
  | .throw => 0x65
  | .openScope => 0x66
  | .closeScope => 0x67
  | .call => 0x70
  | .return_ => 0x71

def mnemonic : Opcode → String
  | .noop => "NOOP"
  | .popTop => "POP_TOP"
  | .dupTop => "DUP_TOP"
  | .loadConst => "LOAD_CONST"
  | .loadFast => "LOAD_FAST"
  | .storeFast => "STORE_FAST"
  | .storeConst => "STORE_CONST"
  | .define => "DEFINE"
  | .deleteFast => "DELETE_FAST"
  | .loadGlobal => "LOAD_GLOBAL"
  | .storeGlobal => "STORE_GLOBAL"
  | .deleteGlobal => "DELETE_GLOBAL"
  | .loadAttribute => "LOAD_ATTRIBUTE"
  | .storeAttribute => "STORE_ATTRIBUTE"
  | .loadIndex => "LOAD_INDEX"
  | .storeIndex => "STORE_INDEX"
  | .binary .add => "BINARY_ADD"
  | .binary .sub => "BINARY_SUB"
  | .binary .mul => "BINARY_MUL"
  | .binary .div => "BINARY_DIVIDE"
  | .binary .mod => "BINARY_MOD"
  | .binary .shl => "BINARY_SHIFTL"
  | .binary .shr => "BINARY_SHIFTR"
  | .binary .bitAnd => "BINARY_AND"
  | .binary .bitOr => "BINARY_OR"
  | .binary .bitXor => "BINARY_XOR"
  | .binary .andNot => "BINARY_ANDNOT"
  | .binary .and => "BINARY_LOGIC_AND"
  | .binary .or => "BINARY_LOGIC_OR"
  | .unaryNeg => "UNARY_NEG"
  | .unaryNot => "UNARY_NOT"
  | .compare => "COMPARE"
  | .makeArray => "MAKE_ARRAY"
  | .makeMap => "MAKE_MAP"
  | .makeFunction => "MAKE_FUNCTION"
  | .jumpAbsolute => "JUMP_ABSOLUTE"
  | .jumpForward => "JUMP_FORWARD"
  | .popJumpIf true => "POP_JUMP_IF_TRUE"
  | .popJumpIf false => "POP_JUMP_IF_FALSE"
  | .jumpIfOrPop true => "JUMP_IF_TRUE_OR_POP"
  | .jumpIfOrPop false => "JUMP_IF_FALSE_OR_POP"
  | .startLoop => "START_LOOP"
  | .endBlock => "END_BLOCK"
  | .break_ => "BREAK"
  | .continue_ => "CONTINUE"
  | .startTry => "START_TRY"
  | .throw => "THROW"
  | .openScope => "OPEN_SCOPE"
  | .closeScope => "CLOSE_SCOPE"
  | .call => "CALL"
  | .return_ => "RETURN"

/-- The form of the operand depends on the operation alone. -/
def form : Opcode → OperandForm
  | .compare => .byte
  | .loadConst | .loadFast | .storeFast | .storeConst | .define | .deleteFast
  | .loadGlobal | .storeGlobal | .deleteGlobal | .loadAttribute | .storeAttribute
  | .makeArray | .makeMap | .jumpAbsolute | .jumpForward | .popJumpIf _ | .jumpIfOrPop _
  | .startTry | .call => .short
  | .startLoop => .pair
  | _ => .none

/-- The number of bytes that the operand takes. -/
def operandWidth (o : Opcode) : Nat :=
  o.form.width

/-- Every operation, by increasing byte. -/
def all : List Opcode :=
  [.noop, .popTop, .dupTop, .loadConst, .loadFast, .storeFast, .storeConst, .define, .deleteFast,
    .loadGlobal, .storeGlobal, .deleteGlobal, .loadAttribute, .storeAttribute, .loadIndex,
    .storeIndex]
    ++ BinaryOp.all.map .binary
    ++ [.unaryNeg, .unaryNot, .compare, .makeArray, .makeMap, .makeFunction, .jumpAbsolute,
      .jumpForward, .popJumpIf true, .popJumpIf false, .jumpIfOrPop true, .jumpIfOrPop false,
      .startLoop, .endBlock, .break_, .continue_, .startTry, .throw, .openScope, .closeScope,
      .call, .return_]

/-- For every byte the operation that it stands for. -/
def byByte : Vector (Option Opcode) 256 :=
  .ofFn fun b => all.find? (·.byte == UInt8.ofFin b)

/-- The operation that a byte stands for, if any. -/
def ofByte? (b : UInt8) : Option Opcode :=
  have bound : b.toNat < 256 := b.toNat_lt
  byByte[b.toNat]

theorem ofByte?_eq (b : UInt8) : ofByte? b = all.find? (·.byte == b) := by
  simp [ofByte?, byByte]

theorem mem_all (o : Opcode) : o ∈ all := by
  cases o with
  | binary op => cases op <;> simp [all, BinaryOp.all]
  | popJumpIf truth => cases truth <;> simp [all]
  | jumpIfOrPop truth => cases truth <;> simp [all]
  | _ => simp [all]

theorem ofByte?_byte (o : Opcode) : ofByte? o.byte = some o := by
  rw [ofByte?_eq]
  cases o with
  | binary op => cases op <;> rfl
  | popJumpIf truth => cases truth <;> rfl
  | jumpIfOrPop truth => cases truth <;> rfl
  | _ => rfl

/-- No two operations share a byte, and no byte but that of an operation is read as one. -/
theorem ofByte?_eq_some_iff {b : UInt8} {o : Opcode} : ofByte? b = some o ↔ o.byte = b := by
  constructor
  · intro h
    rw [ofByte?_eq] at h
    simpa using List.find?_some h
  · rintro rfl
    exact ofByte?_byte o

def ofMnemonic? (s : String) : Option Opcode :=
  all.find? (·.mnemonic == s)

/-- The operator that an instruction applies to the two topmost operands. -/
def binaryOp? : Opcode → Option BinaryOp
  | .binary op => some op
  | _ => none

/-- Operations whose operand is an offset in the code. -/
def hasAbsoluteTarget : Opcode → Bool
  | .jumpAbsolute | .popJumpIf _ | .jumpIfOrPop _ | .startTry => true
  | _ => false

end Opcode

end ScriptMachine
