import ScriptMachine.Code.Instruction

/-! The operands of each instruction and the places to which it leads. -/

namespace ScriptMachine

/-- Operations that only exchange operands, if they do not jump. -/
def Opcode.exchanges : Opcode → Bool
  | .jumpAbsolute | .jumpForward | .startLoop | .endBlock | .break_ | .continue_ | .startTry
  | .throw | .openScope | .closeScope | .return_ => false
  | _ => true

/-- Operations that look a name up in the table of names, and not in that of local variables. -/
def Opcode.usesName : Opcode → Bool
  | .loadGlobal | .storeGlobal | .deleteGlobal | .loadAttribute | .storeAttribute => true
  | _ => false

/-- Operations that look a name up in the table of local variables. -/
def Opcode.usesLocal : Opcode → Bool
  | .loadFast | .storeFast | .storeConst | .define | .deleteFast => true
  | _ => false

namespace Instruction

/-- The number of operands that an instruction takes off or looks at. -/
def takes (i : Instruction) : Nat :=
  match i.opcode with
  | .popTop | .dupTop | .storeFast | .storeConst | .define | .storeGlobal | .loadAttribute
  | .unaryNeg | .unaryNot | .popJumpIf _ | .jumpIfOrPop _ | .throw | .return_ => 1
  | .storeAttribute | .loadIndex | .binary _ | .compare => 2
  | .storeIndex | .makeFunction => 3
  | .makeArray => i.arg
  | .makeMap => i.arg * 2
  | .call => i.arg + 1
  | _ => 0

/-- The number of operands that an instruction puts back, unless it jumps. -/
def puts (i : Instruction) : Nat :=
  match i.opcode with
  | .dupTop => 2
  | .loadConst | .loadFast | .loadGlobal | .loadAttribute | .loadIndex | .binary _ | .unaryNeg
  | .unaryNot | .compare | .makeArray | .makeMap | .makeFunction | .call => 1
  | _ => 0

/-- The number of operands that an instruction takes off when it jumps. -/
def takesOnJump (i : Instruction) : Nat :=
  match i.opcode with
  | .popJumpIf _ => 1
  | _ => 0

/-- Where an instruction may jump to by itself. -/
def jumps (i : Instruction) : List Nat :=
  match i.opcode with
  | .jumpAbsolute | .popJumpIf _ | .jumpIfOrPop _ => [i.arg]
  | .jumpForward => [i.next + i.arg]
  | _ => []

/-- Where an instruction may jump to, or has a block that it opens jump to. -/
def targets (i : Instruction) : List Nat :=
  match i.opcode, i.operand with
  | .startTry, _ => [i.arg]
  | .startLoop, .pair iter finish => [iter.toNat, finish.toNat]
  | _, _ => i.jumps

variable {i : Instruction}

theorem takesOnJump_le_takes (i : Instruction) : i.takesOnJump ≤ i.takes := by
  obtain ⟨_, opcode, _⟩ := i
  cases opcode <;> simp [takesOnJump, takes]

/-- A jump of an instruction is one of its targets. -/
theorem mem_targets_of_mem_jumps {offset : Nat} (h : offset ∈ i.jumps) : offset ∈ i.targets := by
  obtain ⟨_, opcode, operand⟩ := i
  cases opcode <;> simp_all [jumps, targets]

end Instruction

end ScriptMachine
