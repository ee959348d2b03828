import Mathlib.Data.List.Forall2
import ScriptMachine.Assembler.Basic

/-! What a sequence of assembly calls asks for. Every call is performed, whether the ones before it
have failed or not; what the finished block must hold is read off the calls alone. -/

namespace ScriptMachine

namespace Directive

/-- The assembler after a step, which may have failed. -/
def after (d : Directive) (a : Assembler) : Assembler :=
  match d.perform a with
  | .ok _ a => a
  | .error _ a => a

def succeeds (d : Directive) (a : Assembler) : Bool :=
  match d.perform a with
  | .ok .. => true
  | .error .. => false

/-- Steps that add an instruction, if they succeed. -/
def emits : Directive → Bool
  | .newLabel | .bind _ | .bindCatch _ | .adjust _ | .addConstant _ | .addName _
  | .addLocal _ => false
  | _ => true

/-- Steps that bind a label. -/
def binds (label : Nat) : Directive → Bool
  | .bind l | .bindCatch l => l == label
  | _ => false

end Directive

/-! ### Calls -/

/-- A step with the assembler on which it is performed. -/
structure Call where
  before : Assembler
  step : Directive

namespace Assembler

/-- An assembler on which no step has been performed. -/
def fresh (name filename : String) (debugInfo : Bool) : Assembler :=
  { name, filename, debugInfo }

/-- The calls of the given steps, in order. -/
def calls (a : Assembler) : List Directive → List Call
  | [] => []
  | d :: rest => ⟨a, d⟩ :: (d.after a).calls rest

/-- The assembler after all steps. -/
def afterAll (a : Assembler) : List Directive → Assembler
  | [] => a
  | d :: rest => (d.after a).afterAll rest

end Assembler

namespace Call

/-- The offset at the time of the call. -/
def offset (c : Call) : Nat :=
  c.before.code.size

/-- The call has added an instruction. -/
def emits (c : Call) : Bool :=
  c.step.emits && c.step.succeeds c.before

/-- The call has bound a label, which was known then. -/
def binds (label : Nat) (c : Call) : Bool :=
  c.step.binds label && decide (label < c.before.labels.size)

end Call

/-- The offset to which a label was bound last. -/
def lastBound (calls : List Call) (label : Nat) : Option Nat :=
  calls.foldl (fun last c => if c.binds label then some c.offset else last) none

/-! ### Uses of labels -/

/-- A label in an operand. The operand counts from an origin: the start of the code or, for a
distance, the end of the instruction. -/
structure LabelUse where
  label : Nat
  origin : Nat
  deriving DecidableEq, Repr

/-- Why a label cannot be used, if it is bound as given. -/
def LabelUse.failure? (u : LabelUse) : Option Nat → Option AssemblyError
  | none => some (.unboundLabel u.label)
  | some target =>
    if target < u.origin ∨ 65535 < target - u.origin then some (.jumpOutOfRange target) else none

/-- The labels in the operand of a call, in order. -/
def Call.uses (c : Call) : List LabelUse :=
  match c.step with
  | .jump _ label | .startTry label => [⟨label, 0⟩]
  | .jumpForward label => [⟨label, c.offset + 3⟩]
  | .startLoop iter finish => [⟨iter, 0⟩, ⟨finish, 0⟩]
  | _ => []

/-! ### Instructions -/

/-- An instruction of a block is the one that a step has asked for, if labels are bound as given. -/
def Directive.ReadsAs (d : Directive) (b : CodeBlock) (bound : Nat → Option Nat)
    (i : Instruction) : Prop :=
  match d with
  | .emit o => i.opcode = o ∧ i.operand = .none
  | .emitArg o arg => i.opcode = o ∧ i.arg = arg
  | .loadConst v => i.opcode = .loadConst ∧ b.constants[i.arg]? = some v
  | .localOp o s => i.opcode = o ∧ b.locals[i.arg]? = some s
  | .nameOp o s => i.opcode = o ∧ b.names[i.arg]? = some s
  | .binary op => i.opcode = .binary op ∧ i.operand = .none
  | .compare op => i.opcode = .compare ∧ i.arg = op.number
  | .call argc => i.opcode = .call ∧ i.arg = argc
  | .jump o label => i.opcode = o ∧ bound label = some i.arg
  | .startTry label => i.opcode = .startTry ∧ bound label = some i.arg
  | .jumpForward label => i.opcode = .jumpForward ∧ bound label = some (i.next + i.arg)
  | .startLoop first second => i.opcode = .startLoop ∧ ∃ iter finish,
      i.operand = .pair iter finish ∧ bound first = some iter.toNat ∧
        bound second = some finish.toNat
  | _ => False

end ScriptMachine
