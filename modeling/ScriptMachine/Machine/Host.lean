import ScriptMachine.Machine.Basic

/-! The machine on its host. A new frame takes the memory for both of its stacks at once, as much as
its block declares. The limits may let a block declare more than the host can hand out: then the
host panics, and the run has no outcome. -/

namespace ScriptMachine

/-! ### Memory -/

/-- The most bytes that the host hands out in one piece: what a signed machine word can count. A
host whose memory runs out before that is not modelled. -/
def maxAllocation : Nat :=
  0x7fffffffffffffff

/-- The bytes of an operand. -/
def Value.bytes : Nat :=
  24

/-- The bytes of an open block. -/
def Block.bytes : Nat :=
  40

/-- The host can hand out both stacks of a frame at the sizes that the block declares. -/
def CodeBlock.Allocatable (b : CodeBlock) : Prop :=
  b.maxStack * Value.bytes ≤ maxAllocation ∧ b.maxBlocks * Block.bytes ≤ maxAllocation

instance (b : CodeBlock) : Decidable b.Allocatable :=
  inferInstanceAs (Decidable (_ ∧ _))

/-! ### Runs -/

/-- What becomes of a run on the host. -/
inductive Hosted (α : Type) where
  | ended (result : α)
  /-- The host has panicked, since it could not hand out the stacks of a new frame. -/
  | crashed
  /-- The run takes more steps than it was given. -/
  | unfinished

namespace Hosted

variable {α β : Type}

def map (f : α → β) : Hosted α → Hosted β
  | .ended result => .ended (f result)
  | .crashed => .crashed
  | .unfinished => .unfinished

def result? : Hosted α → Option α
  | .ended result => some result
  | .crashed | .unfinished => none

end Hosted

namespace Machine

/-- The host could hand out the stacks of the innermost frame. -/
def Allocated (m : Machine) : Prop :=
  ∀ f ∈ m.frames.top?, f.code.Allocatable

instance (m : Machine) : Decidable m.Allocated :=
  inferInstanceAs (Decidable (∀ f ∈ m.frames.top?, f.code.Allocatable))

/-- Steps until the run ends, but at most `budget` times. A new frame is the innermost one when the
host is asked for its stacks, and a frame that is the innermost one again has them. -/
def hosted : Nat → Machine → Hosted (Outcome × Machine)
  | 0, _ => .unfinished
  | budget + 1, m =>
    if m.Allocated then
      match m.step with
      | .running m => hosted budget m
      | .finished o m => .ended (o, m)
    else .crashed

/-- Runs a block in a scope on the host. -/
def hostedIn (budget : Nat) (code : CodeBlock) (scope : ScopeId) (m : Machine) :
    Hosted (Outcome × Machine) :=
  let ended :=
    match m.start code scope with
    | .running m => m.hosted budget
    | .finished o m => .ended (o, m)
  ended.map fun (o, m) => (o, { m with frames := .empty })

end Machine

end ScriptMachine
