/-! Limits on what a run may use. -/

namespace ScriptMachine

/-- How much a run may use. -/
structure Limits where
  /-- The most operands, and the most open blocks, that a code block may declare. -/
  maxStackSize : Nat := 1024
  /-- The most frames that may be active. -/
  maxRecursionDepth : Nat := 256
  deriving DecidableEq, Repr

inductive LimitName where
  | maxStackSize
  | maxRecursionDepth
  deriving DecidableEq, Repr

def LimitName.word : LimitName → String
  | .maxStackSize => "max_stack_size"
  | .maxRecursionDepth => "max_recursion_depth"

/-- The first limit that is zero: nothing can run under it. -/
def Limits.invalid? (l : Limits) : Option LimitName :=
  if l.maxStackSize = 0 then some .maxStackSize
  else if l.maxRecursionDepth = 0 then some .maxRecursionDepth
  else none

end ScriptMachine
