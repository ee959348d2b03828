import ScriptMachine.Heap.Basic

/-! Deep copies of values. -/

namespace ScriptMachine

namespace Heap

/-- Copies containers down to the given depth, the contents before the container. Code blocks are
not copied: null takes their place. -/
def copyTo : Nat → Value → StateM Heap Value
  | depth + 1, .array id => do
    let copies ← ((← get).elements id).toList.mapM (copyTo depth)
    modifyGet fun h => h.newArray copies.toArray
  | depth + 1, .map id => do
    let fields := (← get).fields id
    let copies ← fields.values.mapM (copyTo depth)
    modifyGet fun h => h.newMap (fields.withValues copies)
  | _, .code _ => return .null
  | _, v => return v

/-- A copy that shares no container with anything that existed before. -/
def copy (h : Heap) (v : Value) : Value × Heap :=
  copyTo h.containers v h

end Heap

end ScriptMachine
