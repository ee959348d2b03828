import ScriptMachine.Store

/-! Templates: descriptions of values. Each time a template is built, the containers and functions
in the value are new ones. -/

namespace ScriptMachine

inductive Template where
  /-- A value that is the same each time. -/
  | value (v : Value)
  | array (elements : List Template)
  | map (fields : List (String × Template))
  /-- A function of the script over a new outermost scope. -/
  | function (name : String) (params : List String) (code : CodeId)
  /-- A function of the host that does nothing and answers null. -/
  | native (name : String)

namespace Template

mutual

def build : Template → StateM Store Value
  | .value v => return v
  | .array elements => do
    let vs ← buildAll elements
    modifyGet fun s =>
      let (v, heap) := s.heap.newArray vs.toArray
      (v, { s with heap })
  | .map fields => do
    let entries ← buildFields fields
    modifyGet fun s =>
      let (v, heap) := s.heap.newMap (Dict.ofList entries)
      (v, { s with heap })
  | .function name params code =>
    modifyGet fun s =>
      let (scope, scopes) := s.scopes.newRoot
      let (f, s) := { s with scopes }.newClosure name params code scope
      (.function f, s)
  | .native name =>
    modifyGet fun s =>
      let (f, s) := s.newNative name none
      (.native f, s)

def buildAll : List Template → StateM Store (List Value)
  | [] => return []
  | t :: rest => return (← t.build) :: (← buildAll rest)

def buildFields : List (String × Template) → StateM Store (List (String × Value))
  | [] => return []
  | (key, t) :: rest => return (key, ← t.build) :: (← buildFields rest)

end

end Template

end ScriptMachine
