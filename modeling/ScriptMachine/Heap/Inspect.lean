import ScriptMachine.Heap.Basic
import ScriptMachine.Text.Quoted

/-! The text of a value as a script's user sees it. -/

namespace ScriptMachine

/-- The text of a value that holds no other value. Code blocks are shown by the given label. -/
def Value.leafText (label : CodeId → String) : Value → String
  | .null => "nil"
  | .boolean b => if b then "true" else "false"
  | .integer n => toString n.toInt
  | .float x => x.text
  | .string s => s
  | .array _ => "[]"
  | .map _ => "\x7b\x7d"
  | .exception e => e.text
  | .error message => "Error: " ++ message
  | .function f => "func " ++ f.name ++ "(" ++ Text.join ", " f.params ++ ")"
  | .native f => "<builtin " ++ f.name ++ ">"
  | .code id => "<codeblock " ++ label id ++ ">"

namespace Heap

/-- Shows containers down to the given depth. -/
def inspectTo (h : Heap) (label : CodeId → String) : Nat → Value → String
  | depth + 1, .array id =>
    "[" ++ Text.join ", " ((h.elements id).toList.map (inspectTo h label depth)) ++ "]"
  | depth + 1, .map id =>
    "\x7b"
      ++ Text.join ", "
        ((h.fields id).entries.map fun e => e.1 ++ ": " ++ inspectTo h label depth e.2)
      ++ "\x7d"
  | _, v => v.leafText label

/-- Elements in order, entries by key. Every chain of nested containers is followed to its end. -/
def inspect (h : Heap) (label : CodeId → String) (v : Value) : String :=
  h.inspectTo label h.containers v

/-- The text for programmers: texts are quoted and functions show their parts. Containers and all
other values are shown as users see them. -/
def debug (h : Heap) (label : CodeId → String) : Value → String
  | .string s => Text.quoted s
  | .function f =>
    "Function \x7b name: " ++ Text.quoted f.name
      ++ ", params: [" ++ Text.join ", " (f.params.map Text.quoted)
      ++ "], code: " ++ Text.quoted (label f.code) ++ " \x7d"
  | .native f => "NativeFunction(" ++ f.name ++ ")"
  | v => h.inspect label v

end Heap

end ScriptMachine
