import ScriptMachine.Heap.Basic

/-! Equality of values as scripts see it. -/

namespace ScriptMachine

/-- Equality of values that hold no other value. Numbers compare as numbers, callables and code
blocks by identity. -/
def Value.leafEqual : Value → Value → Bool
  | .float x, .float y => x.eq y
  | .function f, .function g => f.stamp == g.stamp
  | .native f, .native g => f.stamp == g.stamp
  | .array _, .array _ => true
  | .map _, .map _ => true
  | v, w => v == w

namespace Heap

/-- Compares contents of containers down to the given depth. -/
def equalTo (h : Heap) : Nat → Value → Value → Bool
  | depth + 1, .array a, .array b =>
    (h.elements a).size == (h.elements b).size
      && ((h.elements a).toList.zip (h.elements b).toList).all fun p => equalTo h depth p.1 p.2
  | depth + 1, .map a, .map b =>
    (h.fields a).keys == (h.fields b).keys
      && ((h.fields a).entries.zip (h.fields b).entries).all
        fun p => equalTo h depth p.1.2 p.2.2
  | _, v, w => v.leafEqual w

/-- Containers are equal when their contents are, whether or not they are the same container. -/
def equal (h : Heap) (v w : Value) : Bool :=
  h.equalTo h.containers v w

end Heap

end ScriptMachine
