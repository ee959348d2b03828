/-! The operators of the language and their spelling. -/

namespace ScriptMachine

inductive BinaryOp where
  | add
  | sub
  | mul
  | div
  | mod
  | shl
  | shr
  | bitAnd
  | bitOr
  | bitXor
  | andNot
  | and
  | or
  deriving DecidableEq, Repr

namespace BinaryOp

def symbol : BinaryOp → String
  | .add => "+"
  | .sub => "-"
  | .mul => "*"
  | .div => "/"
  | .mod => "%"
  | .shl => "<<"
  | .shr => ">>"
  | .bitAnd => "&"
  | .bitOr => "|"
  | .bitXor => "^"
  | .andNot => "&^"
  | .and => "and"
  | .or => "or"

/-- Every operator, in the order of the instructions that apply them. -/
def all : List BinaryOp :=
  [.add, .sub, .mul, .div, .mod, .shl, .shr, .bitAnd, .bitOr, .bitXor, .andNot, .and, .or]

def ofSymbol? (s : String) : Option BinaryOp :=
  all.find? (·.symbol == s)

end BinaryOp

inductive CompareOp where
  | lt
  | gt
  | eq
  | ne
  | le
  | ge
  deriving DecidableEq, Repr

namespace CompareOp

def symbol : CompareOp → String
  | .lt => "<"
  | .gt => ">"
  | .eq => "=="
  | .ne => "!="
  | .le => "<="
  | .ge => ">="

/-- Every comparison; its place is its number in an instruction. -/
def all : List CompareOp :=
  [.lt, .gt, .eq, .ne, .le, .ge]

def number : CompareOp → Nat
  | .lt => 0
  | .gt => 1
  | .eq => 2
  | .ne => 3
  | .le => 4
  | .ge => 5

def ofNumber? (n : Nat) : Option CompareOp :=
  all[n]?

def ofSymbol? (s : String) : Option CompareOp :=
  all.find? (·.symbol == s)

/-- Equality and its negation, which more kinds support than an order. -/
def isEquality : CompareOp → Bool
  | .eq | .ne => true
  | _ => false

end CompareOp

end ScriptMachine
