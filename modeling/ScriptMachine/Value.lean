import ScriptMachine.Fault
import ScriptMachine.Number.Decimal

/-! Script values. Scalars are stored in place; arrays, maps, scopes and code blocks are known by
their number in the store. -/

namespace ScriptMachine

abbrev ArrayId := Nat

abbrev MapId := Nat

abbrev ScopeId := Nat

abbrev CodeId := Nat

/-! ### Kinds -/

inductive Kind where
  | null
  | boolean
  | integer
  | float
  | string
  | array
  | map
  | exception
  | error
  | function
  | builtin
  | resource
  deriving DecidableEq, Repr

def Kind.name : Kind → String
  | .null => "NULL"
  | .boolean => "BOOLEAN"
  | .integer => "INTEGER"
  | .float => "FLOAT"
  | .string => "STRING"
  | .array => "ARRAY"
  | .map => "MAP"
  | .exception => "EXCEPTION"
  | .error => "ERROR"
  | .function => "FUNCTION"
  | .builtin => "BUILTIN"
  | .resource => "RESOURCE"

/-! ### Values -/

/-- A function of the script: a body with the scope in which it was made. The stamp tells apart
functions that agree in everything else. -/
structure Closure where
  stamp : Nat
  name : String
  params : List String
  code : CodeId
  scope : ScopeId
  deriving DecidableEq, Hashable

/-- A function of the host. The stamp tells it apart from every other function. What it does stands
in the machine's table of natives; one without a place there does nothing and answers null. -/
structure NativeRef where
  stamp : Nat
  name : String
  place : Option Nat
  deriving DecidableEq, Hashable

/-- Equality of these data is identity: two arrays are equal here only if they are one array. -/
inductive Value where
  | null
  | boolean (b : Bool)
  | integer (n : Int64)
  | float (x : Double)
  | string (s : String)
  | array (id : ArrayId)
  | map (id : MapId)
  | exception (e : Exception)
  | error (message : String)
  | function (f : Closure)
  | native (f : NativeRef)
  | code (id : CodeId)
  deriving DecidableEq, Hashable, Inhabited

namespace Value

def kind : Value → Kind
  | .null => .null
  | .boolean _ => .boolean
  | .integer _ => .integer
  | .float _ => .float
  | .string _ => .string
  | .array _ => .array
  | .map _ => .map
  | .exception _ => .exception
  | .error _ => .error
  | .function _ => .function
  | .native _ => .builtin
  | .code _ => .resource

def isNull : Value → Bool
  | .null => true
  | _ => false

def integer? : Value → Option Int64
  | .integer n => some n
  | _ => none

def float? : Value → Option Double
  | .float x => some x
  | _ => none

def boolean? : Value → Option Bool
  | .boolean b => some b
  | _ => none

def string? : Value → Option String
  | .string s => some s
  | _ => none

def exception? : Value → Option Exception
  | .exception e => some e
  | _ => none

/-- Conditions take these kinds; values of other kinds never count as true. -/
def isBoolLike : Value → Bool
  | .null | .boolean _ | .integer _ | .float _ | .string _ => true
  | _ => false

/-- Zero, the empty text, null and false are not true. NaN is true. -/
def truthy : Value → Bool
  | .boolean b => b
  | .integer n => n != 0
  | .float x => !x.isZero
  | .string s => s != ""
  | _ => false

/-- Literals: the values that a constant table stores only once. -/
def isLiteral : Value → Bool
  | .null | .boolean _ | .integer _ | .float _ | .string _ => true
  | _ => false

end Value

/-! ### Misuse of an operation -/

/-- The ways in which a script misuses an operation. Each raises a catchable exception. -/
inductive Misuse where
  | typeMismatch (left : Kind) (symbol : String) (right : Kind)
  | unknownOperator (left : Kind) (symbol : String) (right : Kind)
  | unknownNegation (operand : Kind)
  | negativeShift
  | outOfBounds (index : Int64) (length : Nat)
  | storeIntoItself (container : Kind)
  | noIndexing (target key : Kind)
  | noIndexAssignment (target key : Kind)
  | noAttributes (target : Kind)
  | noAttributeAssignment (target : Kind)
  | mapKey (key : Kind)
  | condition (value : Kind)
  | functionBody (value : Kind)
  | functionParameters (value : Kind)
  | parameterName (value : Kind)
  | notCallable (callee : Kind)
  | missingArguments (function : String) (least given : Nat)
  | noLength (value : Kind)
  deriving DecidableEq, Repr

namespace Misuse

def message : Misuse → String
  | .typeMismatch left symbol right =>
    "type mismatch: " ++ left.name ++ " " ++ symbol ++ " " ++ right.name
  | .unknownOperator left symbol right =>
    "unknown operator: " ++ left.name ++ " " ++ symbol ++ " " ++ right.name
  | .unknownNegation operand => "unknown operator: -" ++ operand.name
  | .negativeShift => "Shift value must be non-negative"
  | .outOfBounds index length =>
    "Index out of bounds: " ++ toString index.toInt ++ s!" (length {length})"
  | .storeIntoItself container => "cannot store " ++ container.name ++ " into itself"
  | .noIndexing target key =>
    "index operator not supported: " ++ target.name ++ "[" ++ key.name ++ "]"
  | .noIndexAssignment target key =>
    "index assignment not supported: " ++ target.name ++ "[" ++ key.name ++ "]"
  | .noAttributes target => "attribute access not supported on " ++ target.name
  | .noAttributeAssignment target => "attribute assignment not supported on " ++ target.name
  | .mapKey key => "map keys must be STRING, got " ++ key.name
  | .condition value => "condition must be boolean-like, got " ++ value.name
  | .functionBody value => "function body must be RESOURCE, got " ++ value.name
  | .functionParameters value => "function parameters must be ARRAY, got " ++ value.name
  | .parameterName value => "parameter names must be STRING, got " ++ value.name
  | .notCallable callee => callee.name ++ " is not callable"
  | .missingArguments function least given =>
    function ++ s!" expects at least {least} argument(s), got {given}"
  | .noLength value => "len expects STRING, ARRAY or MAP, got " ++ value.name

def interrupt (m : Misuse) : Interrupt :=
  .raised (.thrown m.message)

end Misuse

/-- Refuses a call with too few arguments. -/
def checkArguments (function : String) (least : Nat) (args : List Value) :
    Except Interrupt Unit :=
  if args.length < least then .error (Misuse.missingArguments function least args.length).interrupt
  else .ok ()

end ScriptMachine
