import ScriptMachine.Machine.Basic

/-! The native functions that every interpreter offers. -/

namespace ScriptMachine

namespace Prelude

/-- What a native answers is computed from the arguments and the store, which stays as it is. -/
def pureNative (name : String) (least : Nat)
    (answer : Store → List Value → Except Interrupt Value) : Native :=
  ⟨name, fun _ args s =>
    match checkArguments name least args >>= fun _ => answer s args with
    | .ok v => .ok v s
    | .error e => .error e s⟩

/-- The first argument as the text of a message: a text as it is, anything else as it is shown. -/
def messageOf (s : Store) (args : List Value) : String :=
  match args.headD .null with
  | .string message => message
  | v => s.inspect v

/-- The line that a call of `print` writes. -/
def printedLine (s : Store) (args : List Value) : String :=
  Text.join " " (args.map s.inspect) ++ "\n"

/-- Writes its arguments to the output of one interpreter. -/
def print (output : Nat) : Native :=
  ⟨"print", fun _ args s => .ok .null (s.print output (printedLine s args))⟩

/-- The length of a text in code points, of an array in elements, of a map in keys. -/
def lengthOf (h : Heap) : Value → Except Interrupt Value
  | .string s => .ok (.integer (Int64.ofNat s.length))
  | .array id => .ok (.integer (Int64.ofNat (h.elements id).size))
  | .map id => .ok (.integer (Int64.ofNat (h.fields id).size))
  | .null => .ok (.integer 0)
  | v => .error (Misuse.noLength v.kind).interrupt

def length : Native :=
  pureNative "len" 1 fun s args => lengthOf s.heap (args.headD .null)

def typeOf : Native :=
  pureNative "typeOf" 1 fun _ args => .ok (.string (args.headD .null).kind.name)

def toText : Native :=
  pureNative "toString" 1 fun s args => .ok (.string (s.inspect (args.headD .null)))

/-- Makes an exception without raising it. -/
def exception : Native :=
  pureNative "exception" 1 fun s args => .ok (.exception (.thrown (messageOf s args)))

def panic : Native :=
  pureNative "panic" 1 fun s args => .error (.raised (.panic (messageOf s args)))

def error : Native :=
  pureNative "error" 1 fun s args => .ok (.error (messageOf s args))

def isError : Native :=
  pureNative "isError" 1 fun _ args => .ok (.boolean ((args.headD .null).kind == .error))

/-- Whether the argument is a catchable exception, caught or not. -/
def isException : Native :=
  pureNative "isException" 1 fun _ args =>
    .ok (.boolean ((args.headD .null).exception?.any (·.catchable)))

/-- Modules are not supported. -/
def modulesSupported : Native :=
  pureNative "modulesSupported" 0 fun _ _ => .ok (.boolean false)

/-- All of them, for an interpreter with the given output. -/
def natives (output : Nat) : List Native :=
  [print output, length, typeOf, toText, exception, panic, error, isError, isException,
    modulesSupported]

end Prelude

/-- Binds natives, read-only, in a scope. -/
def Machine.registerAll (m : Machine) (e : ScopeId) (natives : List Native) :
    Except ScopeError Machine :=
  natives.foldlM (fun m n => m.registerNative e n) m

end ScriptMachine
