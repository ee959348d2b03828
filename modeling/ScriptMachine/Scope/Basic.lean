import ScriptMachine.Value
import ScriptMachine.Dict

/-! Lexical scopes: bindings by name, each scope inside another one or outermost. -/

namespace ScriptMachine

structure Binding where
  value : Value
  readonly : Bool
  deriving DecidableEq

structure Scope where
  bindings : Dict Binding := .empty
  parent : Option ScopeId := none
  deriving Inhabited

inductive ScopeError where
  | alreadyDefined (name : String)
  | notDefined (name : String)
  | constantViolation (name : String)
  deriving DecidableEq, Repr

namespace ScopeError

def message : ScopeError → String
  | .alreadyDefined name => "symbol " ++ name ++ " already defined"
  | .notDefined name => "symbol " ++ name ++ " not defined"
  | .constantViolation name => "constant " ++ name ++ " can't be changed"

def name : ScopeError → String
  | .alreadyDefined _ => "AlreadyDefined"
  | .notDefined _ => "NotDefined"
  | .constantViolation _ => "ConstantViolation"

/-- In a running script these errors are catchable exceptions. -/
def interrupt (e : ScopeError) : Interrupt :=
  .raised (.thrown e.message)

end ScopeError

/-- The scopes that exist, each known by its place. -/
structure Scopes where
  cells : Array Scope := #[]
  deriving Inhabited

namespace Scopes

def scope (s : Scopes) (e : ScopeId) : Scope :=
  s.cells.getD e {}

def parent (s : Scopes) (e : ScopeId) : Option ScopeId :=
  (s.scope e).parent

/-! ### New scopes -/

def newRoot (s : Scopes) : ScopeId × Scopes :=
  (s.cells.size, ⟨s.cells.push {}⟩)

/-- A new empty scope inside `e`. -/
def enclose (s : Scopes) (e : ScopeId) : ScopeId × Scopes :=
  (s.cells.size, ⟨s.cells.push { parent := some e }⟩)

def setParent (s : Scopes) (e : ScopeId) (parent : Option ScopeId) : Scopes :=
  ⟨s.cells.modify e fun c => { c with parent }⟩

/-! ### The chain of a scope -/

/-- The first `bound` scopes met on the way outward from `e`. -/
def chainTo (s : Scopes) : Nat → ScopeId → List ScopeId
  | 0, _ => []
  | bound + 1, e => e :: (s.parent e).elim [] (s.chainTo bound)

/-- The scope `e`, the scope around it, and so on to the outermost. Chains without cycles are no
longer than the number of scopes. -/
def chain (s : Scopes) (e : ScopeId) : List ScopeId :=
  s.chainTo s.cells.size e

/-! ### Looking at one scope -/

def binding? (s : Scopes) (e : ScopeId) (name : String) : Option Binding :=
  (s.scope e).bindings.get? name

def getLocal? (s : Scopes) (e : ScopeId) (name : String) : Option Value :=
  (s.binding? e name).map (·.value)

def containsLocal (s : Scopes) (e : ScopeId) (name : String) : Bool :=
  (s.binding? e name).isSome

def isConstLocal (s : Scopes) (e : ScopeId) (name : String) : Bool :=
  (s.binding? e name).any (·.readonly)

/-! ### Changing one scope -/

/-- Binds a name in `e`, whatever it was bound to there. -/
def bind (s : Scopes) (e : ScopeId) (name : String) (b : Binding) : Scopes :=
  ⟨s.cells.modify e fun c => { c with bindings := c.bindings.insert name b }⟩

def unbind (s : Scopes) (e : ScopeId) (name : String) : Scopes :=
  ⟨s.cells.modify e fun c => { c with bindings := c.bindings.erase name }⟩

/-- A change of one scope shows in that scope only, and only if it exists. -/
theorem scope_modify (s : Scopes) (e d : ScopeId) (g : Scope → Scope) :
    (⟨s.cells.modify e g⟩ : Scopes).scope d
      = if d = e ∧ d < s.cells.size then g (s.scope d) else s.scope d := by
  simp only [scope, Array.getD_eq_getD_getElem?, Array.getElem?_modify]
  by_cases h : e = d
  · subst h
    by_cases b : e < s.cells.size <;> simp [b]
  · simp [h, Ne.symm h]

theorem binding?_bind {s : Scopes} {e : ScopeId} (h : e < s.cells.size) (d : ScopeId)
    (name n : String) (b : Binding) :
    (s.bind e name b).binding? d n = if d = e ∧ n = name then some b else s.binding? d n := by
  simp only [binding?, bind, scope_modify]
  by_cases same : d = e
  · subst same
    simp [h, Dict.get?_insert]
  · simp [same]

theorem binding?_unbind (s : Scopes) (e d : ScopeId) (name n : String) :
    (s.unbind e name).binding? d n = if d = e ∧ n = name then none else s.binding? d n := by
  simp only [binding?, unbind, scope_modify]
  by_cases same : d = e
  · subst same
    by_cases exist : d < s.cells.size
    · simp [exist, Dict.get?_erase]
    · by_cases h : n = name <;> simp [exist, h, scope]
  · simp [same]

theorem parent_bind (s : Scopes) (e d : ScopeId) (name : String) (b : Binding) :
    (s.bind e name b).parent d = s.parent d := by
  simp only [parent, bind, scope_modify]
  split <;> rfl

theorem parent_unbind (s : Scopes) (e d : ScopeId) (name : String) :
    (s.unbind e name).parent d = s.parent d := by
  simp only [parent, unbind, scope_modify]
  split <;> rfl

/-- Refuses a name that `e` binds. -/
def vacant (s : Scopes) (e : ScopeId) (name : String) : Except ScopeError Unit :=
  if s.containsLocal e name then .error (.alreadyDefined name) else .ok ()

/-- Adds a binding to `e`; a name is bound at most once in a scope. -/
def declare (s : Scopes) (e : ScopeId) (name : String) (b : Binding) :
    Except ScopeError Scopes :=
  (s.vacant e name).map fun _ => s.bind e name b

def create (s : Scopes) (e : ScopeId) (name : String) (v : Value) : Except ScopeError Scopes :=
  s.declare e name ⟨v, false⟩

def createConst (s : Scopes) (e : ScopeId) (name : String) (v : Value) :
    Except ScopeError Scopes :=
  s.declare e name ⟨v, true⟩

/-- Binds a name in `e` even if it is read-only there. -/
def setForce (s : Scopes) (e : ScopeId) (name : String) (v : Value) (readonly : Bool) : Scopes :=
  s.bind e name ⟨v, readonly⟩

/-- Removes a name from `e` and answers what it was bound to. -/
def unsetLocal (s : Scopes) (e : ScopeId) (name : String) : Option Value × Scopes :=
  (s.getLocal? e name, s.unbind e name)

/-! ### Resolving a name -/

/-- The nearest of the first `bound` scopes outward from `e` that binds the name. -/
def resolveTo (s : Scopes) (name : String) : Nat → ScopeId → Option (ScopeId × Binding)
  | 0, _ => none
  | bound + 1, e =>
    match s.binding? e name with
    | some b => some (e, b)
    | none => (s.parent e).elim none (s.resolveTo name bound)

/-- The nearest scope on the chain of `e` that binds the name, with the binding. -/
def resolve? (s : Scopes) (e : ScopeId) (name : String) : Option (ScopeId × Binding) :=
  s.resolveTo name s.cells.size e

theorem resolveTo_eq (s : Scopes) (name : String) (bound : Nat) (e : ScopeId) :
    s.resolveTo name bound e
      = (s.chainTo bound e).findSome? fun d => (s.binding? d name).map (d, ·) := by
  induction bound generalizing e with
  | zero => rfl
  | succ bound ih =>
      simp only [resolveTo, chainTo, List.findSome?_cons]
      cases s.binding? e name with
      | some b => rfl
      | none => cases s.parent e <;> simp [ih]

/-- Resolving searches the chain from its innermost scope outward. -/
theorem resolve?_eq (s : Scopes) (e : ScopeId) (name : String) :
    s.resolve? e name = (s.chain e).findSome? fun d => (s.binding? d name).map (d, ·) :=
  s.resolveTo_eq name s.cells.size e

def get (s : Scopes) (e : ScopeId) (name : String) : Except ScopeError Value :=
  match s.resolve? e name with
  | some (_, b) => .ok b.value
  | none => .error (.notDefined name)

def isConst (s : Scopes) (e : ScopeId) (name : String) : Bool :=
  (s.resolve? e name).any (·.2.readonly)

/-- The scope whose binding an assignment to the name changes, among the first `bound` outward from
`e`. The search ends at the first binding, which may refuse. -/
def assignableTo (s : Scopes) (name : String) : Nat → ScopeId → Except ScopeError ScopeId
  | 0, _ => .error (.notDefined name)
  | bound + 1, e =>
    match s.binding? e name with
    | some b => if b.readonly then .error (.constantViolation name) else .ok e
    | none => (s.parent e).elim (.error (.notDefined name)) (s.assignableTo name bound)

def assignable (s : Scopes) (e : ScopeId) (name : String) : Except ScopeError ScopeId :=
  s.assignableTo name s.cells.size e

/-- The search for an assignment ends where the name resolves. -/
theorem assignableTo_eq (s : Scopes) (name : String) (bound : Nat) (e : ScopeId) :
    s.assignableTo name bound e = match s.resolveTo name bound e with
      | some (d, b) => if b.readonly then .error (.constantViolation name) else .ok d
      | none => .error (.notDefined name) := by
  induction bound generalizing e with
  | zero => rfl
  | succ bound ih =>
      rw [assignableTo, resolveTo]
      cases s.binding? e name with
      | some b => rfl
      | none =>
          cases s.parent e with
          | none => rfl
          | some p => exact ih p

theorem assignable_eq (s : Scopes) (e : ScopeId) (name : String) : s.assignable e name =
    match s.resolve? e name with
    | some (d, b) => if b.readonly then .error (.constantViolation name) else .ok d
    | none => .error (.notDefined name) :=
  s.assignableTo_eq name s.cells.size e

/-- Assigns to the binding that the name resolves to. -/
def set (s : Scopes) (e : ScopeId) (name : String) (v : Value) : Except ScopeError Scopes :=
  (s.assignable e name).map fun d => s.bind d name ⟨v, false⟩

/-- Removes the first binding of the name in the first `bound` scopes outward from `e` and answers
its value. -/
def unsetTo (s : Scopes) (name : String) : Nat → ScopeId → Option Value × Scopes
  | 0, _ => (none, s)
  | bound + 1, e =>
    if s.containsLocal e name then s.unsetLocal e name
    else (s.parent e).elim (none, s) (s.unsetTo name bound)

def unset (s : Scopes) (e : ScopeId) (name : String) : Option Value × Scopes :=
  s.unsetTo name s.cells.size e

/-- The search for a removal ends where the name resolves. -/
theorem unsetTo_eq (s : Scopes) (name : String) (bound : Nat) (e : ScopeId) :
    s.unsetTo name bound e = match s.resolveTo name bound e with
      | some (d, b) => (some b.value, s.unbind d name)
      | none => (none, s) := by
  induction bound generalizing e with
  | zero => rfl
  | succ bound ih =>
      rw [unsetTo, resolveTo, containsLocal, unsetLocal, getLocal?]
      cases s.binding? e name with
      | some b => rfl
      | none =>
          cases s.parent e with
          | none => rfl
          | some p => exact ih p

theorem unset_eq (s : Scopes) (e : ScopeId) (name : String) : s.unset e name =
    match s.resolve? e name with
    | some (d, b) => (some b.value, s.unbind d name)
    | none => (none, s) :=
  s.unsetTo_eq name s.cells.size e

end Scopes

end ScriptMachine
