import ScriptMachine.Scope.Basic
import ScriptMachine.Text.Quoted

/-! Scopes as text. -/

namespace ScriptMachine

namespace Scopes

/-- The bindings of one scope, a line each in the order of the names. -/
def dumpLocal (inspect : Value → String) (pad : String) (c : Scope) : String :=
  String.join (c.bindings.entries.map fun e =>
    pad ++ e.1 ++ " = " ++ inspect e.2.value ++ (if e.2.readonly then " (const)" else "") ++ "\n")

/-- Dumps the first `bound` scopes of a chain. -/
def dumpTo (s : Scopes) (inspect : Value → String) : Nat → ScopeId → Nat → String
  | 0, _, _ => ""
  | bound + 1, e, indent =>
    let pad := Text.blanks indent
    let outer :=
      match s.parent e with
      | none => ""
      | some p =>
        pad ++ (if (s.parent p).isSome then "Parent" else "Global") ++ ":\n"
          ++ s.dumpTo inspect bound p (indent + 2)
    dumpLocal inspect pad (s.scope e) ++ outer

/-- The whole chain of a scope, inner scopes first and outer ones indented by two more each. The
outermost scope is introduced as the global one. -/
def dump (s : Scopes) (inspect : Value → String) (e : ScopeId) (indent : Nat) : String :=
  s.dumpTo inspect s.cells.size e indent

/-- One line about a scope for programmers. -/
def debug (s : Scopes) (e : ScopeId) : String :=
  "Environment \x7b names: ["
    ++ Text.join ", " ((s.scope e).bindings.keys.map Text.quoted)
    ++ "], has_parent: " ++ (if (s.parent e).isSome then "true" else "false") ++ " \x7d"

end Scopes

end ScriptMachine
