import ScriptMachine.Assembler.Basic
import ScriptMachine.Proofs.Operator.Faultless
import ScriptMachine.Proofs.Sequence

/-! Expressions: what they evaluate to, from left to right, and the steps that assemble code for
them, in postfix order. -/

namespace ScriptMachine

inductive Expr where
  | literal (v : Value)
  | negate (e : Expr)
  | not (e : Expr)
  | binary (op : BinaryOp) (left right : Expr)
  | compare (op : CompareOp) (left right : Expr)
  | index (target key : Expr)
  /-- The left operand if its truth is the given one, and the right operand otherwise: `and` decides
  on false and `or` on true. -/
  | connective (decisive : Bool) (left right : Expr)
  | array (items : List Expr)
  | map (entries : List (Expr × Expr))

/-! ### Evaluation -/

/-- Evaluation may make new containers and may be interrupted. -/
abbrev Evaluation := EStateM Interrupt Heap

namespace Evaluation

/-- What may fail and makes nothing new. -/
def reading {α : Type} (g : Heap → Except Interrupt α) : Evaluation α := fun h =>
  match g h with
  | .ok v => .ok v h
  | .error e => .error e h

/-- What may fail and may make something new. -/
def making {α : Type} (g : Heap → Except Interrupt (α × Heap)) : Evaluation α := fun h =>
  match g h with
  | .ok (v, h) => .ok v h
  | .error e => .error e h

end Evaluation

namespace Expr

open Evaluation

/-- A field of a map. Keys are texts. -/
def field : Value × Value → Except Interrupt (String × Value)
  | (.string key, v) => .ok (key, v)
  | (key, _) => .error (Misuse.mapKey key.kind).interrupt

mutual

/-- The value of an expression. The right operand of a connective is evaluated only if the left one
does not decide; the keys of a map are looked at when all its entries have been evaluated. -/
def eval : Expr → Evaluation Value
  | .literal v => return v
  | .negate e => do
    let v ← e.eval
    reading fun _ => v.negate
  | .not e => do
    let v ← e.eval
    return v.not
  | .binary op left right => do
    let x ← left.eval
    let y ← right.eval
    making (op.apply x y)
  | .compare op left right => do
    let x ← left.eval
    let y ← right.eval
    reading fun _ => op.apply x y
  | .index target key => do
    let x ← target.eval
    let k ← key.eval
    reading fun h => h.loadIndex x k
  | .connective decisive left right => do
    let x ← left.eval
    if x.truthy = decisive then return x else right.eval
  | .array items => do
    let vs ← evalAll items
    making fun h => .ok (h.newArray vs.toArray)
  | .map entries => do
    let kvs ← evalEntries entries
    let fields ← reading fun _ => kvs.mapM field
    making fun h => .ok (h.newMap (Dict.ofList fields))

def evalAll : List Expr → Evaluation (List Value)
  | [] => return []
  | e :: rest => do
    let v ← e.eval
    let vs ← evalAll rest
    return v :: vs

def evalEntries : List (Expr × Expr) → Evaluation (List (Value × Value))
  | [] => return []
  | (key, value) :: rest => do
    let k ← key.eval
    let v ← value.eval
    let kvs ← evalEntries rest
    return (k, v) :: kvs

end

/-! ### Emission -/

mutual

/-- The number of labels that the code for an expression needs. -/
def labels : Expr → Nat
  | .literal _ => 0
  | .negate e | .not e => e.labels
  | .binary _ left right | .compare _ left right => left.labels + right.labels
  | .index target key => target.labels + key.labels
  | .connective _ left right => left.labels + 1 + right.labels
  | .array items => labelsAll items
  | .map entries => labelsEntries entries

def labelsAll : List Expr → Nat
  | [] => 0
  | e :: rest => e.labels + labelsAll rest

def labelsEntries : List (Expr × Expr) → Nat
  | [] => 0
  | (key, value) :: rest => key.labels + value.labels + labelsEntries rest

end

mutual

/-- The steps that emit code for an expression if the next label has the given number. The code of a
connective is that of the left operand, a jump to the end that keeps a deciding operand, and the
code of the right operand. -/
def steps (label : Nat) : Expr → List Directive
  | .literal v => [.loadConst v]
  | .negate e => e.steps label ++ [.emit .unaryNeg]
  | .not e => e.steps label ++ [.emit .unaryNot]
  | .binary op left right =>
    left.steps label ++ (right.steps (label + left.labels) ++ [.binary op])
  | .compare op left right =>
    left.steps label ++ (right.steps (label + left.labels) ++ [.compare op])
  | .index target key =>
    target.steps label ++ (key.steps (label + target.labels) ++ [.emit .loadIndex])
  | .connective decisive left right =>
    let finish := label + left.labels
    left.steps label ++ (.newLabel :: .jump (.jumpIfOrPop decisive) finish ::
      (right.steps (finish + 1) ++ [.bind finish]))
  | .array items => stepsAll label items ++ [.emitArg .makeArray items.length]
  | .map entries => stepsEntries label entries ++ [.emitArg .makeMap entries.length]

def stepsAll (label : Nat) : List Expr → List Directive
  | [] => []
  | e :: rest => e.steps label ++ stepsAll (label + e.labels) rest

def stepsEntries (label : Nat) : List (Expr × Expr) → List Directive
  | [] => []
  | (key, value) :: rest =>
    key.steps label ++ (value.steps (label + key.labels) ++
      stepsEntries (label + (key.labels + value.labels)) rest)

end

/-- The steps that assemble a block which returns the value of an expression. -/
def program (e : Expr) : List Directive :=
  e.steps 0 ++ [.emit .return_]

end Expr

end ScriptMachine
