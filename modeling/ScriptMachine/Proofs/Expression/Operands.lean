import ScriptMachine.Proofs.Expression.Basic
import ScriptMachine.Proofs.Machine.Control

/-! What single instructions make of their operands: the value that evaluation makes of them, or the
interrupt that it comes to. -/

namespace ScriptMachine

open Evaluation

/-- An action in a frame of the block `b` puts the value that `y` evaluates to in the place of the
operands `vs`, the first of which is the topmost one. -/
def Action.Yields (b : CodeBlock) (x : Action Unit) (vs : List Value)
    (y : Evaluation Value) : Prop :=
  ∀ (f : Frame) (s : Store) (rest : Stack Value), f.code = b → f.stack = rest.pushAll vs →
    rest.height < b.maxStack → match y s.heap with
      | .ok v h => x ⟨f, s⟩ = .ok () ⟨{ f with stack := rest.push v }, { s with heap := h }⟩
      | .error e h => ∃ stack, x ⟨f, s⟩ = .error e ⟨{ f with stack }, { s with heap := h }⟩

namespace Action.Yields

variable {b : CodeBlock} {vs : List Value} {y : Evaluation Value}

/-! ### Actions -/

theorem push (v : Value) : Yields b (Action.push v) [] (pure v) := by
  rintro f s rest rfl rfl hroom
  exact push_eq_ok_iff.mpr ⟨if_pos hroom, rfl⟩

theorem pop_bind {g : Value → Action Unit} {v : Value} (hg : Yields b (g v) vs y) :
    Yields b (Action.pop >>= g) (v :: vs) y := by
  intro f s rest hcode hstack hroom
  rw [pop_bind_apply hstack]
  exact hg { f with stack := rest.pushAll vs } s rest hcode rfl hroom

theorem popN_bind {g : List Value → Action Unit} (hg : Yields b (g vs) [] y) :
    Yields b (Action.popN vs.length >>= g) vs.reverse y := by
  intro f s rest hcode hstack hroom
  rw [popN_bind_apply hstack]
  exact hg { f with stack := rest } s rest hcode rfl hroom

theorem readHeap_bind {α : Type} {g : Heap → Except Interrupt α} {k : α → Action Unit}
    {z : α → Evaluation Value} (hk : ∀ w, Yields b (k w) vs (z w)) :
    Yields b (Action.readHeap g >>= k) vs (reading g >>= z) := by
  intro f s rest hcode hstack hroom
  change match EStateM.bind (reading g) z s.heap with
    | .ok _ _ => EStateM.bind (Action.readHeap g) k ⟨f, s⟩ = _
    | .error _ _ => ∃ _, EStateM.bind (Action.readHeap g) k ⟨f, s⟩ = _
  cases hg : g s.heap with
  | ok w =>
      simp only [EStateM.bind, reading, Action.readHeap, hg]
      exact hk w f s rest hcode hstack hroom
  | error e =>
      simp only [EStateM.bind, reading, Action.readHeap, hg]
      exact ⟨f.stack, rfl⟩

theorem readHeap_push (g : Heap → Except Interrupt Value) :
    Yields b (Action.readHeap g >>= Action.push) [] (reading g) :=
  bind_pure (reading g) ▸ readHeap_bind push

theorem onHeap_push (g : Heap → Value × Heap) :
    Yields b (Action.onHeap g >>= Action.push) [] (making fun h => .ok (g h)) := by
  rintro f s rest hcode hstack hroom
  exact push (g s.heap).1 f { s with heap := (g s.heap).2 } rest hcode hstack hroom

theorem constant {index : Nat} {v : Value} (h : b.constants[index]? = some v) :
    Yields b (Action.constant index >>= Action.push) [] (pure v) := by
  rintro f s rest rfl hstack hroom
  have hconstant : f.code.constant index = .ok v := by rw [CodeBlock.constant, h]
  change EStateM.bind (Action.constant index) Action.push ⟨f, s⟩ = _
  rw [EStateM.bind, Action.constant, Action.onFrame, hconstant]
  exact push v f s rest rfl hstack hroom

/-! ### Instructions -/

theorem negate (v : Value) : Yields b Action.negate [v] (reading fun _ => v.negate) :=
  pop_bind (readHeap_push _)

theorem not (v : Value) :
    Yields b (Action.pop >>= fun v => Action.push v.not) [v] (pure v.not) :=
  pop_bind (push _)

theorem loadIndex (target key : Value) :
    Yields b Action.loadIndex [key, target] (reading fun h => h.loadIndex target key) :=
  pop_bind (pop_bind (readHeap_push _))

/-- What is computed is put into the heap at once. -/
theorem binary (op : BinaryOp) (left right : Value) :
    Yields b (Action.binary op) [right, left] (making (op.apply left right)) := by
  have happly : making (op.apply left right) =
      reading (op.compute left right) >>= fun c => making fun h => .ok (h.keep c) := by
    funext h
    change _ = EStateM.bind (reading (op.compute left right)) _ h
    simp only [EStateM.bind, reading, making, BinaryOp.apply]
    cases op.compute left right h <;> rfl
  rw [happly]
  exact pop_bind (pop_bind (readHeap_bind fun c => onHeap_push _))

theorem compare {i : Instruction} {op : CompareOp} (h : i.arg = op.number) (left right : Value) :
    Yields b (Action.compare i) [right, left] (reading fun _ => op.apply left right) := by
  have hop : CompareOp.ofNumber? i.arg = some op := by
    rw [h]
    cases op <;> rfl
  rw [Action.compare, hop]
  exact pop_bind (pop_bind (readHeap_push _))

theorem makeArray (vs : List Value) :
    Yields b (Action.popN vs.length >>= fun vs => Action.newArray vs >>= Action.push) vs.reverse
      (making fun h => .ok (h.newArray vs.toArray)) :=
  popN_bind (onHeap_push _)

/-- The entries of a map as operands, keys and values by turns. -/
def flatten (entries : List (Value × Value)) : List Value :=
  entries.flatMap fun (key, v) => [key, v]

theorem length_flatten (entries : List (Value × Value)) :
    (flatten entries).length = entries.length * 2 := by
  induction entries with
  | nil => rfl
  | cons entry rest ih =>
      simp only [flatten, List.flatMap_cons, List.length_append, List.length_cons,
        List.length_nil] at ih ⊢
      omega

/-- Keys are looked at in order, and the first that is not a text is refused. -/
theorem entriesOf_flatten (entries : List (Value × Value)) :
    Action.entriesOf (flatten entries) = entries.mapM Expr.field := by
  induction entries with
  | nil => rfl
  | cons entry rest ih =>
      obtain ⟨key, v⟩ := entry
      rw [List.mapM_cons, ← ih]
      cases key with
      | string s =>
          change (Action.entriesOf (flatten rest)).map _ = _
          cases Action.entriesOf (flatten rest) <;> rfl
      | _ => rfl

theorem makeMap (entries : List (Value × Value)) :
    Yields b (Action.makeMap entries.length) (flatten entries).reverse
      (reading (fun _ => entries.mapM Expr.field) >>= fun fields =>
        making fun h => .ok (h.newMap (Dict.ofList fields))) := by
  rw [Action.makeMap, ← length_flatten, ← entriesOf_flatten]
  exact popN_bind (readHeap_bind fun fields => onHeap_push _)

end Action.Yields

/-- A condition is kept if it has the truth to jump on, and taken off otherwise. -/
theorem Action.jumpIfOrPop_apply {f : Frame} {rest : Stack Value} {v : Value} {offset : Nat}
    (truth : Bool) (s : Store) (hstack : f.stack = rest.push v)
    (hoffset : offset ≤ f.code.code.size) :
    jumpIfOrPop truth offset ⟨f, s⟩ = .ok ()
      ⟨if v.truthy = truth then { f with pc := offset } else { f with stack := rest }, s⟩ := by
  have hpeek : peek ⟨f, s⟩ = .ok v ⟨f, s⟩ :=
    peek_eq_ok_iff.mpr ⟨Frame.peek_eq_ok_iff.mpr ⟨rest, hstack⟩, rfl, rfl⟩
  refine bind_eq_ok_iff.mpr ⟨v, ⟨f, s⟩, hpeek, ?_⟩
  split
  · exact jump_eq_ok_iff.mpr ⟨hoffset, rfl, rfl⟩
  · rw [discard_eq]
    exact pop_bind_apply hstack

end ScriptMachine
