import Mathlib.Data.List.Nodup
import ScriptMachine.Heap.Equal
import ScriptMachine.Proofs.Heap.Growth
import ScriptMachine.Proofs.Operator.Integers

/-! Operators and the kinds of their operands. Nothing is coerced: apart from zero divisors and
negative shifts, whether an operator takes two values depends on their kinds alone. -/

namespace ScriptMachine

/-! ### Names -/

/-- What the kinds of values are called in messages. -/
def Kind.names : List (Kind × String) :=
  [(.null, "NULL"), (.boolean, "BOOLEAN"), (.integer, "INTEGER"), (.float, "FLOAT"),
    (.string, "STRING"), (.array, "ARRAY"), (.map, "MAP"), (.exception, "EXCEPTION"),
    (.error, "ERROR"), (.function, "FUNCTION"), (.builtin, "BUILTIN"), (.resource, "RESOURCE")]

/-- How the binary operators are written. -/
def BinaryOp.symbols : List (BinaryOp × String) :=
  [(.add, "+"), (.sub, "-"), (.mul, "*"), (.div, "/"), (.mod, "%"), (.shl, "<<"), (.shr, ">>"),
    (.bitAnd, "&"), (.bitOr, "|"), (.bitXor, "^"), (.andNot, "&^"), (.and, "and"), (.or, "or")]

/-- How the comparisons are written. -/
def CompareOp.symbols : List (CompareOp × String) :=
  [(.eq, "=="), (.ne, "!="), (.lt, "<"), (.gt, ">"), (.le, "<="), (.ge, ">=")]

theorem Kind.name_mem (k : Kind) : (k, k.name) ∈ names := by
  cases k <;> decide

theorem BinaryOp.symbol_mem (op : BinaryOp) : (op, op.symbol) ∈ symbols := by
  cases op <;> decide

theorem CompareOp.symbol_mem (op : CompareOp) : (op, op.symbol) ∈ symbols := by
  cases op <;> decide

/-- No two kinds have the same name. -/
theorem Kind.name_injective : Function.Injective name := by
  intro k l h
  have hdistinct : (names.map Prod.snd).Nodup := by decide
  exact congrArg Prod.fst (List.inj_on_of_nodup_map hdistinct k.name_mem l.name_mem h)

/-! ### Refusals -/

theorem head?_toList_append {s : String} {c : Char} (hs : s.toList.head? = some c) (t : String) :
    (s ++ t).toList.head? = some c := by
  rw [String.toList_append, List.head?_append, hs, Option.some_or]

/-- The reasons for which an operator refuses its operands. -/
inductive Refusal where
  | mismatch
  | unknown
  | zeroDivisor
  | negativeShift
  deriving DecidableEq

namespace Refusal

variable {symbol : String} {left right : Kind}

/-- What interrupts the script for this reason. -/
def interrupt (symbol : String) (left right : Kind) : Refusal → Interrupt
  | .mismatch => (Misuse.typeMismatch left symbol right).interrupt
  | .unknown => (Misuse.unknownOperator left symbol right).interrupt
  | .zeroDivisor => .fault .divisionByZero
  | .negativeShift => Misuse.negativeShift.interrupt

/-- The letter that the message of an exception starts with. -/
def initial : Refusal → Char
  | .mismatch => 't'
  | .unknown => 'u'
  | .zeroDivisor => 'i'
  | .negativeShift => 'S'

theorem head?_message {r : Refusal} {e : Exception}
    (he : r.interrupt symbol left right = .raised e) :
    e.message.toList.head? = some r.initial := by
  cases r <;> cases he
  case negativeShift => decide
  all_goals
    iterate 5 refine head?_toList_append ?_ _
    decide

/-- Refusals for different reasons are told apart. -/
theorem interrupt_injective {r s : Refusal}
    (heq : r.interrupt symbol left right = s.interrupt symbol left right) : r = s := by
  -- exceptions are told apart by the letter that their messages start with
  have hinitial {e : Exception} (hr : r.interrupt symbol left right = .raised e) :
      r.initial = s.initial :=
    Option.some.inj ((head?_message hr).symm.trans (head?_message (heq ▸ hr)))
  cases r <;> cases s
  all_goals first
    | rfl
    | cases heq
    | cases hinitial rfl

variable {α : Type} {x : Except Interrupt α} {Refuses : Refusal → Prop} {r : Refusal} {v : α}

/-- What is refused for every reason there is has no reason when it is answered. -/
theorem not_of_eq_ok (hrefused : ∀ s, Refuses s → x = .error (s.interrupt symbol left right))
    (hok : x = .ok v) (r : Refusal) : ¬ Refuses r := by
  intro hr
  rw [hrefused r hr] at hok
  cases hok

/-- What is refused for every reason there is, and answered when there is none, is refused for just
the reasons there are. -/
theorem eq_error_iff (hrefused : ∀ s, Refuses s → x = .error (s.interrupt symbol left right))
    (hanswered : (∀ s, ¬ Refuses s) → ∃ v, x = .ok v) :
    x = .error (r.interrupt symbol left right) ↔ Refuses r := by
  refine ⟨fun herror => ?_, hrefused r⟩
  by_cases hnone : ∀ s, ¬ Refuses s
  · obtain ⟨v, hok⟩ := hanswered hnone
    rw [hok] at herror
    cases herror
  obtain ⟨s, hs⟩ := not_forall_not.mp hnone
  rw [hrefused s hs] at herror
  exact interrupt_injective (Except.error.inj herror) ▸ hs

end Refusal

/-! ### Binary operators -/

namespace BinaryOp

variable {op : BinaryOp} {left right : Value} {h : Heap}

/-- The kinds that an operator takes. -/
def kinds : BinaryOp → List Kind
  | .add => [.integer, .float, .string, .array]
  | .sub | .mul | .div | .mod => [.integer, .float]
  | .shl | .shr | .bitAnd | .bitOr | .bitXor | .andNot => [.integer]
  | .and | .or => [.boolean]

/-- There is this reason to refuse the operands. -/
def Refuses (op : BinaryOp) (left right : Value) : Refusal → Prop
  | .mismatch => left.kind ≠ right.kind
  | .unknown => left.kind = right.kind ∧ left.kind ∉ op.kinds
  | .zeroDivisor => (op = .div ∨ op = .mod) ∧ (∃ a, left = .integer a) ∧ right = .integer 0
  | .negativeShift =>
    (op = .shl ∨ op = .shr) ∧ (∃ a, left = .integer a) ∧ ∃ b < 0, right = .integer b

theorem apply_of_ne (hkind : left.kind ≠ right.kind) :
    op.apply left right h =
      .error (Misuse.typeMismatch left.kind op.symbol right.kind).interrupt := by
  rw [apply, compute.eq_def, if_pos hkind]
  rfl

theorem apply_of_not_mem (hkind : left.kind = right.kind) (hop : left.kind ∉ op.kinds) :
    op.apply left right h =
      .error (Misuse.unknownOperator left.kind op.symbol right.kind).interrupt := by
  cases left <;> cases right <;> cases hkind <;> cases op
  all_goals first
    | rfl
    | simp [Value.kind, kinds] at hop

theorem apply_integers (a b : Int64) : op.apply (.integer a) (.integer b) h =
    (op.onIntegers a b).map fun n => (.integer n, h) := by
  rw [apply, compute_integer]
  cases op.onIntegers a b <;> rfl

/-- A reason to refuse the operands is given as the reason. -/
theorem apply_of_refuses {r : Refusal} (hr : op.Refuses left right r) :
    op.apply left right h = .error (r.interrupt op.symbol left.kind right.kind) := by
  cases r with
  | mismatch => exact apply_of_ne hr
  | unknown => exact apply_of_not_mem hr.1 hr.2
  | zeroDivisor =>
      obtain ⟨rfl | rfl, ⟨a, rfl⟩, rfl⟩ := hr <;> rfl
  | negativeShift =>
      obtain ⟨hop, ⟨a, rfl⟩, b, hb, rfl⟩ := hr
      have hamount : shiftAmount b = .error Misuse.negativeShift.interrupt := if_pos hb
      rw [apply_integers]
      rcases hop with rfl | rfl
      · rw [onIntegers, shiftLeft, hamount]
        rfl
      · rw [onIntegers, shiftRight, hamount]
        rfl

/-- Without a reason to refuse them, an operator on integers takes its operands. -/
theorem admits_of_not_refuses {a b : Int64} (hop : Kind.integer ∈ op.kinds)
    (hr : ∀ r, ¬ op.Refuses (.integer a) (.integer b) r) : op.Admits b.toInt := by
  have hdivisor (hdivides : op = .div ∨ op = .mod) : b.toInt ≠ 0 := fun hzero =>
    hr .zeroDivisor ⟨hdivides, ⟨a, rfl⟩, congrArg Value.integer (Int64.toInt_inj.mp hzero)⟩
  have hamount (hshifts : op = .shl ∨ op = .shr) : 0 ≤ b.toInt := Int.not_lt.mp fun hlt =>
    hr .negativeShift ⟨hshifts, ⟨a, rfl⟩, b, Int64.lt_iff_toInt_lt.mpr hlt, rfl⟩
  cases op with
  | div => exact hdivisor (.inl rfl)
  | mod => exact hdivisor (.inr rfl)
  | shl => exact hamount (.inl rfl)
  | shr => exact hamount (.inr rfl)
  | and | or => simp [kinds] at hop
  | _ => trivial

/-- Without a reason to refuse its operands an operator answers a value of their kind, and nothing
that exists changes. -/
theorem apply_of_not_refuses (hr : ∀ r, ¬ op.Refuses left right r) :
    ∃ v k, op.apply left right h = .ok (v, k) ∧ v.kind = left.kind ∧ h.Grows k := by
  have hkind : left.kind = right.kind := not_ne_iff.mp (hr .mismatch)
  have hop : left.kind ∈ op.kinds := not_not.mp fun hop => hr .unknown ⟨hkind, hop⟩
  -- integers are the only operands whose values matter
  cases left <;> cases right <;> cases hkind
  case integer.integer a b =>
    obtain ⟨n, hn, -⟩ := onIntegers_of_admits (a := a) (admits_of_not_refuses hop hr)
    exact ⟨.integer n, h, by rw [apply_integers, hn]; rfl, rfl, .refl h⟩
  case float.float =>
    cases op
    case add | sub | mul | div | mod => exact ⟨_, _, rfl, rfl, .refl h⟩
    all_goals simp [Value.kind, kinds] at hop
  case string.string =>
    cases op
    case add => exact ⟨_, _, rfl, rfl, .refl h⟩
    all_goals simp [Value.kind, kinds] at hop
  case array.array =>
    cases op
    case add => exact ⟨_, _, rfl, rfl, h.grows_newArray _⟩
    all_goals simp [Value.kind, kinds] at hop
  case boolean.boolean =>
    cases op
    case and | or => exact ⟨_, _, rfl, rfl, .refl h⟩
    all_goals simp [Value.kind, kinds] at hop
  all_goals cases op <;> simp [Value.kind, kinds] at hop

/-- An operator refuses its operands for just the reasons that there are. -/
theorem apply_eq_error_iff {r : Refusal} :
    op.apply left right h = .error (r.interrupt op.symbol left.kind right.kind) ↔
      op.Refuses left right r :=
  Refusal.eq_error_iff (fun _ => apply_of_refuses) fun hnone => by
    obtain ⟨v, k, hok, -⟩ := apply_of_not_refuses (h := h) hnone
    exact ⟨(v, k), hok⟩

/-- The law of a binary operator: each outcome comes about under one condition on the operands, and
nothing that exists changes. -/
structure Lawful (op : BinaryOp) (left right : Value) (h : Heap) : Prop where
  named : (left.kind, left.kind.name) ∈ Kind.names ∧ (op, op.symbol) ∈ symbols ∧
    (right.kind, right.kind.name) ∈ Kind.names
  mismatch : op.apply left right h = .error (.raised (.thrown
      ("type mismatch: " ++ left.kind.name ++ " " ++ op.symbol ++ " " ++ right.kind.name))) ↔
    left.kind ≠ right.kind
  unknown : op.apply left right h = .error (.raised (.thrown
      ("unknown operator: " ++ left.kind.name ++ " " ++ op.symbol ++ " " ++ right.kind.name))) ↔
    left.kind = right.kind ∧ left.kind ∉ op.kinds
  zeroDivisor : op.apply left right h = .error (.fault .divisionByZero) ↔
    (op = .div ∨ op = .mod) ∧ (∃ a, left = .integer a) ∧ right = .integer 0
  negativeShift : op.apply left right h =
      .error (.raised (.thrown "Shift value must be non-negative")) ↔
    (op = .shl ∨ op = .shr) ∧ (∃ a, left = .integer a) ∧ ∃ b < 0, right = .integer b
  answer : left.kind = right.kind → left.kind ∈ op.kinds →
    ¬ ((op = .div ∨ op = .mod) ∧ right = .integer 0) →
      ¬ ((op = .shl ∨ op = .shr) ∧ ∃ b < 0, right = .integer b) →
        ∃ v k, op.apply left right h = .ok (v, k)
  kind : ∀ v k, op.apply left right h = .ok (v, k) → v.kind = left.kind ∧ h.Grows k

theorem lawful (op : BinaryOp) (left right : Value) (h : Heap) : op.Lawful left right h where
  named := ⟨left.kind.name_mem, op.symbol_mem, right.kind.name_mem⟩
  mismatch := apply_eq_error_iff (r := .mismatch)
  unknown := apply_eq_error_iff (r := .unknown)
  zeroDivisor := apply_eq_error_iff (r := .zeroDivisor)
  negativeShift := apply_eq_error_iff (r := .negativeShift)
  answer := fun hkind hop hdivisor hshift => by
    have hnone : ∀ r, ¬ op.Refuses left right r
      | .mismatch => fun hr => hr hkind
      | .unknown => fun hr => hr.2 hop
      | .zeroDivisor => fun hr => hdivisor ⟨hr.1, hr.2.2⟩
      | .negativeShift => fun hr => hshift ⟨hr.1, hr.2.2⟩
    obtain ⟨v, k, hok, -⟩ := apply_of_not_refuses (h := h) hnone
    exact ⟨v, k, hok⟩
  kind := fun v k hok => by
    have hnone := Refusal.not_of_eq_ok (fun _ => apply_of_refuses) hok
    obtain ⟨w, l, hanswer, hw⟩ := apply_of_not_refuses (h := h) hnone
    rw [hanswer] at hok
    cases hok
    exact hw

end BinaryOp

/-! ### Comparison -/

namespace CompareOp

variable {op : CompareOp} {left right : Value}

/-- The kinds that a comparison takes. -/
def kinds : CompareOp → List Kind
  | .eq | .ne => [.null, .boolean, .integer, .float, .string]
  | .lt | .gt | .le | .ge => [.integer, .float]

/-- There is this reason to refuse the operands. -/
def Refuses (op : CompareOp) (left right : Value) : Refusal → Prop
  | .mismatch => left.kind ≠ right.kind
  | .unknown => left.kind = right.kind ∧ left.kind ∉ op.kinds
  | .zeroDivisor | .negativeShift => False

theorem apply_of_refuses {r : Refusal} (hr : op.Refuses left right r) :
    op.apply left right = .error (r.interrupt op.symbol left.kind right.kind) := by
  cases r with
  | mismatch =>
      rw [apply.eq_def]
      exact if_pos hr
  | unknown =>
      obtain ⟨hkind, hop⟩ := hr
      cases left <;> cases right <;> cases hkind <;> cases op
      all_goals first
        | rfl
        | simp [Value.kind, kinds] at hop
  | zeroDivisor | negativeShift => exact hr.elim

/-- Operands of one kind that it takes a comparison answers with yes or no. -/
theorem apply_of_mem (hkind : left.kind = right.kind) (hop : left.kind ∈ op.kinds) :
    ∃ b, op.apply left right = .ok (.boolean b) := by
  cases left <;> cases right <;> cases hkind <;> cases op
  all_goals first
    | exact ⟨_, rfl⟩
    | simp [Value.kind, kinds] at hop

theorem apply_eq_error_iff {r : Refusal} :
    op.apply left right = .error (r.interrupt op.symbol left.kind right.kind) ↔
      op.Refuses left right r :=
  Refusal.eq_error_iff (fun _ => apply_of_refuses) fun hnone => by
    have hkind : left.kind = right.kind := not_ne_iff.mp (hnone .mismatch)
    have hop : left.kind ∈ op.kinds := not_not.mp fun hop => hnone .unknown ⟨hkind, hop⟩
    obtain ⟨b, hok⟩ := apply_of_mem hkind hop
    exact ⟨.boolean b, hok⟩

theorem of_apply_eq_ok {v : Value} (hok : op.apply left right = .ok v) :
    left.kind = right.kind ∧ left.kind ∈ op.kinds := by
  have hnone := Refusal.not_of_eq_ok (fun _ => apply_of_refuses) hok
  have hkind : left.kind = right.kind := not_ne_iff.mp (hnone .mismatch)
  exact ⟨hkind, not_not.mp fun hop => hnone .unknown ⟨hkind, hop⟩⟩

/-- The law of a comparison: each outcome comes about under one condition on the kinds of the
operands. -/
structure Lawful (op : CompareOp) (left right : Value) : Prop where
  named : (left.kind, left.kind.name) ∈ Kind.names ∧ (op, op.symbol) ∈ symbols ∧
    (right.kind, right.kind.name) ∈ Kind.names
  mismatch : op.apply left right = .error (.raised (.thrown
      ("type mismatch: " ++ left.kind.name ++ " " ++ op.symbol ++ " " ++ right.kind.name))) ↔
    left.kind ≠ right.kind
  unknown : op.apply left right = .error (.raised (.thrown
      ("unknown operator: " ++ left.kind.name ++ " " ++ op.symbol ++ " " ++ right.kind.name))) ↔
    left.kind = right.kind ∧ left.kind ∉ op.kinds
  answer : (∃ b, op.apply left right = .ok (.boolean b)) ↔
    left.kind = right.kind ∧ left.kind ∈ op.kinds
  boolean : ∀ v, op.apply left right = .ok v → ∃ b, v = .boolean b

theorem lawful (op : CompareOp) (left right : Value) : op.Lawful left right where
  named := ⟨left.kind.name_mem, op.symbol_mem, right.kind.name_mem⟩
  mismatch := apply_eq_error_iff (r := .mismatch)
  unknown := apply_eq_error_iff (r := .unknown)
  answer := ⟨fun ⟨_, hok⟩ => of_apply_eq_ok hok, fun ⟨hkind, hop⟩ => apply_of_mem hkind hop⟩
  boolean := fun v hok => by
    obtain ⟨hkind, hop⟩ := of_apply_eq_ok hok
    obtain ⟨b, hanswer⟩ := apply_of_mem hkind hop
    rw [hanswer] at hok
    cases hok
    exact ⟨b, rfl⟩

/-- Values of a kind that equality takes hold no other value. -/
theorem equal_of_mem {h : Heap} (hop : left.kind ∈ CompareOp.eq.kinds) :
    h.equal left right = left.leafEqual right := by
  rw [Heap.equal]
  generalize h.containers = depth
  cases left
  case array | map => simp [Value.kind, kinds] at hop
  all_goals cases depth <;> rfl

/-- Equality and its negation answer whether the operands are equal. -/
theorem apply_equality {h : Heap} (hkind : left.kind = right.kind)
    (hop : left.kind ∈ CompareOp.eq.kinds) :
    CompareOp.eq.apply left right = .ok (.boolean (h.equal left right)) ∧
      CompareOp.ne.apply left right = .ok (.boolean (!h.equal left right)) := by
  rw [equal_of_mem hop]
  cases left <;> cases right <;> cases hkind
  case null.null => exact ⟨rfl, rfl⟩
  case float.float x y => exact ⟨rfl, rfl⟩
  case boolean.boolean a b => cases a <;> cases b <;> exact ⟨rfl, rfl⟩
  case integer.integer a b =>
    have hleaf : (Value.integer a).leafEqual (.integer b) = (a == b) := by
      simp [Value.leafEqual]
    rw [hleaf]
    exact ⟨rfl, rfl⟩
  case string.string a b =>
    have hleaf : (Value.string a).leafEqual (.string b) = (a == b) := by
      simp [Value.leafEqual]
    rw [hleaf]
    exact ⟨rfl, rfl⟩
  all_goals simp [Value.kind, kinds] at hop

/-- The order whose answers are those of this one on swapped operands. -/
def converse : CompareOp → CompareOp
  | .lt => .gt
  | .gt => .lt
  | .le => .ge
  | .ge => .le
  | .eq => .eq
  | .ne => .ne

theorem apply_integers (op : CompareOp) (a b : Int64) :
    op.apply (.integer a) (.integer b) = .ok (.boolean (op.onIntegers a b)) :=
  rfl

theorem apply_floats (op : CompareOp) (x y : Double) :
    op.apply (.float x) (.float y) = .ok (.boolean (op.onFloats x y)) :=
  rfl

theorem apply_converse {v : Value} (horder : op.kinds = [.integer, .float])
    (hok : op.apply left right = .ok v) : op.converse.apply right left = .ok v := by
  obtain ⟨hkind, hop⟩ := of_apply_eq_ok hok
  rw [horder] at hop
  cases left <;> cases right <;> cases hkind
  case integer.integer a b =>
    have hconverse : op.converse.onIntegers b a = op.onIntegers a b := by
      cases op <;> first | rfl | cases horder
    rwa [apply_integers, hconverse, ← apply_integers]
  case float.float x y =>
    have hconverse : op.converse.onFloats y x = op.onFloats x y := by
      cases op <;> first | rfl | cases horder
    rwa [apply_floats, hconverse, ← apply_floats]
  all_goals simp [Value.kind] at hop

end CompareOp

/-- Nothing is coerced. An operator refuses operands of different kinds and kinds that it does not
take, each with its own exception, in which the kinds are told apart by their names, and what else
it refuses is a zero divisor or a negative shift. What it answers has the kind of the operands, and
a comparison is a boolean: equality is equality of values, and an order is its converse with the
operands swapped. Nothing that exists changes. -/
theorem operators_lawful (left right : Value) (h : Heap) :
    (∀ op : BinaryOp, op.Lawful left right h) ∧
      (∀ op : CompareOp, op.Lawful left right) ∧
        Function.Injective Kind.name ∧
          (∀ v, CompareOp.eq.apply left right = .ok v → v = .boolean (h.equal left right)) ∧
            (∀ v, CompareOp.ne.apply left right = .ok v → v = .boolean (!h.equal left right)) ∧
              (∀ v, CompareOp.lt.apply left right = .ok v ↔
                CompareOp.gt.apply right left = .ok v) ∧
                  ∀ v, CompareOp.le.apply left right = .ok v ↔
                    CompareOp.ge.apply right left = .ok v := by
  refine ⟨fun op => op.lawful left right h, fun op => op.lawful left right, Kind.name_injective,
    fun v hok => ?_, fun v hok => ?_, fun v => ?_, fun v => ?_⟩
  · obtain ⟨hkind, hop⟩ := CompareOp.of_apply_eq_ok hok
    rw [(CompareOp.apply_equality hkind hop).1] at hok
    exact (Except.ok.inj hok).symm
  · obtain ⟨hkind, hop⟩ := CompareOp.of_apply_eq_ok hok
    rw [(CompareOp.apply_equality hkind hop).2] at hok
    exact (Except.ok.inj hok).symm
  · exact ⟨CompareOp.apply_converse rfl, CompareOp.apply_converse rfl⟩
  · exact ⟨CompareOp.apply_converse rfl, CompareOp.apply_converse rfl⟩

end ScriptMachine
