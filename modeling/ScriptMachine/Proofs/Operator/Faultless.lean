import ScriptMachine.Machine.Execute

/-! Computations that may raise an exception but never fault. All operators and accesses are of
this kind, division of integers apart. -/

namespace ScriptMachine

variable {α β : Type} {P : Exception → Prop}

/-- A computation that never faults and raises exceptions in `P` only. -/
def Raises (P : Exception → Prop) (x : Except Interrupt α) : Prop :=
  ∀ e, x = .error e → ∃ z, e = .raised z ∧ P z

namespace Raises

theorem ok (v : α) : Raises P (.ok v) :=
  fun _ h => by cases h

theorem raised {z : Exception} (h : P z) : Raises P (.error (.raised z) : Except Interrupt α) :=
  fun _ heq => by cases heq; exact ⟨z, rfl, h⟩

theorem misuse (u : Misuse) : Raises (·.inFlight) (.error u.interrupt : Except Interrupt α) :=
  raised rfl

theorem bind {x : Except Interrupt α} {g : α → Except Interrupt β} (hx : Raises P x)
    (hg : ∀ v, Raises P (g v)) : Raises P (x >>= g) := by
  cases x with
  | ok v => exact hg v
  | error e =>
      intro e' he'
      cases he'
      exact hx e rfl

theorem map {x : Except Interrupt α} {g : α → β} (hx : Raises P x) : Raises P (x.map g) := by
  cases x with
  | ok v => exact ok _
  | error e =>
      intro e' he'
      cases he'
      exact hx e rfl

theorem ne_fault {x : Except Interrupt α} (hx : Raises P x) (y : Fault) :
    x ≠ .error (.fault y) := by
  intro h
  obtain ⟨z, hz, -⟩ := hx _ h
  cases hz

end Raises

/-- An exception on its way to a handler has not been caught before. -/
theorem Exception.caught_of_inFlight {z : Exception} (h : z.inFlight) : z.caught = false := by
  simp only [inFlight, Bool.and_eq_true, Bool.not_eq_true'] at h
  exact h.2

/-! ### Access to containers -/

namespace Heap

theorem raises_position (n : Int64) (length : Nat) : Raises (·.inFlight) (position n length) := by
  rw [position]
  split
  · exact .ok _
  · exact .misuse _

theorem raises_loadIndex (h : Heap) (target key : Value) :
    Raises (·.inFlight) (h.loadIndex target key) := by
  rw [loadIndex.eq_def]
  split
  · exact (raises_position _ _).bind fun _ => .ok _
  · exact (raises_position _ _).bind fun _ => .ok _
  · exact .ok _
  · exact .misuse _

theorem raises_refuseSelf (target value : Value) :
    Raises (·.inFlight) (refuseSelf target value) := by
  rw [refuseSelf]
  split
  · exact .misuse _
  · exact .ok _

theorem raises_indexSlot (h : Heap) (target key value : Value) :
    Raises (·.inFlight) (h.indexSlot target key value) := by
  rw [indexSlot.eq_def]
  refine (raises_refuseSelf _ _).bind fun _ => ?_
  split
  · exact (raises_position _ _).bind fun _ => .ok _
  · exact .ok _
  · exact .misuse _

theorem raises_loadAttribute (h : Heap) (target : Value) (name : String) :
    Raises (·.inFlight) (h.loadAttribute target name) := by
  rw [loadAttribute.eq_def]
  split
  · exact .ok _
  · exact .misuse _

theorem raises_attributeSlot (target : Value) (name : String) (value : Value) :
    Raises (·.inFlight) (attributeSlot target name value) := by
  rw [attributeSlot.eq_def]
  refine (raises_refuseSelf _ _).bind fun _ => ?_
  split
  · exact .ok _
  · exact .misuse _

end Heap

/-! ### Operators -/

namespace BinaryOp

theorem raises_shiftAmount (b : Int64) : Raises (·.inFlight) (shiftAmount b) := by
  rw [shiftAmount]
  split
  · exact .misuse _
  · exact .ok _

/-- Operators raise exceptions that no handler has received, or divide by zero. -/
theorem onIntegers_eq_error {op : BinaryOp} {a b : Int64} {e : Interrupt}
    (h : op.onIntegers a b = .error e) :
    e = .fault .divisionByZero ∨ ∃ z, e = .raised z ∧ z.inFlight := by
  cases op with
  | div | mod =>
      rw [onIntegers] at h
      split at h <;> cases h
      exact .inl rfl
  | shl => exact .inr ((raises_shiftAmount b).bind (fun _ => .ok _) e h)
  | shr => exact .inr ((raises_shiftAmount b).bind (fun _ => .ok _) e h)
  | and | or => exact .inr (Raises.misuse _ e h)
  | _ => cases h

theorem compute_eq_error {op : BinaryOp} {left right : Value} {h : Heap} {e : Interrupt}
    (he : op.compute left right h = .error e) :
    e = .fault .divisionByZero ∨ ∃ z, e = .raised z ∧ z.inFlight := by
  rw [compute.eq_def] at he
  split at he
  · exact .inr (Raises.misuse _ e he)
  split at he
  · rename_i a b _
    cases hab : op.onIntegers a b with
    | ok n => simp [hab, Except.map] at he
    | error e' =>
        rw [hab] at he
        cases he
        exact onIntegers_eq_error hab
  · rename_i a b _
    cases hab : op.onFloats? a b <;> rw [hab] at he
    · exact .inr (Raises.misuse _ e he)
    · cases he
  · split at he
    · cases he
    · exact .inr (Raises.misuse _ e he)
  · split at he
    · cases he
    · exact .inr (Raises.misuse _ e he)
  · rename_i a b _
    cases hab : op.onBooleans? a b <;> rw [hab] at he
    · exact .inr (Raises.misuse _ e he)
    · cases he
  · exact .inr (Raises.misuse _ e he)

theorem compute_eq_fault {op : BinaryOp} {left right : Value} {h : Heap} {y : Fault}
    (hy : op.compute left right h = .error (.fault y)) : y = .divisionByZero := by
  rcases compute_eq_error hy with h | ⟨z, h, -⟩ <;> cases h
  rfl

end BinaryOp

theorem CompareOp.raises_apply (op : CompareOp) (left right : Value) :
    Raises (·.inFlight) (op.apply left right) := by
  rw [apply.eq_def]
  extract_lets answer
  have hanswer (b? : Option Bool) : Raises (·.inFlight) (answer b?) := by
    cases b? with
    | some b => exact .ok _
    | none => exact .misuse _
  clear_value answer
  by_cases hkind : left.kind ≠ right.kind
  · rw [if_pos hkind]
    exact .misuse _
  · rw [if_neg hkind]
    cases left <;> cases right <;> exact hanswer _

theorem Value.raises_negate (v : Value) : Raises (·.inFlight) v.negate := by
  rw [negate.eq_def]
  split
  · exact .ok _
  · exact .ok _
  · exact .misuse _

/-! ### Operands of maps and functions -/

namespace Action

theorem raises_entriesOf (vs : List Value) : Raises (·.inFlight) (entriesOf vs) := by
  fun_induction entriesOf with
  | case1 key v rest ih => exact ih.map
  | case2 => exact .misuse _
  | case3 => exact .ok _

theorem raises_parameterNames (vs : List Value) : Raises (·.inFlight) (parameterNames vs) := by
  fun_induction parameterNames with
  | case1 => exact .ok _
  | case2 name rest ih => exact ih.map
  | case3 => exact .misuse _

end Action

end ScriptMachine
