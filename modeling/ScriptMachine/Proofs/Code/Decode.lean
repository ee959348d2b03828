import ScriptMachine.Code.Block

/-! Reading instructions undoes writing them: an instruction is read at an offset exactly if its
bytes stand there. -/

namespace ScriptMachine

/-! ### Words -/

theorem toNat_wordOf (high low : UInt8) :
    (wordOf high low).toNat = high.toNat * 256 + low.toNat := by
  have hhigh := high.toNat_lt
  have hlow := low.toNat_lt
  have hshift : (high.toUInt16 <<< 8).toNat = high.toNat <<< 8 := by
    simp [Nat.shiftLeft_eq]
    omega
  rw [wordOf, UInt16.toNat_or, hshift, UInt8.toNat_toUInt16,
    ← Nat.shiftLeft_add_eq_or_of_lt (by omega), Nat.shiftLeft_eq]

/-- Two bytes are read back from their word. -/
theorem wordBytes_wordOf (high low : UInt8) : wordBytes (wordOf high low) = [high, low] := by
  have hhigh := high.toNat_lt
  have hlow := low.toNat_lt
  have hword := toNat_wordOf high low
  simp only [wordBytes, List.cons.injEq, and_true]
  constructor <;> apply UInt8.toNat_inj.mp <;> simp [hword, Nat.shiftRight_eq_div_pow]
  all_goals omega

/-! ### Lists that start at an offset -/

theorem cons_prefix_drop_iff {α : Type} {l xs : List α} {x : α} {n : Nat} :
    x :: xs <+: l.drop n ↔ l[n]? = some x ∧ xs <+: l.drop (n + 1) := by
  by_cases h : n < l.length
  · rw [List.drop_eq_getElem_cons h, List.cons_prefix_cons, List.getElem?_eq_getElem h,
      Option.some_inj, eq_comm]
  · rw [List.drop_of_length_le (by omega), List.getElem?_eq_none (by omega)]
    simp

theorem wordBytes_append_prefix_iff {code : Array UInt8} {offset : Nat} {w : UInt16}
    {rest : List UInt8} : wordBytes w ++ rest <+: code.toList.drop offset ↔
      (∃ high, code[offset]? = some high ∧
        ∃ low, code[offset + 1]? = some low ∧ wordOf high low = w) ∧
      rest <+: code.toList.drop (offset + 2) := by
  simp only [wordBytes, List.cons_append, List.nil_append, cons_prefix_drop_iff,
    Array.getElem?_toList]
  constructor
  · rintro ⟨hhigh, hlow, hrest⟩
    exact ⟨⟨_, hhigh, _, hlow, wordOf_wordBytes w⟩, hrest⟩
  · rintro ⟨⟨high, hhigh, low, hlow, rfl⟩, hrest⟩
    have hbytes := wordBytes_wordOf high low
    simp only [wordBytes, List.cons.injEq, and_true] at hbytes
    rw [hbytes.1, hbytes.2]
    exact ⟨hhigh, hlow, hrest⟩

theorem wordBytes_prefix_iff {code : Array UInt8} {offset : Nat} {w : UInt16} :
    wordBytes w <+: code.toList.drop offset ↔
      ∃ high, code[offset]? = some high ∧
        ∃ low, code[offset + 1]? = some low ∧ wordOf high low = w := by
  rw [← List.append_nil (wordBytes w), wordBytes_append_prefix_iff]
  simp

/-! ### Operands -/

namespace Operand

@[simp]
theorem length_bytes (o : Operand) : o.bytes.length = o.form.width := by
  cases o <;> rfl

/-- An operand of a form is read exactly where its bytes stand. -/
theorem read?_eq_some_iff {code : Array UInt8} {offset : Nat} {form : OperandForm} {o : Operand} :
    read? code offset form = some o ↔ o.form = form ∧ o.bytes <+: code.toList.drop offset := by
  cases form with
  | none => cases o <;> simp [read?, Operand.form, bytes]
  | byte =>
      cases o <;>
        simp [read?, Operand.form, bytes, cons_prefix_drop_iff, Option.bind_eq_some_iff]
  | short =>
      cases o <;>
        simp [read?, Operand.form, bytes, wordBytes_prefix_iff, Option.bind_eq_some_iff]
  | pair =>
      cases o with
      | pair first second =>
          simp only [read?, Operand.form, bytes, wordBytes_append_prefix_iff, wordBytes_prefix_iff,
            Option.bind_eq_bind, Option.bind_eq_some_iff, Option.pure_def, Option.some_inj,
            pair.injEq, true_and]
          grind
      | _ => simp [read?, Operand.form, Option.bind_eq_some_iff]

end Operand

/-! ### Instructions -/

namespace Instruction

/-- The operand has the form that the operation asks for. -/
def WellFormed (i : Instruction) : Prop :=
  i.operand.form = i.opcode.form

instance (i : Instruction) : Decidable i.WellFormed :=
  inferInstanceAs (Decidable (_ = _))

theorem length_bytes {i : Instruction} (h : i.WellFormed) : i.bytes.length = i.length := by
  simp only [bytes, List.length_cons, Operand.length_bytes, length, Opcode.operandWidth]
  rw [h]
  omega

/-- An instruction is read at an offset exactly if its bytes stand there. -/
theorem decodeAt_eq_ok_iff {code : Array UInt8} {offset : Nat} {i : Instruction} :
    decodeAt code offset = .ok i ↔
      i.offset = offset ∧ i.WellFormed ∧ i.bytes <+: code.toList.drop offset := by
  obtain ⟨start, opcode, operand⟩ := i
  simp only [bytes, cons_prefix_drop_iff, Array.getElem?_toList, WellFormed]
  rw [decodeAt]
  constructor
  · intro h
    split at h
    · cases h
    rename_i byte hbyte
    split at h
    · cases h
    rename_i o hopcode
    split at h
    · cases h
    rename_i x hoperand
    cases h
    obtain ⟨hform, hrest⟩ := Operand.read?_eq_some_iff.mp hoperand
    exact ⟨rfl, hform, Opcode.ofByte?_eq_some_iff.mp hopcode ▸ hbyte, hrest⟩
  · rintro ⟨rfl, hform, hbyte, hrest⟩
    have hoperand := Operand.read?_eq_some_iff.mpr ⟨hform, hrest⟩
    simp only [hbyte, Opcode.ofByte?_byte, hoperand]

/-- An instruction that is read ends within the code. -/
theorem next_le_of_decodeAt {code : Array UInt8} {offset : Nat} {i : Instruction}
    (h : decodeAt code offset = .ok i) : i.next ≤ code.size := by
  obtain ⟨rfl, hform, hbytes⟩ := decodeAt_eq_ok_iff.mp h
  have hlength := hbytes.length_le
  have hpositive : 0 < i.length := by
    rw [length]
    omega
  rw [length_bytes hform, List.length_drop, Array.length_toList] at hlength
  rw [next]
  omega

theorem lt_size_of_decodeAt {code : Array UInt8} {offset : Nat} {i : Instruction}
    (h : decodeAt code offset = .ok i) : offset < code.size := by
  have hnext := next_le_of_decodeAt h
  obtain ⟨rfl, -, -⟩ := decodeAt_eq_ok_iff.mp h
  rw [next, length] at hnext
  omega

/-- The two faults of reading an instruction. -/
theorem decodeAt_eq_error {code : Array UInt8} {offset : Nat} {y : Fault}
    (h : decodeAt code offset = .error y) :
    y = .truncatedInstruction offset ∨ ∃ byte, y = .invalidOpcode byte offset := by
  rw [decodeAt] at h
  split at h
  · cases h
    exact .inl rfl
  split at h
  · cases h
    exact .inr ⟨_, rfl⟩
  split at h
  · cases h
    exact .inl rfl
  · cases h

end Instruction

end ScriptMachine
