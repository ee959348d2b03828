import ScriptMachine.Proofs.Code.Decode

/-! Instructions one after the other. The walk over a code yields exactly the instructions whose
bytes make up the code. -/

namespace ScriptMachine

namespace Instruction

/-- Instructions that stand one after the other, the first of them at an offset. -/
def Laid : Nat → List Instruction → Prop
  | _, [] => True
  | offset, i :: rest => i.offset = offset ∧ i.WellFormed ∧ Laid i.next rest

variable {offset : Nat} {is : List Instruction} {code : Array UInt8}

theorem Laid.wellFormed (h : Laid offset is) : ∀ i ∈ is, i.WellFormed := by
  induction is generalizing offset with
  | nil => simp
  | cons i rest ih =>
      obtain ⟨-, hi, hrest⟩ := h
      rw [List.forall_mem_cons]
      exact ⟨hi, ih hrest⟩

theorem Laid.append (h : Laid offset is) {js : List Instruction}
    (hjs : Laid (offset + (is.flatMap bytes).length) js) : Laid offset (is ++ js) := by
  induction is generalizing offset with
  | nil => simpa using hjs
  | cons i rest ih =>
      obtain ⟨hoffset, hi, hrest⟩ := h
      refine ⟨hoffset, hi, ih hrest ?_⟩
      rw [List.flatMap_cons, List.length_append, length_bytes hi, ← Nat.add_assoc,
        ← hoffset] at hjs
      exact hjs

/-- Where the bytes of instructions stand, the walk yields these instructions and goes on behind
them. -/
theorem walk_eq_append (h : Laid offset is) (hcode : is.flatMap bytes <+: code.toList.drop offset) :
    walk code offset = is.map .ok ++ walk code (offset + (is.flatMap bytes).length) := by
  induction is generalizing offset with
  | nil => rfl
  | cons i rest ih =>
      obtain ⟨hoffset, hform, hrest⟩ := h
      rw [List.flatMap_cons] at hcode
      have hdecode : decodeAt code offset = .ok i :=
        decodeAt_eq_ok_iff.mpr ⟨hoffset, hform, (List.prefix_append _ _).trans hcode⟩
      have hnext : offset + i.length = i.next := by rw [next, hoffset]
      have hdrop : rest.flatMap bytes <+: code.toList.drop i.next := by
        obtain ⟨tail, htail⟩ := hcode
        rw [← hnext, ← List.drop_drop, ← htail, ← length_bytes hform, List.append_assoc,
          List.drop_left]
        exact List.prefix_append _ _
      rw [walk, if_pos (lt_size_of_decodeAt hdecode), hdecode]
      simp only [hnext]
      rw [ih hrest hdrop, List.flatMap_cons, List.length_append, length_bytes hform,
        ← Nat.add_assoc, hnext]
      rfl

/-- The walk over the bytes of instructions yields these instructions and no fault. -/
theorem walk_eq_map_ok (h : Laid offset is) (hcode : code.toList.drop offset = is.flatMap bytes) :
    walk code offset = is.map .ok := by
  have hlength := congrArg List.length hcode
  rw [List.length_drop, Array.length_toList] at hlength
  have hend : walk code (offset + (is.flatMap bytes).length) = [] := by
    rw [walk, if_neg (by omega)]
  rw [walk_eq_append h (hcode ▸ List.prefix_rfl), hend, List.append_nil]

end Instruction

end ScriptMachine
