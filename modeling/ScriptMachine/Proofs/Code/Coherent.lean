import ScriptMachine.Proofs.Code.Decode
import ScriptMachine.Proofs.Code.Operands

/-! Code that holds together: all of it can be read, jumps go from instruction to instruction, and
operands that name an entry of a table name one that is there. -/

namespace ScriptMachine

/-! ### Instruction starts -/

/-- An offset at which an instruction starts, or the end of the code. -/
def CodeBlock.Boundary (b : CodeBlock) (offset : Nat) : Prop :=
  offset = b.code.size ∨ ∃ i, .ok i ∈ b.instructions ∧ i.offset = offset

namespace Instruction

variable {code : Array UInt8} {offset : Nat} {i : Instruction}

/-- The walk starts with an instruction at its offset, unless it faults or the code ends there. -/
theorem start_of_walk (hok : ∀ x ∈ walk code offset, ∃ i, x = .ok i) :
    code.size ≤ offset ∨ ∃ i, .ok i ∈ walk code offset ∧ i.offset = offset := by
  rw [walk]
  split
  · rename_i hinside
    rw [walk, if_pos hinside] at hok
    cases hread : decodeAt code offset with
    | error y =>
        obtain ⟨i, hi⟩ := hok (.error y) (by simp [hread])
        cases hi
    | ok i =>
        exact .inr ⟨i, by simp, (decodeAt_eq_ok_iff.mp hread).1⟩
  · exact .inl (by omega)

/-- Every instruction that the walk yields is read at its offset, and the walk goes on behind it. -/
theorem decodeAt_of_mem_walk (h : .ok i ∈ walk code offset) :
    decodeAt code i.offset = .ok i ∧ ∀ x ∈ walk code i.next, x ∈ walk code offset := by
  induction offset using walk.induct code with
  | case1 offset hinside y hread =>
      rw [walk, if_pos hinside, hread] at h
      simp at h
  | case2 offset hinside j hread ih =>
      have hoffset := (decodeAt_eq_ok_iff.mp hread).1
      have hwalk : walk code offset = .ok j :: walk code (offset + j.length) := by
        rw [walk, if_pos hinside, hread]
      rw [hwalk, List.mem_cons] at h
      rcases h with hj | hrest
      · cases hj
        refine ⟨hoffset ▸ hread, fun x hx => ?_⟩
        rw [hwalk, ← hoffset]
        exact List.mem_cons_of_mem _ hx
      · obtain ⟨hi, hnext⟩ := ih hrest
        refine ⟨hi, fun x hx => ?_⟩
        rw [hwalk]
        exact List.mem_cons_of_mem _ (hnext x hx)
  | case3 offset hout =>
      rw [walk, if_neg hout] at h
      simp at h

end Instruction

/-! ### Coherent code -/

/-- What an instruction refers to is there. -/
structure Instruction.Suits (i : Instruction) (b : CodeBlock) : Prop where
  constant : i.opcode = .loadConst → i.arg < b.constants.size
  name : i.opcode.usesName → i.arg < b.names.size
  localName : i.opcode.usesLocal → i.arg < b.locals.size
  comparison : i.opcode = .compare → CompareOp.ofNumber? i.arg ≠ none
  targets : ∀ offset ∈ i.targets, b.Boundary offset

/-- All of the code can be read, and its instructions refer to what is there. -/
def CodeBlock.Coherent (b : CodeBlock) : Prop :=
  ∀ x ∈ b.instructions, ∃ i, x = .ok i ∧ i.Suits b

namespace CodeBlock

variable {b : CodeBlock} {offset : Nat} {i : Instruction}

theorem Boundary.le_size (h : b.Boundary offset) : offset ≤ b.code.size := by
  rcases h with rfl | ⟨i, hi, rfl⟩
  · exact Nat.le_refl _
  · have hread := (Instruction.decodeAt_of_mem_walk hi).1
    have hend := Instruction.next_le_of_decodeAt hread
    rw [Instruction.next] at hend
    omega

/-- What is read at a boundary belongs to the instructions of the block. -/
theorem Boundary.mem_instructions (h : b.Boundary offset)
    (hi : Instruction.decodeAt b.code offset = .ok i) : .ok i ∈ b.instructions := by
  rcases h with rfl | ⟨j, hj, rfl⟩
  · have hend := Instruction.next_le_of_decodeAt hi
    have hoffset := (Instruction.decodeAt_eq_ok_iff.mp hi).1
    simp only [Instruction.next, Instruction.length] at hend
    omega
  · have hread := (Instruction.decodeAt_of_mem_walk hj).1
    rw [hread] at hi
    cases hi
    exact hj

/-- At every boundary but the end an instruction can be read. -/
theorem Boundary.exists_decodeAt (h : b.Boundary offset) (hinside : offset < b.code.size) :
    ∃ i, Instruction.decodeAt b.code offset = .ok i := by
  rcases h with rfl | ⟨i, hi, rfl⟩
  · exact absurd hinside (Nat.lt_irrefl _)
  · exact ⟨i, (Instruction.decodeAt_of_mem_walk hi).1⟩

namespace Coherent

variable (hb : b.Coherent)
include hb

theorem boundary_zero : b.Boundary 0 := by
  have hok (x) (hx : x ∈ b.instructions) : ∃ i, x = .ok i := (hb x hx).imp fun _ h => h.1
  rcases Instruction.start_of_walk hok with hempty | hfirst
  · exact .inl (by omega)
  · exact .inr hfirst

/-- Behind an instruction another one starts, or the code ends. -/
theorem boundary_next (hi : .ok i ∈ b.instructions) : b.Boundary i.next := by
  obtain ⟨hread, hrest⟩ := Instruction.decodeAt_of_mem_walk hi
  have hok (x) (hx : x ∈ Instruction.walk b.code i.next) : ∃ i, x = .ok i :=
    (hb x (hrest x hx)).imp fun _ h => h.1
  rcases Instruction.start_of_walk hok with hout | ⟨j, hj, hoffset⟩
  · have hend := Instruction.next_le_of_decodeAt hread
    exact .inl (by omega)
  · exact .inr ⟨j, hrest _ hj, hoffset⟩

theorem suits (hi : .ok i ∈ b.instructions) : i.Suits b := by
  obtain ⟨j, hj, hsuits⟩ := hb _ hi
  cases hj
  exact hsuits

end Coherent

end CodeBlock

end ScriptMachine
