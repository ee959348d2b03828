import Mathlib.Algebra.GroupWithZero.Nat
import ScriptMachine.Proofs.Code.Layout

/-! The walk tiles a code: the instructions that it yields stand next to one another from the start
of the code on, and what they leave over is the one place that cannot be read. -/

namespace ScriptMachine

/-! ### What cannot be read -/

/-- The rest of a code, from an offset on, that starts with no instruction, and the fault that
reports it. -/
inductive Unreadable (offset : Nat) : List UInt8 → Fault → Prop
  | invalid {byte : UInt8} {rest : List UInt8} (hbyte : ∀ o : Opcode, o.byte ≠ byte) :
      Unreadable offset (byte :: rest) (.invalidOpcode byte offset)
  | truncated {o : Opcode} {rest : List UInt8} (hrest : rest.length < o.operandWidth) :
      Unreadable offset (o.byte :: rest) (.truncatedInstruction offset)

/-- An operand is missing only where the code ends before it does. -/
theorem Operand.read?_eq_none {code : Array UInt8} {offset : Nat} {form : OperandForm}
    (h : read? code offset form = .none) : (code.toList.drop offset).length < form.width := by
  refine Nat.not_le.mp fun hlong => ?_
  rw [List.length_drop, Array.length_toList] at hlong
  have hbyte (k : Nat) (hk : k < form.width) : ∃ b, code[offset + k]? = some b :=
    ⟨_, Array.getElem?_eq_getElem (by omega)⟩
  have hfirst (hk : 0 < form.width) : ∃ b, code[offset]? = some b := hbyte 0 hk
  cases form with
  | none => cases h
  | byte =>
      obtain ⟨b, hb⟩ := hfirst (by decide)
      simp [read?, hb] at h
  | short =>
      obtain ⟨high, hhigh⟩ := hfirst (by decide)
      obtain ⟨low, hlow⟩ := hbyte 1 (by decide)
      simp [read?, hhigh, hlow] at h
  | pair =>
      obtain ⟨high, hhigh⟩ := hfirst (by decide)
      obtain ⟨low, hlow⟩ := hbyte 1 (by decide)
      obtain ⟨high', hhigh'⟩ := hbyte 2 (by decide)
      obtain ⟨low', hlow'⟩ := hbyte 3 (by decide)
      simp [read?, hhigh, hlow, hhigh', hlow'] at h

namespace Instruction

variable {code : Array UInt8} {offset : Nat}

/-- Inside a code, reading fails only for what cannot be read. -/
theorem unreadable_of_decodeAt {y : Fault} (hinside : offset < code.size)
    (h : decodeAt code offset = .error y) : Unreadable offset (code.toList.drop offset) y := by
  have hrest : code.toList.drop offset = code[offset] :: code.toList.drop (offset + 1) := by
    rw [List.drop_eq_getElem_cons (by simpa using hinside), Array.getElem_toList]
  rw [decodeAt, Array.getElem?_eq_getElem hinside] at h
  rw [hrest]
  simp only at h
  split at h
  · rename_i hopcode
    cases h
    refine .invalid fun o ho => ?_
    rw [Opcode.ofByte?_eq_some_iff.mpr ho] at hopcode
    cases hopcode
  · rename_i o hopcode
    rw [← Opcode.ofByte?_eq_some_iff.mp hopcode]
    split at h
    · rename_i hoperand
      cases h
      exact .truncated (Operand.read?_eq_none hoperand)
    · cases h

/-- Reading fails where nothing can be read, and with the fault that reports it. -/
theorem decodeAt_of_unreadable {y : Fault} (h : Unreadable offset (code.toList.drop offset) y) :
    offset < code.size ∧ decodeAt code offset = .error y := by
  generalize hrest : code.toList.drop offset = bytes at h
  have hfirst {byte : UInt8} {rest : List UInt8} (hcons : code.toList.drop offset = byte :: rest) :
      code[offset]? = some byte ∧ code.toList.drop (offset + 1) = rest := by
    rw [← List.drop_drop, hcons]
    refine ⟨?_, rfl⟩
    rw [← Array.getElem?_toList, ← Nat.add_zero offset, ← List.getElem?_drop, hcons]
    rfl
  have hinside {byte : UInt8} (hbyte : code[offset]? = some byte) : offset < code.size :=
    (Array.getElem?_eq_some_iff.mp hbyte).1
  cases h with
  | @invalid byte rest hbyte =>
      obtain ⟨hread, -⟩ := hfirst hrest
      have hnone : Opcode.ofByte? byte = none := by
        refine Option.eq_none_iff_forall_ne_some.mpr fun o ho => ?_
        exact hbyte o (Opcode.ofByte?_eq_some_iff.mp ho)
      simp only [decodeAt, hread, hnone, hinside hread, and_self]
  | @truncated o rest hshort =>
      obtain ⟨hread, htail⟩ := hfirst hrest
      have hnone : Operand.read? code (offset + 1) o.form = none := by
        refine Option.eq_none_iff_forall_ne_some.mpr fun x hx => ?_
        obtain ⟨hform, hbytes⟩ := Operand.read?_eq_some_iff.mp hx
        have hlength := hbytes.length_le
        rw [htail, Operand.length_bytes, hform] at hlength
        exact absurd hshort (Nat.not_lt.mpr hlength)
      simp only [decodeAt, hread, Opcode.ofByte?_byte, hnone, hinside hread, and_self]

/-! ### Places -/

/-- The offset behind instructions that start at an offset. -/
def behind : Nat → List Instruction → Nat
  | offset, [] => offset
  | _, i :: rest => behind i.next rest

/-- The same instructions one after the other, the first of them at an offset. -/
def placed : Nat → List Instruction → List Instruction
  | _, [] => []
  | offset, i :: rest => { i with offset } :: placed (offset + i.length) rest

theorem laid_placed {is : List Instruction} (h : ∀ i ∈ is, i.WellFormed) :
    Laid offset (placed offset is) := by
  induction is generalizing offset with
  | nil => trivial
  | cons i rest ih =>
      rw [List.forall_mem_cons] at h
      exact ⟨rfl, h.1, ih h.2⟩

theorem flatMap_bytes_placed (offset : Nat) (is : List Instruction) :
    (placed offset is).flatMap bytes = is.flatMap bytes := by
  induction is generalizing offset with
  | nil => rfl
  | cons i rest ih => rw [placed, List.flatMap_cons, ih, List.flatMap_cons, bytes, bytes]

theorem Laid.behind_eq {is : List Instruction} (h : Laid offset is) :
    behind offset is = offset + (is.flatMap bytes).length := by
  induction is generalizing offset with
  | nil => rfl
  | cons i rest ih =>
      obtain ⟨rfl, hform, hrest⟩ := h
      rw [behind, ih hrest, List.flatMap_cons, List.length_append, length_bytes hform, next,
        Nat.add_assoc]

theorem sum_length_eq {is : List Instruction} (h : ∀ i ∈ is, i.WellFormed) :
    (is.map length).sum = (is.flatMap bytes).length := by
  rw [List.length_flatMap]
  exact congrArg List.sum (List.map_congr_left fun i hi => (length_bytes (h i hi)).symm)

/-! ### The walk -/

/-- The walk yields instructions that make up the code from its offset on, or it yields such
instructions up to what cannot be read and then the fault. -/
theorem walk_tiles (code : Array UInt8) (offset : Nat) :
    ∃ is, Laid offset is ∧
      (walk code offset = is.map .ok ∧ is.flatMap bytes = code.toList.drop offset ∨
        ∃ rest y, walk code offset = is.map .ok ++ [.error y] ∧
          is.flatMap bytes ++ rest = code.toList.drop offset ∧
          Unreadable (behind offset is) rest y) := by
  induction offset using walk.induct code with
  | case1 offset hinside y hread =>
      refine ⟨[], trivial, .inr ⟨_, y, ?_, rfl, unreadable_of_decodeAt hinside hread⟩⟩
      rw [walk, if_pos hinside, hread]
      rfl
  | case2 offset hinside i hread ih =>
      obtain ⟨hoffset, hform, hbytes⟩ := decodeAt_eq_ok_iff.mp hread
      have hnext : offset + i.length = i.next := by rw [next, hoffset]
      have hcode : code.toList.drop offset = i.bytes ++ code.toList.drop i.next := by
        obtain ⟨rest, hrest⟩ := hbytes
        rw [← hnext, ← List.drop_drop, ← hrest, ← length_bytes hform, List.drop_left]
      rw [hnext] at ih
      obtain ⟨is, hlaid, hwalk⟩ := ih
      rw [walk, if_pos hinside, hread]
      simp only [hnext]
      refine ⟨i :: is, ⟨hoffset, hform, hlaid⟩, ?_⟩
      rcases hwalk with ⟨hwalk, hrest⟩ | ⟨rest, y, hwalk, hrest, hunreadable⟩
      · refine .inl ⟨?_, ?_⟩
        · rw [hwalk, List.map_cons]
        · rw [List.flatMap_cons, hrest, hcode]
      · refine .inr ⟨rest, y, ?_, ?_, hunreadable⟩
        · rw [hwalk, List.map_cons, List.cons_append]
        · rw [List.flatMap_cons, List.append_assoc, hrest, hcode]
  | case3 offset hout =>
      refine ⟨[], trivial, .inl ⟨?_, ?_⟩⟩
      · rw [walk, if_neg hout]
        rfl
      · rw [List.flatMap_nil, List.drop_of_length_le (by rw [Array.length_toList]; omega)]

end Instruction

/-- The instructions of a block stand next to one another from offset zero on. Without a fault their
bytes are the code. Otherwise there is one fault, behind the instructions, and it reports what
stands there. The bytes of any instructions are read as these instructions. -/
theorem CodeBlock.instructions_tile (b : CodeBlock) :
    (∃ is : List Instruction, Instruction.Laid 0 is ∧
      (b.instructions = is.map .ok ∧ (is.map Instruction.length).sum = b.code.size ∧
          is.flatMap Instruction.bytes = b.code.toList ∨
        ∃ rest y, b.instructions = is.map .ok ++ [.error y] ∧
          is.flatMap Instruction.bytes ++ rest = b.code.toList ∧
          Instruction.behind 0 is = (is.flatMap Instruction.bytes).length ∧
          Unreadable (Instruction.behind 0 is) rest y)) ∧
    ∀ is : List Instruction, (∀ i ∈ is, i.WellFormed) →
      { b with code := (is.flatMap Instruction.bytes).toArray }.instructions =
        (Instruction.placed 0 is).map .ok := by
  constructor
  · obtain ⟨is, hlaid, hwalk⟩ := Instruction.walk_tiles b.code 0
    rw [List.drop_zero] at hwalk
    refine ⟨is, hlaid, ?_⟩
    rcases hwalk with ⟨hwalk, hbytes⟩ | ⟨rest, y, hwalk, hbytes, hrest⟩
    · refine .inl ⟨hwalk, ?_, hbytes⟩
      rw [Instruction.sum_length_eq hlaid.wellFormed, hbytes, Array.length_toList]
    · refine .inr ⟨rest, y, hwalk, hbytes, ?_, hrest⟩
      rw [hlaid.behind_eq, Nat.zero_add]
  · intro is hform
    refine Instruction.walk_eq_map_ok (Instruction.laid_placed hform) ?_
    rw [List.drop_zero, Instruction.flatMap_bytes_placed]

end ScriptMachine
