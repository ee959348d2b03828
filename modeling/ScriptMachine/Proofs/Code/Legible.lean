import Mathlib.Tactic.MkIffOfInductiveProp
import ScriptMachine.Code.Listing
import ScriptMachine.Proofs.Code.Coherent
import ScriptMachine.Proofs.Code.Tiling
import ScriptMachine.Proofs.Sequence

/-! Which blocks can be read and listed by themselves: those whose code is instructions from its
start to its end and that have what these instructions name. Of any other block the first fault is
told, by offset. -/

namespace ScriptMachine

/-! ### Operands -/

namespace CodeBlock

variable {b : CodeBlock} {index : Nat} {y : Fault}

theorem constant_eq_error_iff : b.constant index = .error y ↔
    b.constants.size ≤ index ∧ y = .constantOutOfBounds index b.constants.size := by
  rw [constant]
  grind

theorem nameAt_eq_error_iff : b.nameAt index = .error y ↔
    b.names.size ≤ index ∧ y = .nameOutOfBounds index b.names.size := by
  rw [nameAt]
  grind

theorem localAt_eq_error_iff : b.localAt index = .error y ↔
    b.locals.size ≤ index ∧ y = .localOutOfBounds index b.locals.size := by
  rw [localAt]
  grind

end CodeBlock

namespace Instruction

/-- What an instruction names in a table of its block is there. -/
structure Named (i : Instruction) (b : CodeBlock) : Prop where
  constant : i.opcode = .loadConst → i.arg < b.constants.size
  name : i.opcode.usesName → i.arg < b.names.size
  localName : i.opcode.usesLocal → i.arg < b.locals.size

/-- What an instruction names is not there, and the fault that reports it. -/
@[mk_iff]
inductive Misnames (i : Instruction) (b : CodeBlock) : Fault → Prop where
  | constant : i.opcode = .loadConst → b.constants.size ≤ i.arg →
      Misnames i b (.constantOutOfBounds i.arg b.constants.size)
  | name : i.opcode.usesName → b.names.size ≤ i.arg →
      Misnames i b (.nameOutOfBounds i.arg b.names.size)
  | localName : i.opcode.usesLocal → b.locals.size ≤ i.arg →
      Misnames i b (.localOutOfBounds i.arg b.locals.size)

variable {i : Instruction} {b : CodeBlock} {y : Fault}

theorem Suits.named (h : i.Suits b) : i.Named b :=
  ⟨h.constant, h.name, h.localName⟩

theorem named_iff : i.Named b ↔ ∀ y, ¬ i.Misnames b y := by
  constructor
  · intro h y hy
    cases hy with
    | constant hop hout => exact absurd (h.constant hop) (Nat.not_lt.mpr hout)
    | name hop hout => exact absurd (h.name hop) (Nat.not_lt.mpr hout)
    | localName hop hout => exact absurd (h.localName hop) (Nat.not_lt.mpr hout)
  · intro h
    exact ⟨fun hop => Nat.lt_of_not_le fun hout => h _ (.constant hop hout),
      fun hop => Nat.lt_of_not_le fun hout => h _ (.name hop hout),
      fun hop => Nat.lt_of_not_le fun hout => h _ (.localName hop hout)⟩

/-- Only words name entries of tables. -/
theorem Misnames.form_eq (h : i.Misnames b y) : i.opcode.form = .short := by
  obtain ⟨_, opcode, _⟩ := i
  cases h with
  | constant hop => cases hop; rfl
  | name hop | localName hop => cases opcode <;> first | rfl | cases hop

end Instruction

namespace Store

variable {s : Store} {b c : CodeBlock} {i : Instruction} {y : Fault} {indent : Nat}

theorem operandMeaning_eq_error_iff : s.operandMeaning b i = .error y ↔ i.Misnames b y := by
  obtain ⟨offset, opcode, operand⟩ := i
  rw [Instruction.misnames_iff]
  cases opcode <;>
    simp [operandMeaning, Opcode.usesName, Opcode.usesLocal, map_eq_error_iff,
      CodeBlock.constant_eq_error_iff, CodeBlock.nameAt_eq_error_iff,
      CodeBlock.localAt_eq_error_iff]

/-- A line fails for what its instruction names, and for nothing else. -/
theorem listingLine_eq_error_iff (hform : i.WellFormed) :
    s.listingLine b i = .error y ↔ i.Misnames b y := by
  have hshort (h : i.Misnames b y) : i.operand.form = .short := hform.trans h.form_eq
  rw [listingLine]
  cases hoperand : i.operand with
  | none | pair =>
      rw [hoperand] at hshort
      exact ⟨(by cases ·), fun h => absurd (hshort h) (by simp [Operand.form])⟩
  | byte | short =>
      simp only
      rw [← operandMeaning_eq_error_iff (s := s)]
      cases s.operandMeaning b i <;> simp [bind, Except.bind, pure, Except.pure]

theorem exists_listingLine_eq_ok_iff (hform : i.WellFormed) :
    (∃ line, s.listingLine b i = .ok line) ↔ i.Named b := by
  rw [Instruction.named_iff]
  simp only [← listingLine_eq_error_iff (s := s) hform]
  cases s.listingLine b i <;> simp

end Store

/-! ### Blocks -/

namespace Instruction

variable {code : Array UInt8} {offset : Nat} {is : List Instruction}

/-- The first instructions that the walk yields stand one after the other from its start on, and it
goes on behind them. -/
theorem laid_of_walk {tail : List (Except Fault Instruction)}
    (h : walk code offset = is.map .ok ++ tail) :
    Laid offset is ∧ is.flatMap bytes <+: code.toList.drop offset ∧
      tail = walk code (behind offset is) := by
  induction is generalizing offset with
  | nil => exact ⟨trivial, List.nil_prefix, h.symm⟩
  | cons i rest ih =>
      rw [walk] at h
      split at h
      · cases hread : decodeAt code offset with
        | error y => simp [hread] at h
        | ok j =>
            obtain ⟨hoffset, hform, more, hmore⟩ := decodeAt_eq_ok_iff.mp hread
            simp only [hread, List.map_cons, List.cons_append, List.cons.injEq,
              Except.ok.injEq] at h
            obtain ⟨rfl, hrest⟩ := h
            have hnext : offset + j.length = j.next := by rw [next, hoffset]
            rw [hnext] at hrest
            obtain ⟨hlaid, hbytes, htail⟩ := ih hrest
            refine ⟨⟨hoffset, hform, hlaid⟩, ?_, htail⟩
            rw [← hnext, ← List.drop_drop, ← hmore, ← length_bytes hform, List.drop_left] at hbytes
            rw [List.flatMap_cons, ← hmore]
            exact (List.prefix_append_right_inj _).mpr hbytes
      · simp at h

/-- The walk starts with a fault only where nothing can be read. -/
theorem unreadable_of_walk {y : Fault} {rest : List (Except Fault Instruction)}
    (h : walk code offset = .error y :: rest) : Unreadable offset (code.toList.drop offset) y := by
  rw [walk] at h
  split at h
  · rename_i hinside
    cases hread : decodeAt code offset with
    | error y' =>
        simp only [hread, List.cons.injEq, Except.error.injEq] at h
        exact h.1 ▸ unreadable_of_decodeAt hinside hread
    | ok i => simp [hread] at h
  · cases h

theorem walk_of_unreadable {y : Fault} (h : Unreadable offset (code.toList.drop offset) y) :
    walk code offset = [.error y] := by
  obtain ⟨hinside, hread⟩ := decodeAt_of_unreadable h
  rw [walk, if_pos hinside, hread]

end Instruction

namespace CodeBlock

variable {b : CodeBlock} {is : List Instruction} {y : Fault}

/-- The code of a block starts with the bytes of these instructions. -/
structure Begins (b : CodeBlock) (is : List Instruction) : Prop where
  laid : Instruction.Laid 0 is
  bytes : is.flatMap Instruction.bytes <+: b.code.toList

/-- The code of a block is instructions from its start to its end, and what they name is there. -/
def Legible (b : CodeBlock) : Prop :=
  ∃ is, Instruction.Laid 0 is ∧ is.flatMap Instruction.bytes = b.code.toList ∧ ∀ i ∈ is, i.Named b

/-- The first fault of a block, by offset: up to it everything can be read and what is named is
there. -/
inductive FirstFault (b : CodeBlock) : Fault → Prop where
  | unreadable {is : List Instruction} {y : Fault} : b.Begins is → (∀ i ∈ is, i.Named b) →
      Unreadable (Instruction.behind 0 is) (b.code.toList.drop (Instruction.behind 0 is)) y →
      FirstFault b y
  | misnamed {is : List Instruction} {i : Instruction} {y : Fault} : b.Begins (is ++ [i]) →
      (∀ j ∈ is, j.Named b) → i.Misnames b y → FirstFault b y

theorem Begins.instructions_eq (h : b.Begins is) :
    b.instructions = is.map .ok ++ Instruction.walk b.code (Instruction.behind 0 is) := by
  rw [instructions, h.laid.behind_eq]
  exact Instruction.walk_eq_append h.laid h.bytes

theorem begins_of_instructions {tail : List (Except Fault Instruction)}
    (h : b.instructions = is.map .ok ++ tail) :
    b.Begins is ∧ tail = Instruction.walk b.code (Instruction.behind 0 is) := by
  obtain ⟨hlaid, hbytes, htail⟩ := Instruction.laid_of_walk h
  exact ⟨⟨hlaid, hbytes⟩, htail⟩

theorem wellFormed_of_mem_instructions {i : Instruction} (h : .ok i ∈ b.instructions) :
    i.WellFormed :=
  (Instruction.decodeAt_eq_ok_iff.mp (Instruction.decodeAt_of_mem_walk h).1).2.1

/-- A block is legible if all of its instructions can be read and what they name is there. -/
theorem legible_iff : b.Legible ↔ ∀ x ∈ b.instructions, ∃ i, x = .ok i ∧ i.Named b := by
  constructor
  · rintro ⟨is, hlaid, hbytes, hnamed⟩ x hx
    rw [instructions, Instruction.walk_eq_map_ok hlaid hbytes.symm] at hx
    obtain ⟨i, hi, rfl⟩ := List.mem_map.mp hx
    exact ⟨i, rfl, hnamed i hi⟩
  · intro h
    obtain ⟨is, his, hnamed⟩ := exists_eq_map_ok h
    obtain ⟨hbegins, hwalk⟩ := begins_of_instructions (by rw [his, List.append_nil])
    refine ⟨is, hbegins.laid, hbegins.bytes.eq_of_length_le ?_, hnamed⟩
    -- the walk goes on behind the instructions unless the code ends there
    rw [Instruction.walk] at hwalk
    split at hwalk
    · cases hread : Instruction.decodeAt b.code (Instruction.behind 0 is) <;> simp [hread] at hwalk
    · rename_i hend
      rw [hbegins.laid.behind_eq, Nat.zero_add] at hend
      rw [Array.length_toList]
      omega

/-- What holds together is legible. -/
theorem Coherent.legible (h : b.Coherent) : b.Legible :=
  legible_iff.mpr fun x hx => (h x hx).imp fun _ hi => ⟨hi.1, hi.2.named⟩

end CodeBlock

namespace Store

variable {s : Store} {b c : CodeBlock} {y : Fault} {id : CodeId} {indent n m : Nat}

/-- The line for what the walk over a block has yielded, with the blanks in front of it. -/
def paddedLine (s : Store) (indent : Nat) (b : CodeBlock) (item : Except Fault Instruction) :
    Except Fault String := do
  let line ← s.listingLine b (← item)
  return Text.blanks indent ++ line ++ "\n"

theorem paddedLine_ok (s : Store) (indent : Nat) (b : CodeBlock) (i : Instruction) :
    s.paddedLine indent b (.ok i) =
      (s.listingLine b i).map (Text.blanks indent ++ · ++ "\n") := by
  simp only [paddedLine, bind, Except.bind]
  cases s.listingLine b i <;> rfl

theorem paddedLine_eq_error_iff {item : Except Fault Instruction} (hitem : item ∈ b.instructions) :
    s.paddedLine indent b item = .error y ↔
      item = .error y ∨ ∃ i, item = .ok i ∧ i.Misnames b y := by
  cases item with
  | error y' => simp [paddedLine, bind, Except.bind]
  | ok i =>
      rw [paddedLine_ok, map_eq_error_iff,
        listingLine_eq_error_iff (CodeBlock.wellFormed_of_mem_instructions hitem)]
      simp

theorem exists_paddedLine_eq_ok_iff {item : Except Fault Instruction}
    (hitem : item ∈ b.instructions) :
    (∃ line, s.paddedLine indent b item = .ok line) ↔ ∃ i, item = .ok i ∧ i.Named b := by
  cases item with
  | error y => simp [paddedLine, bind, Except.bind]
  | ok i =>
      rw [paddedLine_ok, exists_map_eq_ok_iff,
        exists_listingLine_eq_ok_iff (CodeBlock.wellFormed_of_mem_instructions hitem)]
      simp

theorem ownListing_eq (s : Store) (indent : Nat) (b : CodeBlock) :
    ∃ heading : String, s.ownListing indent b =
      (b.instructions.mapM (s.paddedLine indent b)).map (heading ++ String.join ·) :=
  ⟨_, rfl⟩

/-- A block is listed exactly if it is legible. -/
theorem exists_ownListing_eq_ok_iff : (∃ text, s.ownListing indent b = .ok text) ↔ b.Legible := by
  obtain ⟨heading, hlisting⟩ := s.ownListing_eq indent b
  rw [hlisting, exists_map_eq_ok_iff, exists_mapM_eq_ok_iff, CodeBlock.legible_iff]
  exact forall₂_congr fun _ hx => exists_paddedLine_eq_ok_iff hx

/-- The listing of a block fails with its first fault. -/
theorem ownListing_eq_error_iff : s.ownListing indent b = .error y ↔ b.FirstFault y := by
  obtain ⟨heading, hlisting⟩ := s.ownListing_eq indent b
  rw [hlisting, map_eq_error_iff, mapM_eq_error_iff]
  constructor
  · rintro ⟨front, item, rest, hsplit, hfront, hitem⟩
    have hmem (x) (hx : x ∈ front) : x ∈ b.instructions := by simp [hsplit, hx]
    -- what is listed before the failing item are instructions
    obtain ⟨is, rfl, hnamed⟩ := exists_eq_map_ok fun x hx =>
      (exists_paddedLine_eq_ok_iff (hmem x hx)).mp (hfront x hx)
    rcases (paddedLine_eq_error_iff (by simp [hsplit])).mp hitem with rfl | ⟨i, rfl, hi⟩
    · obtain ⟨hbegins, hwalk⟩ := CodeBlock.begins_of_instructions hsplit
      exact .unreadable hbegins hnamed (Instruction.unreadable_of_walk hwalk.symm)
    · rw [← List.singleton_append, ← List.append_assoc, ← List.map_singleton,
        ← List.map_append] at hsplit
      exact .misnamed (CodeBlock.begins_of_instructions hsplit).1 hnamed hi
  · have hlisted {is : List Instruction} {tail : List (Except Fault Instruction)}
        (hsplit : b.instructions = is.map .ok ++ tail) (hnamed : ∀ i ∈ is, i.Named b) :
        ∀ x ∈ is.map .ok, ∃ line, s.paddedLine indent b x = .ok line := by
      intro x hx
      obtain ⟨i, hi, rfl⟩ := List.mem_map.mp hx
      exact (exists_paddedLine_eq_ok_iff (by simp [hsplit, hi])).mpr ⟨i, rfl, hnamed i hi⟩
    intro h
    cases h with
    | @unreadable is _ hbegins hnamed hunreadable =>
        have hsplit := hbegins.instructions_eq
        rw [Instruction.walk_of_unreadable hunreadable] at hsplit
        refine ⟨_, _, [], hsplit, hlisted hsplit hnamed, ?_⟩
        exact (paddedLine_eq_error_iff (by simp [hsplit])).mpr (.inl rfl)
    | @misnamed is i _ hbegins hnamed hi =>
        have hsplit := hbegins.instructions_eq
        rw [List.map_append, List.map_singleton, List.append_assoc,
          List.singleton_append] at hsplit
        refine ⟨_, _, _, hsplit, hlisted hsplit hnamed, ?_⟩
        exact (paddedLine_eq_error_iff (by simp [hsplit])).mpr (.inr ⟨i, rfl, hi⟩)

end Store

end ScriptMachine
