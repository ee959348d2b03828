import ScriptMachine.Proofs.Assembler.Calls
import ScriptMachine.Proofs.Code.Layout

/-! Code with gaps. Until a block is finished, words that wait for labels are zero; each of them
lies inside the operand of the instruction that it was made for, so that the patches fill the gaps
of one instruction after the other. -/

namespace ScriptMachine

theorem Except.exists_of_bind {ε α β : Type} {x : Except ε α} {g : α → Except ε β} {b : β}
    (h : x >>= g = .ok b) : ∃ a, x = .ok a ∧ g a = .ok b := by
  cases x with
  | ok a => exact ⟨a, rfl, h⟩
  | error e => cases h

/-! ### Patches -/

namespace Patch

/-- The use of a label that a patch is for. -/
def use (p : Patch) : LabelUse :=
  ⟨p.label, if p.forward then p.place + 2 else 0⟩

theorem label_use (p : Patch) : p.use.label = p.label :=
  rfl

/-- The word that a patch writes, if labels are bound as given. -/
def word (bound : Nat → Option Nat) (p : Patch) : Except AssemblyError UInt16 :=
  match bound p.label with
  | none => .error (.unboundLabel p.label)
  | some target => p.wordFor target

variable {p : Patch} {bound : Nat → Option Nat}

theorem wordFor_eq (target : Nat) : p.wordFor target =
    if target < p.use.origin ∨ 65535 < target - p.use.origin then .error (.jumpOutOfRange target)
    else .ok (UInt16.ofNat (target - p.use.origin)) := by
  cases hforward : p.forward with
  | true =>
      by_cases hlow : target < p.place + 2 <;> simp [wordFor, use, hforward, hlow]
  | false => simp [wordFor, use, hforward]

theorem word_eq_ok_iff {w : UInt16} :
    p.word bound = .ok w ↔ bound p.label = some (p.use.origin + w.toNat) := by
  have hw := w.toNat_lt
  rw [word]
  cases hbound : bound p.label with
  | none => simp
  | some target =>
      simp only [wordFor_eq, Option.some_inj]
      split
      · simp
        omega
      · simp only [Except.ok.injEq, ← UInt16.toNat_inj, UInt16.toNat_ofNat']
        omega

theorem word_eq_error_iff {e : AssemblyError} :
    p.word bound = .error e ↔ p.use.failure? (bound p.label) = some e := by
  rw [word]
  cases hbound : bound p.label with
  | none => simp [LabelUse.failure?, use]
  | some target =>
      simp only [wordFor_eq, LabelUse.failure?]
      split <;> simp

/-- The offsets of labels as a function. -/
def boundIn (labels : Array (Option Nat)) (label : Nat) : Option Nat :=
  (labels[label]?).join

/-- A patch is applied by writing its word, if it has one. -/
theorem apply_eq (labels : Array (Option Nat)) (code : Array UInt8) :
    p.apply labels code = (p.word (boundIn labels)).map fun w : UInt16 =>
      (code.setIfInBounds p.place (w >>> 8).toUInt8).setIfInBounds (p.place + 1) w.toUInt8 := by
  rw [apply, word, boundIn]
  cases (labels[p.label]?).join with
  | none => rfl
  | some target =>
      simp only
      cases p.wordFor target <;> rfl

end Patch

/-- A patch writes between what comes before and after its place. -/
theorem Patch.apply_between {p : Patch} (labels : Array (Option Nat)) (before after : List UInt8)
    (x y : UInt8) (hplace : before.length = p.place) :
    p.apply labels (before ++ x :: y :: after).toArray =
      (p.word (boundIn labels)).map fun w : UInt16 => (before ++ wordBytes w ++ after).toArray := by
  rw [apply_eq, ← hplace]
  congr 1
  funext w
  simp [wordBytes]

/-! ### Emissions -/

/-- The operand of an instruction before labels have their offsets. -/
inductive Slot where
  | fixed (operand : Operand)
  | word (label : Nat) (forward : Bool)
  | pair (first second : Nat)

/-- An instruction that the assembler has added. -/
structure Emission where
  offset : Nat
  opcode : Opcode
  slot : Slot

namespace Emission

/-- The instruction with zeros in the place of labels. -/
def draft (e : Emission) : Instruction :=
  ⟨e.offset, e.opcode,
    match e.slot with
    | .fixed x => x
    | .word .. => .short 0
    | .pair .. => .pair 0 0⟩

/-- The patches for the labels of the operand. -/
def patches (e : Emission) : List Patch :=
  match e.slot with
  | .fixed _ => []
  | .word label forward => [⟨e.offset + 1, label, forward⟩]
  | .pair first second => [⟨e.offset + 1, first, false⟩, ⟨e.offset + 3, second, false⟩]

/-- The finished instruction, if labels are bound as given. -/
def resolve (bound : Nat → Option Nat) (e : Emission) : Except AssemblyError Instruction :=
  match e.slot with
  | .fixed x => .ok ⟨e.offset, e.opcode, x⟩
  | .word label forward => do
    let w ← Patch.word bound ⟨e.offset + 1, label, forward⟩
    return ⟨e.offset, e.opcode, .short w⟩
  | .pair first second => do
    let w ← Patch.word bound ⟨e.offset + 1, first, false⟩
    let v ← Patch.word bound ⟨e.offset + 3, second, false⟩
    return ⟨e.offset, e.opcode, .pair w v⟩

/-- Only the operand's words change when labels get their offsets. -/
theorem resolve_eq_ok {bound : Nat → Option Nat} {e : Emission} {i : Instruction}
    (h : e.resolve bound = .ok i) :
    i.offset = e.offset ∧ i.opcode = e.opcode ∧ i.operand.form = e.draft.operand.form := by
  obtain ⟨offset, opcode, slot⟩ := e
  cases slot with
  | fixed x =>
      cases h
      exact ⟨rfl, rfl, rfl⟩
  | word label forward =>
      obtain ⟨w, -, hi⟩ := Except.exists_of_bind h
      cases hi
      exact ⟨rfl, rfl, rfl⟩
  | pair first second =>
      obtain ⟨w, -, hrest⟩ := Except.exists_of_bind h
      obtain ⟨v, -, hi⟩ := Except.exists_of_bind hrest
      cases hi
      exact ⟨rfl, rfl, rfl⟩

/-- The patches of an emission turn its draft into the finished instruction, and leave alone what
comes before and after. -/
theorem foldlM_patches (labels : Array (Option Nat)) (e : Emission) (before after : List UInt8)
    (hoffset : before.length = e.offset) :
    e.patches.foldlM (fun code p => p.apply labels code)
        (before ++ e.draft.bytes ++ after).toArray =
      (e.resolve (Patch.boundIn labels)).map fun i => (before ++ i.bytes ++ after).toArray := by
  obtain ⟨offset, opcode, slot⟩ := e
  have hplace : (before ++ [opcode.byte]).length = offset + 1 := by
    simpa using hoffset
  cases slot with
  | fixed x => rfl
  | word label forward =>
      have hdraft :
          before ++ (Emission.mk offset opcode (.word label forward)).draft.bytes ++ after =
            (before ++ [opcode.byte]) ++ 0 :: 0 :: after := by
        simp [draft, Instruction.bytes, Operand.bytes, wordBytes]
      have hfirst : (Patch.mk (offset + 1) label forward).place = offset + 1 := rfl
      rw [hdraft]
      simp only [patches, List.foldlM_cons, List.foldlM_nil, bind_pure, resolve,
        Patch.apply_between labels _ after 0 0 (hplace.trans hfirst.symm)]
      cases Patch.word (Patch.boundIn labels) ⟨offset + 1, label, forward⟩ with
      | error y => rfl
      | ok w =>
          simp [Except.map, bind, Except.bind, pure, Except.pure, Instruction.bytes,
            Operand.bytes]
  | pair first second =>
      have hdraft :
          before ++ (Emission.mk offset opcode (.pair first second)).draft.bytes ++ after =
            (before ++ [opcode.byte]) ++ 0 :: 0 :: (0 :: 0 :: after) := by
        simp [draft, Instruction.bytes, Operand.bytes, wordBytes]
      have hfirst : (Patch.mk (offset + 1) first false).place = offset + 1 := rfl
      rw [hdraft]
      simp only [patches, List.foldlM_cons, List.foldlM_nil, bind_pure, resolve,
        Patch.apply_between labels _ (0 :: 0 :: after) 0 0 (hplace.trans hfirst.symm)]
      cases Patch.word (Patch.boundIn labels) ⟨offset + 1, first, false⟩ with
      | error y => rfl
      | ok w =>
          have hsecond : (before ++ [opcode.byte] ++ wordBytes w).length =
              (Patch.mk (offset + 3) second false).place := by
            simp [wordBytes, hoffset]
          have happly := Patch.apply_between labels _ after 0 0 hsecond
          simp only [Except.map, bind, Except.bind]
          rw [happly]
          cases Patch.word (Patch.boundIn labels) ⟨offset + 3, second, false⟩ with
          | error y => rfl
          | ok v => simp [Except.map, pure, Except.pure, Instruction.bytes, Operand.bytes]

theorem next_of_resolve {bound : Nat → Option Nat} {e : Emission} {i : Instruction}
    (h : e.resolve bound = .ok i) : i.next = e.draft.next := by
  obtain ⟨hoffset, hopcode, -⟩ := resolve_eq_ok h
  simp only [Instruction.next, Instruction.length, hoffset, hopcode]
  rfl

theorem wellFormed_of_resolve {bound : Nat → Option Nat} {e : Emission} {i : Instruction}
    (h : e.resolve bound = .ok i) (hform : e.draft.WellFormed) : i.WellFormed := by
  obtain ⟨-, hopcode, hiform⟩ := resolve_eq_ok h
  rw [Instruction.WellFormed, hiform, hopcode]
  exact hform

/-- Emissions one after the other resolve to instructions one after the other. -/
theorem laid_of_forall₂ {bound : Nat → Option Nat} {es : List Emission} {is : List Instruction}
    {offset : Nat} (h : List.Forall₂ (fun e i => e.resolve bound = .ok i) es is)
    (hlaid : Instruction.Laid offset (es.map draft)) : Instruction.Laid offset is := by
  induction h generalizing offset with
  | nil => trivial
  | @cons e i es is he _ ih =>
      obtain ⟨hoffset, hform, hrest⟩ := hlaid
      exact ⟨(resolve_eq_ok he).1.trans hoffset, wellFormed_of_resolve he hform,
        next_of_resolve he ▸ ih hrest⟩

/-- All patches of a code turn the drafts into the finished instructions. -/
theorem foldlM_flatMap_patches (labels : Array (Option Nat)) (es : List Emission)
    (before : List UInt8) (hlaid : Instruction.Laid before.length (es.map draft)) :
    (es.flatMap patches).foldlM (fun code p => p.apply labels code)
        (before ++ (es.map draft).flatMap Instruction.bytes).toArray =
      (es.mapM (resolve (Patch.boundIn labels))).map fun is =>
        (before ++ is.flatMap Instruction.bytes).toArray := by
  induction es generalizing before with
  | nil => rfl
  | cons e rest ih =>
      obtain ⟨hoffset, hform, hrest⟩ := hlaid
      have hfirst := foldlM_patches labels e before ((rest.map draft).flatMap Instruction.bytes)
        hoffset.symm
      rw [List.append_assoc] at hfirst
      rw [List.map_cons, List.flatMap_cons, List.flatMap_cons, List.foldlM_append, hfirst,
        List.mapM_cons]
      cases he : e.resolve (Patch.boundIn labels) with
      | error y => rfl
      | ok i =>
          have hlength : (before ++ i.bytes).length = e.draft.next := by
            rw [List.length_append, Instruction.length_bytes (wellFormed_of_resolve he hform),
              ← next_of_resolve he, Instruction.next, (resolve_eq_ok he).1]
            exact congrArg (· + i.length) hoffset.symm
          have hnext := ih (before ++ i.bytes) (hlength ▸ hrest)
          simp only [Except.map, bind, Except.bind]
          rw [hnext]
          cases rest.mapM (resolve (Patch.boundIn labels)) with
          | error y => rfl
          | ok is => simp [Except.map, pure, Except.pure]

end Emission

end ScriptMachine
