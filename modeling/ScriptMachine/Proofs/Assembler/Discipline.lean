import ScriptMachine.Proofs.Assembler.Build
import ScriptMachine.Proofs.Code.Coherent

/-! Disciplined assembling: entries of tables and places in the code are left to the steps that
know them. What is assembled with discipline holds together. -/

namespace ScriptMachine

/-- Steps that leave no operand to chance which names an entry of a table or a place. -/
def Directive.disciplined : Directive → Bool
  | .emitArg .makeArray _ | .emitArg .makeMap _ | .emitArg .call _ => true
  | .emitArg .. => false
  | .localOp o _ => o.usesLocal
  | .nameOp o _ => o.usesName
  | _ => true

/-- A block that some disciplined steps assemble, of which any may have failed. -/
def CodeBlock.WellAssembled (b : CodeBlock) : Prop :=
  ∃ name filename debugInfo steps, (∀ d ∈ steps, d.disciplined) ∧
    ((Assembler.fresh name filename debugInfo).afterAll steps).build = .ok b

/-- The block without any code is one of them. -/
theorem CodeBlock.wellAssembled_default : (default : CodeBlock).WellAssembled :=
  ⟨"", "", true, [], by simp, rfl⟩

/-! ### What instructions refer to -/

namespace Instruction.Suits

variable {b : CodeBlock} {i : Instruction}

/-- An instruction without operand refers to nothing. -/
theorem of_no_operand (h : i.opcode.form = .none) : i.Suits b := by
  obtain ⟨offset, opcode, operand⟩ := i
  have htargets : Instruction.targets ⟨offset, opcode, operand⟩ = [] := by
    cases opcode <;> simp_all [Opcode.form, Instruction.targets, Instruction.jumps]
  constructor
  · rintro rfl
    cases h
  · cases opcode <;> simp_all [Opcode.form, Opcode.usesName]
  · cases opcode <;> simp_all [Opcode.form, Opcode.usesLocal]
  · rintro rfl
    cases h
  · simp [htargets]

/-- Numbers that are counts refer to nothing. -/
theorem of_count (h : i.opcode = .makeArray ∨ i.opcode = .makeMap ∨ i.opcode = .call) :
    i.Suits b := by
  rcases h with h | h | h <;> constructor <;>
    simp [h, Opcode.usesName, Opcode.usesLocal, Instruction.targets, Instruction.jumps]

theorem of_constant {v : Value} (h : i.opcode = .loadConst) (hv : b.constants[i.arg]? = some v) :
    i.Suits b := by
  obtain ⟨hin, -⟩ := Array.getElem?_eq_some_iff.mp hv
  constructor <;>
    simp [h, hin, Opcode.usesName, Opcode.usesLocal, Instruction.targets, Instruction.jumps]

theorem of_local {s : String} (h : i.opcode.usesLocal) (hs : b.locals[i.arg]? = some s) :
    i.Suits b := by
  obtain ⟨hin, -⟩ := Array.getElem?_eq_some_iff.mp hs
  obtain ⟨offset, opcode, operand⟩ := i
  cases opcode <;> simp only [Opcode.usesLocal, Bool.false_eq_true] at h <;> constructor <;>
    simp [hin, Opcode.usesName, Instruction.targets, Instruction.jumps]

theorem of_name {s : String} (h : i.opcode.usesName) (hs : b.names[i.arg]? = some s) :
    i.Suits b := by
  obtain ⟨hin, -⟩ := Array.getElem?_eq_some_iff.mp hs
  obtain ⟨offset, opcode, operand⟩ := i
  cases opcode <;> simp only [Opcode.usesName, Bool.false_eq_true] at h <;> constructor <;>
    simp [hin, Opcode.usesLocal, Instruction.targets, Instruction.jumps]

theorem of_comparison {op : CompareOp} (h : i.opcode = .compare) (hop : i.arg = op.number) :
    i.Suits b := by
  have hnumber : CompareOp.ofNumber? i.arg ≠ none := by
    rw [hop]
    cases op <;> decide
  constructor <;>
    simp [h, hnumber, Opcode.usesName, Opcode.usesLocal, Instruction.targets, Instruction.jumps]

/-- An instruction all of whose operands are places. -/
theorem of_targets
    (h : i.opcode.hasAbsoluteTarget ∨ i.opcode = .jumpForward ∨ i.opcode = .startLoop)
    (htargets : ∀ offset ∈ i.targets, b.Boundary offset) : i.Suits b := by
  obtain ⟨offset, opcode, operand⟩ := i
  constructor
  · rintro rfl
    simp [Opcode.hasAbsoluteTarget] at h
  · cases opcode <;> simp_all [Opcode.hasAbsoluteTarget, Opcode.usesName]
  · cases opcode <;> simp_all [Opcode.hasAbsoluteTarget, Opcode.usesLocal]
  · rintro rfl
    simp [Opcode.hasAbsoluteTarget] at h
  · exact htargets

end Instruction.Suits

theorem Instruction.targets_of_hasAbsoluteTarget {i : Instruction}
    (h : i.opcode.hasAbsoluteTarget) : i.targets = [i.arg] := by
  obtain ⟨offset, opcode, operand⟩ := i
  cases opcode <;> simp_all [Opcode.hasAbsoluteTarget, targets, jumps]

theorem Call.hasAbsoluteTarget_of_emits {a : Assembler} {o : Opcode} {label : Nat}
    (h : Call.emits ⟨a, .jump o label⟩) : o.hasAbsoluteTarget := by
  cases ho : o.hasAbsoluteTarget with
  | true => rfl
  | false =>
      have hperform := Directive.silently_error (Directive.jump_refused a label ho)
      simp [emits, Directive.succeeds, Directive.perform, hperform] at h

/-- What a disciplined call asks for refers to what is there, if labels are bound to boundaries. -/
theorem Directive.ReadsAs.suits {c : Call} {b : CodeBlock} {bound : Nat → Option Nat}
    {i : Instruction} (h : c.step.ReadsAs b bound i) (hdisciplined : c.step.disciplined)
    (hemits : c.emits) (hform : i.WellFormed)
    (hbound : ∀ label offset, bound label = some offset → b.Boundary offset) : i.Suits b := by
  obtain ⟨a, d⟩ := c
  cases d with
  | emit o | binary op =>
      have hnone : i.opcode.form = .none := by
        rw [← hform, h.2]
        rfl
      exact .of_no_operand hnone
  | emitArg o arg =>
      refine .of_count ?_
      rw [h.1]
      cases o <;> simp [disciplined] at hdisciplined ⊢
  | call argc => exact .of_count (.inr (.inr h.1))
  | loadConst v => exact .of_constant h.1 h.2
  | localOp o s => exact .of_local (h.1 ▸ hdisciplined) h.2
  | nameOp o s => exact .of_name (h.1 ▸ hdisciplined) h.2
  | compare op => exact .of_comparison h.1 h.2
  | jump o label =>
      have habsolute : i.opcode.hasAbsoluteTarget := h.1 ▸ Call.hasAbsoluteTarget_of_emits hemits
      refine .of_targets (.inl habsolute) ?_
      rw [Instruction.targets_of_hasAbsoluteTarget habsolute, List.forall_mem_singleton]
      exact hbound label _ h.2
  | startTry label =>
      have habsolute : i.opcode.hasAbsoluteTarget := by rw [h.1]; rfl
      refine .of_targets (.inl habsolute) ?_
      rw [Instruction.targets_of_hasAbsoluteTarget habsolute, List.forall_mem_singleton]
      exact hbound label _ h.2
  | jumpForward label =>
      refine .of_targets (.inr (.inl h.1)) ?_
      have htargets : i.targets = [i.next + i.arg] := by
        simp [Instruction.targets, Instruction.jumps, h.1]
      rw [htargets, List.forall_mem_singleton]
      exact hbound label _ h.2
  | startLoop first second =>
      obtain ⟨hop, iter, finish, hoperand, hfirst, hsecond⟩ := h
      refine .of_targets (.inr (.inr hop)) ?_
      have htargets : i.targets = [iter.toNat, finish.toNat] := by
        simp [Instruction.targets, hop, hoperand]
      rw [htargets, List.forall_mem_cons, List.forall_mem_singleton]
      exact ⟨hbound first _ hfirst, hbound second _ hsecond⟩
  | newLabel | bind _ | bindCatch _ | adjust _ | addConstant _ | addName _ | addLocal _ =>
      exact h.elim

/-! ### Places in the code -/

theorem size_foldlM_apply {labels : Array (Option Nat)} {ps : List Patch}
    {code code' : Array UInt8}
    (h : ps.foldlM (fun code p => p.apply labels code) code = .ok code') :
    code'.size = code.size := by
  induction ps generalizing code with
  | nil =>
      cases h
      rfl
  | cons p rest ih =>
      rw [List.foldlM_cons] at h
      obtain ⟨patched, hp, hrest⟩ := Except.exists_of_bind h
      rw [Patch.apply_eq] at hp
      cases hword : p.word (Patch.boundIn labels) with
      | error y =>
          rw [hword] at hp
          cases hp
      | ok w =>
          rw [hword] at hp
          cases hp
          rw [ih hrest]
          simp

/-- Patches change bytes, but not their number. -/
theorem Assembler.exists_eq_finished {a : Assembler} {b : CodeBlock} (h : a.build = .ok b) :
    ∃ code, code.size = a.code.size ∧ b = a.finished code := by
  rw [build_eq] at h
  cases hpatched : a.patches.toList.foldlM (fun code (p : Patch) => p.apply a.labels code)
      a.code with
  | error y =>
      rw [hpatched] at h
      cases h
  | ok code =>
      rw [hpatched] at h
      cases h
      exact ⟨code, size_foldlM_apply hpatched, rfl⟩

theorem Assembler.size_build {a : Assembler} {b : CodeBlock} (h : a.build = .ok b) :
    b.code.size = a.code.size := by
  obtain ⟨code, hsize, rfl⟩ := exists_eq_finished h
  exact hsize

namespace Assembler

variable {a : Assembler} {steps : List Directive} {c : Call}

/-- Where an assembler stands, the next call that emits will add its instruction; if there is none,
the code ends there. -/
theorem offset_of_next_emission (steps : List Directive) (hsound : a.constants.Sound) :
    (∃ c ∈ (a.calls steps).filter Call.emits, c.offset = a.code.size) ∨
      (a.afterAll steps).code.size = a.code.size := by
  induction steps generalizing a with
  | nil => exact .inr rfl
  | cons d rest ih =>
      rw [calls, afterAll, List.filter_cons]
      split
      · exact .inl ⟨⟨a, d⟩, List.mem_cons_self, rfl⟩
      rename_i hemits
      -- a call that does not emit leaves the code as it is
      obtain ⟨es, hgrows, hes⟩ := d.delivers hsound
      rw [List.filter_cons_of_neg hemits] at hes
      cases hes
      have hsize : (d.after a).code.size = a.code.size := hgrows.size_eq
      rw [← hsize]
      exact ih (hgrows.sound hsound)

/-- The offset of every call is that of an instruction or the end of the code. -/
theorem offset_of_mem_calls (hsound : a.constants.Sound) (h : c ∈ a.calls steps) :
    (∃ c' ∈ (a.calls steps).filter Call.emits, c'.offset = c.offset) ∨
      (a.afterAll steps).code.size = c.offset := by
  induction steps generalizing a with
  | nil => cases h
  | cons d rest ih =>
      rcases List.mem_cons.mp h with rfl | hrest
      · exact offset_of_next_emission (d :: rest) hsound
      obtain ⟨es, hgrows, -⟩ := d.delivers hsound
      refine (ih (hgrows.sound hsound) hrest).imp_left ?_
      rintro ⟨c', hc', hoffset⟩
      refine ⟨c', ?_, hoffset⟩
      rw [calls, List.filter_cons]
      split
      · exact List.mem_cons_of_mem _ hc'
      · exact hc'

end Assembler

theorem Assembler.map_step_calls (a : Assembler) (steps : List Directive) :
    (a.calls steps).map Call.step = steps := by
  induction steps generalizing a with
  | nil => rfl
  | cons d rest ih => exact congrArg (d :: ·) (ih _)

theorem Assembler.step_mem {a : Assembler} {steps : List Directive} {c : Call}
    (h : c ∈ a.calls steps) : c.step ∈ steps :=
  a.map_step_calls steps ▸ List.mem_map_of_mem h

/-- A label is bound to the offset of a call that binds it. -/
theorem exists_of_lastBound {calls : List Call} {label offset : Nat}
    (h : lastBound calls label = some offset) :
    ∃ c ∈ calls, c.binds label ∧ c.offset = offset := by
  have hfold (last : Option Nat) : calls.foldl
      (fun last c => if c.binds label then some c.offset else last) last = some offset →
      last = some offset ∨ ∃ c ∈ calls, c.binds label ∧ c.offset = offset := by
    clear h
    induction calls generalizing last with
    | nil => exact .inl
    | cons c rest ih =>
        intro h
        rw [List.foldl_cons] at h
        rcases ih _ h with hfirst | ⟨c', hc', hbinds⟩
        · split at hfirst
          · rename_i hbinds
            exact .inr ⟨c, List.mem_cons_self, hbinds, Option.some.inj hfirst⟩
          · exact .inl hfirst
        · exact .inr ⟨c', List.mem_cons_of_mem _ hc', hbinds⟩
  simpa using hfold none h

/-! ### Coherence -/

theorem exists_mem_of_forall₂ {α β : Type} {R : α → β → Prop} {xs : List α} {ys : List β} {x : α}
    (h : List.Forall₂ R xs ys) (hx : x ∈ xs) : ∃ y ∈ ys, R x y := by
  induction h with
  | nil => cases hx
  | cons hxy _ ih =>
      rcases List.mem_cons.mp hx with rfl | hrest
      · exact ⟨_, List.mem_cons_self, hxy⟩
      · obtain ⟨y, hy, hr⟩ := ih hrest
        exact ⟨y, List.mem_cons_of_mem _ hy, hr⟩

/-- Disciplined steps assemble code that holds together. -/
theorem CodeBlock.WellAssembled.coherent {b : CodeBlock} (h : b.WellAssembled) : b.Coherent := by
  obtain ⟨name, filename, debugInfo, steps, hsteps, hb⟩ := h
  obtain ⟨is, hlaid, hcode, hreads⟩ := exists_instructions_of_build hb
  have hwalk : b.instructions = is.map .ok := Instruction.walk_eq_map_ok hlaid hcode
  -- the places to which labels may be bound
  have hplace (c : Call) (hc : c ∈ (Assembler.fresh name filename debugInfo).calls steps) :
      b.Boundary c.offset := by
    rcases Assembler.offset_of_mem_calls ConstantPool.sound_empty hc with
      ⟨c', hc', hoffset⟩ | hend
    · obtain ⟨i, hi, hoffset', -⟩ := exists_mem_of_forall₂ hreads hc'
      exact .inr ⟨i, by simpa [hwalk] using hi, hoffset'.trans hoffset⟩
    · exact .inl (hend.symm.trans (Assembler.size_build hb).symm)
  have hbound (label offset : Nat) (hlabel :
      lastBound ((Assembler.fresh name filename debugInfo).calls steps) label = some offset) :
      b.Boundary offset := by
    obtain ⟨c, hc, -, rfl⟩ := exists_of_lastBound hlabel
    exact hplace c hc
  intro x hx
  rw [hwalk, List.mem_map] at hx
  obtain ⟨i, hi, rfl⟩ := hx
  obtain ⟨c, hc, -, hread⟩ := exists_mem_of_forall₂ hreads.flip hi
  obtain ⟨hcall, hemits⟩ := List.mem_filter.mp hc
  exact ⟨i, rfl, hread.suits (hsteps _ (Assembler.step_mem hcall)) hemits
    (hlaid.wellFormed i hi) hbound⟩

end ScriptMachine
