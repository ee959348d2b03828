import ScriptMachine.Proofs.Assembler.Accounting
import ScriptMachine.Proofs.Code.Operands

/-! Operand heights along straight code. What the assembler accounts for is what the instructions
take and put back, and so the heights that it comes to, one for each offset, agree with the finished
block. -/

namespace ScriptMachine

/-! ### Straight code -/

/-- Operations after which a frame goes on with the next instruction or ends. -/
def Opcode.straight : Opcode → Bool
  | .jumpAbsolute | .jumpForward | .popJumpIf _ | .jumpIfOrPop _ | .startLoop | .startTry | .break_
  | .continue_ => false
  | _ => true

theorem Opcode.opens_of_straight {o : Opcode} (h : o.straight) : o.opens = false := by
  cases o <;> first | rfl | cases h

/-- The assembler accounts for the operands that an instruction takes and puts back. -/
theorem Instruction.stackEffect_eq (i : Instruction) :
    i.opcode.stackEffect i.arg = (i.puts : Int) - i.takes := by
  obtain ⟨_, opcode, _⟩ := i
  cases opcode <;> simp only [Opcode.stackEffect, puts, takes] <;> omega

/-- Steps that change the operand height by themselves. -/
def Directive.adjusts : Directive → Bool
  | .bindCatch _ | .adjust _ => true
  | _ => false

/-- A call that changes the operand height by an instruction only, and by none that jumps or is
about open loops or handlers. -/
structure Call.Straight (c : Call) : Prop where
  adjusts : c.step.adjusts = false
  opcode : c.emits → ∀ o, c.step.opcode? = some o → o.straight

/-! ### Instructions -/

namespace Assembler

variable {a a' a'' : Assembler} {i : Instruction}

/-- An assembler adds an instruction at the end of the code and accounts for it. -/
structure Adds (a : Assembler) (i : Instruction) (a' : Assembler) : Prop extends
    Accounts a i.opcode (i.opcode.stackEffect i.arg) a' where
  offset : i.offset = a.code.size
  wellFormed : i.WellFormed
  code : a'.code.toList = a.code.toList ++ i.bytes
  patches : a'.patches = a.patches

/-- An assembler adds no instruction. -/
structure Idles (a a' : Assembler) : Prop where
  code : a'.code = a.code
  patches : a'.patches = a.patches
  depth : a'.depth = a.depth
  maxStack : a'.maxStack = a.maxStack
  maxBlocks : a'.maxBlocks = a.maxBlocks

theorem Idles.refl (a : Assembler) : a.Idles a :=
  ⟨rfl, rfl, rfl, rfl, rfl⟩

theorem adds_appended (a : Assembler) {o : Opcode} {x : Operand} (hx : x.form = o.form)
    (ho : o.opens = false) : a.Adds ⟨a.code.size, o, x⟩ (a.appended o x) where
  toAccounts := a.accounts_appended hx ho
  offset := rfl
  wellFormed := hx
  code := by
    obtain ⟨_, _, _, _, heq⟩ := a.appended_eq o x
    rw [heq]
    simp [Instruction.bytes]
  patches := by
    obtain ⟨_, _, _, _, heq⟩ := a.appended_eq o x
    rw [heq]

theorem Adds.of_idles (hidles : a.Idles a') (hadds : a'.Adds i a'') : a.Adds i a'' where
  size := by rw [hadds.size, hidles.code]
  depth := by rw [hadds.depth, hidles.depth]
  maxStack := by rw [hadds.maxStack, hidles.maxStack]
  maxBlocks := by rw [hadds.maxBlocks, hidles.maxBlocks]
  offset := by rw [hadds.offset, hidles.code]
  wellFormed := hadds.wellFormed
  code := by rw [hadds.code, hidles.code]
  patches := by rw [hadds.patches, hidles.patches]

theorem Adds.next_eq (hadds : a.Adds i a') : i.next = a'.code.size := by
  rw [Instruction.next, Instruction.length, hadds.offset, hadds.size, Nat.add_assoc]

end Assembler

/-! ### Calls -/

/-- A call has added an instruction, or nothing that the heights depend on. -/
inductive Call.Advances (c : Call) : Prop where
  | adds {i : Instruction} : c.emits → i.opcode.straight →
      c.before.Adds i (c.step.after c.before) → Advances c
  | idles : c.emits = false → c.before.Idles (c.step.after c.before) → Advances c

namespace Call.Advances

open Directive

variable {d : Directive} {a a' : Assembler} {o : Opcode} {x : Operand} {r : Option Nat}
  {y : AssemblyError} {arg : Nat} {step : Assembly Unit} {add : Assembly Nat}

theorem of_ok (hstraight : Straight ⟨a, d⟩) (hd : d.emits) (hop : d.opcode? = some o)
    (hx : x.form = o.form) (hidles : a.Idles a')
    (hperform : d.perform a = .ok r (a'.appended o x)) : Advances ⟨a, d⟩ := by
  have hemits : Call.emits ⟨a, d⟩ := by simp [Call.emits, hd, Directive.succeeds, hperform]
  have ho := hstraight.opcode hemits o hop
  refine .adds (i := ⟨a'.code.size, o, x⟩) hemits ho ?_
  rw [after_of_ok hperform]
  exact (a'.adds_appended hx (Opcode.opens_of_straight ho)).of_idles hidles

theorem of_error (hidles : a.Idles a') (hperform : d.perform a = .error y a') :
    Advances ⟨a, d⟩ := by
  refine .idles (by simp [Call.emits, Directive.succeeds, hperform]) ?_
  rwa [after_of_error hperform]

/-- A step that never emits. -/
theorem of_silence (hd : d.emits = false) (hidles : a.Idles (d.after a)) : Advances ⟨a, d⟩ :=
  .idles (by simp [Call.emits, hd]) hidles

theorem of_emit (hstraight : Straight ⟨a, d⟩) (hd : d.emits) (hop : d.opcode? = some o)
    (hperform : d.perform = silently (Assembly.emit o)) : Advances ⟨a, d⟩ := by
  rcases emit_cases a o with ⟨hform, hemit⟩ | ⟨y, herror⟩
  · exact of_ok (x := .none) hstraight hd hop hform.symm (.refl a) (hperform ▸ silently_ok hemit)
  · exact of_error (.refl a) (hperform ▸ silently_error herror)

theorem of_emitArg (hstraight : Straight ⟨a, d⟩) (hd : d.emits) (hop : d.opcode? = some o)
    (hperform : d.perform = silently step) (hstep : step a = Assembly.emitArg o arg a')
    (hidles : a.Idles a') : Advances ⟨a, d⟩ := by
  rcases emitArg_cases a' o arg with ⟨x, hform, -, hemit⟩ | ⟨y, herror⟩
  · exact of_ok hstraight hd hop hform hidles (hperform ▸ silently_ok (hstep.trans hemit))
  · exact of_error hidles (hperform ▸ silently_error (hstep.trans herror))

/-- An addition to a table leaves the code and the heights alone. -/
def Records (add : Assembly Nat) (a : Assembler) : Prop :=
  (∃ place a', add a = .ok place a' ∧ a.Idles a') ∨ ∃ y, add a = .error y a

theorem records_addConstant (v : Value) (a : Assembler) : Records (Assembly.addConstant v) a := by
  rw [Records, addConstant_eq]
  cases a.constants.placeFor v with
  | ok place => exact .inl ⟨place, _, rfl, rfl, rfl, rfl, rfl, rfl⟩
  | error y => exact .inr ⟨y, rfl⟩

theorem records_addName (s : String) (a : Assembler) : Records (Assembly.addName s) a := by
  rw [Records, addName_eq]
  cases a.names.placeFor s with
  | ok place => exact .inl ⟨place, _, rfl, rfl, rfl, rfl, rfl, rfl⟩
  | error y => exact .inr ⟨y, rfl⟩

theorem records_addLocal (s : String) (a : Assembler) : Records (Assembly.addLocal s) a := by
  rw [Records, addLocal_eq]
  cases a.locals.placeFor s with
  | ok place => exact .inl ⟨place, _, rfl, rfl, rfl, rfl, rfl, rfl⟩
  | error y => exact .inr ⟨y, rfl⟩

/-- An instruction on an entry of a table. -/
theorem of_records (hstraight : Straight ⟨a, d⟩) (hd : d.emits) (hop : d.opcode? = some o)
    (hperform : d.perform = silently (add >>= fun place => Assembly.emitArg o place))
    (hadd : Records add a) : Advances ⟨a, d⟩ := by
  rcases hadd with ⟨place, a', hok, hidles⟩ | ⟨y, herror⟩
  · have hstep : (add >>= fun place => Assembly.emitArg o place) a =
        Assembly.emitArg o place a' := by
      change EStateM.bind add _ a = _
      rw [EStateM.bind, hok]
    exact of_emitArg hstraight hd hop hperform hstep hidles
  · refine of_error (y := y) (.refl a) (hperform ▸ silently_error ?_)
    change EStateM.bind add _ a = _
    rw [EStateM.bind, herror]

/-- An addition to a table by itself. -/
theorem of_addition (hd : d.emits = false) (hperform : d.perform = some <$> add)
    (hadd : Records add a) : Advances ⟨a, d⟩ := by
  refine of_silence hd ?_
  have hmap : d.perform a = EStateM.map some add a := congrFun hperform a
  rcases hadd with ⟨place, a', hok, hidles⟩ | ⟨y, herror⟩
  · rw [EStateM.map, hok] at hmap
    rwa [after_of_ok hmap]
  · rw [EStateM.map, herror] at hmap
    rw [after_of_error hmap]
    exact .refl a

/-- A step that would emit a jump can only fail. -/
theorem of_jump (hstraight : Straight ⟨a, d⟩) (hop : d.opcode? = some o) (ho : o.straight = false)
    (hemits : Call.emits ⟨a, d⟩) : Advances ⟨a, d⟩ := by
  rw [hstraight.opcode hemits o hop] at ho
  cases ho

/-- Every call to straight code adds its instruction or nothing. -/
theorem of_straight (hstraight : Straight ⟨a, d⟩) : Advances ⟨a, d⟩ := by
  cases d with
  | emit o => exact of_emit hstraight rfl rfl rfl
  | binary op => exact of_emit hstraight rfl rfl rfl
  | emitArg o arg => exact of_emitArg hstraight rfl rfl rfl rfl (.refl a)
  | compare op => exact of_emitArg hstraight rfl rfl rfl rfl (.refl a)
  | call argc => exact of_emitArg hstraight rfl rfl rfl rfl (.refl a)
  | loadConst v => exact of_records hstraight rfl rfl rfl (records_addConstant v a)
  | localOp o s => exact of_records hstraight rfl rfl rfl (records_addLocal s a)
  | nameOp o s => exact of_records hstraight rfl rfl rfl (records_addName s a)
  | addConstant v => exact of_addition rfl rfl (records_addConstant v a)
  | addName s => exact of_addition rfl rfl (records_addName s a)
  | addLocal s => exact of_addition rfl rfl (records_addLocal s a)
  | newLabel | bind label => exact of_silence rfl ⟨rfl, rfl, rfl, rfl, rfl⟩
  | bindCatch label => cases hstraight.adjusts
  | adjust delta => cases hstraight.adjusts
  | jump o label =>
      cases habsolute : o.hasAbsoluteTarget with
      | true =>
          have hperform := silently_ok (jump_accepted a label habsolute)
          refine of_jump hstraight rfl ?_ (by simp [Call.emits, Directive.emits,
            Directive.succeeds, perform, hperform])
          cases o <;> first | rfl | cases habsolute
      | false => exact of_error (.refl a) (silently_error (jump_refused a label habsolute))
  | jumpForward label => exact of_jump hstraight rfl rfl rfl
  | startTry label => exact of_jump hstraight rfl rfl rfl
  | startLoop first second => exact of_jump hstraight rfl rfl rfl

end Call.Advances

/-! ### Sequences of calls -/

namespace Assembler

/-- Code is only added behind what is there, and the heights are counted along. -/
structure Continues (a a' : Assembler) : Prop extends Extends a a' where
  code : a.code.toList <+: a'.code.toList
  patches : a'.patches = a.patches
  depth_eq : a'.code.size = a.code.size → a'.depth = a.depth

namespace Continues

variable {a a' a'' : Assembler} {i : Instruction}

theorem refl (a : Assembler) : a.Continues a :=
  ⟨.refl a, List.prefix_rfl, rfl, fun _ => rfl⟩

theorem trans (h : a.Continues a') (h' : a'.Continues a'') : a.Continues a'' where
  toExtends := h.toExtends.trans h'.toExtends
  code := h.code.trans h'.code
  patches := h'.patches.trans h.patches
  depth_eq hsize := by
    have hle := h.size_le
    have hle' := h'.size_le
    rw [h'.depth_eq (by omega), h.depth_eq (by omega)]

theorem of_adds (h : a.Adds i a') : a.Continues a' where
  toExtends := .of_accounts h.toAccounts (Opcode.stackEffect_le_one _ _)
  code := h.code ▸ List.prefix_append _ _
  patches := h.patches
  depth_eq hsize := by
    have hadded := h.size
    omega

theorem of_idles (h : a.Idles a') : a.Continues a' where
  size_le := Nat.le_of_eq (by rw [h.code])
  maxStack_le := Nat.le_of_eq h.maxStack.symm
  counted hcounted := by
    constructor
    · rw [h.depth, h.code]
      exact hcounted.depth_le_size
    · rw [h.depth, h.maxStack]
      exact hcounted.depth_le_maxStack
    · rw [h.maxBlocks]
      exact hcounted.maxBlocks
  code := h.code ▸ List.prefix_rfl
  patches := h.patches
  depth_eq _ := h.depth

end Continues

end Assembler

theorem Call.Advances.continues {c : Call} (h : c.Advances) :
    c.before.Continues (c.step.after c.before) := by
  cases h with
  | adds _ _ hadds => exact .of_adds hadds
  | idles _ hidles => exact .of_idles hidles

namespace Assembler

/-- The operand height that is reported when the code has come to an offset. -/
def heightAt (a : Assembler) : List Directive → Nat → Option Nat
  | [], offset => if offset = a.code.size then some a.depth else none
  | d :: rest, offset =>
    if offset = a.code.size then some a.depth else (d.after a).heightAt rest offset

variable {a : Assembler} {steps : List Directive} {c : Call} {offset height : Nat}

theorem heightAt_size (a : Assembler) (steps : List Directive) :
    a.heightAt steps a.code.size = some a.depth := by
  cases steps <;> simp [heightAt]

theorem continues_of_mem_calls (h : ∀ c ∈ a.calls steps, c.Advances) :
    a.Continues (a.afterAll steps) ∧ ∀ c ∈ a.calls steps, a.Continues c.before ∧
      (c.step.after c.before).Continues (a.afterAll steps) :=
  related_of_mem_calls .refl .trans fun c hc => (h c hc).continues

/-- The height at an offset is what any call reports there. -/
theorem heightAt_offset (h : ∀ c ∈ a.calls steps, c.Advances) (hc : c ∈ a.calls steps) :
    a.heightAt steps c.offset = some c.before.depth := by
  induction steps generalizing a with
  | nil => cases hc
  | cons d rest ih =>
      have hcontinues := ((continues_of_mem_calls h).2 c hc).1
      rw [heightAt]
      split
      · rename_i hsize
        rw [hcontinues.depth_eq hsize]
      · rename_i hsize
        rw [calls, List.forall_mem_cons] at h
        rw [calls, List.mem_cons] at hc
        rcases hc with rfl | hc
        · exact absurd rfl hsize
        · exact ih h.2 hc

/-- The height behind the instruction that a call has added. -/
theorem heightAt_after (h : ∀ c ∈ a.calls steps, c.Advances) (hc : c ∈ a.calls steps) :
    a.heightAt steps (c.step.after c.before).code.size = some (c.step.after c.before).depth := by
  induction steps generalizing a with
  | nil => cases hc
  | cons d rest ih =>
      have hcontinues := ((continues_of_mem_calls h).2 c hc).1.trans (h c hc).continues
      rw [heightAt]
      split
      · rename_i hsize
        rw [hcontinues.depth_eq hsize]
      · rw [calls, List.forall_mem_cons] at h
        rw [calls, List.mem_cons] at hc
        rcases hc with rfl | hc
        · exact heightAt_size _ rest
        · exact ih h.2 hc

/-- A height is reported where a call has added an instruction, or at the end. -/
theorem heightAt_cases (h : ∀ c ∈ a.calls steps, c.Advances)
    (hheight : a.heightAt steps offset = some height) :
    (∃ c ∈ a.calls steps, c.emits ∧ c.offset = offset ∧ c.before.depth = height) ∨
      offset = (a.afterAll steps).code.size ∧ height = (a.afterAll steps).depth := by
  induction steps generalizing a with
  | nil =>
      rw [heightAt] at hheight
      split at hheight
      · rename_i hsize
        exact .inr ⟨hsize, (Option.some.inj hheight).symm⟩
      · cases hheight
  | cons d rest ih =>
      rw [calls, List.forall_mem_cons] at h
      obtain ⟨hfirst, hrest⟩ := h
      have hlater (hthere : (d.after a).heightAt rest offset = some height) :
          (∃ c ∈ a.calls (d :: rest), c.emits ∧ c.offset = offset ∧ c.before.depth = height) ∨
            offset = (a.afterAll (d :: rest)).code.size ∧
              height = (a.afterAll (d :: rest)).depth :=
        (ih hrest hthere).imp_left (Exists.imp fun c => And.imp_left (List.mem_cons_of_mem _))
      rw [heightAt] at hheight
      split at hheight
      · rename_i hsize
        cases hheight
        cases hfirst with
        | adds hemits _ _ => exact .inl ⟨⟨a, d⟩, List.mem_cons_self, hemits, hsize.symm, rfl⟩
        | idles _ hidles =>
            -- the instruction at this offset is still to come
            refine hlater ?_
            have hhere := (d.after a).heightAt_size rest
            rwa [hidles.code, hidles.depth, ← hsize] at hhere
      · exact hlater hheight

theorem Adds.decodeAt_eq {a' : Assembler} {i : Instruction} (h : a.Adds i a')
    {code : Array UInt8} (hcode : a'.code.toList <+: code.toList) :
    Instruction.decodeAt code a.code.size = .ok i := by
  obtain ⟨rest, hrest⟩ := hcode
  rw [Instruction.decodeAt_eq_ok_iff, ← hrest, h.code, List.append_assoc]
  refine ⟨h.offset, h.wellFormed, ?_⟩
  rw [List.drop_left' (by simp)]
  exact List.prefix_append _ _

theorem exists_call_of_heightAt (h : ∀ c ∈ a.calls steps, c.Advances)
    (hheight : a.heightAt steps offset = some height)
    (hinside : offset < (a.afterAll steps).code.size) :
    ∃ c ∈ a.calls steps, c.emits ∧ c.offset = offset ∧ c.before.depth = height :=
  (heightAt_cases h hheight).resolve_right fun hend => Nat.ne_of_lt hinside hend.1

/-- The instruction that is read where a height is reported has been added by a call. -/
theorem exists_adds_of_heightAt {i : Instruction} (h : ∀ c ∈ a.calls steps, c.Advances)
    (hheight : a.heightAt steps offset = some height)
    (hi : Instruction.decodeAt (a.afterAll steps).code offset = .ok i) :
    ∃ c ∈ a.calls steps, c.offset = offset ∧ c.before.depth = height ∧ i.opcode.straight ∧
      c.before.Adds i (c.step.after c.before) := by
  obtain ⟨c, hc, hemits, hoffset, hdepth⟩ :=
    exists_call_of_heightAt h hheight (Instruction.lt_size_of_decodeAt hi)
  refine ⟨c, hc, hoffset, hdepth, ?_⟩
  cases h c hc with
  | adds _ hop hadds =>
      have hread := hadds.decodeAt_eq ((continues_of_mem_calls h).2 c hc).2.code
      rw [← hoffset] at hi
      cases Except.ok.inj (hi.symm.trans hread)
      exact ⟨hop, hadds⟩
  | idles hnone _ =>
      rw [hnone] at hemits
      cases hemits

end Assembler

/-! ### Finished blocks -/

abbrev HeightMap := Nat → Option Nat

/-- A height map agrees with a block of straight code: it starts with no operands, stays within the
declared size, and has behind every instruction the height that the instruction leaves, which is
none where the instruction takes more than there are. -/
structure HeightMap.Agrees (h : HeightMap) (b : CodeBlock) : Prop where
  entry : h 0 = some 0
  height_le {o p : Nat} : h o = some p → p ≤ b.maxStack
  straight {o p : Nat} {i : Instruction} : h o = some p →
    Instruction.decodeAt b.code o = .ok i → i.opcode.straight
  next {o p : Nat} {i : Instruction} : h o = some p →
    Instruction.decodeAt b.code o = .ok i → h i.next = some (p + i.puts - i.takes)

/-- There is room for what an instruction puts back, even if it does not find its operands. -/
theorem HeightMap.Agrees.room {h : HeightMap} {b : CodeBlock} {o p : Nat} {i : Instruction}
    (hagrees : h.Agrees b) (hp : h o = some p) (hi : Instruction.decodeAt b.code o = .ok i) :
    p + i.puts ≤ b.maxStack + i.takes :=
  Nat.sub_le_iff_le_add.mp (hagrees.height_le (hagrees.next hp hi))

namespace Assembler

variable {a a' : Assembler} {i : Instruction}

theorem Adds.depth_eq (h : a.Adds i a') (hcounted : a.Counted) (hsize : a'.code.size ≤ maxDepth) :
    a'.depth = a.depth + i.puts - i.takes := by
  rw [h.toAccounts.depth_eq (Opcode.stackEffect_le_one _ _) hcounted hsize, i.stackEffect_eq]
  omega

variable {name filename : String} {debugInfo : Bool} {steps : List Directive} {b : CodeBlock}
  {c : Call}

/-- The code of a block without labels is that of the assembler. -/
theorem finished_of_build (hbuild : a.build = .ok b) (hpatches : a.patches = #[]) :
    b = a.finished a.code := by
  rw [build_eq, hpatches] at hbuild
  exact (Except.ok.inj hbuild).symm

/-- The heights that are reported along straight code agree with the finished block. -/
theorem agrees_of_build
    (hstraight : ∀ c ∈ (fresh name filename debugInfo).calls steps, c.Straight)
    (hbuild : ((fresh name filename debugInfo).afterAll steps).build = .ok b)
    (hsize : b.code.size < UInt64.size) :
    HeightMap.Agrees ((fresh name filename debugInfo).heightAt steps) b := by
  have hadvances (c : Call) (hc : c ∈ (fresh name filename debugInfo).calls steps) :
      c.Advances := .of_straight (hstraight c hc)
  obtain ⟨hall, hcalls⟩ := continues_of_mem_calls hadvances
  have hcounted := counted_fresh name filename debugInfo
  obtain rfl := finished_of_build hbuild hall.patches
  constructor
  case entry => exact heightAt_size _ steps
  case height_le =>
    intro o p hp
    rcases heightAt_cases hadvances hp with ⟨c, hc, -, -, rfl⟩ | ⟨-, rfl⟩
    · have hbefore := ((hcalls c hc).1.counted hcounted).depth_le_maxStack
      have hafter := ((hadvances c hc).continues.trans (hcalls c hc).2).maxStack_le
      exact Nat.le_trans hbefore hafter
    · exact (hall.counted hcounted).depth_le_maxStack
  case straight =>
    intro o p i hp hi
    obtain ⟨-, -, -, -, hop, -⟩ := exists_adds_of_heightAt hadvances hp hi
    exact hop
  case next =>
    intro o p i hp hi
    obtain ⟨c, hc, -, rfl, -, hadds⟩ := exists_adds_of_heightAt hadvances hp hi
    obtain ⟨hbefore, hafter⟩ := hcalls c hc
    have hword := Nat.le_trans hafter.size_le (Nat.le_sub_one_of_lt hsize)
    rw [hadds.next_eq, heightAt_after hadvances hc,
      hadds.depth_eq (hbefore.counted hcounted) hword]

end Assembler

end ScriptMachine
