import ScriptMachine.Proofs.Assembler.Discipline

/-! The accounting of operand heights. A block that plain steps have assembled declares at least the
height that the accounting has come to after each of them, and the accounting is exact as long as
the code is no longer than a machine word can tell. -/

namespace ScriptMachine

/-- Operations that open a block. -/
def Opcode.opens : Opcode → Bool
  | .startLoop | .startTry => true
  | _ => false

theorem Opcode.stackEffect_le_one (o : Opcode) (arg : Nat) : o.stackEffect arg ≤ 1 := by
  cases o <;> simp only [stackEffect] <;> omega

/-! ### Instructions -/

/-- An assembler accounts for one more instruction. -/
structure Assembler.Accounts (a : Assembler) (o : Opcode) (effect : Int) (a' : Assembler) :
    Prop where
  size : a'.code.size = a.code.size + 1 + o.operandWidth
  depth : a'.depth = min maxDepth (a.depth + effect).toNat
  maxStack : a'.maxStack = max a.maxStack a'.depth
  maxBlocks : a'.maxBlocks = a.maxBlocks

theorem Assembler.accounts_appended (a : Assembler) {o : Opcode} {x : Operand}
    (hx : x.form = o.form) (ho : o.opens = false) :
    a.Accounts o (o.stackEffect x.number) (a.appended o x) := by
  refine ⟨?_, ?_, ?_, ?_⟩
  · obtain ⟨_, _, _, _, heq⟩ := a.appended_eq o x
    rw [heq]
    simp [hx, Opcode.operandWidth, Nat.add_assoc, Nat.add_comm 1]
  · cases o <;> rfl
  · cases o <;> rfl
  · cases o <;> first | rfl | cases ho

/-! ### Plain steps -/

namespace Directive

/-- The operation of the instruction that a step adds. -/
def opcode? : Directive → Option Opcode
  | .emit o | .emitArg o _ | .localOp o _ | .nameOp o _ | .jump o _ => some o
  | .loadConst _ => some .loadConst
  | .binary op => some (.binary op)
  | .compare _ => some .compare
  | .call _ => some .call
  | .jumpForward _ => some .jumpForward
  | .startLoop .. => some .startLoop
  | .startTry _ => some .startTry
  | _ => none

theorem ReadsAs.opcode?_eq {d : Directive} {b : CodeBlock} {bound : Nat → Option Nat}
    {i : Instruction} (h : d.ReadsAs b bound i) : d.opcode? = some i.opcode := by
  cases d with
  | newLabel | bind _ | bindCatch _ | adjust _ | addConstant _ | addName _ | addLocal _ =>
      exact h.elim
  | _ => exact congrArg some h.1.symm

/-- Steps that make and bind labels, and those that add an instruction which opens no block and
takes no operand from a table of names. -/
def plain : Directive → Bool
  | .emit o | .emitArg o _ | .jump o _ => !o.opens
  | .loadConst _ | .binary _ | .compare _ | .newLabel | .bind _ => true
  | _ => false

/-- By how much a plain step changes the operand height. -/
def effect : Directive → Int
  | .emit o | .jump o _ => o.stackEffect 0
  | .emitArg o arg => o.stackEffect arg
  | .loadConst _ => 1
  | .binary _ | .compare _ => -1
  | _ => 0

theorem effect_le_one (d : Directive) : d.effect ≤ 1 := by
  cases d with
  | emit o | jump o _ => exact o.stackEffect_le_one 0
  | emitArg o arg => exact o.stackEffect_le_one arg
  | _ => simp [effect]

variable {d : Directive} {a a' : Assembler} {o : Opcode} {arg : Nat} {step : Assembly Unit}

/-- Nothing follows from the failure of a call that has emitted. -/
theorem absurd_of_error {P : Prop} {y : AssemblyError} (hemits : Call.emits ⟨a, d⟩)
    (hperform : d.perform a = .error y a') : P := by
  simp [Call.emits, succeeds, hperform] at hemits

theorem accounts_of_emit (hemits : Call.emits ⟨a, d⟩)
    (hperform : d.perform = silently (Assembly.emit o)) (ho : o.opens = false) :
    a.Accounts o (o.stackEffect 0) (d.after a) := by
  rcases emit_cases a o with ⟨hform, hemit⟩ | ⟨y, herror⟩
  · rw [after_of_ok (hperform ▸ silently_ok hemit)]
    exact a.accounts_appended (x := .none) hform.symm ho
  · exact absurd_of_error hemits (hperform ▸ silently_error herror)

theorem accounts_of_emitArg (hemits : Call.emits ⟨a, d⟩) (hperform : d.perform = silently step)
    (hstep : step a = Assembly.emitArg o arg a') (ho : o.opens = false) :
    a'.Accounts o (o.stackEffect arg) (d.after a) := by
  rcases emitArg_cases a' o arg with ⟨x, hform, rfl, hemit⟩ | ⟨y, herror⟩
  · rw [after_of_ok (hperform ▸ silently_ok (hstep.trans hemit))]
    exact a'.accounts_appended hform ho
  · exact absurd_of_error hemits (hperform ▸ silently_error (hstep.trans herror))

theorem addConstant_cases (a : Assembler) (v : Value) :
    (∃ place constants, Assembly.addConstant v a = .ok place { a with constants }) ∨
      ∃ y, Assembly.addConstant v a = .error y a := by
  rw [addConstant_eq]
  cases a.constants.placeFor v with
  | ok place => exact .inl ⟨place, _, rfl⟩
  | error y => exact .inr ⟨y, rfl⟩

theorem accounts_loadConst {v : Value} (hemits : Call.emits ⟨a, .loadConst v⟩) :
    a.Accounts .loadConst 1 ((Directive.loadConst v).after a) := by
  have hbind : Assembly.loadConst v a = EStateM.bind (Assembly.addConstant v) _ a := rfl
  rw [EStateM.bind] at hbind
  rcases addConstant_cases a v with ⟨place, constants, hadd⟩ | ⟨y, hadd⟩
  · rw [hadd] at hbind
    obtain ⟨hsize, hdepth, hmax, hblocks⟩ := accounts_of_emitArg hemits rfl hbind rfl
    exact ⟨hsize, hdepth, hmax, hblocks⟩
  · rw [hadd] at hbind
    exact absurd_of_error hemits (silently_error hbind)

theorem form_of_hasAbsoluteTarget (ho : o.hasAbsoluteTarget) : o.form = .short := by
  cases o <;> simp_all [Opcode.hasAbsoluteTarget, Opcode.form]

theorem jump_accepted (a : Assembler) (label : Nat) (ho : o.hasAbsoluteTarget) :
    Assembly.jump o label a = .ok () ((a.appended o (.short 0)).patched
      ((a.appended o (.short 0)).code.size - 2) label false) := by
  simp [Assembly.jump, ho, Assembly.emitArg, form_of_hasAbsoluteTarget ho]
  rfl

theorem accounts_jump {label : Nat} (hemits : Call.emits ⟨a, .jump o label⟩)
    (ho : o.opens = false) : a.Accounts o (o.stackEffect 0) ((Directive.jump o label).after a) := by
  have habsolute := Call.hasAbsoluteTarget_of_emits hemits
  have hform := form_of_hasAbsoluteTarget habsolute
  obtain ⟨hsize, hdepth, hmax, hblocks⟩ := a.accounts_appended (x := .short 0) hform.symm ho
  rw [after_of_ok (d := .jump o label) (silently_ok (jump_accepted a label habsolute))]
  exact ⟨hsize, hdepth, hmax, hblocks⟩

/-- A plain step that adds an instruction accounts for it. -/
theorem accounts_of_plain (hplain : d.plain) (hemits : Call.emits ⟨a, d⟩) :
    ∃ o, d.opcode? = some o ∧ a.Accounts o d.effect (d.after a) := by
  cases d with
  | emit o => exact ⟨o, rfl, accounts_of_emit hemits rfl (by simpa [plain] using hplain)⟩
  | binary op => exact ⟨_, rfl, accounts_of_emit hemits rfl rfl⟩
  | emitArg o arg =>
      exact ⟨o, rfl, accounts_of_emitArg hemits rfl rfl (by simpa [plain] using hplain)⟩
  | compare op => exact ⟨_, rfl, accounts_of_emitArg hemits rfl rfl rfl⟩
  | loadConst v => exact ⟨_, rfl, accounts_loadConst hemits⟩
  | jump o label => exact ⟨o, rfl, accounts_jump hemits (by simpa [plain] using hplain)⟩
  | newLabel | bind _ | bindCatch _ | adjust _ | addConstant _ | addName _ | addLocal _ =>
      cases hemits
  | _ => cases hplain

/-- A plain step that adds no instruction leaves code and heights alone. -/
theorem after_of_plain (hplain : d.plain) (hemits : d.emits = false) :
    d.effect = 0 ∧ ∃ labels, d.after a = { a with labels } := by
  cases d with
  | newLabel | bind _ => exact ⟨rfl, _, rfl⟩
  | bindCatch _ | adjust _ | addConstant _ | addName _ | addLocal _ => cases hplain
  | _ => cases hemits

end Directive

/-! ### Heights -/

namespace Assembler

/-- The operand height is below what the block will declare, and no more than one for each byte of
the code. No block is open. -/
structure Counted (a : Assembler) : Prop where
  depth_le_size : a.depth ≤ a.code.size
  depth_le_maxStack : a.depth ≤ a.maxStack
  maxBlocks : a.maxBlocks = 0

theorem counted_fresh (name filename : String) (debugInfo : Bool) :
    (fresh name filename debugInfo).Counted :=
  ⟨Nat.le_refl _, Nat.le_refl _, rfl⟩

/-- The operand height is exact: there are not enough instructions to count beyond a word. -/
theorem Accounts.depth_eq {a a' : Assembler} {o : Opcode} {effect : Int}
    (h : a.Accounts o effect a') (heffect : effect ≤ 1) (hcounted : a.Counted)
    (hsize : a'.code.size ≤ maxDepth) : a'.depth = (a.depth + effect).toNat := by
  have hbefore := hcounted.depth_le_size
  have hafter := h.size
  rw [h.depth, Nat.min_eq_right]
  omega

/-- Code and declared height only grow. -/
structure Extends (a a' : Assembler) : Prop where
  size_le : a.code.size ≤ a'.code.size
  maxStack_le : a.maxStack ≤ a'.maxStack
  counted : a.Counted → a'.Counted

namespace Extends

variable {a a' a'' : Assembler}

theorem refl (a : Assembler) : a.Extends a :=
  ⟨Nat.le_refl _, Nat.le_refl _, id⟩

theorem trans (h : a.Extends a') (h' : a'.Extends a'') : a.Extends a'' :=
  ⟨Nat.le_trans h.size_le h'.size_le, Nat.le_trans h.maxStack_le h'.maxStack_le,
    h'.counted ∘ h.counted⟩

theorem of_accounts {o : Opcode} {effect : Int} (h : a.Accounts o effect a')
    (heffect : effect ≤ 1) : a.Extends a' := by
  have hsize := h.size
  have hdepth := h.depth
  have hmax := h.maxStack
  refine ⟨by omega, by omega, fun hcounted => ⟨?_, by omega, ?_⟩⟩
  · have hle := hcounted.depth_le_size
    omega
  · rw [h.maxBlocks, hcounted.maxBlocks]

end Extends

variable {a : Assembler} {steps : List Directive} {c : Call}

/-- What every step makes of the assembler, all steps together do, and those before and after any
call. -/
theorem related_of_mem_calls {R : Assembler → Assembler → Prop} (hrefl : ∀ a, R a a)
    (htrans : ∀ {a a' a''}, R a a' → R a' a'' → R a a'')
    (h : ∀ c ∈ a.calls steps, R c.before (c.step.after c.before)) :
    R a (a.afterAll steps) ∧
      ∀ c ∈ a.calls steps, R a c.before ∧ R (c.step.after c.before) (a.afterAll steps) := by
  induction steps generalizing a with
  | nil => exact ⟨hrefl a, by simp [calls]⟩
  | cons d rest ih =>
      rw [calls, List.forall_mem_cons] at h
      obtain ⟨hfirst, hrest⟩ := h
      obtain ⟨hall, hmem⟩ := ih hrest
      refine ⟨htrans hfirst hall, ?_⟩
      rw [calls, List.forall_mem_cons]
      exact ⟨⟨hrefl a, hall⟩, fun c hc => ⟨htrans hfirst (hmem c hc).1, (hmem c hc).2⟩⟩

/-- Steps that all extend the assembler do so together. -/
theorem extends_of_mem_calls
    (h : ∀ c ∈ a.calls steps, c.before.Extends (c.step.after c.before)) :
    a.Extends (a.afterAll steps) ∧
      ∀ c ∈ a.calls steps, a.Extends c.before ∧
        (c.step.after c.before).Extends (a.afterAll steps) :=
  related_of_mem_calls .refl .trans h

end Assembler

namespace Call

variable {c : Call}

theorem emits_of_succeeds (hsucceeds : c.step.succeeds c.before) : c.emits = c.step.emits := by
  rw [emits, hsucceeds, Bool.and_true]

theorem extends_of_plain (hplain : c.step.plain) (hsucceeds : c.step.succeeds c.before) :
    c.before.Extends (c.step.after c.before) := by
  cases hemits : c.step.emits with
  | true =>
      have hcall := (emits_of_succeeds hsucceeds).trans hemits
      obtain ⟨o, -, haccounts⟩ := Directive.accounts_of_plain hplain hcall
      exact .of_accounts haccounts c.step.effect_le_one
  | false =>
      obtain ⟨-, labels, heq⟩ := Directive.after_of_plain (a := c.before) hplain hemits
      rw [heq]
      exact ⟨Nat.le_refl _, Nat.le_refl _, fun h => ⟨h.1, h.2, h.3⟩⟩

theorem depth_after (hplain : c.step.plain) (hsucceeds : c.step.succeeds c.before)
    (hcounted : c.before.Counted)
    (hsize : (c.step.after c.before).code.size ≤ Assembler.maxDepth) :
    (c.step.after c.before).depth = (c.before.depth + c.step.effect).toNat := by
  cases hemits : c.step.emits with
  | true =>
      have hcall := (emits_of_succeeds hsucceeds).trans hemits
      obtain ⟨o, -, haccounts⟩ := Directive.accounts_of_plain hplain hcall
      exact haccounts.depth_eq c.step.effect_le_one hcounted hsize
  | false =>
      obtain ⟨heffect, labels, heq⟩ := Directive.after_of_plain (a := c.before) hplain hemits
      rw [heq, heffect]
      simp

end Call

/-! ### Finished blocks -/

/-- What the block in which a call ends up has to do with the call: the instruction is there, the
label stands here, and there is room for the operands. -/
structure Call.Settled (b : CodeBlock) (bound : Nat → Option Nat) (c : Call) : Prop where
  reads : c.step.emits → ∃ i, Instruction.decodeAt b.code c.offset = .ok i ∧
    i.next = (c.step.after c.before).code.size ∧ c.step.ReadsAs b bound i
  binds {label offset : Nat} : c.step.binds label → bound label = some offset → offset = c.offset
  inside : (c.step.after c.before).code.size ≤ b.code.size
  depth : (c.step.after c.before).depth = (c.before.depth + c.step.effect).toNat
  room : (c.step.after c.before).depth ≤ b.maxStack

theorem Directive.succeeds_of_performAll {steps : List Directive} {a a' : Assembler}
    (h : performAll steps a = .ok () a') :
    (∀ c ∈ a.calls steps, c.step.succeeds c.before) ∧ a' = a.afterAll steps := by
  induction steps generalizing a with
  | nil =>
      cases h
      exact ⟨by simp [Assembler.calls], rfl⟩
  | cons d rest ih =>
      change (Functor.discard d.perform >>= fun _ => performAll rest) a = _ at h
      rw [discard_eq] at h
      obtain ⟨_, r, hfirst, hrest⟩ := bind_eq_ok_iff.mp h
      obtain ⟨x, r', hperform, hpure⟩ := bind_eq_ok_iff.mp hfirst
      cases hpure
      obtain ⟨hsucceeds, rfl⟩ := ih hrest
      rw [Assembler.calls, Assembler.afterAll, after_of_ok hperform, List.forall_mem_cons]
      exact ⟨⟨by simp [succeeds, hperform], hsucceeds⟩, rfl⟩

/-- All steps of a successful assembly succeed. -/
theorem Assembler.of_assemble {a : Assembler} {steps : List Directive} {b : CodeBlock}
    (h : a.assemble steps = .ok b) :
    (∀ c ∈ a.calls steps, c.step.succeeds c.before) ∧ (a.afterAll steps).build = .ok b := by
  rw [assemble] at h
  split at h
  · rename_i a' hperform
    obtain ⟨hsucceeds, rfl⟩ := Directive.succeeds_of_performAll hperform
    exact ⟨hsucceeds, h⟩
  · cases h

theorem eq_of_countP_le_one {α : Type} {l : List α} {p : α → Bool} {x y : α}
    (h : l.countP p ≤ 1) (hx : x ∈ l) (hy : y ∈ l) (hpx : p x) (hpy : p y) : x = y := by
  have hx' := List.mem_filter.mpr ⟨hx, hpx⟩
  have hy' := List.mem_filter.mpr ⟨hy, hpy⟩
  rw [List.countP_eq_length_filter] at h
  match hl : l.filter p, h with
  | [], _ => simp [hl] at hx'
  | [z], _ =>
      rw [hl, List.mem_singleton] at hx' hy'
      rw [hx', hy']

section

variable {name filename : String} {debugInfo : Bool} {steps : List Directive} {b : CodeBlock}
  {c : Call}

theorem exists_decodeAt_of_build
    (hb : ((Assembler.fresh name filename debugInfo).afterAll steps).build = .ok b)
    (hc : c ∈ (Assembler.fresh name filename debugInfo).calls steps) (hemits : c.emits) :
    ∃ i, Instruction.decodeAt b.code c.offset = .ok i ∧ c.step.ReadsAs b
      (lastBound ((Assembler.fresh name filename debugInfo).calls steps)) i := by
  obtain ⟨is, hlaid, hcode, hreads⟩ := exists_instructions_of_build hb
  obtain ⟨i, hi, hoffset, hread⟩ :=
    exists_mem_of_forall₂ hreads (List.mem_filter.mpr ⟨hc, hemits⟩)
  have hwalk : .ok i ∈ b.instructions := by
    rw [CodeBlock.instructions, Instruction.walk_eq_map_ok hlaid hcode]
    exact List.mem_map_of_mem hi
  exact ⟨i, hoffset ▸ (Instruction.decodeAt_of_mem_walk hwalk).1, hread⟩

/-- Plain steps that succeed assemble a block in which every call is settled. -/
theorem settled_of_assemble (hplain : ∀ d ∈ steps, d.plain)
    (hunique : ∀ label, steps.countP (·.binds label) ≤ 1)
    (hb : (Assembler.fresh name filename debugInfo).assemble steps = .ok b)
    (hsize : b.code.size < UInt64.size) :
    b.maxBlocks = 0 ∧ ∀ c ∈ (Assembler.fresh name filename debugInfo).calls steps,
      c.Settled b (lastBound ((Assembler.fresh name filename debugInfo).calls steps)) := by
  obtain ⟨hsucceeds, hbuild⟩ := Assembler.of_assemble hb
  have hextends (c : Call) (hc : c ∈ (Assembler.fresh name filename debugInfo).calls steps) :=
    c.extends_of_plain (hplain _ (Assembler.step_mem hc)) (hsucceeds c hc)
  have hcounted := Assembler.counted_fresh name filename debugInfo
  obtain ⟨hall, hcalls⟩ := Assembler.extends_of_mem_calls hextends
  obtain ⟨code, -, hfinished⟩ := Assembler.exists_eq_finished hbuild
  constructor
  · rw [hfinished]
    exact (hall.counted hcounted).maxBlocks
  intro c hc
  have hplain := hplain _ (Assembler.step_mem hc)
  have hsucceeds := hsucceeds c hc
  have hemits (h : c.step.emits) : c.emits := (Call.emits_of_succeeds hsucceeds).trans h
  obtain ⟨hbefore, hafter⟩ := hcalls c hc
  have hinside : (c.step.after c.before).code.size ≤ b.code.size :=
    Assembler.size_build hbuild ▸ hafter.size_le
  constructor
  case reads =>
    intro h
    obtain ⟨i, hi, hread⟩ := exists_decodeAt_of_build hbuild hc (hemits h)
    obtain ⟨o, ho, haccounts⟩ := Directive.accounts_of_plain hplain (hemits h)
    have hop : i.opcode = o := Option.some.inj (hread.opcode?_eq.symm.trans ho)
    refine ⟨i, hi, ?_, hread⟩
    rw [Instruction.next, Instruction.length, hop, haccounts.size,
      (Instruction.decodeAt_eq_ok_iff.mp hi).1]
    exact (Nat.add_assoc _ _ _).symm
  case binds =>
    intro label offset hbinds hbound
    obtain ⟨c', hc', hbinds', rfl⟩ := exists_of_lastBound hbound
    have hcount := hunique label
    rw [← (Assembler.fresh name filename debugInfo).map_step_calls steps, List.countP_map] at hcount
    rw [Call.binds, Bool.and_eq_true] at hbinds'
    rw [eq_of_countP_le_one hcount hc hc' hbinds hbinds'.1]
  case inside => exact hinside
  case depth =>
    refine c.depth_after hplain hsucceeds (hbefore.counted hcounted) ?_
    exact Nat.le_sub_one_of_lt (Nat.lt_of_le_of_lt hinside hsize)
  case room =>
    have hdepth := ((hbefore.trans (hextends c hc)).counted hcounted).depth_le_maxStack
    rw [hfinished]
    exact Nat.le_trans hdepth hafter.maxStack_le

end

end ScriptMachine
