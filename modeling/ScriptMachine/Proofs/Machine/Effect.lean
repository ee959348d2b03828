import ScriptMachine.Proofs.Code.Operands
import ScriptMachine.Proofs.Machine.Control

/-! The effect of an instruction on the frame that executes it: how many operands it takes and
puts back, where it may go on, what it does to the open blocks, and which faults it may end in.
The values that it computes with are left open. -/

namespace ScriptMachine

namespace Instruction

/-! ### Faults -/

/-- The faults of an instruction that come from the tables of its block, from its operands or from
the values it meets, and not from the number of operands or open blocks. -/
inductive Misfit (natives : Array Native) (i : Instruction) (c : CodeBlock) : Fault → Prop where
  | constant : i.opcode = .loadConst → c.constants.size ≤ i.arg →
      Misfit natives i c (.constantOutOfBounds i.arg c.constants.size)
  | name : i.opcode.usesName → c.names.size ≤ i.arg →
      Misfit natives i c (.nameOutOfBounds i.arg c.names.size)
  | localName : i.opcode.usesLocal → c.locals.size ≤ i.arg →
      Misfit natives i c (.localOutOfBounds i.arg c.locals.size)
  | target {offset : Nat} : offset ∈ i.targets → c.code.size < offset →
      Misfit natives i c (.jumpOutOfBounds offset c.code.size)
  | comparison : i.opcode = .compare → CompareOp.ofNumber? i.arg = none →
      Misfit natives i c (.invalidOpcode i.opcode.byte i.offset)
  | operand : i.opcode = .startLoop → i.operand.form ≠ .pair →
      Misfit natives i c (.truncatedInstruction i.offset)
  | division {op : BinaryOp} : i.opcode = .binary op → Misfit natives i c .divisionByZero
  | scope : i.opcode = .closeScope → Misfit natives i c .scopeUnderflow
  | native {n : Native} {y : Fault} : i.opcode = .call → n ∈ natives → n.Answers y →
      Misfit natives i c y

/-- The faults in which an instruction may end in a frame. -/
inductive Faults (natives : Array Native) (i : Instruction) (f : Frame) : Fault → Prop where
  | operands {y : Fault} : OperandFault f i.takes i.puts y → Faults natives i f y
  | blocksFull : i.opcode = .startLoop ∨ i.opcode = .startTry →
      f.code.maxBlocks ≤ f.blocks.height → Faults natives i f (.blockStackOverflow f.code.maxBlocks)
  | noBlock : i.opcode = .endBlock → f.blocks = .empty → Faults natives i f .blockStackExhausted
  | noLoop : i.opcode = .break_ ∨ i.opcode = .continue_ →
      (∀ b ∈ f.blocks.toList, b.kind ≠ .loop) → Faults natives i f (.noMatchingBlock .loop)
  | misfit {y : Fault} : i.Misfit natives f.code y → Faults natives i f y

/-! ### Effects -/

/-- What an instruction makes of the frame that executes it, by the way in which the frame goes on.
The program counter of the frame stands behind the instruction. -/
inductive Effect (i : Instruction) (f : Frame) (t : Store) : Next → Frame → Prop where
  | exchanged {vs : List Value} : i.opcode.exchanges → i.takes ≤ f.sp → vs.length = i.puts →
      (vs ≠ [] → (f.exchange i.takes vs).sp ≤ f.code.maxStack) →
      Effect i f t .proceed (f.exchange i.takes vs)
  | scopeChanged {e : ScopeId} : i.opcode = .openScope ∨ i.opcode = .closeScope →
      Effect i f t .proceed { f with scope := e }
  | jumped {offset : Nat} : offset ∈ i.jumps → offset ≤ f.code.code.size → i.takes ≤ f.sp →
      Effect i f t .proceed { f.exchange i.takesOnJump [] with pc := offset }
  | loopOpened {iter finish : UInt16} : i.opcode = .startLoop → i.operand = .pair iter finish →
      iter.toNat ≤ f.code.code.size → finish.toNat ≤ f.code.code.size →
      f.blocks.height < f.code.maxBlocks →
      Effect i f t .proceed { f with
        blocks := f.blocks.push (.loop f.pc iter.toNat finish.toNat f.sp f.scope) }
  | handlerOpened : i.opcode = .startTry → i.arg ≤ f.code.code.size →
      f.blocks.height < f.code.maxBlocks →
      Effect i f t .proceed { f with blocks := f.blocks.push (.handler i.arg f.sp f.scope) }
  | blockClosed {b : Block} {rest : Stack Block} : i.opcode = .endBlock → f.blocks = rest.push b →
      Effect i f t .proceed { f with blocks := rest, scope := b.scope }
  | loopLeft {start iter finish sp : Nat} {e : ScopeId} {rest : Stack Block} :
      i.opcode = .break_ → (f.expose .loop).blocks = rest.push (.loop start iter finish sp e) →
      Effect i f t .proceed { f.truncate sp with blocks := rest, scope := e, pc := finish }
  | loopRepeated {start iter finish sp : Nat} {e : ScopeId} {rest : Stack Block} :
      i.opcode = .continue_ → (f.expose .loop).blocks = rest.push (.loop start iter finish sp e) →
      Effect i f t .proceed
        { (f.expose .loop).truncate sp with scope := e, pc := iter }
  | called {id : CodeId} {e : ScopeId} : i.opcode = .call → i.takes ≤ f.sp →
      Effect i f t (.enter (t.block id) e) (f.exchange i.takes [])
  | returned {v : Value} : i.opcode = .return_ → 1 ≤ f.sp →
      Effect i f t (.leave v) (f.exchange 1 [])

/-- How an instruction is interrupted, and what it leaves of the frame. -/
inductive Interrupted (natives : Array Native) (i : Instruction) (f : Frame) :
    Interrupt → Frame → Prop where
  | raised {e : Exception} {j : Nat} : j ≤ i.takes → j ≤ f.sp →
      Interrupted natives i f (.raised e) (f.exchange j [])
  | fault {y : Fault} {j : Nat} {blocks : Stack Block} : i.Faults natives f y →
      blocks = f.blocks ∨ blocks = .empty →
      Interrupted natives i f (.fault y) { f.exchange j [] with blocks }

end Instruction

/-! ### Instructions that exchange operands -/

namespace Action.Exchanges

variable {natives : Array Native} {i : Instruction}

theorem loadAttribute (hop : i.opcode = .loadAttribute) :
    (Action.loadAttribute i.arg).Exchanges (i.Misfit natives) 1 1 :=
  pop_bind fun _ => (nameAt fun _ => .name (by rw [hop]; rfl)).still_bind fun _ =>
    (readHeap_raises fun h => h.raises_loadAttribute _ _).still_bind fun _ => push _

theorem storeAttribute (hop : i.opcode = .storeAttribute) :
    (Action.storeAttribute i.arg).Exchanges (i.Misfit natives) 2 0 :=
  pop_bind fun _ => pop_bind fun _ => (nameAt fun _ => .name (by rw [hop]; rfl)).still_bind fun _ =>
    (readHeap_raises fun _ => Heap.raises_attributeSlot _ _ _).still_bind fun _ => onHeap _

theorem loadIndex : Action.loadIndex.Exchanges (i.Misfit natives) 2 1 :=
  pop_bind fun _ => pop_bind fun _ =>
    (readHeap_raises fun h => h.raises_loadIndex _ _).still_bind fun _ => push _

theorem storeIndex : Action.storeIndex.Exchanges (i.Misfit natives) 3 0 :=
  pop_bind fun _ => pop_bind fun _ => pop_bind fun _ =>
    (readHeap_raises fun h => h.raises_indexSlot _ _ _).still_bind fun _ => onHeap _

theorem binary {op : BinaryOp} (hop : i.opcode = .binary op) :
    (Action.binary op).Exchanges (i.Misfit natives) 2 1 := by
  refine pop_bind fun right => pop_bind fun left => ?_
  refine (readHeap fun h y c hy => ?_).still_bind fun _ => (onHeap _).still_bind fun _ => push _
  obtain rfl := BinaryOp.compute_eq_fault hy
  exact .division hop

theorem negate : Action.negate.Exchanges (i.Misfit natives) 1 1 :=
  pop_bind fun v => (readHeap_raises fun _ => v.raises_negate).still_bind fun _ => push _

theorem compare (hop : i.opcode = .compare) :
    (Action.compare i).Exchanges (i.Misfit natives) 2 1 := by
  rw [Action.compare]
  cases hnumber : CompareOp.ofNumber? i.arg with
  | none => exact fault fun _ => .comparison hop hnumber
  | some op =>
      exact pop_bind fun _ => pop_bind fun _ =>
        (readHeap_raises fun _ => op.raises_apply _ _).still_bind fun _ => push _

theorem makeMap (pairs : Nat) :
    (Action.makeMap pairs).Exchanges (i.Misfit natives) (pairs * 2) 1 :=
  popN_bind fun items => (readHeap_raises fun _ => raises_entriesOf items).still_bind fun _ =>
    (onHeap _).still_bind fun _ => push _

theorem makeFunction : Action.makeFunction.Exchanges (i.Misfit natives) 3 1 := by
  refine pop_bind fun body => pop_bind fun params => pop_bind fun name => ?_
  split
  · exact (readHeap_raises fun _ => raises_parameterNames _).still_bind fun _ =>
      currentScope.still_bind fun _ => (onStore _).still_bind fun _ => push _
  · exact misuse _
  · exact misuse _

end Action.Exchanges

namespace Instruction

open Action.Exchanges

variable {natives : Array Native} {i : Instruction}

/-- Instructions without a jump or a call of their own put `puts` operands in the place of
`takes`. -/
theorem executeLocal_exchanges (hop : i.opcode.exchanges) (hjump : i.jumps = [])
    (hcall : i.opcode ≠ .call) :
    i.executeLocal.Exchanges (i.Misfit natives) i.takes i.puts := by
  obtain ⟨offset, opcode, operand⟩ := i
  cases opcode with
  | noop => exact pure _
  | popTop => exact discarded pop
  | dupTop => exact double
  | loadConst => exact (constant fun _ => .constant rfl).still_bind fun _ => push _
  | loadFast =>
      exact (localAt fun _ => .localName rfl).still_bind fun _ =>
        (readScopes _).still_bind fun _ => push _
  | storeFast =>
      exact pop_bind fun _ => (localAt fun _ => .localName rfl).still_bind fun _ => setVariable _ _
  | storeConst | define =>
      exact pop_bind fun _ => (localAt fun _ => .localName rfl).still_bind fun _ => declare _ _ _
  | deleteFast =>
      exact (localAt fun _ => .localName rfl).still_bind fun _ =>
        currentScope.still_bind fun _ => onStore _
  | loadGlobal =>
      exact (nameAt fun _ => .name rfl).still_bind fun _ =>
        (readScopes _).still_bind fun _ => push _
  | storeGlobal =>
      exact pop_bind fun _ => (nameAt fun _ => .name rfl).still_bind fun _ => setVariable _ _
  | deleteGlobal =>
      exact (nameAt fun _ => .name rfl).still_bind fun _ =>
        currentScope.still_bind fun _ => onStore _
  | loadAttribute => exact loadAttribute rfl
  | storeAttribute => exact storeAttribute rfl
  | loadIndex => exact loadIndex
  | storeIndex => exact storeIndex
  | binary op => exact binary rfl
  | unaryNeg => exact negate
  | unaryNot => exact pop_bind fun _ => push _
  | compare => exact compare rfl
  | makeArray => exact popN_bind fun _ => (onHeap _).still_bind fun _ => push _
  | makeMap => exact makeMap _
  | makeFunction => exact makeFunction
  | call => exact absurd rfl hcall
  | jumpAbsolute | jumpForward | startLoop | endBlock | break_ | continue_ | startTry | throw
  | openScope | closeScope | return_ => simp [Opcode.exchanges] at hop
  | popJumpIf truth | jumpIfOrPop truth => simp [jumps] at hjump

end Instruction

namespace Instruction

open ScriptMachine.Action

variable {natives : Array Native} {i : Instruction} {f g : Frame} {s t : Store} {next : Next}
  {e : Interrupt} {u : Unit}

/-! ### Interrupted instructions -/

/-- The interrupts of an action that comes after `m` operands have been taken off. -/
theorem Interrupted.of_exchanges {α : Type} {x : Action α} {m n k : Nat}
    (hx : x.Exchanges (i.Misfit natives) n k) (hm : m ≤ f.sp) (hn : m + n ≤ i.takes)
    (hk : 0 < k → m + n = i.takes ∧ k = i.puts) (h : x ⟨f.exchange m [], s⟩ = .error e ⟨g, t⟩) :
    i.Interrupted natives f e g := by
  obtain ⟨⟨j, hj, hjsp, rfl⟩, hfault⟩ := hx.error h
  simp only [Frame.sp_exchange, List.length_nil, Nat.zero_add] at hjsp
  rw [Frame.exchange_exchange]
  cases e with
  | raised e => exact .raised (by omega) (by omega)
  | fault y =>
      refine .fault ?_ (.inl rfl)
      rcases hfault y rfl with (⟨hlow, rfl⟩ | ⟨hput, hhigh, rfl⟩) | hmisfit
      · simp only [Frame.sp_exchange, List.length_nil, Nat.zero_add] at hlow
        exact .operands (.inl ⟨by omega, rfl⟩)
      · obtain ⟨htakes, rfl⟩ := hk hput
        simp only [Frame.sp_exchange, List.length_nil, Nat.zero_add, Frame.code_exchange] at hhigh
        exact .operands (.inr ⟨hput, by omega, rfl⟩)
      · exact .misfit hmisfit

theorem Effect.code_eq (h : i.Effect f t next g) : g.code = f.code := by
  cases h <;> rfl

theorem Interrupted.code_eq (h : i.Interrupted natives f e g) : g.code = f.code := by
  cases h <;> rfl

theorem Interrupted.lastOffset_eq (h : i.Interrupted natives f e g) :
    g.lastOffset = f.lastOffset := by
  cases h <;> rfl

theorem Interrupted.faults {y : Fault} (h : i.Interrupted natives f (.fault y) g) :
    i.Faults natives f y := by
  cases h
  assumption

/-- A fault before any operand is off and with the open blocks as they were. -/
theorem Interrupted.of_fault {y : Fault} (hy : i.Faults natives f y) :
    i.Interrupted natives f (.fault y) f :=
  .fault (j := 0) hy (.inl rfl)

/-! ### Jumps -/

/-- A jump when `m` operands have been taken off. -/
theorem Effect.of_jump {offset m : Nat} (hjump : offset ∈ i.jumps) (hm : m = i.takesOnJump)
    (hsp : i.takes ≤ f.sp) (h : jump offset ⟨f.exchange m [], s⟩ = .ok u ⟨g, t⟩) :
    i.Effect f t .proceed g := by
  obtain ⟨hin, rfl, rfl⟩ := jump_eq_ok_iff.mp h
  subst hm
  exact .jumped hjump hin hsp

theorem Interrupted.of_jump {offset m : Nat} (hjump : offset ∈ i.jumps)
    (h : jump offset ⟨f.exchange m [], s⟩ = .error e ⟨g, t⟩) : i.Interrupted natives f e g := by
  obtain ⟨hout, rfl, rfl, rfl⟩ := jump_eq_error_iff.mp h
  exact .fault (.misfit (.target (mem_targets_of_mem_jumps hjump) hout)) (.inl rfl)

theorem Effect.of_exchanges {α : Type} {x : Action α} {v : α} (hop : i.opcode.exchanges)
    (hx : x.Exchanges (i.Misfit natives) i.takes i.puts) (h : x ⟨f, s⟩ = .ok v ⟨g, t⟩) :
    i.Effect f t .proceed g := by
  obtain ⟨hsp, vs, hlen, rfl, hroom⟩ := hx.ok h
  exact .exchanged hop hsp hlen hroom

/-- The operands taken off, none put back and no jump. -/
theorem Effect.of_dropped {m : Nat} (hop : i.opcode.exchanges) (htakes : i.takes = m)
    (hputs : i.puts = 0) (hsp : m ≤ f.sp) : i.Effect f t .proceed (f.exchange m []) := by
  subst htakes
  exact .exchanged hop hsp (by simp [hputs]) (by simp)

theorem popJumpIf_ok {truth : Bool} (hop : i.opcode = .popJumpIf truth)
    (h : popJumpIf truth i.arg ⟨f, s⟩ = .ok u ⟨g, t⟩) : i.Effect f t .proceed g := by
  have htakes : i.takes = 1 := by simp [takes, hop]
  obtain ⟨v, ⟨f', r⟩, hpop, hrest⟩ := bind_eq_ok_iff.mp h
  obtain ⟨hsp, rfl⟩ := (Exchanges.pop (P := i.Misfit #[])).ok_zero hpop
  split at hrest
  · split at hrest
    · exact .of_jump (by simp [jumps, hop]) (by simp [takesOnJump, hop]) (by omega) hrest
    · cases hrest
      exact .of_dropped (by rw [hop]; rfl) htakes (by simp [puts, hop]) hsp
  · cases hrest

theorem popJumpIf_error {truth : Bool} (hop : i.opcode = .popJumpIf truth)
    (h : popJumpIf truth i.arg ⟨f, s⟩ = .error e ⟨g, t⟩) : i.Interrupted natives f e g := by
  have htakes : i.takes = 1 := by simp [takes, hop]
  rcases bind_eq_error_iff.mp h with hpop | ⟨v, ⟨f', r⟩, hpop, hrest⟩
  · exact .of_exchanges (m := 0) .pop (by omega) (by omega) (by simp) hpop
  · obtain ⟨hsp, rfl⟩ := (Exchanges.pop (P := i.Misfit natives)).ok_zero hpop
    split at hrest
    · split at hrest
      · exact .of_jump (by simp [jumps, hop]) hrest
      · cases hrest
    · cases hrest
      exact .raised (by omega) hsp

theorem jumpIfOrPop_ok {truth : Bool} (hop : i.opcode = .jumpIfOrPop truth)
    (h : jumpIfOrPop truth i.arg ⟨f, s⟩ = .ok u ⟨g, t⟩) : i.Effect f t .proceed g := by
  have htakes : i.takes = 1 := by simp [takes, hop]
  obtain ⟨v, ⟨f', r⟩, hpeek, hrest⟩ := bind_eq_ok_iff.mp h
  obtain ⟨htop, rfl, rfl⟩ := peek_eq_ok_iff.mp hpeek
  obtain ⟨rest, hstack⟩ := Frame.peek_eq_ok_iff.mp htop
  split at hrest
  · refine .of_jump (m := 0) (by simp [jumps, hop]) (by simp [takesOnJump, hop]) ?_ hrest
    simp [Frame.sp, hstack, htakes]
  · obtain ⟨hsp, rfl⟩ := (Exchanges.pop (P := i.Misfit #[])).discarded.ok_zero hrest
    exact .of_dropped (by rw [hop]; rfl) htakes (by simp [puts, hop]) hsp

theorem jumpIfOrPop_error {truth : Bool} (hop : i.opcode = .jumpIfOrPop truth)
    (h : jumpIfOrPop truth i.arg ⟨f, s⟩ = .error e ⟨g, t⟩) : i.Interrupted natives f e g := by
  have htakes : i.takes = 1 := by simp [takes, hop]
  rcases bind_eq_error_iff.mp h with hpeek | ⟨v, ⟨f', r⟩, hpeek, hrest⟩
  · obtain ⟨y, hempty, rfl, rfl, rfl⟩ := peek_eq_error_iff.mp hpeek
    obtain ⟨hlow, rfl⟩ := Frame.peek_eq_error_iff.mp hempty
    exact .of_fault (.operands (.inl ⟨by omega, rfl⟩))
  · obtain ⟨-, rfl, rfl⟩ := peek_eq_ok_iff.mp hpeek
    split at hrest
    · exact .of_jump (m := 0) (by simp [jumps, hop]) hrest
    · exact .of_exchanges (m := 0) Exchanges.pop.discarded (by omega) (by omega) (by simp) hrest

/-! ### Blocks -/

theorem startLoop_ok (hop : i.opcode = .startLoop) (h : startLoop i ⟨f, s⟩ = .ok u ⟨g, t⟩) :
    i.Effect f t .proceed g := by
  cases hoperand : i.operand with
  | pair iter finish =>
      simp only [startLoop, hoperand] at h
      obtain ⟨_, ⟨f', r⟩, hfirst, hrest⟩ := bind_eq_ok_iff.mp h
      obtain ⟨hiter, rfl, rfl, rfl⟩ := target_eq_ok_iff.mp hfirst
      obtain ⟨_, ⟨f'', r'⟩, hlast, hopen⟩ := bind_eq_ok_iff.mp hrest
      obtain ⟨hfinish, rfl, rfl, rfl⟩ := target_eq_ok_iff.mp hlast
      obtain ⟨hroom, rfl, rfl⟩ := openBlock_eq_ok_iff.mp hopen
      exact .loopOpened hop hoperand hiter hfinish hroom
  | _ =>
      simp only [startLoop, hoperand] at h
      cases h

theorem startLoop_error (hop : i.opcode = .startLoop)
    (h : startLoop i ⟨f, s⟩ = .error e ⟨g, t⟩) : i.Interrupted natives f e g := by
  cases hoperand : i.operand with
  | pair iter finish =>
      have htargets : i.targets = [iter.toNat, finish.toNat] := by simp [targets, hop, hoperand]
      simp only [startLoop, hoperand] at h
      rcases bind_eq_error_iff.mp h with hiter | ⟨_, ⟨f', r⟩, hiter, hrest⟩
      · obtain ⟨hout, rfl, rfl, rfl⟩ := target_eq_error_iff.mp hiter
        exact .of_fault (.misfit (.target (by simp [htargets]) hout))
      obtain ⟨hiter, rfl, rfl, rfl⟩ := target_eq_ok_iff.mp hiter
      rcases bind_eq_error_iff.mp hrest with hfinish | ⟨_, ⟨f'', r'⟩, hfinish, hopen⟩
      · obtain ⟨hout, rfl, rfl, rfl⟩ := target_eq_error_iff.mp hfinish
        exact .of_fault (.misfit (.target (by simp [htargets]) hout))
      obtain ⟨hfinish, rfl, rfl, rfl⟩ := target_eq_ok_iff.mp hfinish
      obtain ⟨hfull, rfl, rfl, rfl⟩ := openBlock_eq_error_iff.mp hopen
      exact .of_fault (.blocksFull (.inl hop) hfull)
  | _ =>
      simp only [startLoop, hoperand] at h
      cases h
      exact .of_fault (.misfit (.operand hop (by simp [hoperand, Operand.form])))

theorem startTry_ok (hop : i.opcode = .startTry) (h : startTry i.arg ⟨f, s⟩ = .ok u ⟨g, t⟩) :
    i.Effect f t .proceed g := by
  obtain ⟨_, ⟨f', r⟩, htarget, hopen⟩ := bind_eq_ok_iff.mp h
  obtain ⟨hin, rfl, rfl, rfl⟩ := target_eq_ok_iff.mp htarget
  obtain ⟨hroom, rfl, rfl⟩ := openBlock_eq_ok_iff.mp hopen
  exact .handlerOpened hop hin hroom

theorem startTry_error (hop : i.opcode = .startTry)
    (h : startTry i.arg ⟨f, s⟩ = .error e ⟨g, t⟩) : i.Interrupted natives f e g := by
  rcases bind_eq_error_iff.mp h with htarget | ⟨_, ⟨f', r⟩, htarget, hopen⟩
  · obtain ⟨hout, rfl, rfl, rfl⟩ := target_eq_error_iff.mp htarget
    exact .of_fault (.misfit (.target (by simp [targets, hop]) hout))
  · obtain ⟨hin, rfl, rfl, rfl⟩ := target_eq_ok_iff.mp htarget
    obtain ⟨hfull, rfl, rfl, rfl⟩ := openBlock_eq_error_iff.mp hopen
    exact .of_fault (.blocksFull (.inr hop) hfull)

theorem endBlock_ok (hop : i.opcode = .endBlock) (h : endBlock ⟨f, s⟩ = .ok u ⟨g, t⟩) :
    i.Effect f t .proceed g := by
  obtain ⟨b, ⟨f', r⟩, hpop, hscope⟩ := bind_eq_ok_iff.mp h
  obtain ⟨rest, hblocks, rfl, rfl⟩ := popBlock_eq_ok_iff.mp hpop
  cases hscope
  exact .blockClosed hop hblocks

theorem endBlock_error (hop : i.opcode = .endBlock)
    (h : endBlock ⟨f, s⟩ = .error e ⟨g, t⟩) : i.Interrupted natives f e g := by
  rcases bind_eq_error_iff.mp h with hpop | ⟨b, ⟨f', r⟩, -, hscope⟩
  · obtain ⟨hempty, rfl, rfl, rfl⟩ := popBlock_eq_error_iff.mp hpop
    exact .of_fault (.noBlock hop hempty)
  · cases hscope

theorem breakLoop_ok (hop : i.opcode = .break_) (h : breakLoop ⟨f, s⟩ = .ok u ⟨g, t⟩) :
    i.Effect f t .proceed g := by
  obtain ⟨b, ⟨f', r⟩, hexpose, hrest⟩ := bind_eq_ok_iff.mp h
  obtain ⟨⟨rest, hblocks⟩, rfl, rfl⟩ := exposeLoop_eq_ok_iff.mp hexpose
  cases b with
  | loop start iter finish sp scope =>
      obtain ⟨_, ⟨f'', r'⟩, hpop, hresume⟩ := bind_eq_ok_iff.mp hrest
      rw [discard_popBlock hblocks] at hpop
      cases hpop
      cases hresume
      exact .loopLeft hop hblocks
  | handler => cases hrest

theorem breakLoop_error (hop : i.opcode = .break_) (h : breakLoop ⟨f, s⟩ = .error e ⟨g, t⟩) :
    i.Interrupted natives f e g := by
  rcases bind_eq_error_iff.mp h with hexpose | ⟨b, ⟨f', r⟩, hexpose, hrest⟩
  · obtain ⟨hnone, rfl, rfl, rfl⟩ := exposeLoop_eq_error_iff.mp hexpose
    have hblocks := Frame.blocks_expose_eq_empty_iff.mpr hnone
    exact .fault (j := 0) (.noLoop (.inl hop) hnone) (.inr hblocks)
  obtain ⟨⟨rest, hblocks⟩, rfl, rfl⟩ := exposeLoop_eq_ok_iff.mp hexpose
  have hkind := Frame.kind_of_blocks_expose hblocks
  cases b with
  | loop start iter finish sp scope =>
      rcases bind_eq_error_iff.mp hrest with hpop | ⟨_, ⟨f'', r'⟩, -, hresume⟩
      · rw [discard_popBlock hblocks] at hpop
        cases hpop
      · cases hresume
  | handler => cases hkind

theorem continueLoop_ok (hop : i.opcode = .continue_)
    (h : continueLoop ⟨f, s⟩ = .ok u ⟨g, t⟩) : i.Effect f t .proceed g := by
  obtain ⟨b, ⟨f', r⟩, hexpose, hresume⟩ := bind_eq_ok_iff.mp h
  obtain ⟨⟨rest, hblocks⟩, rfl, rfl⟩ := exposeLoop_eq_ok_iff.mp hexpose
  cases b with
  | loop start iter finish sp scope =>
      cases hresume
      exact .loopRepeated hop hblocks
  | handler => cases hresume

theorem continueLoop_error (hop : i.opcode = .continue_)
    (h : continueLoop ⟨f, s⟩ = .error e ⟨g, t⟩) : i.Interrupted natives f e g := by
  rcases bind_eq_error_iff.mp h with hexpose | ⟨b, ⟨f', r⟩, hexpose, hresume⟩
  · obtain ⟨hnone, rfl, rfl, rfl⟩ := exposeLoop_eq_error_iff.mp hexpose
    have hblocks := Frame.blocks_expose_eq_empty_iff.mpr hnone
    exact .fault (j := 0) (.noLoop (.inr hop) hnone) (.inr hblocks)
  obtain ⟨⟨rest, hblocks⟩, rfl, rfl⟩ := exposeLoop_eq_ok_iff.mp hexpose
  have hkind := Frame.kind_of_blocks_expose hblocks
  cases b with
  | loop start iter finish sp scope => cases hresume
  | handler => cases hkind

theorem throwTop_error (hop : i.opcode = .throw) (h : throwTop ⟨f, s⟩ = .error e ⟨g, t⟩) :
    i.Interrupted natives f e g := by
  have htakes : i.takes = 1 := by simp [takes, hop]
  rcases bind_eq_error_iff.mp h with hpop | ⟨v, ⟨f', r⟩, hpop, hrest⟩
  · exact .of_exchanges (m := 0) .pop (by omega) (by omega) (by simp) hpop
  · obtain ⟨hsp, rfl⟩ := (Exchanges.pop (P := i.Misfit natives)).ok_zero hpop
    cases hrest
    exact .raised (by omega) hsp

theorem closeScope_ok (hop : i.opcode = .closeScope) (h : closeScope ⟨f, s⟩ = .ok u ⟨g, t⟩) :
    i.Effect f t .proceed g := by
  obtain ⟨parent, ⟨f', r⟩, hread, hrest⟩ := bind_eq_ok_iff.mp h
  cases hread
  cases hparent : s.scopes.parent f.scope with
  | none =>
      rw [hparent] at hrest
      cases hrest
  | some e =>
      rw [hparent] at hrest
      cases hrest
      exact .scopeChanged (.inr hop)

theorem closeScope_error (hop : i.opcode = .closeScope)
    (h : closeScope ⟨f, s⟩ = .error e ⟨g, t⟩) : i.Interrupted natives f e g := by
  rcases bind_eq_error_iff.mp h with hread | ⟨parent, ⟨f', r⟩, hread, hrest⟩
  · cases hread
  cases hread
  cases hparent : s.scopes.parent f.scope with
  | none =>
      rw [hparent] at hrest
      cases hrest
      exact .of_fault (.misfit (.scope hop))
  | some e =>
      rw [hparent] at hrest
      cases hrest

/-! ### Calls -/

/-- To enter script code in a new scope leaves the frame alone. -/
theorem enter_exchanges {P : CodeBlock → Fault → Prop} (d : ScopeId) (params : List String)
    (args : List Value) (id : CodeId) :
    Action.Exchanges P 0 0 (do
      let scope ← encloseIn d
      bindArguments scope params args
      return Next.enter (← codeBlock id) scope) := by
  have hbind (e : ScopeId) : (bindArguments e params args).Exchanges P 0 0 :=
    (Exchanges.onScopes _).still_bind fun _ => (Exchanges.onHeap _).still_bind fun _ =>
      Exchanges.onScopes _
  exact (Exchanges.onScopes _).still_bind fun e => (hbind e).still_bind fun _ =>
    (Exchanges.onStore _).still_bind fun _ => .pure _

theorem enter_ok {d : ScopeId} {params : List String} {args : List Value} {id : CodeId}
    (h : (do
      let scope ← encloseIn d
      bindArguments scope params args
      return Next.enter (← codeBlock id) scope : Action Next) ⟨f, s⟩ = .ok next ⟨g, t⟩) :
    g = f ∧ ∃ e, next = .enter (t.block id) e := by
  refine ⟨((enter_exchanges d params args id (P := fun _ _ => False)).ok_zero h).2, ?_⟩
  obtain ⟨e, a, -, hrest⟩ := bind_eq_ok_iff.mp h
  obtain ⟨_, ⟨f', r⟩, -, hcode⟩ := bind_eq_ok_iff.mp hrest
  cases hcode
  exact ⟨e, rfl⟩

theorem native_exchanges (natives : Array Native) (hop : i.opcode = .call) (n : NativeRef)
    (args : List Value) :
    Action.Exchanges (i.Misfit natives) 0 1 (do
      push (← callNative natives n args)
      return Next.proceed) :=
  (Exchanges.callNative fun _ hn _ _ hy => .native hop hn hy).still_bind fun v =>
    (Exchanges.push v).then_pure _

theorem call_ok (hop : i.opcode = .call) (h : call natives i.arg ⟨f, s⟩ = .ok next ⟨g, t⟩) :
    i.Effect f t next g := by
  have htakes : i.takes = 1 + i.arg := by simp [takes, hop, Nat.add_comm]
  obtain ⟨callee, ⟨f', r⟩, hpop, hrest⟩ := bind_eq_ok_iff.mp h
  obtain ⟨hone, rfl⟩ := (Exchanges.pop (P := i.Misfit natives)).ok_zero hpop
  obtain ⟨args, ⟨f'', r'⟩, hpopN, hcall⟩ := bind_eq_ok_iff.mp hrest
  obtain ⟨hargs, rfl⟩ := (Exchanges.popN (P := i.Misfit natives) i.arg).ok_zero hpopN
  rw [Frame.exchange_exchange, ← htakes] at hcall
  simp only [Frame.sp_exchange, List.length_nil, Nat.zero_add] at hargs
  have hsp : i.takes ≤ f.sp := by omega
  split at hcall
  · obtain ⟨-, vs, hlen, rfl, hroom⟩ := (native_exchanges natives hop _ _).ok hcall
    obtain ⟨_, a, -, hpush⟩ := bind_eq_ok_iff.mp hcall
    obtain ⟨_, a', -, hnext⟩ := bind_eq_ok_iff.mp hpush
    cases hnext
    rw [Frame.exchange_exchange] at hroom ⊢
    exact .exchanged (by rw [hop]; rfl) hsp (by simp [puts, hop, hlen]) hroom
  · obtain ⟨rfl, e, rfl⟩ := enter_ok hcall
    exact .called hop hsp
  · obtain ⟨d, ⟨f', r⟩, hscope, hcall⟩ := bind_eq_ok_iff.mp hcall
    cases hscope
    obtain ⟨rfl, e, rfl⟩ := enter_ok hcall
    exact .called hop hsp
  · cases hcall

theorem call_error (hop : i.opcode = .call)
    (h : call natives i.arg ⟨f, s⟩ = .error e ⟨g, t⟩) : i.Interrupted natives f e g := by
  have htakes : i.takes = 1 + i.arg := by simp [takes, hop, Nat.add_comm]
  have hputs : i.puts = 1 := by simp [puts, hop]
  rcases bind_eq_error_iff.mp h with hpop | ⟨callee, ⟨f', r⟩, hpop, hrest⟩
  · exact .of_exchanges (m := 0) .pop (by omega) (by omega) (by simp) hpop
  obtain ⟨hone, rfl⟩ := (Exchanges.pop (P := i.Misfit natives)).ok_zero hpop
  rcases bind_eq_error_iff.mp hrest with hpopN | ⟨args, ⟨f'', r'⟩, hpopN, hcall⟩
  · exact .of_exchanges (.popN _) hone (by omega) (by simp) hpopN
  obtain ⟨hargs, rfl⟩ := (Exchanges.popN (P := i.Misfit natives) i.arg).ok_zero hpopN
  rw [Frame.exchange_exchange, ← htakes] at hcall
  simp only [Frame.sp_exchange, List.length_nil, Nat.zero_add] at hargs
  have hsp : i.takes ≤ f.sp := by omega
  split at hcall
  · exact .of_exchanges (native_exchanges natives hop _ _) hsp (by omega) (by simp [hputs]) hcall
  · exact .of_exchanges (enter_exchanges _ _ _ _) hsp (by omega) (by simp) hcall
  · rcases bind_eq_error_iff.mp hcall with hscope | ⟨d, ⟨f', r⟩, hscope, hcall⟩
    · cases hscope
    · cases hscope
      exact .of_exchanges (enter_exchanges _ _ _ _) hsp (by omega) (by simp) hcall
  · cases hcall
    exact .raised (Nat.le_refl _) hsp

/-! ### All instructions -/

/-- What an instruction that neither calls nor returns makes of the frame. -/
theorem executeLocal_ok (hpc : f.pc = i.next) (hcall : i.opcode ≠ .call)
    (hreturn : i.opcode ≠ .return_) (h : i.executeLocal ⟨f, s⟩ = .ok u ⟨g, t⟩) :
    i.Effect f t .proceed g := by
  cases hop : i.opcode with
  | call => exact absurd hop hcall
  | return_ => exact absurd hop hreturn
  | jumpAbsolute =>
      simp only [executeLocal, hop] at h
      exact .of_jump (m := 0) (by simp [jumps, hop]) (by simp [takesOnJump, hop])
        (by simp [takes, hop]) h
  | jumpForward =>
      simp only [executeLocal, hop] at h
      obtain ⟨offset, ⟨f', r⟩, hread, hjump⟩ := bind_eq_ok_iff.mp h
      cases hread
      exact .of_jump (m := 0) (by simp [jumps, hop, hpc]) (by simp [takesOnJump, hop])
        (by simp [takes, hop]) hjump
  | popJumpIf truth =>
      simp only [executeLocal, hop] at h
      exact popJumpIf_ok hop h
  | jumpIfOrPop truth =>
      simp only [executeLocal, hop] at h
      exact jumpIfOrPop_ok hop h
  | startLoop =>
      simp only [executeLocal, hop] at h
      exact startLoop_ok hop h
  | endBlock =>
      simp only [executeLocal, hop] at h
      exact endBlock_ok hop h
  | break_ =>
      simp only [executeLocal, hop] at h
      exact breakLoop_ok hop h
  | continue_ =>
      simp only [executeLocal, hop] at h
      exact continueLoop_ok hop h
  | startTry =>
      simp only [executeLocal, hop] at h
      exact startTry_ok hop h
  | throw =>
      simp only [executeLocal, hop] at h
      obtain ⟨v, a, -, hrest⟩ := bind_eq_ok_iff.mp h
      cases hrest
  | openScope =>
      simp only [executeLocal, hop] at h
      obtain ⟨d, ⟨f', r⟩, hcurrent, hrest⟩ := bind_eq_ok_iff.mp h
      cases hcurrent
      cases hrest
      exact .scopeChanged (.inl hop)
  | closeScope =>
      simp only [executeLocal, hop] at h
      exact closeScope_ok hop h
  | _ =>
      have hexchanges : i.executeLocal.Exchanges (i.Misfit #[]) i.takes i.puts :=
        executeLocal_exchanges (by simp [hop, Opcode.exchanges]) (by simp [jumps, hop]) hcall
      exact .of_exchanges (by simp [hop, Opcode.exchanges]) hexchanges h

theorem executeLocal_error (hpc : f.pc = i.next) (hcall : i.opcode ≠ .call)
    (hreturn : i.opcode ≠ .return_) (h : i.executeLocal ⟨f, s⟩ = .error e ⟨g, t⟩) :
    i.Interrupted natives f e g := by
  cases hop : i.opcode with
  | call => exact absurd hop hcall
  | return_ => exact absurd hop hreturn
  | jumpAbsolute =>
      simp only [executeLocal, hop] at h
      exact .of_jump (m := 0) (by simp [jumps, hop]) h
  | jumpForward =>
      simp only [executeLocal, hop] at h
      rcases bind_eq_error_iff.mp h with hread | ⟨offset, ⟨f', r⟩, hread, hjump⟩
      · cases hread
      · cases hread
        exact .of_jump (m := 0) (by simp [jumps, hop, hpc]) hjump
  | popJumpIf truth =>
      simp only [executeLocal, hop] at h
      exact popJumpIf_error hop h
  | jumpIfOrPop truth =>
      simp only [executeLocal, hop] at h
      exact jumpIfOrPop_error hop h
  | startLoop =>
      simp only [executeLocal, hop] at h
      exact startLoop_error hop h
  | endBlock =>
      simp only [executeLocal, hop] at h
      exact endBlock_error hop h
  | break_ =>
      simp only [executeLocal, hop] at h
      exact breakLoop_error hop h
  | continue_ =>
      simp only [executeLocal, hop] at h
      exact continueLoop_error hop h
  | startTry =>
      simp only [executeLocal, hop] at h
      exact startTry_error hop h
  | throw =>
      simp only [executeLocal, hop] at h
      exact throwTop_error hop h
  | openScope =>
      simp only [executeLocal, hop] at h
      rcases bind_eq_error_iff.mp h with hcurrent | ⟨d, ⟨f', r⟩, hcurrent, hrest⟩
      · cases hcurrent
      · cases hcurrent
        cases hrest
  | closeScope =>
      simp only [executeLocal, hop] at h
      exact closeScope_error hop h
  | _ =>
      have hexchanges : i.executeLocal.Exchanges (i.Misfit natives) i.takes i.puts :=
        executeLocal_exchanges (by simp [hop, Opcode.exchanges]) (by simp [jumps, hop]) hcall
      exact .of_exchanges (m := 0) hexchanges (by omega) (by omega) (by simp) h

theorem execute_eq (hcall : i.opcode ≠ .call) (hreturn : i.opcode ≠ .return_) :
    i.execute natives = i.executeLocal >>= fun _ => pure .proceed := by
  rw [execute.eq_def]
  split
  · contradiction
  · contradiction
  · rfl

/-- What an instruction makes of a frame and how the frame goes on. -/
theorem execute_ok (hpc : f.pc = i.next) (h : i.execute natives ⟨f, s⟩ = .ok next ⟨g, t⟩) :
    i.Effect f t next g := by
  by_cases hcall : i.opcode = .call
  · simp only [execute, hcall] at h
    exact call_ok hcall h
  by_cases hreturn : i.opcode = .return_
  · simp only [execute, hreturn] at h
    obtain ⟨v, ⟨f', r⟩, hpop, hleave⟩ := bind_eq_ok_iff.mp h
    cases hleave
    obtain ⟨hsp, rfl⟩ := (Exchanges.pop (P := i.Misfit natives)).ok_zero hpop
    exact .returned hreturn hsp
  rw [execute_eq hcall hreturn] at h
  obtain ⟨_, ⟨f', r⟩, hlocal, hproceed⟩ := bind_eq_ok_iff.mp h
  cases hproceed
  exact executeLocal_ok hpc hcall hreturn hlocal

/-- How an instruction is interrupted and what it leaves of the frame. -/
theorem execute_error (hpc : f.pc = i.next)
    (h : i.execute natives ⟨f, s⟩ = .error e ⟨g, t⟩) : i.Interrupted natives f e g := by
  by_cases hcall : i.opcode = .call
  · simp only [execute, hcall] at h
    exact call_error hcall h
  by_cases hreturn : i.opcode = .return_
  · have htakes : i.takes = 1 := by simp [takes, hreturn]
    simp only [execute, hreturn] at h
    rcases bind_eq_error_iff.mp h with hpop | ⟨v, ⟨f', r⟩, -, hleave⟩
    · exact .of_exchanges (m := 0) .pop (by omega) (by omega) (by simp) hpop
    · cases hleave
  rw [execute_eq hcall hreturn] at h
  rcases bind_eq_error_iff.mp h with hlocal | ⟨_, ⟨f', r⟩, -, hproceed⟩
  · exact executeLocal_error hpc hcall hreturn hlocal
  · cases hproceed

/-! ### Effects on open blocks -/

namespace Effect

theorem of_startTry (h : i.Effect f t next g) (hop : i.opcode = .startTry) :
    g = { f with blocks := f.blocks.push (.handler i.arg f.sp f.scope) } := by
  cases h with
  | handlerOpened => rfl
  | _ => simp_all [Opcode.exchanges, jumps]

theorem of_startLoop {iter finish : UInt16} (h : i.Effect f t next g) (hop : i.opcode = .startLoop)
    (hoperand : i.operand = .pair iter finish) :
    g = { f with blocks := f.blocks.push (.loop f.pc iter.toNat finish.toNat f.sp f.scope) } := by
  cases h with
  | loopOpened _ hoperand' =>
      rw [hoperand] at hoperand'
      cases hoperand'
      rfl
  | _ => simp_all [Opcode.exchanges, jumps]

theorem of_break (h : i.Effect f t next g) (hop : i.opcode = .break_) :
    ∃ start iter finish sp e rest,
      (f.expose .loop).blocks = Stack.push rest (.loop start iter finish sp e) ∧
        g = { f.truncate sp with blocks := rest, scope := e, pc := finish } := by
  cases h with
  | loopLeft _ hblocks => exact ⟨_, _, _, _, _, _, hblocks, rfl⟩
  | _ => simp_all [Opcode.exchanges, jumps]

theorem of_continue (h : i.Effect f t next g) (hop : i.opcode = .continue_) :
    ∃ start iter finish sp e rest,
      (f.expose .loop).blocks = Stack.push rest (.loop start iter finish sp e) ∧
        g = { (f.expose .loop).truncate sp with scope := e, pc := iter } := by
  cases h with
  | loopRepeated _ hblocks => exact ⟨_, _, _, _, _, _, hblocks, rfl⟩
  | _ => simp_all [Opcode.exchanges, jumps]

end Effect

end Instruction

end ScriptMachine
