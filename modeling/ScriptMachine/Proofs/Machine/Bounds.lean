import ScriptMachine.Proofs.Code.Decode
import ScriptMachine.Proofs.Machine.CodeTable
import ScriptMachine.Proofs.Machine.Placement

/-! Every run keeps its frames within their bounds: the number of frames, the operands and the open
blocks of each frame, its program counter and the places that its open blocks remember. Nothing is
asked of the code that runs. -/

namespace ScriptMachine

/-! ### Frames within their bounds -/

namespace Frame

structure Bounded (limits : Limits) (f : Frame) : Prop where
  stack : f.sp ≤ f.code.maxStack
  maxStack : f.code.maxStack ≤ limits.maxStackSize
  blocks : f.blocks.height ≤ f.code.maxBlocks
  maxBlocks : f.code.maxBlocks ≤ limits.maxStackSize
  placed : f.Placed (· ≤ f.code.code.size)

namespace Bounded

variable {limits : Limits} {f g : Frame}

/-- The same code with operands and open blocks that fit. -/
theorem of_heights (h : f.Bounded limits) (hcode : g.code = f.code)
    (hstack : g.sp ≤ f.code.maxStack) (hblocks : g.blocks.height ≤ f.code.maxBlocks)
    (hplaced : g.Placed (· ≤ f.code.code.size)) : g.Bounded limits := by
  constructor <;> rw [hcode]
  exacts [hstack, h.maxStack, hblocks, h.maxBlocks, hplaced]

/-- Operands taken off, and some of the open blocks. -/
theorem lowered (h : f.Bounded limits) (hcode : g.code = f.code) (hstack : g.sp ≤ f.sp)
    (hblocks : g.blocks.toList <:+ f.blocks.toList) (hplaced : g.Placed (· ≤ f.code.code.size)) :
    g.Bounded limits := by
  refine h.of_heights hcode (Nat.le_trans hstack h.stack) ?_ hplaced
  have hle := hblocks.length_le
  rw [← Stack.height_eq, ← Stack.height_eq] at hle
  exact Nat.le_trans hle h.blocks

theorem entered {code : CodeBlock} {scope : ScopeId} (hstack : code.maxStack ≤ limits.maxStackSize)
    (hblocks : code.maxBlocks ≤ limits.maxStackSize) :
    Frame.Bounded limits { code, scope } :=
  ⟨Nat.zero_le _, hstack, Nat.zero_le _, hblocks, Nat.zero_le _, by simp⟩

theorem push (h : f.Bounded limits) {v : Value} (hpush : f.push v = .ok g) :
    g.Bounded limits := by
  have hplaced := h.placed.push hpush
  obtain ⟨hroom, rfl⟩ := push_eq_ok_iff.mp hpush
  refine h.of_heights rfl ?_ h.blocks hplaced
  simp only [sp_exchange, List.length_singleton]
  omega

theorem fetched (h : f.Bounded limits) {i : Instruction} (hi : f.Fetches i) :
    (f.fetched i).Bounded limits :=
  ⟨h.stack, h.maxStack, h.blocks, h.maxBlocks, h.placed.moved (Instruction.next_le_of_decodeAt hi)⟩

/-- Every instruction keeps the bounds of its frame. -/
theorem effect (h : f.Bounded limits) {i : Instruction} {t : Store} {next : Next}
    (he : i.Effect f t next g) : g.Bounded limits := by
  have hplaced := h.placed.effect (fun _ _ hin => hin) he
  have hcode := he.code_eq
  cases he with
  | @exchanged vs _ htakes hputs hroom =>
      refine h.of_heights hcode ?_ h.blocks hplaced
      rcases Decidable.em (vs = []) with rfl | hne
      · exact Nat.le_trans (sp_dropped_le f i.takes) h.stack
      · exact hroom hne
  | scopeChanged => exact h.lowered hcode (Nat.le_refl _) (List.suffix_refl _) hplaced
  | jumped | called | returned =>
      exact h.lowered hcode (sp_dropped_le f _) (List.suffix_refl _) hplaced
  | loopOpened _ _ _ _ hroom => exact h.of_heights hcode h.stack hroom hplaced
  | handlerOpened _ _ hroom => exact h.of_heights hcode h.stack hroom hplaced
  | blockClosed _ hblocks =>
      exact h.lowered hcode (Nat.le_refl _) (Stack.suffix_of_eq_push hblocks) hplaced
  | @loopLeft start iter finish sp e rest _ hblocks =>
      refine h.lowered hcode (sp_truncate_le f sp) ?_ hplaced
      exact (Stack.suffix_of_eq_push hblocks).trans (suffix_expose f .loop)
  | @loopRepeated start iter finish sp e rest _ hblocks =>
      exact h.lowered hcode (sp_truncate_le f sp) (suffix_expose f .loop) hplaced

/-- A call takes at least the callee off, so that there is room for the value. -/
theorem room_of_call (h : f.Bounded limits) {i : Instruction} {t : Store} {c : CodeBlock}
    {e : ScopeId} (he : i.Effect (f.fetched i) t (.enter c e) g) : g.sp < g.code.maxStack := by
  cases he with
  | called hop htakes =>
      have hstack := h.stack
      have hone : 0 < i.takes := by simp [Instruction.takes, hop]
      rw [sp_fetched] at htakes
      rw [sp_exchange, code_exchange, List.length_nil, sp_fetched, code_fetched]
      omega

/-- An interrupted instruction keeps them as well. -/
theorem of_interrupted (h : f.Bounded limits) {natives : Array Native} {i : Instruction}
    {e : Interrupt} (he : i.Interrupted natives f e g) : g.Bounded limits := by
  have hplaced := h.placed.of_interrupted he
  have hcode := he.code_eq
  cases he with
  | raised => exact h.lowered hcode (sp_dropped_le f _) (List.suffix_refl _) hplaced
  | @fault y j blocks _ hblocks =>
      refine h.lowered hcode (sp_dropped_le f j) ?_ hplaced
      rcases hblocks with rfl | rfl
      · exact List.suffix_refl _
      · exact List.nil_suffix

theorem restored (h : f.Bounded limits) {r : Handler} (hr : f.takeHandler = (some r, g)) :
    (g.restored r).Bounded limits := by
  have hplaced := h.placed.restored hr
  obtain ⟨rest, hblocks, rfl⟩ := takeHandler_eq_some_iff.mp hr
  refine h.lowered rfl (sp_truncate_le f r.sp) ?_ hplaced
  exact (Stack.suffix_of_eq_push hblocks).trans (suffix_expose f .handler)

end Bounded

end Frame

/-! ### Machines within their bounds -/

namespace Machine

/-- The frames of a machine are within their bounds, and those that wait for a call to return have
room for its value. -/
structure Bounded (limits : Limits) (m : Machine) : Prop where
  depth : m.frames.height ≤ limits.maxRecursionDepth
  frames : ∀ f ∈ m.frames.toList, f.Bounded limits
  waiting : ∀ f ∈ m.frames.toList.tail, f.sp < f.code.maxStack

variable {natives : Array Native} {limits : Limits}

/-- The bounds as an invariant. A frame that waits for a call has room for its value. -/
def bounds (natives : Array Native) (limits : Limits) : Invariant natives limits where
  running := Frame.Bounded limits
  suspended f := f.Bounded limits ∧ f.sp < f.code.maxStack
  raising := Frame.Bounded limits
  left := Frame.Bounded limits
  code _ := True
  store _ := True
  entered _ hstack hblocks := .entered hstack hblocks
  proceeds hf hi he := (hf.fetched hi).effect he
  calls hf hi he := ⟨(hf.fetched hi).effect he, hf.room_of_call he⟩
  interrupted hf hi he := (hf.fetched hi).of_interrupted he
  returned hf hpush := hf.1.push hpush
  reached hf := hf.1
  delivered hf hr hpush := (hf.restored hr).push hpush
  left_of_running := id
  left_of_raising := id
  left_of_faulted hf hi he := (hf.fetched hi).of_interrupted he
  left_of_restored hf hr := hf.restored hr
  stored _ _ := trivial
  stored_of_interrupted _ _ := trivial
  callable _ _ := trivial

theorem Bounded.of_nested {m : Machine} (hfits : (bounds natives limits).Fits m)
    (h : (bounds natives limits).Nested (Frame.Bounded limits) m.frames) : m.Bounded limits := by
  obtain ⟨f, below, hstack, hf, hbelow⟩ := h
  refine ⟨hfits.depth, ?_, ?_⟩
  · rw [hstack, Stack.toList_push, List.forall_mem_cons]
    exact ⟨hf, fun g hg => (hbelow g hg).1⟩
  · rw [hstack, Stack.toList_push, List.tail_cons]
    exact fun g hg => (hbelow g hg).2

theorem Bounded.of_holds {p : Progress} (h : (bounds natives limits).Holds p) :
    p.machine.Bounded limits := by
  cases p with
  | running m => exact .of_nested h.1 h.2
  | finished o m =>
      obtain ⟨hfits, hframes, -⟩ := h
      rcases hframes with hnone | hnested
      · have hempty : m.frames.toList = [] := by rw [hnone]; rfl
        exact ⟨hfits.depth, by simp [Progress.machine, hempty], by simp [Progress.machine, hempty]⟩
      · exact .of_nested hfits hnested

/-- The functions of the host are the same throughout a run. -/
theorem natives_of_visits {m : Machine} {code : CodeBlock} {scope : ScopeId} {p : Progress}
    (h : m.Visits code scope p) : p.machine.natives = m.natives := by
  have hholds := (bounds m.natives m.limits).holds_of_visits trivial trivial h
  cases p <;> exact hholds.1.natives_eq

/-! ### Returns -/

/-- The innermost frame is about to return: by a return instruction, or at the end of its code. -/
def Returns (m : Machine) : Prop :=
  ∃ f, m.frames.top? = some f ∧
    (f.code.code.size ≤ f.pc ∨ ∃ i, f.Fetches i ∧ i.opcode = .return_)

theorem leave_ne_fault {m left : Machine} {f : Frame} {below : Stack Frame} {v : Value} {y : Fault}
    {trace : Backtrace} (hstack : m.frames = below.push f)
    (hwaiting : ∀ g ∈ below.toList, g.sp < g.code.maxStack) :
    m.leave v ≠ .finished (.fault y trace) left := by
  intro h
  simp only [leave, hstack, Stack.pop?_push, report] at h
  rcases below.eq_empty_or_push with hnone | ⟨caller, rest, hsome⟩
  · simp [hnone] at h
  · have hroom := hwaiting caller (by simp [hsome])
    have hput : caller.push v = .ok (caller.exchange 0 [v]) :=
      Frame.push_eq_ok_iff.mpr ⟨hroom, rfl⟩
    simp [hsome, hput] at h

theorem step_ne_stackOverflow {m left : Machine} {capacity : Nat} {trace : Backtrace}
    (h : m.Bounded limits) (hreturns : m.Returns) :
    m.step ≠ .finished (.fault (.stackOverflow capacity) trace) left := by
  obtain ⟨f, htop, hend⟩ := hreturns
  rcases m.frames.eq_empty_or_push with hnone | ⟨f', below, hstack⟩
  · simp [hnone] at htop
  rw [hstack, Stack.top?_push] at htop
  cases htop
  have hwaiting := h.waiting
  rw [hstack, Stack.toList_push, List.tail_cons] at hwaiting
  simp only [step, hstack, Stack.pop?_push]
  split
  · exact leave_ne_fault hstack hwaiting
  rename_i hinside
  obtain ⟨i, hi, hop⟩ := hend.resolve_left hinside
  rw [Frame.Fetches] at hi
  rw [hi]
  obtain ⟨store, nats, lims, frames, log⟩ := m
  have hexecute : i.execute nats = Action.pop >>= fun v => pure (.leave v) := by
    simp [Instruction.execute, hop]
  simp only [advance, hexecute]
  intro hstep
  split at hstep
  · rename_i next g t hok
    obtain ⟨v, ⟨g', t'⟩, -, hleave⟩ := bind_eq_ok_iff.mp hok
    cases hleave
    rw [follow] at hstep
    exact leave_ne_fault rfl hwaiting hstep
  · rename_i e g t herror
    rcases bind_eq_error_iff.mp herror with hpop | ⟨v, ⟨g', t'⟩, -, hleave⟩
    · obtain ⟨y, hempty, rfl, -⟩ := Action.onFrame_eq_error_iff.mp hpop
      obtain ⟨-, rfl⟩ := Frame.pop_eq_error_iff.mp hempty
      cases hstep
    · cases hleave

/-! ### Runs -/

theorem ne_noActiveFrame_of_cause {y : Fault} {frames : Stack Frame}
    (hnatives : ∀ n ∈ natives, ¬ n.Answers .noActiveFrame)
    (h : (bounds natives limits).Cause y frames) : y ≠ .noActiveFrame := by
  rintro rfl
  cases h with
  | decoding _ _ hdecode =>
      rcases Instruction.decodeAt_eq_error hdecode with h | ⟨_, h⟩ <;> cases h
  | instruction _ _ hfault =>
      cases hfault.faults with
      | operands hop => rcases hop with ⟨-, h⟩ | ⟨-, -, h⟩ <;> cases h
      | misfit hmisfit =>
          cases hmisfit with
          | native _ hn hanswers => exact hnatives _ hn hanswers
  | returning _ hpush => cases (Frame.push_eq_error_iff.mp hpush).2
  | delivering _ _ hpush => cases (Frame.push_eq_error_iff.mp hpush).2

/-- Every state of every run is within its bounds: the number of frames, their operands, their open
blocks, and the places in the code at which they are or to which their blocks lead. A frame that
waits for a call has room for the value. So no run finds itself without a frame, and no return
overflows the operands of the frame that it returns to. -/
theorem bounded_of_visits (m : Machine) (code : CodeBlock) (scope : ScopeId) :
    (∀ p, m.Visits code scope p → p.machine.Bounded m.limits) ∧
    ((∀ n ∈ m.natives, ¬ n.Answers .noActiveFrame) → ∀ budget trace left,
      m.runIn budget code scope ≠ some (.fault .noActiveFrame trace, left)) ∧
    ∀ n, m.Visits code scope (.running n) → n.Returns → ∀ capacity trace left,
      n.step ≠ .finished (.fault (.stackOverflow capacity) trace) left := by
  have hholds {p : Progress} (h : m.Visits code scope p) :
      (bounds m.natives m.limits).Holds p :=
    (bounds m.natives m.limits).holds_of_visits trivial trivial h
  refine ⟨fun p h => .of_holds (hholds h), ?_, ?_⟩
  · intro hnatives budget trace left hrun
    obtain ⟨m', hvisit, -⟩ := exists_runIn_eq_some_iff.mp ⟨budget, hrun⟩
    exact ne_noActiveFrame_of_cause hnatives ((hholds hvisit).2.2 _ _ rfl) rfl
  · intro n hvisit hreturns capacity trace left
    exact step_ne_stackOverflow (Bounded.of_holds (hholds hvisit)) hreturns

/-- A call inside an open block, over an operand, is about to return a value. -/
theorem bounded_called :
    let callee : CodeBlock := { (default : CodeBlock) with
      name := "inner", constants := #[.integer 7], maxStack := 1
      code := #[Opcode.loadConst.byte, 0, 0, Opcode.return_.byte] }
    let caller : CodeBlock := { (default : CodeBlock) with
      name := "outer", constants := #[.integer 1, .code 0], maxStack := 2, maxBlocks := 1
      code := #[Opcode.startTry.byte, 0, 12, Opcode.loadConst.byte, 0, 0, Opcode.loadConst.byte, 0,
        1, Opcode.call.byte, 0, 0, (Opcode.binary .add).byte] }
    let m : Machine := {
      store := { blocks := #[callee], scopes := ⟨#[{}]⟩ }
      natives := (Prelude.natives 0).toArray }
    let waiting : Frame := {
      code := caller, scope := 0, pc := 12, lastOffset := 9
      stack := Stack.empty.push (.integer 1), blocks := Stack.empty.push (.handler 12 0 0) }
    let returning : Frame := {
      code := callee, scope := 1, pc := 3, stack := Stack.empty.push (.integer 7) }
    ∃ n : Machine, m.Visits caller 0 (.running n) ∧
      n.frames = (Stack.empty.push waiting).push returning ∧ n.Bounded m.limits ∧ n.Returns ∧
      (∀ capacity trace left, n.step ≠ .finished (.fault (.stackOverflow capacity) trace) left) ∧
      ∀ budget trace left, m.runIn budget caller 0 ≠ some (.fault .noActiveFrame trace, left) := by
  intro callee caller m waiting returning
  let f : Frame := { code := caller, scope := 0 }
  let b : Block := .handler 12 0 0
  have htry : f.Fetches ⟨0, .startTry, .short 12⟩ :=
    Instruction.decodeAt_eq_ok_iff.mpr ⟨rfl, rfl, by decide⟩
  have hone : { f with blocks := Stack.empty.push b, pc := 3 }.Fetches ⟨3, .loadConst, .short 0⟩ :=
    Instruction.decodeAt_eq_ok_iff.mpr ⟨rfl, rfl, by decide⟩
  have hcallee : { f with
      stack := waiting.stack, blocks := Stack.empty.push b, pc := 6 }.Fetches
      ⟨6, .loadConst, .short 1⟩ :=
    Instruction.decodeAt_eq_ok_iff.mpr ⟨rfl, rfl, by decide⟩
  have hcall : { f with
      stack := waiting.stack.push (.code 0), blocks := Stack.empty.push b, pc := 9 }.Fetches
      ⟨9, .call, .short 0⟩ :=
    Instruction.decodeAt_eq_ok_iff.mpr ⟨rfl, rfl, by decide⟩
  have hseven : { returning with stack := .empty, pc := 0 }.Fetches ⟨0, .loadConst, .short 0⟩ :=
    Instruction.decodeAt_eq_ok_iff.mpr ⟨rfl, rfl, by decide⟩
  have hreturn : returning.Fetches ⟨3, .return_, .none⟩ :=
    Instruction.decodeAt_eq_ok_iff.mpr ⟨rfl, rfl, by decide⟩
  have hstart : m.Visits caller 0 (.running { m with
      frames := Stack.empty.push f, log := #[.framePushed "outer" 1] }) := .start
  have hopened := hstart.executed rfl htry
  have hloaded := (hopened.executed rfl hone).executed rfl hcallee
  have hcalled := hloaded.executed rfl hcall
  have hvisit := hcalled.executed rfl hseven
  have hreturns {n : Machine} (hn : n.frames = (Stack.empty.push waiting).push returning) :
      n.Returns :=
    ⟨returning, by rw [hn, Stack.top?_push], .inr ⟨_, hreturn, rfl⟩⟩
  obtain ⟨hbounded, hactive, hroom⟩ := bounded_of_visits m caller 0
  refine ⟨_, hvisit, rfl, hbounded _ hvisit, hreturns rfl, hroom _ hvisit (hreturns rfl),
    hactive fun r hr => ?_⟩
  exact Prelude.not_answers (by simpa [m] using hr) _

end Machine

end ScriptMachine
