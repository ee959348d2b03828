import ScriptMachine.Proofs.Code.Listing
import ScriptMachine.Proofs.Machine.Delivery

/-! Listed code does not miss an operand when it is executed: what a listing looks up is what the
instructions look up. -/

namespace ScriptMachine

/-- Faults that tell of an operand which is missing, in the code or in the table that it names an
entry of. -/
def Fault.missesOperand : Fault → Bool
  | .constantOutOfBounds .. | .nameOutOfBounds .. | .localOutOfBounds .. | .truncatedInstruction _ =>
    true
  | _ => false

/-- An instruction with what it names misses no operand by itself; a native that it calls may answer
so. -/
theorem Instruction.Named.native_of_faults {natives : Array Native} {i : Instruction} {f : Frame}
    {y : Fault} (hnamed : i.Named f.code) (hform : i.WellFormed) (hy : i.Faults natives f y)
    (hmisses : y.missesOperand) : i.opcode = .call ∧ ∃ n ∈ natives, n.Answers y := by
  cases hy with
  | operands hop => rcases hop with ⟨-, rfl⟩ | ⟨-, -, rfl⟩ <;> cases hmisses
  | blocksFull | noBlock | noLoop => cases hmisses
  | misfit hmisfit =>
      cases hmisfit with
      | constant hop hout => exact absurd (hnamed.constant hop) (Nat.not_lt.mpr hout)
      | name hop hout => exact absurd (hnamed.name hop) (Nat.not_lt.mpr hout)
      | localName hop hout => exact absurd (hnamed.localName hop) (Nat.not_lt.mpr hout)
      | operand hop hpair =>
          rw [Instruction.WellFormed, hop] at hform
          exact absurd hform hpair
      | native hop hn hanswers => exact ⟨hop, _, hn, hanswers⟩
      | target | comparison | division | scope => cases hmisses

namespace Machine

variable {m left : Machine} {f : Frame} {below : Stack Frame} {i : Instruction} {y : Fault}
  {trace : Backtrace}

/-- The innermost frame executes a block and is at an instruction. -/
def IsAt (m : Machine) (c : CodeBlock) (i : Instruction) : Prop :=
  ∃ f below, m.frames = Stack.push below f ∧ f.code = c ∧ f.pc = i.offset

/-- A step that ends in a fault has been interrupted by it, or by an exception for which the handler
has no room. -/
theorem attempt_of_step_fault (h : m.step = .finished (.fault y trace) left) :
    (∃ n, m.attempt = .interrupted (.fault y) n) ∨ ∃ capacity, y = .stackOverflow capacity := by
  rw [step_eq_settle] at h
  cases hattempt : m.attempt with
  | running n => simp [hattempt, Attempt.settle] at h
  | returned v n => simp [hattempt, Attempt.settle] at h
  | interrupted e n =>
      rw [hattempt, Attempt.settle] at h
      cases e with
      | fault y' =>
          cases h
          exact .inl ⟨n, rfl⟩
      | raised z =>
          have hdelivers := n.delivers_raise z
          rw [show n.raise z = _ from h] at hdelivers
          cases hdelivers
          exact .inr ⟨_, rfl⟩

/-- The limits refuse a block for the room that it asks for. -/
theorem refusal?_eq_fault {c : CodeBlock} (h : m.refusal? c = some (.fault y)) :
    (∃ declared limit, y = .stackLimitExceeded declared limit) ∨
      ∃ declared limit, y = .blockLimitExceeded declared limit := by
  rw [refusal?] at h
  split at h
  · cases h
  split at h
  · cases h
    exact .inl ⟨_, _, rfl⟩
  split at h <;> cases h
  exact .inr ⟨_, _, rfl⟩

theorem native_of_attempt (hframes : m.frames = below.push f) (hi : f.Fetches i)
    (hnamed : i.Named f.code) (h : m.attempt = .interrupted (.fault y) left)
    (hmisses : y.missesOperand) : i.opcode = .call ∧ ∃ n ∈ m.natives, n.Answers y := by
  have hattempts := m.attempts_attempt
  rw [h] at hattempts
  have hsame {g : Frame} {rest : Stack Frame} (hg : m.frames = rest.push g) : g = f :=
    (Stack.push_inj.mp (hg.symm.trans hframes)).2
  cases hattempts with
  | idle => cases hmisses
  | unread hg hread =>
      cases hsame hg
      rw [Frame.Fetches, hread] at hi
      cases hi
  | refused _ _ _ hrefused =>
      rcases refusal?_eq_fault hrefused with ⟨_, _, rfl⟩ | ⟨_, _, rfl⟩ <;> cases hmisses
  | interrupted hg hj hexecute =>
      cases hsame hg
      cases hj.symm.trans hi
      have hfaults := (Instruction.execute_error rfl hexecute).faults
      rw [← f.code_fetched] at hnamed
      exact hnamed.native_of_faults (Instruction.decodeAt_eq_ok_iff.mp hi).2.1 hfaults hmisses
  | overflowed _ _ hpush =>
      obtain ⟨-, rfl⟩ := Frame.push_eq_error_iff.mp hpush
      cases hmisses

/-- A step at an instruction with what it names does not end for want of an operand, unless the
instruction calls a native that answers so. -/
theorem native_of_step {c : CodeBlock} (hat : m.IsAt c i) (hi : .ok i ∈ c.instructions)
    (hnamed : i.Named c) (h : m.step = .finished (.fault y trace) left)
    (hmisses : y.missesOperand) : i.opcode = .call ∧ ∃ n ∈ m.natives, n.Answers y := by
  obtain ⟨f, below, hframes, rfl, hpc⟩ := hat
  have hfetches : f.Fetches i := by
    rw [Frame.Fetches, hpc]
    exact (Instruction.decodeAt_of_mem_walk hi).1
  rcases attempt_of_step_fault h with ⟨n, hattempt⟩ | ⟨capacity, rfl⟩
  · exact native_of_attempt hframes hfetches hnamed hattempt hmisses
  · cases hmisses

end Machine

/-! ### Listings -/

namespace Store

variable {s : Store} {b : CodeBlock}

/-- A listing accepts exactly the legible blocks and otherwise tells their first fault, at whatever
depth that is. Once a block is listed, no instruction of it or of a block within it ends a step for
want of an operand; only the answer of a native that is called may be such a fault. -/
theorem listing_accepts_legible (hnested : s.FinitelyNested b) :
    ((∃ text, s.listing b = .ok text) ↔ s.Legible b) ∧
    (∀ y, s.listing b = .error y ↔ s.FirstFault b y) ∧
    (∀ depth, s.blocks.size ≤ depth → s.listingTo depth 0 b = s.listing b) ∧
    ∀ text, s.listing b = .ok text → ∀ c i, Relation.ReflTransGen s.Embeds b c →
      .ok i ∈ c.instructions → ∀ m : Machine, m.IsAt c i → ∀ y trace left,
        m.step = .finished (.fault y trace) left → y.missesOperand →
          i.opcode = .call ∧ ∃ n ∈ m.natives, n.Answers y := by
  have hfathoms := hnested.fathoms
  have hlegible : (∃ text, s.listing b = .ok text) ↔ s.Legible b :=
    exists_listingTo_eq_ok_iff hfathoms
  refine ⟨hlegible, fun y => listingTo_eq_error_iff hfathoms,
    fun depth hdepth => listingTo_congr hfathoms hdepth, ?_⟩
  intro text htext c i hc hi m hat y trace left hstep hmisses
  obtain ⟨j, hj, hnamed⟩ := CodeBlock.legible_iff.mp (hlegible.mp ⟨text, htext⟩ c hc) _ hi
  cases hj
  exact Machine.native_of_step hat hi hnamed hstep hmisses

/-- A legible block around one that names a local variable which it does not have, before an
operation that does not exist. -/
theorem listing_accepts_legible_nested :
    let inner : CodeBlock := {
      name := "inner", filename := "", code := #[0x11, 0, 0, 0xff], constants := #[],
      names := #[], locals := #[], maxStack := 1, maxBlocks := 0 }
    let outer : CodeBlock := {
      name := "outer", filename := "", code := #[0x10, 0, 0], constants := #[.code 0],
      names := #[], locals := #[], maxStack := 1, maxBlocks := 0 }
    let s : Store := { blocks := #[inner] }
    s.FinitelyNested outer ∧ s.listing outer = .error (.localOutOfBounds 0 0) := by
  intro inner outer s
  have hinner : s.FinitelyNested inner := .intro (by simp [inner]) (by simp [inner])
  have houter : s.FinitelyNested outer :=
    .intro (by simp [outer, s]) (by simp [outer, s, block, hinner])
  have hlegible : outer.Legible := by
    refine ⟨[⟨0, .loadConst, .short 0⟩], ⟨rfl, rfl, trivial⟩, by decide, ?_⟩
    rw [List.forall_mem_singleton]
    exact ⟨fun _ => by decide, (by cases ·), (by cases ·)⟩
  have hbegins : inner.Begins ([] ++ [⟨0, .loadFast, .short 0⟩]) :=
    ⟨⟨rfl, rfl, trivial⟩, by decide⟩
  have hfault : inner.FirstFault (.localOutOfBounds 0 0) :=
    .misnamed hbegins (by simp) (.localName rfl (Nat.le_refl _))
  have hconstants : outer.constants.toList = [] ++ .code 0 :: [] := rfl
  refine ⟨houter, ((listing_accepts_legible houter).2.1 _).mpr ?_⟩
  exact .nested hlegible hconstants (by simp) (.own hfault)

end Store

end ScriptMachine
