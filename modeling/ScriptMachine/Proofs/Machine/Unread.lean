import ScriptMachine.Proofs.Machine.Activation
import ScriptMachine.Proofs.Machine.CodeTable

/-! Faults of reading and their backtraces. The trace names the frame whose code cannot be read,
but with the instruction that it has read last: the place in question is noted only afterwards. -/

namespace ScriptMachine

/-- The place in the code that a fault of reading carries. -/
def Fault.place? : Fault → Option Nat
  | .invalidOpcode _ offset | .truncatedInstruction offset => some offset
  | _ => none

/-! ### The last instruction of a frame -/

theorem Instruction.Effect.lastOffset_eq {i : Instruction} {f g : Frame} {t : Store} {next : Next}
    (h : i.Effect f t next g) : g.lastOffset = f.lastOffset := by
  cases h <;> rfl

namespace Frame

/-- The frame has read an instruction at the start of its code, and one at its last offset. -/
structure HasRead (f : Frame) : Prop where
  first : ∃ i, Instruction.decodeAt f.code.code 0 = .ok i
  last : ∃ i, Instruction.decodeAt f.code.code f.lastOffset = .ok i

/-- The frame has read an instruction, or it stands at the start of its code. -/
def Reads (f : Frame) : Prop :=
  f.HasRead ∨ f.pc = 0 ∧ f.lastOffset = 0

variable {f g : Frame} {i : Instruction}

namespace HasRead

theorem congr (h : f.HasRead) (hcode : g.code = f.code) (hlast : g.lastOffset = f.lastOffset) :
    g.HasRead := by
  obtain ⟨hfirst, hread⟩ := h
  constructor <;> rw [hcode]
  · exact hfirst
  · rwa [hlast]

theorem push (h : f.HasRead) {v : Value} (hpush : f.push v = .ok g) : g.HasRead := by
  obtain ⟨-, rfl⟩ := push_eq_ok_iff.mp hpush
  exact h.congr rfl rfl

theorem restored (h : f.HasRead) {r : Handler} (hr : f.takeHandler = (some r, g)) :
    (g.restored r).HasRead := by
  obtain ⟨rest, -, rfl⟩ := takeHandler_eq_some_iff.mp hr
  exact h.congr rfl rfl

end HasRead

namespace Reads

theorem fetched (h : f.Reads) (hi : f.Fetches i) : (f.fetched i).HasRead := by
  refine ⟨?_, i, hi⟩
  rcases h with hread | ⟨hpc, -⟩
  · exact hread.first
  · exact ⟨i, hpc ▸ hi⟩

theorem effect (h : f.Reads) (hi : f.Fetches i) {t : Store} {next : Next}
    (he : i.Effect (f.fetched i) t next g) : g.HasRead :=
  (h.fetched hi).congr he.code_eq he.lastOffset_eq

theorem of_interrupted (h : f.Reads) (hi : f.Fetches i) {natives : Array Native} {e : Interrupt}
    (he : i.Interrupted natives (f.fetched i) e g) : g.HasRead :=
  (h.fetched hi).congr he.code_eq he.lastOffset_eq

/-- Where nothing can be read, the last offset lies elsewhere, unless this is the start. -/
theorem lastOffset_of_error {y : Fault} (h : f.Reads)
    (hread : Instruction.decodeAt f.code.code f.pc = .error y) :
    (f.lastOffset = f.pc ↔ f.pc = 0) ∧
      (f.pc ≠ 0 → ∃ i, Instruction.decodeAt f.code.code f.lastOffset = .ok i) := by
  rcases h with ⟨⟨i, hfirst⟩, j, hlast⟩ | ⟨hpc, hstart⟩
  · -- neither the start of the code nor the last offset is the place in question: both were read
    have hpc : f.pc ≠ 0 := by
      intro hpc
      rw [hpc, hfirst] at hread
      cases hread
    have hother : f.lastOffset ≠ f.pc := by
      intro hsame
      rw [← hsame, hlast] at hread
      cases hread
    exact ⟨iff_of_false hother hpc, fun _ => ⟨j, hlast⟩⟩
  · exact ⟨iff_of_true (hstart.trans hpc.symm) hpc, absurd hpc⟩

end Reads

end Frame

namespace Machine

variable {natives : Array Native} {limits : Limits} {m n left : Machine} {code : CodeBlock}
  {scope : ScopeId} {y : Fault} {trace : Backtrace} {offset : Nat}

def reading (natives : Array Native) (limits : Limits) : Invariant natives limits where
  running := Frame.Reads
  suspended := Frame.HasRead
  raising := Frame.HasRead
  left _ := True
  code _ := True
  store _ := True
  entered _ _ _ := .inr ⟨rfl, rfl⟩
  proceeds hf hi he := .inl (hf.effect hi he)
  calls hf hi he := hf.effect hi he
  interrupted hf hi he := hf.of_interrupted hi he
  returned hf hpush := .inl (hf.push hpush)
  reached := id
  delivered hf hr hpush := .inl ((hf.restored hr).push hpush)
  left_of_running _ := trivial
  left_of_raising _ := trivial
  left_of_faulted _ _ _ := trivial
  left_of_restored _ _ := trivial
  stored _ _ := trivial
  stored_of_interrupted _ _ := trivial
  callable _ _ := trivial

/-! ### The trace of a fault -/

theorem trace_of_interrupt {e : Interrupt} (h : m.interrupt e = .finished (.fault y trace) left) :
    trace = left.trace := by
  cases e with
  | fault y =>
      cases h
      rfl
  | raised z =>
      have hdelivers := m.delivers_raise z
      rw [interrupt] at h
      rw [h] at hdelivers
      cases hdelivers
      rfl

/-- A fault leaves the frames as its trace tells. -/
theorem trace_of_visits (hvisit : m.Visits code scope (.finished (.fault y trace) left)) :
    trace = left.trace := by
  generalize hp : Progress.finished (.fault y trace) left = p at hvisit
  cases hvisit with
  | start =>
      rw [Machine.start, enter] at hp
      split at hp
      · exact trace_of_interrupt hp.symm
      · cases hp
  | @step n =>
      have hattempts := n.attempts_attempt
      rw [step_eq_settle] at hp
      generalize n.attempt = x at hattempts hp
      cases hattempts with
      | proceeded | entered | returned | resumed => cases hp
      | idle | unread | refused | interrupted | overflowed =>
          rw [Attempt.settle] at hp
          exact trace_of_interrupt hp.symm

/-- What cannot be read comes after an instruction: the trace has the place of the instruction. -/
theorem exists_runIn_of_noop (m : Machine) (scope : ScopeId) {b : CodeBlock}
    (hdepth : 0 < m.limits.maxRecursionDepth)
    (hstack : b.maxStack ≤ m.limits.maxStackSize) (hblocks : b.maxBlocks ≤ m.limits.maxStackSize)
    (hnoop : Instruction.decodeAt b.code 0 = .ok ⟨0, .noop, .none⟩) (hinside : 1 < b.code.size)
    (hread : Instruction.decodeAt b.code 1 = .error y) :
    ∃ budget left, m.runIn budget b scope = some (.fault y [⟨b.name, b.filename, 0⟩], left) := by
  let f : Frame := { code := b, scope }
  obtain ⟨log, hstart⟩ := start_eq m scope hdepth hstack hblocks
  let n (f : Frame) : Machine := { m with log }.alone ⟨f, m.store⟩
  have hvisit : m.Visits b scope (.running (n f)) := hstart ▸ .start
  have hruns : Activation.Runs m.natives ⟨f, m.store⟩ (.ok () ⟨{ f with pc := 1 }, m.store⟩) :=
    .step (i := ⟨0, .noop, .none⟩) hnoop rfl (.refl _)
  have hend : m.Visits b scope (n { f with pc := 1 }).step := (hvisit.concluded hruns).step
  have hunread : (n { f with pc := 1 }).step = (n { f with pc := 1 }).interrupt (.fault y) := by
    simp only [n, alone, step, Stack.pop?_push, f, if_neg (Nat.not_le.mpr hinside), hread,
      interrupt]
  rw [hunread] at hend
  obtain ⟨log', steps, hrun⟩ := hend.exists_runIn_of_interrupt rfl (by simp)
  exact ⟨_, _, hrun 0⟩

/-! ### Faults of reading -/

/-- Of the instructions that can be read only a comparison that does not exist ends in such a
fault, natives apart. -/
theorem comparison_of_faults {i : Instruction} {f : Frame} (hform : i.WellFormed)
    (hnatives : ∀ r ∈ natives, ¬ r.Answers y) (h : i.Faults natives f y)
    (hy : y.place? = some offset) :
    i.opcode = .compare ∧ CompareOp.ofNumber? i.arg = none ∧ i.offset = offset := by
  cases h with
  | operands hop => rcases hop with ⟨-, rfl⟩ | ⟨-, -, rfl⟩ <;> cases hy
  | blocksFull | noBlock | noLoop => cases hy
  | misfit hmisfit =>
      cases hmisfit with
      | constant | name | localName | target | division | scope => cases hy
      | comparison hop hnone =>
          cases hy
          exact ⟨hop, hnone, rfl⟩
      | operand hop hpair =>
          rw [Instruction.WellFormed, hop] at hform
          exact absurd hform hpair
      | native _ hn hanswers => exact absurd hanswers (hnatives _ hn)

/-- What a fault of reading and its trace say about the innermost frame. -/
inductive Locates (f : Frame) (y : Fault) (offset : Nat) : Prop where
  /-- The comparison that the innermost frame has read last does not exist. -/
  | comparison {i : Instruction} (hi : Instruction.decodeAt f.code.code f.lastOffset = .ok i)
      (hop : i.opcode = .compare) (hnone : CompareOp.ofNumber? i.arg = none)
      (hplace : f.lastOffset = offset)
  /-- The innermost frame stands at the place that cannot be read. The trace has this place only
  if it is the start of the code, and else the one of the instruction before. -/
  | unread (hread : Instruction.decodeAt f.code.code offset = .error y) (hpc : f.pc = offset)
      (hstart : f.lastOffset = offset ↔ offset = 0)
      (hlast : offset ≠ 0 → ∃ i, Instruction.decodeAt f.code.code f.lastOffset = .ok i)

theorem locates_of_cause {frames : Stack Frame} (hnatives : ∀ r ∈ natives, ¬ r.Answers y)
    (h : (reading natives limits).Cause y frames) (hy : y.place? = some offset) :
    ∃ f below, frames = Stack.push below f ∧ Locates f y offset := by
  cases h with
  | stackLimit | blockLimit => cases hy
  | @decoding f below y hf hinside hread =>
      have hpc : f.pc = offset := by
        rcases Instruction.decodeAt_eq_error hread with rfl | ⟨byte, rfl⟩ <;> cases hy <;> rfl
      obtain ⟨hstart, hlast⟩ := hf.lastOffset_of_error hread
      rw [hpc] at hread hstart hlast
      exact ⟨f, below, rfl, .unread hread hpc hstart hlast⟩
  | @instruction f g below i y hf hi hinterrupted =>
      obtain ⟨hoffset, hform, -⟩ := Instruction.decodeAt_eq_ok_iff.mp hi
      obtain ⟨hop, hnone, rfl⟩ := comparison_of_faults hform hnatives hinterrupted.faults hy
      have hlast : g.lastOffset = i.offset := hinterrupted.lastOffset_eq.trans hoffset.symm
      refine ⟨g, below, rfl, .comparison ?_ hop hnone hlast⟩
      rw [hinterrupted.code_eq, hlast, hoffset]
      exact hi
  | returning _ hpush | delivering _ _ hpush =>
      obtain ⟨-, rfl⟩ := Frame.push_eq_error_iff.mp hpush
      cases hy

/-- A fault of reading is reported in the frame whose code cannot be read, with the instruction
that this frame has read last. -/
theorem locates_of_runIn {budget : Nat} (hnatives : ∀ r ∈ m.natives, ¬ r.Answers y)
    (hrun : m.runIn budget code scope = some (.fault y trace, left))
    (hy : y.place? = some offset) :
    ∃ k f below, m.Visits code scope (.finished (.fault y trace) k) ∧
      k.frames = Stack.push below f ∧ Locates f y offset ∧
      trace = ⟨f.code.name, f.code.filename, f.lastOffset⟩ :: Backtrace.ofFrames below.toList := by
  obtain ⟨k, hvisit, -⟩ := exists_runIn_eq_some_iff.mp ⟨budget, hrun⟩
  have hholds := (reading m.natives m.limits).holds_of_visits trivial trivial hvisit
  obtain ⟨f, below, hframes, hlocates⟩ := locates_of_cause hnatives (hholds.2.2 y trace rfl) hy
  refine ⟨k, f, below, hvisit, hframes, hlocates, ?_⟩
  rw [trace_of_visits hvisit, Machine.trace, hframes, Stack.toList_push]
  rfl

/-- A fault and its trace do not agree about the place. -/
theorem misplaced_unread :
    let b : CodeBlock := { (default : CodeBlock) with code := #[Opcode.noop.byte, 0xee] }
    let y : Fault := .invalidOpcode 0xee 1
    ∃ budget left trace, ({} : Machine).runIn budget b 0 = some (.fault y trace, left) ∧
      y.place? = some 1 ∧ trace.head?.map (·.offset) = some 0 := by
  intro b y
  have hnoop : Instruction.decodeAt b.code 0 = .ok ⟨0, .noop, .none⟩ :=
    Instruction.decodeAt_eq_ok_iff.mpr ⟨rfl, rfl, by decide⟩
  have hread : Instruction.decodeAt b.code 1 = .error y := by
    simp only [Instruction.decodeAt, Opcode.ofByte?_eq]
    rfl
  obtain ⟨budget, left, hrun⟩ := exists_runIn_of_noop {} 0 (by decide) (Nat.zero_le _)
    (Nat.zero_le _) hnoop (by decide) hread
  exact ⟨budget, left, _, hrun, rfl, rfl⟩

/-- Code that ends within an operand, with the natives of the prelude. -/
theorem locates_truncated :
    let b : CodeBlock := { (default : CodeBlock) with
      code := #[Opcode.noop.byte, Opcode.loadConst.byte, 0] }
    let m : Machine := { natives := (Prelude.natives 0).toArray }
    let trace : Backtrace := [⟨b.name, b.filename, 0⟩]
    ∃ k f below, m.Visits b 0 (.finished (.fault (.truncatedInstruction 1) trace) k) ∧
      k.frames = Stack.push below f ∧ Locates f (.truncatedInstruction 1) 1 ∧
      trace = ⟨f.code.name, f.code.filename, f.lastOffset⟩ :: Backtrace.ofFrames below.toList := by
  intro b m trace
  have hnoop : Instruction.decodeAt b.code 0 = .ok ⟨0, .noop, .none⟩ :=
    Instruction.decodeAt_eq_ok_iff.mpr ⟨rfl, rfl, by decide⟩
  have hread : Instruction.decodeAt b.code 1 = .error (.truncatedInstruction 1) := by
    simp only [Instruction.decodeAt, Opcode.ofByte?_eq]
    rfl
  obtain ⟨budget, left, hrun⟩ := exists_runIn_of_noop m 0 (by decide) (Nat.zero_le _)
    (Nat.zero_le _) hnoop (by decide) hread
  have hnatives : ∀ r ∈ m.natives, ¬ r.Answers (.truncatedInstruction 1) := fun r hr =>
    Prelude.not_answers (by simpa [m] using hr) _
  exact locates_of_runIn hnatives hrun rfl

end Machine

end ScriptMachine
