import ScriptMachine.Proofs.Assembler.Discipline
import ScriptMachine.Proofs.Machine.CodeTable
import ScriptMachine.Proofs.Machine.Placement

/-! Runs over well-assembled code stay on instructions: every frame is at the start of an
instruction or at the end of its code, and everything that is read there can be read. -/

namespace ScriptMachine

/-- Faults that tell of code which cannot be read, or of an operand that names nothing. -/
def Fault.misreads : Fault → Bool
  | .invalidOpcode .. | .truncatedInstruction _ | .constantOutOfBounds .. | .nameOutOfBounds ..
  | .localOutOfBounds .. | .jumpOutOfBounds .. => true
  | _ => false

/-! ### Frames on instructions -/

namespace Frame

/-- If its code holds together, the frame is on a boundary, and its open blocks lead to some. -/
def Aligned (f : Frame) : Prop :=
  f.code.Coherent → f.Placed f.code.Boundary

namespace Aligned

variable {f g : Frame} {i : Instruction}

/-- What a frame on a boundary reads is one of the instructions of its code. -/
theorem mem_instructions (h : f.Aligned) (hcode : f.code.Coherent) (hi : f.Fetches i) :
    .ok i ∈ f.code.instructions :=
  (h hcode).pc.mem_instructions hi

/-- A frame that has read an instruction is on the next boundary. -/
theorem fetched (h : f.Aligned) (hi : f.Fetches i) : (f.fetched i).Aligned :=
  fun hcode => (h hcode).moved (hcode.boundary_next (h.mem_instructions hcode hi))

theorem effect (h : f.Aligned) (hi : f.Fetches i) {t : Store} {next : Next}
    (he : i.Effect (f.fetched i) t next g) : g.Aligned := by
  intro hcode
  rw [he.code_eq, code_fetched] at hcode ⊢
  have hsuits := hcode.suits (h.mem_instructions hcode hi)
  exact (h.fetched hi hcode).effect (fun offset ht _ => hsuits.targets offset ht) he

theorem of_interrupted (h : f.Aligned) (hi : f.Fetches i) {natives : Array Native}
    {e : Interrupt} (he : i.Interrupted natives (f.fetched i) e g) : g.Aligned := by
  intro hcode
  rw [he.code_eq, code_fetched] at hcode ⊢
  exact (h.fetched hi hcode).of_interrupted he

theorem push (h : f.Aligned) {v : Value} (hpush : f.push v = .ok g) : g.Aligned := by
  intro hcode
  rw [code_of_push hpush] at hcode ⊢
  exact (h hcode).push hpush

theorem restored (h : f.Aligned) {r : Handler} (hr : f.takeHandler = (some r, g)) :
    (g.restored r).Aligned := by
  intro hcode
  rw [code_restored hr] at hcode ⊢
  exact (h hcode).restored hr

end Aligned

end Frame

/-! ### Runs on instructions -/

namespace Machine

variable {natives : Array Native} {limits : Limits} {m : Machine} {code : CodeBlock}
  {scope : ScopeId}

def alignment (natives : Array Native) (limits : Limits) : Invariant natives limits where
  running := Frame.Aligned
  suspended := Frame.Aligned
  raising := Frame.Aligned
  left := Frame.Aligned
  code _ := True
  store _ := True
  entered _ _ _ hcode := ⟨hcode.boundary_zero, by simp⟩
  proceeds hf hi he := hf.effect hi he
  calls hf hi he := hf.effect hi he
  interrupted hf hi he := hf.of_interrupted hi he
  returned hf hpush := hf.push hpush
  reached := id
  delivered hf hr hpush := (hf.restored hr).push hpush
  left_of_running := id
  left_of_raising := id
  left_of_faulted hf hi he := hf.of_interrupted hi he
  left_of_restored hf hr := hf.restored hr
  stored _ _ := trivial
  stored_of_interrupted _ _ := trivial
  callable _ _ := trivial

/-- An instruction that refers to what is there does not misread, natives apart. -/
theorem misreads_of_misfit {b : CodeBlock} {i : Instruction} {y : Fault} (hsuits : i.Suits b)
    (hform : i.WellFormed) (hnatives : ∀ n ∈ natives, ¬ n.Answers y)
    (h : i.Misfit natives b y) : y.misreads = false := by
  cases h with
  | constant hop hout => exact absurd (hsuits.constant hop) (by omega)
  | name hop hout => exact absurd (hsuits.name hop) (by omega)
  | localName hop hout => exact absurd (hsuits.localName hop) (by omega)
  | target htarget hout => exact absurd (hsuits.targets _ htarget).le_size (by omega)
  | comparison hop hnone => exact absurd hnone (hsuits.comparison hop)
  | operand hop hpair =>
      rw [Instruction.WellFormed, hop] at hform
      exact absurd hform hpair
  | division | scope => rfl
  | native _ hn hanswers => exact absurd hanswers (hnatives _ hn)

/-- A run in which a frame with coherent code is innermost at the end has not misread. -/
theorem misreads_of_cause {y : Fault} {frames : Stack Frame}
    (hnatives : ∀ n ∈ natives, ¬ n.Answers y)
    (hcode : ∀ f ∈ frames.toList, f.code.Coherent)
    (h : (alignment natives limits).Cause y frames) : y.misreads = false := by
  cases h with
  | stackLimit | blockLimit => rfl
  | @decoding f below y hf hinside herror =>
      have hcoherent := hcode f (by simp)
      obtain ⟨i, hi⟩ := (hf hcoherent).pc.exists_decodeAt hinside
      rw [hi] at herror
      cases herror
  | @instruction f g below i y hf hi hinterrupted =>
      have hcoherent : f.code.Coherent := by
        have hcode_eq : g.code = f.code := hinterrupted.code_eq
        exact hcode_eq ▸ hcode g (by simp)
      cases hinterrupted.faults with
      | operands hop => rcases hop with ⟨-, rfl⟩ | ⟨-, -, rfl⟩ <;> rfl
      | blocksFull | noBlock | noLoop => rfl
      | misfit hmisfit =>
          have hsuits := hcoherent.suits (hf.mem_instructions hcoherent hi)
          exact misreads_of_misfit hsuits (Instruction.decodeAt_eq_ok_iff.mp hi).2.1 hnatives
            hmisfit
  | returning _ hpush =>
      obtain ⟨-, rfl⟩ := Frame.push_eq_error_iff.mp hpush
      rfl
  | delivering _ _ hpush =>
      obtain ⟨-, rfl⟩ := Frame.push_eq_error_iff.mp hpush
      rfl

/-- A run that calls well-assembled blocks and natives of the prelude only keeps every frame at
the start of an instruction or at the end of its code, and does not end in a fault of reading. -/
theorem aligned_of_runsOnly (hcalls : m.RunsOnly CodeBlock.WellAssembled code scope)
    (hnatives : ∀ n ∈ m.natives, ∃ output, n ∈ Prelude.natives output) :
    (∀ p, m.Visits code scope p → ∀ f ∈ p.machine.frames.toList, f.code.Boundary f.pc) ∧
    ∀ budget y trace left, m.runIn budget code scope = some (.fault y trace, left) →
      y.misreads = false := by
  have hholds {p : Progress} (hvisit : m.Visits code scope p) :
      (alignment m.natives m.limits).Holds p :=
    Invariant.holds_of_visits _ trivial trivial hvisit
  have hcoherent {p : Progress} (hvisit : m.Visits code scope p) :
      ∀ f ∈ p.machine.frames.toList, f.code.Coherent :=
    fun f hf => (hcalls p hvisit f hf).coherent
  refine ⟨fun p hvisit f hf => ?_, fun budget y trace left hrun => ?_⟩
  · have haligned : f.Aligned :=
      (hholds hvisit).forall_frames (fun _ => id) (fun _ => id) (fun _ => id) f hf
    exact (haligned (hcoherent hvisit f hf)).pc
  · obtain ⟨left', hvisit, -⟩ := exists_runIn_eq_some_iff.mp ⟨budget, hrun⟩
    refine misreads_of_cause (fun n hn => ?_) (hcoherent hvisit) ((hholds hvisit).2.2 y trace rfl)
    obtain ⟨output, hprelude⟩ := hnatives n hn
    exact Prelude.not_answers hprelude y

/-- A loop that is left at once, with the natives of the prelude. -/
theorem aligned_loop :
    let b : CodeBlock := {
      name := "loop", filename := "", code := #[0x60, 0, 5, 0, 6, 0x62], constants := #[],
      names := #[], locals := #[], maxStack := 0, maxBlocks := 1 }
    let m : Machine := { natives := (Prelude.natives 0).toArray }
    ∀ budget y trace left, m.runIn budget b 0 = some (.fault y trace, left) →
      y.misreads = false := by
  intro b m
  have hb : b.WellAssembled :=
    ⟨"loop", "", true, [.newLabel, .newLabel, .startLoop 0 1, .bind 0, .emit .break_, .bind 1],
      by decide, rfl⟩
  have hnatives {n : Native} (hn : n ∈ m.natives) : n ∈ Prelude.natives 0 := by
    simpa [m] using hn
  have hcalls : m.RunsOnly CodeBlock.WellAssembled b 0 :=
    runsOnly_of_store hb (fun _ => CodeBlock.wellAssembled_default)
      fun n hn => Prelude.keepsCode (hnatives hn)
  exact (aligned_of_runsOnly hcalls fun n hn => ⟨0, hnatives hn⟩).2

end Machine

end ScriptMachine
