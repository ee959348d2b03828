import ScriptMachine.Proofs.Assembler.Heights
import ScriptMachine.Proofs.Machine.Invariant

/-! Runs of straight code. A frame that executes a block of straight code has no block open, and its
operands are as many as the assembler has accounted for; so the declared size is always enough, and
an operand is missing only where one was missing in the account. -/

namespace ScriptMachine

/-! ### Instructions of straight code -/

theorem Instruction.jumps_eq_nil {i : Instruction} (h : i.opcode.straight) : i.jumps = [] := by
  obtain ⟨_, opcode, _⟩ := i
  cases opcode <;> first | rfl | cases h

namespace HeightMap

/-! ### Frames that follow a map -/

/-- No block of a frame is open, and its operands are as many as a map says, once as many more are
there as it waits for. -/
structure Follows (h : HeightMap) (awaited : Nat) (f : Frame) : Prop where
  blocks : f.blocks = .empty
  height : h f.pc = some (f.sp + awaited)

variable {h : HeightMap} {f g : Frame} {i : Instruction} {t : Store}

/-- The frame behind an instruction that has found its operands. -/
theorem Follows.exchanged (hf : h.Follows 0 f) (hagrees : h.Agrees f.code) (hi : f.Fetches i)
    (htakes : i.takes ≤ f.sp) {vs : List Value} {awaited : Nat}
    (hlen : vs.length + awaited = i.puts) :
    h.Follows awaited ((f.fetched i).exchange i.takes vs) where
  blocks := hf.blocks
  height := by
    have hnext := hagrees.next hf.height hi
    change h i.next = _
    rw [hnext, Frame.sp_exchange, Frame.sp_fetched]
    congr 1
    omega

/-- Every instruction that goes on in its frame has the frame follow the map. -/
theorem Follows.proceeds (hf : h.Follows 0 f) (hagrees : h.Agrees f.code) (hi : f.Fetches i)
    (he : i.Effect (f.fetched i) t .proceed g) : h.Follows 0 g := by
  have hstraight := hagrees.straight hf.height hi
  cases he with
  | exchanged hop htakes hlen hroom => exact hf.exchanged hagrees hi htakes hlen
  | scopeChanged hop =>
      refine ⟨hf.blocks, (hagrees.next hf.height hi).trans ?_⟩
      rcases hop with hop | hop <;> simp [Instruction.takes, Instruction.puts, hop] <;> rfl
  | jumped hjump hin htakes =>
      rw [Instruction.jumps_eq_nil hstraight] at hjump
      cases hjump
  | blockClosed hop hblocks =>
      rw [Frame.blocks_fetched, hf.blocks] at hblocks
      exact absurd hblocks (Stack.empty_ne_push _ _)
  | loopOpened hop _ _ _ _ | handlerOpened hop _ _ | loopLeft hop _ | loopRepeated hop _ =>
      rw [hop] at hstraight
      cases hstraight

theorem Follows.calls (hf : h.Follows 0 f) (hagrees : h.Agrees f.code) (hi : f.Fetches i)
    {callee : CodeBlock} {e : ScopeId} (he : i.Effect (f.fetched i) t (.enter callee e) g) :
    h.Follows 1 g := by
  cases he with
  | called hop htakes =>
      refine hf.exchanged hagrees hi htakes ?_
      simp [Instruction.puts, hop]

theorem Follows.returned {v : Value} (hf : h.Follows 1 f) (hpush : f.push v = .ok g) :
    h.Follows 0 g := by
  obtain ⟨-, rfl⟩ := Frame.push_eq_ok_iff.mp hpush
  refine ⟨hf.blocks, ?_⟩
  rw [Frame.sp_exchange, List.length_singleton, Nat.sub_zero, Nat.add_zero, Nat.add_comm]
  exact hf.height

/-- There is room for the value that a frame awaits. -/
theorem Follows.push_ne_error {v : Value} {y : Fault} (hf : h.Follows 1 f)
    (hagrees : h.Agrees f.code) : f.push v ≠ .error y := by
  intro hpush
  have hroom := hagrees.height_le hf.height
  have hfull := (Frame.push_eq_error_iff.mp hpush).1
  omega

end HeightMap

theorem Frame.takeHandler_ne_some {f g : Frame} {r : Handler} (hf : f.blocks = .empty) :
    f.takeHandler ≠ (some r, g) := by
  intro h
  obtain ⟨rest, hblocks, -⟩ := takeHandler_eq_some_iff.mp h
  have hsuffix := suffix_expose f .handler
  rw [hblocks, hf] at hsuffix
  simp at hsuffix

/-! ### Faults of operands -/

/-- The faults of too few or too many operands. -/
def Fault.ofOperands : Fault → Bool
  | .stackOverflow _ | .stackExhausted => true
  | _ => false

/-- An instruction of a block ends a run for want of operands, in a frame where a map says how many
there are; or it is a call, and the fault is what a native has answered. -/
inductive HeightMap.Ends (h : HeightMap) (natives : Array Native) (f : Frame) : Fault → Prop where
  | exhausted {i : Instruction} {p : Nat} : h f.lastOffset = some p →
      Instruction.decodeAt f.code.code f.lastOffset = .ok i → p < i.takes →
      Ends h natives f .stackExhausted
  | native {i : Instruction} {n : Native} {y : Fault} :
      Instruction.decodeAt f.code.code f.lastOffset = .ok i → i.opcode = .call → n ∈ natives →
      n.Answers y → Ends h natives f y

/-- In a frame that follows a map that agrees with its block, too many operands are never there. -/
theorem HeightMap.Follows.ends {h : HeightMap} {f g : Frame} {i : Instruction}
    {natives : Array Native} {y : Fault} (hf : h.Follows 0 f) (hagrees : h.Agrees f.code)
    (hi : f.Fetches i) (he : i.Interrupted natives (f.fetched i) (.fault y) g)
    (hy : y.ofOperands) : h.Ends natives g y := by
  have hread : Instruction.decodeAt g.code.code g.lastOffset = .ok i := by
    rw [he.code_eq, he.lastOffset_eq]
    exact hi
  have hheight : h g.lastOffset = some f.sp := by
    rw [he.lastOffset_eq]
    exact hf.height
  cases he.faults with
  | operands hop =>
      rcases hop with ⟨hlow, rfl⟩ | ⟨hputs, hhigh, -⟩
      · exact .exhausted hheight hread hlow
      · have hroom := hagrees.room hf.height hi
        rw [Frame.code_fetched, Frame.sp_fetched] at hhigh
        omega
  | misfit hmisfit =>
      cases hmisfit with
      | native hop hn hanswers => exact .native hread hop hn hanswers
      | _ => cases hy
  | _ => cases hy

/-! ### Runs -/

namespace Machine

variable {natives : Array Native} {limits : Limits}

/-- Every map that agrees with the block of a frame, as an invariant. Nothing is asked of frames
that execute other blocks. -/
def heights (natives : Array Native) (limits : Limits) : Invariant natives limits where
  running f := ∀ h : HeightMap, h.Agrees f.code → h.Follows 0 f
  suspended f := ∀ h : HeightMap, h.Agrees f.code → h.Follows 1 f
  raising f := ∀ h : HeightMap, h.Agrees f.code → f.blocks = .empty
  left _ := True
  code _ := True
  store _ := True
  entered _ _ _ _ hagrees := ⟨rfl, hagrees.entry⟩
  proceeds hf hi he h hagrees := by
    rw [he.code_eq] at hagrees
    exact (hf h hagrees).proceeds hagrees hi he
  calls hf hi he h hagrees := by
    rw [he.code_eq] at hagrees
    exact (hf h hagrees).calls hagrees hi he
  interrupted hf hi he h hagrees := by
    rw [he.code_eq] at hagrees
    cases he
    exact (hf h hagrees).blocks
  returned hf hpush h hagrees := by
    rw [Frame.code_of_push hpush] at hagrees
    exact (hf h hagrees).returned hpush
  reached hf h hagrees := (hf h hagrees).blocks
  delivered hf hr hpush h hagrees := by
    rw [Frame.code_of_push hpush, Frame.code_restored hr] at hagrees
    exact absurd hr (Frame.takeHandler_ne_some (hf h hagrees))
  left_of_running _ := trivial
  left_of_raising _ := trivial
  left_of_faulted _ _ _ := trivial
  left_of_restored _ _ := trivial
  stored _ _ := trivial
  stored_of_interrupted _ _ := trivial
  callable _ _ := trivial

theorem ends_of_cause {y : Fault} {frames : Stack Frame}
    (hcause : (heights natives limits).Cause y frames) (hy : y.ofOperands) :
    ∃ f below, frames = Stack.push below f ∧
      ∀ h : HeightMap, h.Agrees f.code → h.Ends natives f y := by
  cases hcause with
  | stackLimit => cases hy
  | blockLimit => cases hy
  | decoding _ _ hdecode =>
      rcases Instruction.decodeAt_eq_error hdecode with rfl | ⟨_, rfl⟩ <;> cases hy
  | @instruction f g below i _ hf hi hfault =>
      refine ⟨g, below, rfl, fun h hagrees => ?_⟩
      rw [hfault.code_eq] at hagrees
      exact (hf h hagrees).ends hagrees hi hfault hy
  | @returning f below v _ hf hpush =>
      exact ⟨f, below, rfl, fun h hagrees => absurd hpush ((hf h hagrees).push_ne_error hagrees)⟩
  | @delivering f g below r v _ hf hr hpush =>
      refine ⟨g.restored r, below, rfl, fun h hagrees => ?_⟩
      rw [Frame.code_restored hr] at hagrees
      exact absurd hr (Frame.takeHandler_ne_some (hf h hagrees))

/-- Along straight code, the operand heights that the assembler reports are those of every run. When
a frame that executes the finished block comes to an instruction, the instruction has been added by
a call, and its operands are as many as were reported at its offset. If the run ends in such a frame
for want of operands or of room for them, then operands were missing at an instruction that takes
more of them than were reported before it, unless the fault is the answer of a native. The code is
one that a machine word can measure, as the heights are counted in such words. -/
theorem reported_heights (name filename : String) (debugInfo : Bool) (steps : List Directive)
    (b : CodeBlock) (m : Machine) (code : CodeBlock) (scope : ScopeId)
    (hstraight : ∀ c ∈ (Assembler.fresh name filename debugInfo).calls steps, c.Straight)
    (hbuild : ((Assembler.fresh name filename debugInfo).afterAll steps).build = .ok b)
    (hsize : b.code.size < UInt64.size) :
    let calls := (Assembler.fresh name filename debugInfo).calls steps
    (∀ n f below, m.Visits code scope (.running n) → n.frames = Stack.push below f → f.code = b →
      (∀ c ∈ calls, c.offset = f.pc → c.before.depth = f.sp) ∧
      (f.pc < b.code.size → ∃ c ∈ calls, c.emits ∧ c.offset = f.pc)) ∧
    ∀ y trace left, m.Visits code scope (.finished (.fault y trace) left) → y.ofOperands →
      ∃ f below, left.frames = Stack.push below f ∧ (f.code = b →
        ∃ i, Instruction.decodeAt b.code f.lastOffset = .ok i ∧
          (y = .stackExhausted ∧ (∃ c ∈ calls, c.emits ∧ c.offset = f.lastOffset ∧
              c.before.depth < i.takes) ∨
            i.opcode = .call ∧ ∃ n ∈ m.natives, n.Answers y)) := by
  intro calls
  have hadvances (c : Call) (hc : c ∈ calls) : c.Advances := .of_straight (hstraight c hc)
  have hagrees := Assembler.agrees_of_build hstraight hbuild hsize
  have hcode := Assembler.size_build hbuild
  have hholds {p : Progress} (h : m.Visits code scope p) :
      (heights m.natives m.limits).Holds p :=
    (heights m.natives m.limits).holds_of_visits trivial trivial h
  refine ⟨?_, ?_⟩
  · rintro n f below hvisit hstack rfl
    obtain ⟨-, f', below', hstack', hf, -⟩ := hholds hvisit
    rw [hstack] at hstack'
    obtain ⟨-, rfl⟩ := Stack.push_inj.mp hstack'
    have hheight := (hf _ hagrees).height
    refine ⟨fun c hc hoffset => ?_, fun hinside => ?_⟩
    · have hreported := Assembler.heightAt_offset hadvances hc
      rw [hoffset, hheight] at hreported
      exact (Option.some.inj hreported).symm
    · obtain ⟨c, hc, hemits, hoffset, -⟩ :=
        Assembler.exists_call_of_heightAt hadvances hheight (hcode ▸ hinside)
      exact ⟨c, hc, hemits, hoffset⟩
  · intro y trace left hvisit hy
    obtain ⟨f, below, hstack, hends⟩ := ends_of_cause ((hholds hvisit).2.2 _ _ rfl) hy
    refine ⟨f, below, hstack, ?_⟩
    rintro rfl
    cases hends _ hagrees with
    | native hi hop hn hanswers => exact ⟨_, hi, .inr ⟨hop, _, hn, hanswers⟩⟩
    | exhausted hheight hi hlow =>
        obtain ⟨c, hc, hemits, hoffset, rfl⟩ := Assembler.exists_call_of_heightAt hadvances hheight
          (hcode ▸ Instruction.lt_size_of_decodeAt hi)
        exact ⟨_, hi, .inl ⟨rfl, c, hc, hemits, hoffset, hlow⟩⟩

/-- Two operands are reported before an array of three. -/
theorem reported_heights_makeArray :
    let steps : List Directive :=
      [.emitArg .makeArray 0, .emit .dupTop, .emitArg .makeArray 3]
    let b : CodeBlock := {
      name := "array", filename := "", code := #[0x40, 0, 0, 0x02, 0x40, 0, 3],
      constants := #[], names := #[], locals := #[], maxStack := 2, maxBlocks := 0 }
    ((Assembler.fresh "array" "" true).afterAll steps).build = .ok b ∧
      ∀ n f below, ({} : Machine).Visits b 0 (.running n) → n.frames = Stack.push below f →
        f.code = b → f.pc = 4 → f.sp = 2 := by
  intro steps b
  have hstraight : ∀ c ∈ (Assembler.fresh "array" "" true).calls steps, c.Straight := by
    simp only [steps, Assembler.calls, List.forall_mem_cons]
    refine ⟨⟨rfl, ?_⟩, ⟨rfl, ?_⟩, ⟨rfl, ?_⟩, by simp⟩
    all_goals
      rintro - o ho
      cases ho
      rfl
  have hbuild : ((Assembler.fresh "array" "" true).afterAll steps).build = .ok b := rfl
  refine ⟨hbuild, fun n f below hvisit hstack hcode hpc => ?_⟩
  have hheights := (reported_heights "array" "" true steps b {} b 0 hstraight hbuild (by decide)).1
  have hthird : (⟨_, .emitArg .makeArray 3⟩ : Call) ∈
      (Assembler.fresh "array" "" true).calls steps := .tail _ (.tail _ (.head _))
  exact ((hheights n f below hvisit hstack hcode).1 _ hthird hpc.symm).symm

end Machine

end ScriptMachine
