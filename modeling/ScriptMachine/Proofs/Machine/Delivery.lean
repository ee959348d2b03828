import ScriptMachine.Proofs.Machine.Attempt
import ScriptMachine.Proofs.Machine.Raised

/-! What becomes of an interrupt. A fault and a panic end the run where they occur. An exception
goes to the innermost frame with an open handler, which goes on as that handler says. -/

namespace ScriptMachine

/-! ### Handlers -/

namespace Frame

/-- The innermost open handler of a frame is `r`, and the blocks outside of it are `outer`. -/
def Handles (f : Frame) (r : Handler) (outer : Stack Block) : Prop :=
  ∃ inner, f.blocks = (outer.push (.handler r.entry r.sp r.scope)).pushAll inner ∧
    ∀ b ∈ inner, b.kind ≠ .handler

/-- The frame when a handler of its own has restored it: the blocks inside the handler and the
handler itself are closed. -/
def resumed (f : Frame) (r : Handler) (outer : Stack Block) : Frame :=
  { f with stack := f.stack.lowest r.sp, blocks := outer, scope := r.scope, pc := r.entry }

variable {f : Frame} {r : Handler} {outer : Stack Block}

theorem catches_iff : f.catches ↔ ∃ b ∈ f.blocks.toList, b.kind = .handler := by
  simp [catches]

theorem catches_of_handles (h : f.Handles r outer) : f.catches := by
  obtain ⟨inner, hblocks, -⟩ := h
  rw [catches_iff, hblocks]
  exact ⟨.handler r.entry r.sp r.scope, by simp, rfl⟩

theorem takeHandler_of_handles (h : f.Handles r outer) :
    f.takeHandler = (some r, { f with blocks := outer }) := by
  obtain ⟨inner, hblocks, hinner⟩ := h
  refine takeHandler_eq_some_iff.mpr ⟨outer, ?_, rfl⟩
  rw [expose, hblocks, Stack.popWhile_pushAll (by simpa using hinner),
    Stack.popWhile_push (by simp [Block.kind])]

theorem exists_handles_of_catches (h : f.catches) : ∃ r outer, f.Handles r outer := by
  obtain ⟨r, hr⟩ := Option.isSome_iff_exists.mp (takeHandler_isSome h)
  have htake : f.takeHandler = (some r, f.takeHandler.2) := by rw [← hr]
  obtain ⟨outer, hexpose, -⟩ := takeHandler_eq_some_iff.mp htake
  exact ⟨r, outer, exists_of_blocks_expose hexpose⟩

end Frame

/-! ### Exceptions -/

namespace Machine

/-- What an exception leads to that has been raised in a machine. -/
inductive Delivers (m : Machine) (z : Exception) : Progress → Prop where
  /-- A panic ends the run at once. -/
  | panicked (log : Array Event) : z.catchable = false →
      Delivers m z (.finished (.exception z m.trace) { m with log })
  /-- No frame has an open handler. -/
  | escaped (log : Array Event) : z.catchable = true → (∀ f ∈ m.frames.toList, ¬ f.catches) →
      Delivers m z (.finished (.exception z m.trace) { m with frames := .empty, log })
  /-- The frame `f` is the innermost one with an open handler, and it has room for one more
  operand. -/
  | caught {f : Frame} {below : Stack Frame} {above : List Frame} {r : Frame.Handler}
      {outer : Stack Block} (log : Array Event) : z.catchable = true →
      m.frames = (below.push f).pushAll above → (∀ g ∈ above, ¬ g.catches) → f.Handles r outer →
      (f.stack.lowest r.sp).height < f.code.maxStack →
      Delivers m z (.running { m with
        frames := below.push { f with
          stack := (f.stack.lowest r.sp).push (.exception { z with caught := true })
          blocks := outer
          scope := r.scope
          pc := r.entry }
        log })
  /-- The frame has no such room. -/
  | overflowed {f : Frame} {below : Stack Frame} {above : List Frame} {r : Frame.Handler}
      {outer : Stack Block} (log : Array Event) : z.catchable = true →
      m.frames = (below.push f).pushAll above → (∀ g ∈ above, ¬ g.catches) → f.Handles r outer →
      f.code.maxStack ≤ (f.stack.lowest r.sp).height →
      Delivers m z (.finished
        (.fault (.stackOverflow f.code.maxStack)
          (Backtrace.ofFrames (below.push (f.resumed r outer)).toList))
        { m with frames := below.push (f.resumed r outer), log })

variable {m : Machine} {f : Frame} {below : Stack Frame} {z : Exception}

/-- Delivering to a frame with an open handler is reported, whether there is room or not. -/
theorem deliver_eq {r : Frame.Handler} {outer : Stack Block} (hf : f.Handles r outer) :
    m.deliver z f = match (f.resumed r outer).push (.exception z.markCaught) with
      | .ok g => .running { m with
          frames := m.frames.push g, log := m.log.push (.caught z.message r.entry) }
      | .error y => { m with
          frames := m.frames.push (f.resumed r outer)
          log := m.log.push (.caught z.message r.entry) }.abort y := by
  rw [deliver, Frame.takeHandler_of_handles hf]
  have hresumed : { ({ f with blocks := outer } : Frame).truncate r.sp with
      scope := r.scope, pc := r.entry } = f.resumed r outer := rfl
  simp only [hresumed]
  cases (f.resumed r outer).push (.exception z.markCaught) <;> rfl

/-- Delivering to a frame with an open handler. -/
theorem deliver_of_handles {r : Frame.Handler} {outer : Stack Block} (hf : f.Handles r outer) :
    ∃ log, m.deliver z f = match (f.resumed r outer).push (.exception z.markCaught) with
      | .ok g => .running { m with frames := m.frames.push g, log }
      | .error y => .finished
          (.fault y (Backtrace.ofFrames (m.frames.push (f.resumed r outer)).toList))
          { m with frames := m.frames.push (f.resumed r outer), log } := by
  rw [deliver_eq hf]
  cases (f.resumed r outer).push (.exception z.markCaught) with
  | ok g => exact ⟨_, rfl⟩
  | error y => exact ⟨_, rfl⟩

/-- The frames that are left are reported, the innermost first. -/
theorem log_unwind (m : Machine) : m.unwind.log.toList = m.log.toList ++
    ((m.frames.toList.takeWhile (!·.catches)).map (·.code.name)).map .frameUnwound := by
  have hreport (l : List Frame) (n : Machine) :
      (l.foldl (fun m f => m.report (.frameUnwound f.code.name)) n).log.toList =
        n.log.toList ++ (l.map (·.code.name)).map .frameUnwound := by
    induction l generalizing n with
    | nil => simp
    | cons f rest ih =>
        rw [List.foldl_cons, ih]
        simp [report]
  exact hreport _ _

/-- Raising an exception that is not a panic: the frames without an open handler are left, which is
reported together with what becomes of the exception. -/
theorem raise_of_catchable (m : Machine) (hz : z.catchable = true) :
    ∃ log : Array Event, log.toList = m.log.toList ++ .raised z.message ::
        ((m.frames.toList.takeWhile (!·.catches)).map (·.code.name)).map .frameUnwound ∧
      m.raise z = match (m.frames.popWhile (!·.catches)).pop? with
        | none => .finished (.exception z m.trace)
            { m with frames := .empty, log := log.push (.escaped z.message) }
        | some (f, below) => { m with frames := below, log }.deliver z f := by
  obtain ⟨log, hunwind⟩ := Invariant.unwind_eq (m.report (.raised z.message))
  have hlog := log_unwind (m.report (.raised z.message))
  have hpanic : ¬ z.isPanic := by simp [Exception.isPanic, hz]
  rw [hunwind] at hlog
  refine ⟨log, by simpa [report] using hlog, ?_⟩
  rw [raise, if_neg hpanic, hunwind]
  simp only [report]
  rcases (m.frames.popWhile (!·.catches)).eq_empty_or_push with hnone | ⟨f, below, hsome⟩
  · simp only [hnone, Stack.pop?_empty]
    rfl
  · simp only [hsome, Stack.pop?_push]

/-- Raising an exception that is not a panic, whatever is reported of it. -/
theorem raise_eq (m : Machine) (hz : z.catchable = true) :
    ∃ log, m.raise z = match (m.frames.popWhile (!·.catches)).pop? with
      | none => .finished (.exception z m.trace) { m with frames := .empty, log }
      | some (f, below) => { m with frames := below, log }.deliver z f := by
  obtain ⟨log, -, hraise⟩ := m.raise_of_catchable hz
  rw [hraise]
  cases (m.frames.popWhile (!·.catches)).pop? with
  | none => exact ⟨_, rfl⟩
  | some top => exact ⟨log, rfl⟩

/-- Raising an exception leads to what it should lead to. -/
theorem delivers_raise (m : Machine) (z : Exception) : m.Delivers z (m.raise z) := by
  cases hz : z.catchable with
  | false =>
      have hpanic : z.isPanic = true := by simp [Exception.isPanic, hz]
      rw [raise, if_pos hpanic]
      exact .panicked _ hz
  | true =>
      obtain ⟨log, hraise⟩ := m.raise_eq hz
      obtain ⟨above, hframes, habove⟩ := m.frames.exists_eq_pushAll_popWhile (!·.catches)
      rw [hraise]
      rcases (m.frames.popWhile (!·.catches)).eq_empty_or_push with hnone | ⟨f, below, hsome⟩
      · simp only [hnone, Stack.pop?_empty]
        refine .escaped log hz ?_
        rw [hframes, hnone]
        simpa using habove
      · simp only [hsome, Stack.pop?_push]
        have hcatches : f.catches := by simpa using Stack.not_of_popWhile_eq_push hsome
        obtain ⟨r, outer, hf⟩ := Frame.exists_handles_of_catches hcatches
        rw [hsome] at hframes
        obtain ⟨log', hdeliver⟩ := deliver_of_handles (m := { m with frames := below, log }) hf
        rw [hdeliver]
        cases hpush : (f.resumed r outer).push (.exception z.markCaught) with
        | ok g =>
            obtain ⟨hroom, rfl⟩ := Frame.push_eq_ok_iff.mp hpush
            exact .caught log' hz hframes (by simpa using habove) hf hroom
        | error y =>
            obtain ⟨hfull, rfl⟩ := Frame.push_eq_error_iff.mp hpush
            exact .overflowed log' hz hframes (by simpa using habove) hf hfull

/-! ### Interrupted steps -/

/-- The instruction that has raised an exception has only taken operands off its frame. An
exception that a handler has received before comes from a native of the host. -/
theorem raised_of_attempt {left : Machine} (h : m.attempt = .interrupted (.raised z) left) :
    ∃ f below i j, m.frames = Stack.push below f ∧ f.Fetches i ∧ j ≤ i.takes ∧
      left.frames = below.push ((f.fetched i).exchange j []) ∧
      (z.caught = true → i.opcode = .call ∧
        ∃ n ∈ m.natives, n.Raises z ∧ ∀ output, n ∉ Prelude.natives output) := by
  have hattempts := m.attempts_attempt
  rw [h] at hattempts
  cases hattempts with
  | @refused f g below i t c e _ hframes hi hexecute hrefused =>
      cases Instruction.execute_ok rfl hexecute with
      | called hop htakes =>
          refine ⟨f, below, i, i.takes, hframes, hi, Nat.le_refl _, rfl, fun hcaught => ?_⟩
          rcases refusal?_eq_some hrefused with ⟨message, heq⟩ | ⟨y, heq⟩ <;> cases heq
          cases hcaught
  | @interrupted f g below i t _ hframes hi hexecute =>
      cases Instruction.execute_error rfl hexecute with
      | @raised _ j htakes hsp =>
          refine ⟨f, below, i, j, hframes, hi, htakes, rfl, fun hcaught => ?_⟩
          rcases Action.RaisesOnly.execute _ _ _ _ z hexecute with hnew | ⟨hop, n, hn, hraises⟩
          · rw [hnew] at hcaught
            cases hcaught
          refine ⟨hop, n, hn, hraises, fun output hprelude => ?_⟩
          obtain ⟨scope, args, s, t', hrun⟩ := hraises
          obtain ⟨z', hz, hnew⟩ := Prelude.raises_of_run hprelude hrun
          cases hz
          rw [hnew] at hcaught
          cases hcaught

/-- What becomes of the interrupt of a step, in any machine. A fault ends the run as it is. An
exception, of which the frames below know nothing yet, is delivered; a handler has received it
before only if a native of the host says so. -/
theorem delivers_of_attempt {left : Machine} {e : Interrupt}
    (h : m.attempt = .interrupted e left) :
    (∀ y, e = .fault y → ∃ log, m.step = .finished (.fault y left.trace) { left with log }) ∧
    ∀ z, e = .raised z → left.Delivers z m.step ∧
      ∃ f below i j, m.frames = Stack.push below f ∧ f.Fetches i ∧ j ≤ i.takes ∧
        left.frames = below.push ((f.fetched i).exchange j []) ∧
        (z.caught = true → i.opcode = .call ∧
          ∃ n ∈ m.natives, n.Raises z ∧ ∀ output, n ∉ Prelude.natives output) := by
  have hstep : m.step = left.interrupt e := by rw [step_eq_settle, h, Attempt.settle]
  constructor
  · rintro y rfl
    exact ⟨_, hstep⟩
  · rintro z rfl
    rw [hstep]
    exact ⟨left.delivers_raise z, raised_of_attempt h⟩

/-- A text that is thrown inside an open handler. -/
theorem delivers_throw :
    let f : Frame := {
      code := { (default : CodeBlock) with
        code := #[Opcode.throw.byte], maxStack := 1, maxBlocks := 1 }
      stack := Stack.empty.push (.string "no")
      blocks := Stack.empty.push (.handler 1 0 7)
      scope := 0 }
    let m : Machine := { frames := Stack.empty.push f }
    ∃ left, m.attempt = .interrupted (.raised (.thrown "no")) left ∧
      left.Delivers (.thrown "no") m.step := by
  intro f m
  have hi : f.Fetches ⟨0, .throw, .none⟩ :=
    Instruction.decodeAt_eq_ok_iff.mpr ⟨rfl, rfl, by decide⟩
  have hattempt : m.attempt = .interrupted (.raised (.thrown "no")) { m with
      frames := Stack.empty.push ((f.fetched ⟨0, .throw, .none⟩).exchange 1 []) } :=
    attempt_eq rfl hi
  exact ⟨_, hattempt, ((delivers_of_attempt hattempt).2 _ rfl).1⟩

end Machine

end ScriptMachine
