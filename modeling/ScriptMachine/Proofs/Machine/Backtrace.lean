import ScriptMachine.Proofs.Machine.Lexical

/-! What the backtrace of a failed run tells. It names the frames that were active when the run
failed: the innermost one with the instruction that has failed, and every other one with the call
that has made the frame above it. -/

namespace ScriptMachine

/-- The backtrace with which a run has ended, unless it has ended with a value. -/
def Outcome.trace? : Outcome → Option Backtrace
  | .value _ => none
  | .exception _ trace | .fault _ trace => some trace

namespace Machine

variable {m n k n₁ left : Machine} {code c : CodeBlock} {scope : ScopeId} {below rest : Stack Frame}
  {above : List Frame} {f g g' h : Frame} {o : Outcome} {trace : Backtrace}

/-! ### The code of a frame -/

theorem Moves.code_eq (h : n.Moves below g g') : g'.code = g.code := by
  cases h with
  | waited => rfl
  | returned hput => rw [(Frame.push_eq_ok_iff.mp hput).2, Frame.code_exchange]
  | executed _ _ hexecute => exact (Instruction.execute_ok rfl hexecute).code_eq
  | caught _ hfrom =>
      rcases hfrom with rfl | ⟨i, t, -, -, hexecute⟩
      · rfl
      · exact (Instruction.execute_error rfl hexecute).code_eq

/-- A frame that is not left runs the same code all the time. -/
theorem Stays.exists_frame (hframes : n₁.frames = below.push f)
    (hstays : n₁.Stays (below.height < ·.frames.height) k) :
    ∃ g above, k.frames = (below.push g).pushAll above ∧ g.code = f.code := by
  induction hstays with
  | start => exact ⟨f, [], hframes, rfl⟩
  | step _ hstep hheight ih =>
      obtain ⟨g, above, hg, hcode⟩ := ih
      obtain ⟨g', above', hg', hmoves⟩ := moves_of_step hg hstep hheight
      exact ⟨g', above', hg', hmoves.code_eq.trans hcode⟩

/-! ### Frames that wait -/

/-- In `k` the frame `g`, on top of the frames `rest`, waits for the call at its last offset: this
call has made a frame for the code `c`, which has been above `g` since then. -/
inductive Awaits (m : Machine) (code : CodeBlock) (scope : ScopeId) (k : Machine)
    (rest : Stack Frame) (g : Frame) (c : CodeBlock) : Prop where
  | called {n n₁ : Machine} {f : Frame} {i : Instruction} {e : ScopeId}
      (hvisit : m.Visits code scope (.running n)) (hframes : n.frames = rest.push f)
      (hi : f.Fetches i) (hop : i.opcode = .call) (hcode : f.code = g.code)
      (hoffset : i.offset = g.lastOffset) (hstep : n.step = .running n₁)
      (hcalled : n₁.frames = (rest.push g).push { code := c, scope := e })
      (hstays : n₁.Stays (rest.height + 1 < ·.frames.height) k)

/-- Every frame but the innermost one waits for the call that has made the frame above it. -/
theorem awaits_of_visits (hvisit : m.Visits code scope (.running k))
    (hframes : k.frames = ((rest.push g).push h).pushAll above) :
    m.Awaits code scope k rest g h.code := by
  have hdepth : rest.height + 1 < k.frames.height := by
    rw [hframes, Stack.height_pushAll, Stack.height_push, Stack.height_push]
    omega
  -- the frame above `g` has come into being with a call, and `g` has waited since then
  obtain ⟨below, f, old, outer, n₁, hbegins, hheight, hstays⟩ := exists_begins hvisit hdepth
  cases hbegins with
  | start =>
      rw [Stack.height_empty] at hheight
      cases hheight
  | @called n _ a f rest' _ i operands callee _ hcaller hn hi hop hstack hhome hstep hn₁ =>
      have hscript : (∃ r, callee = .function r) ∨ ∃ id, callee = .code id := by
        cases callee with
        | function r => exact .inl ⟨r, rfl⟩
        | code id => exact .inr ⟨id, rfl⟩
        | _ => cases hhome
      obtain ⟨c, e, hcalled⟩ := frames_of_call hn hi hop hstack hscript hstep
      obtain ⟨rfl, rfl⟩ := Stack.push_inj.mp (hn₁.symm.trans hcalled)
      obtain ⟨h', above', hk, rfl : h'.code = c⟩ := hstays.exists_frame hn₁
      obtain ⟨hbelow, rfl, -⟩ := Stack.push_pushAll_inj (hk.symm.trans hframes)
        (by rw [hheight, Stack.height_push])
      obtain ⟨rfl, rfl⟩ := Stack.push_inj.mp hbelow
      rw [Stack.height_push] at hstays
      exact .called hcaller hn hi hop rfl (Instruction.decodeAt_eq_ok_iff.mp hi).1 hstep
        hcalled hstays

/-! ### The end of a run -/

theorem limits_of_visits {p : Progress} (h : m.Visits code scope p) :
    p.machine.limits = m.limits := by
  have hholds := (bounds m.natives m.limits).holds_of_visits trivial trivial h
  cases p <;> exact hholds.1.limits_eq

/-- An exception ends a run only with the trace of the machine that has raised it: no frame that
waits for a call runs out of room for it. -/
theorem Delivers.trace?_eq {z : Exception} (hz : n.Delivers z (.finished o left))
    (hframes : n.frames = below.push f) (hwaiting : ∀ g ∈ below.toList, g.sp < g.code.maxStack) :
    o.trace? = some n.trace := by
  cases hz with
  | panicked | escaped => rfl
  | @overflowed f' below' above r outer log _ hreached _ _ hfull =>
      rw [hframes] at hreached
      cases above with
      | nil =>
          -- no frame has been left, so the trace after the search is the one before it
          obtain ⟨rfl, rfl⟩ := Stack.push_inj.mp hreached
          rw [trace, hframes]
          rfl
      | cons d above =>
          rw [Stack.pushAll_cons] at hreached
          obtain ⟨rfl, -⟩ := Stack.push_inj.mp hreached
          have hroom := hwaiting f' (by simp)
          have hle : (f'.stack.lowest r.sp).height ≤ f'.sp := f'.sp_truncate_le r.sp
          omega

theorem trace?_of_interrupt {r : Interrupt} (hend : n.interrupt r = .finished o left)
    (hframes : n.frames = below.push f) (hwaiting : ∀ g ∈ below.toList, g.sp < g.code.maxStack) :
    o.trace? = some n.trace := by
  cases r with
  | fault y =>
      cases hend
      rfl
  | raised z =>
      have hdelivers := n.delivers_raise z
      rw [interrupt] at hend
      rw [hend] at hdelivers
      exact hdelivers.trace?_eq hframes hwaiting

theorem trace?_of_start (h : m.start code scope = .finished o left) : o.trace? = some [] := by
  rw [Machine.start, enter] at h
  split at h
  · rename_i r hrefused
    rcases refusal?_eq_some hrefused with ⟨message, rfl⟩ | ⟨y, rfl⟩ <;> cases h <;> rfl
  · cases h

/-- Only too deep a recursion is refused with an exception. -/
theorem refusal?_eq_raised {z : Exception} (h : m.refusal? c = some (.raised z)) :
    m.limits.maxRecursionDepth ≤ m.frames.height ∧
      z = .panic s!"maximum recursion depth exceeded ({m.limits.maxRecursionDepth})" := by
  rw [refusal?] at h
  split at h
  · rename_i hdepth
    cases h
    exact ⟨hdepth, rfl⟩
  split at h
  · cases h
  split at h <;> cases h

/-! ### Backtraces -/

/-- How a run fails, and what the trace then tells. -/
inductive Fails (m : Machine) (code : CodeBlock) (scope : ScopeId) :
    Outcome → Backtrace → Prop where
  /-- The limits do not even admit a first frame. -/
  | refused {o : Outcome} {left : Machine} (hstart : m.start code scope = .finished o left) :
      Fails m code scope o []
  /-- The innermost frame has come to a place that cannot be read. -/
  | unread {n : Machine} {f : Frame} {below : Stack Frame} {y : Fault}
      (hvisit : m.Visits code scope (.running n)) (hframes : n.frames = below.push f)
      (hread : Instruction.decodeAt f.code.code f.pc = .error y) :
      Fails m code scope (.fault y n.trace) n.trace
  /-- The instruction `i` of the innermost frame has failed. If that was a call that would have
  entered more code, an exception is the panic about too many frames, and its trace has as many
  entries as there may be frames. -/
  | executed {n left : Machine} {f : Frame} {below : Stack Frame} {i : Instruction} {o : Outcome}
      (hvisit : m.Visits code scope (.running n)) (hframes : n.frames = below.push f)
      (hi : f.Fetches i) (hend : n.step = .finished o left)
      (hwaits : ∀ rest g h above, n.frames = ((Stack.push rest g).push h).pushAll above →
        m.Awaits code scope n rest g h.code)
      (hdepth : ∀ c e a z t, i.execute n.natives ⟨f.fetched i, n.store⟩ = .ok (.enter c e) a →
        o = .exception z t →
          z = .panic s!"maximum recursion depth exceeded ({m.limits.maxRecursionDepth})" ∧
          t.length = m.limits.maxRecursionDepth) :
      Fails m code scope o
        (⟨f.code.name, f.code.filename, i.offset⟩ :: Backtrace.ofFrames below.toList)

/-- A trace has an entry for each frame. -/
theorem length_trace (n : Machine) : n.trace.length = n.frames.height := by
  rw [Machine.trace, Backtrace.ofFrames, List.length_map, Stack.height_eq]

/-- The trace when an instruction has failed in the innermost frame. -/
theorem trace_eq {i : Instruction} (hi : f.Fetches i) (hcode : g.code = f.code)
    (hoffset : g.lastOffset = f.pc) (hframes : n.frames = below.push g) :
    n.trace = ⟨f.code.name, f.code.filename, i.offset⟩ :: Backtrace.ofFrames below.toList := by
  rw [Machine.trace, hframes, Stack.toList_push, Backtrace.ofFrames, List.map_cons, hcode, hoffset,
    (Instruction.decodeAt_eq_ok_iff.mp hi).1]
  rfl

/-- How a run fails in an instruction that is interrupted once the frame has changed to `g`. -/
theorem fails_of_interrupt {i : Instruction} {t : Store} {r : Interrupt}
    (hvisit : m.Visits code scope (.running n)) (hframes : n.frames = below.push f)
    (hi : f.Fetches i) (hcode : g.code = f.code) (hoffset : g.lastOffset = f.pc)
    (hwaiting : ∀ g ∈ below.toList, g.sp < g.code.maxStack) (hend : n.step = .finished o left)
    (hinterrupt : { n with store := t, frames := below.push g }.interrupt r = .finished o left)
    (htrace : o.trace? = some trace)
    (hdepth : ∀ c e a z t, i.execute n.natives ⟨f.fetched i, n.store⟩ = .ok (.enter c e) a →
      o = .exception z t →
        z = .panic s!"maximum recursion depth exceeded ({m.limits.maxRecursionDepth})" ∧
        t.length = m.limits.maxRecursionDepth) :
    m.Fails code scope o trace := by
  cases htrace.symm.trans (trace?_of_interrupt hinterrupt rfl hwaiting)
  rw [trace_eq hi hcode hoffset rfl]
  exact .executed hvisit hframes hi hend (fun _ _ _ _ => awaits_of_visits hvisit) hdepth

/-- A step that ends a run other than with a value fails as said. -/
theorem fails_of_step (hvisit : m.Visits code scope (.running n))
    (hend : n.step = .finished o left) (htrace : o.trace? = some trace) :
    m.Fails code scope o trace := by
  have hholds := (bounds m.natives m.limits).holds_of_visits trivial trivial hvisit
  have hbounded : n.Bounded m.limits := .of_holds hholds
  have hlimits : n.limits = m.limits := limits_of_visits hvisit
  have hwaiting {f : Frame} {below : Stack Frame} (hframes : n.frames = below.push f) :
      ∀ g ∈ below.toList, g.sp < g.code.maxStack := by
    have hwaiting := hbounded.waiting
    rwa [hframes, Stack.toList_push, List.tail_cons] at hwaiting
  have hattempts := n.attempts_attempt
  have hsettle := hend
  rw [step_eq_settle] at hsettle
  generalize n.attempt = x at hattempts hsettle
  cases hattempts with
  | idle hnone =>
      obtain ⟨f, below, hframes, -⟩ := hholds.2
      rw [hframes] at hnone
      exact absurd hnone.symm (Stack.empty_ne_push _ _)
  | unread hframes hread =>
      cases hsettle
      cases htrace
      exact .unread hvisit hframes hread
  | proceeded | entered | resumed => cases hsettle
  | returned =>
      cases hsettle
      cases htrace
  | @refused f g below i t c e r hframes hi hexecute hrefused =>
      have heffect := Instruction.execute_ok rfl hexecute
      have hoffset : g.lastOffset = f.pc := by cases heffect; rfl
      refine fails_of_interrupt hvisit hframes hi heffect.code_eq hoffset (hwaiting hframes) hend
        hsettle htrace ?_
      rintro c' e' a z t' - rfl
      cases r with
      | fault y => cases hsettle
      | raised z' =>
          obtain ⟨hdepth, rfl⟩ := refusal?_eq_raised hrefused
          rw [← hlimits]
          cases hsettle
          -- the caller is on top again, so there are as many frames as before
          refine ⟨rfl, (length_trace _).trans (Nat.le_antisymm ?_ hdepth)⟩
          rw [Stack.height_push, ← Stack.height_push below f, ← hframes, hlimits]
          exact hbounded.depth
  | @interrupted f g below i t r hframes hi hexecute =>
      have hinterrupted := Instruction.execute_error rfl hexecute
      refine fails_of_interrupt hvisit hframes hi hinterrupted.code_eq hinterrupted.lastOffset_eq
        (hwaiting hframes) hend hsettle htrace ?_
      intro c e a z t' hok
      rw [hexecute] at hok
      cases hok
  | @overflowed f caller rest v y log hframes _ hput =>
      have hroom := hwaiting hframes caller (by simp)
      exact absurd hroom (Nat.not_lt.mpr (Frame.push_eq_error_iff.mp hput).1)

/-- The backtrace of a failed run tells the truth. It has an entry for each frame that was active,
the innermost first. The innermost entry is about the instruction that has failed, and each other
one about the very call that has made the frame above. -/
theorem fails_of_runIn {budget : Nat} (hrun : m.runIn budget code scope = some (o, left))
    (htrace : o.trace? = some trace) : m.Fails code scope o trace := by
  obtain ⟨k, hvisit, -⟩ := exists_runIn_eq_some_iff.mp ⟨budget, hrun⟩
  generalize hp : Progress.finished o k = p at hvisit
  cases hvisit with
  | start =>
      cases htrace.symm.trans (trace?_of_start hp.symm)
      exact .refused hp.symm
  | step hvisit => exact fails_of_step hvisit hp.symm htrace

/-- A text that is thrown in a block that another one has called. -/
theorem fails_throw :
    let callee : CodeBlock := { (default : CodeBlock) with
      name := "inner", filename := "in.az", constants := #[.string "no"], maxStack := 1
      code := #[Opcode.noop.byte, Opcode.loadConst.byte, 0, 0, Opcode.throw.byte] }
    let caller : CodeBlock := { (default : CodeBlock) with
      name := "outer", filename := "out.az", constants := #[.code 0], maxStack := 1
      code := #[Opcode.loadConst.byte, 0, 0, Opcode.call.byte, 0, 0] }
    let m : Machine := { store := { blocks := #[callee] } }
    let trace : Backtrace := [⟨"inner", "in.az", 4⟩, ⟨"outer", "out.az", 3⟩]
    ∃ budget left, m.runIn budget caller 0 = some (.exception (.thrown "no") trace, left) ∧
      m.Fails caller 0 (.exception (.thrown "no") trace) trace := by
  intro callee caller m trace
  let f : Frame := { code := caller, scope := 0 }
  let h : Frame := { code := callee, scope := 0 }
  have hstart : m.Visits caller 0 (.running { m with
      frames := Stack.empty.push f, log := #[.framePushed "outer" 1] }) := .start
  have hload : f.Fetches ⟨0, .loadConst, .short 0⟩ :=
    Instruction.decodeAt_eq_ok_iff.mpr ⟨rfl, rfl, by decide⟩
  have hcall : { f with stack := Stack.empty.push (.code 0), pc := 3 }.Fetches
      ⟨3, .call, .short 0⟩ :=
    Instruction.decodeAt_eq_ok_iff.mpr ⟨rfl, rfl, by decide⟩
  have hnoop : h.Fetches ⟨0, .noop, .none⟩ :=
    Instruction.decodeAt_eq_ok_iff.mpr ⟨rfl, rfl, by decide⟩
  have hload' : { h with pc := 1 }.Fetches ⟨1, .loadConst, .short 0⟩ :=
    Instruction.decodeAt_eq_ok_iff.mpr ⟨rfl, rfl, by decide⟩
  have hthrow : { h with
      stack := Stack.empty.push (.string "no"), pc := 4, lastOffset := 1 }.Fetches
      ⟨4, .throw, .none⟩ :=
    Instruction.decodeAt_eq_ok_iff.mpr ⟨rfl, rfl, by decide⟩
  have hloaded := hstart.executed rfl hload
  have hcalled := hloaded.executed rfl hcall
  have hentered := hcalled.executed rfl hnoop
  have hloaded' := hentered.executed rfl hload'
  obtain ⟨steps, hrun⟩ := Visits.exists_runIn (hloaded'.executed rfl hthrow)
  exact ⟨_, _, hrun 0, fails_of_runIn (hrun 0) rfl⟩

end Machine

end ScriptMachine
