import ScriptMachine.Proofs.Machine.Backtrace

/-! What the events of a run tell. Frames are entered and left like brackets, and every exception,
panic and fault is told in the step in which it occurs. -/

namespace ScriptMachine

/-! ### Frames as the events tell them -/

namespace Event

/-- What an event makes of the names of the active frames, the innermost first. No answer if the
event does not fit these frames. -/
def shift (active : List String) : Event → Option (List String)
  | .framePushed name depth => if depth = active.length + 1 then some (name :: active) else none
  | .framePopped name depth =>
    match active with
    | [] => none
    | top :: rest => if name = top ∧ depth = rest.length then some rest else none
  | .frameUnwound name =>
    match active with
    | [] => none
    | top :: rest => if name = top then some rest else none
  | _ => some active

/-- The names of the frames that have been entered and not left, the last one first. No answer if
some frame is left that is not the last one entered, or if a depth is wrong. -/
def unmatched (events : List Event) : Option (List String) :=
  events.foldlM shift []

/-- Events after which a run does not go on. -/
def concludes : Event → Bool
  | .escaped _ | .panicked _ | .aborted .. => true
  | _ => false

/-- Frames that are left one after the other, from the innermost one. -/
theorem foldlM_frameUnwound (left rest : List String) :
    (left.map .frameUnwound).foldlM shift (left ++ rest) = some rest := by
  induction left with
  | nil => rfl
  | cons name left ih =>
      rw [List.map_cons, List.foldlM_cons, List.cons_append, shift, if_pos rfl]
      exact ih

/-- An exception is raised and passes frames, from the innermost one. -/
def passing (message : String) (left : List String) : List Event :=
  .raised message :: left.map .frameUnwound

theorem foldlM_passing (message : String) (left rest : List String) (after : List Event) :
    (passing message left ++ after).foldlM shift (left ++ rest) = after.foldlM shift rest := by
  rw [List.foldlM_append, passing, List.foldlM_cons]
  simp only [shift, Option.bind_eq_bind, Option.bind_some, foldlM_frameUnwound]

theorem concludes_of_mem_passing {message : String} {left : List String} {e : Event}
    (h : e ∈ passing message left) : e.concludes = false := by
  simp only [passing, List.mem_cons, List.mem_map] at h
  rcases h with rfl | ⟨name, -, rfl⟩ <;> rfl

end Event

/-! ### What a step tells -/

/-- The interrupt that is still to be dealt with. -/
def Attempt.interrupt? : Attempt → Option Interrupt
  | .running _ | .returned .. => none
  | .interrupted e _ => some e

namespace Machine

/-- The names of the active frames, the innermost first. -/
def names (m : Machine) : List String :=
  m.frames.toList.map (·.code.name)

/-- What a step tells, by the interrupt of its instruction and by what the step leads to. -/
inductive Tells : Option Interrupt → Progress → List Event → Prop where
  | silent {m : Machine} : Tells none (.running m) []
  | entered {m : Machine} (name : String) (depth : Nat) :
      Tells none (.running m) [.framePushed name depth]
  | left {m : Machine} (name : String) (depth : Nat) :
      Tells none (.running m) [.framePopped name depth]
  | ended {v : Value} {m : Machine} (name : String) (depth : Nat) :
      Tells none (.finished (.value v) m) [.framePopped name depth]
  /-- The exception passes the frames `left` and is received by a handler. -/
  | caught {z : Exception} {m : Machine} (left : List String) (entry : Nat) :
      z.catchable = true → Tells (some (.raised z)) (.running m)
        (Event.passing z.message left ++ [.caught z.message entry])
  /-- The handler has no room for the exception. -/
  | overflowed {z : Exception} {y : Fault} {trace : Backtrace} {m : Machine}
      (left : List String) (entry : Nat) :
      z.catchable = true → Tells (some (.raised z)) (.finished (.fault y trace) m)
        (Event.passing z.message left ++
          [.caught z.message entry, .aborted y trace.length])
  | escaped {z : Exception} {trace : Backtrace} {m : Machine} (left : List String) :
      z.catchable = true → Tells (some (.raised z)) (.finished (.exception z trace) m)
        (Event.passing z.message left ++ [.escaped z.message])
  | panicked {z : Exception} {trace : Backtrace} {m : Machine} :
      z.catchable = false → Tells (some (.raised z)) (.finished (.exception z trace) m)
        [.panicked z.message]
  | aborted {y : Fault} {trace : Backtrace} {m : Machine} :
      Tells (some (.fault y)) (.finished (.fault y trace) m) [.aborted y trace.length]

end Machine

namespace Progress

/-- The event that tells how a run ends, unless it goes on or ends with a value. -/
def verdict? : Progress → Option Event
  | .running _ | .finished (.value _) _ => none
  | .finished (.exception z _) _ =>
    some (if z.catchable then .escaped z.message else .panicked z.message)
  | .finished (.fault y trace) _ => some (.aborted y trace.length)

/-- The names of the frames that have not been left: all that are active, as long as the run goes
on; those of the trace after a panic or a fault; none after a value or another exception. -/
def unleft : Progress → List String
  | .running m => m.names
  | .finished (.value _) _ => []
  | .finished (.exception z trace) _ => if z.catchable then [] else trace.map (·.name)
  | .finished (.fault _ trace) _ => trace.map (·.name)

end Progress

namespace Machine

variable {m n : Machine} {p : Progress} {e : Option Interrupt} {events : List Event}
  {code : CodeBlock} {scope : ScopeId} {f : Frame} {below : Stack Frame}

/-- A step that ends a run tells so once, with its last event. -/
theorem Tells.verdict (h : Tells e p events) :
    ∃ before, events = before ++ p.verdict?.toList ∧ ∀ e ∈ before, e.concludes = false := by
  cases h with
  | silent => exact ⟨[], rfl, by simp⟩
  | entered | left | ended => exact ⟨_, (List.append_nil _).symm, by simp [Event.concludes]⟩
  | caught left entry hz =>
      refine ⟨_, (List.append_nil _).symm, fun e he => ?_⟩
      rcases List.mem_append.mp he with hpassing | hlast
      · exact Event.concludes_of_mem_passing hpassing
      · cases List.mem_singleton.mp hlast
        rfl
  | @overflowed z y trace m left entry hz =>
      refine ⟨Event.passing z.message left ++ [.caught z.message entry], ?_, fun e he => ?_⟩
      · simp [Progress.verdict?]
      rcases List.mem_append.mp he with hpassing | hlast
      · exact Event.concludes_of_mem_passing hpassing
      · cases List.mem_singleton.mp hlast
        rfl
  | @escaped z trace m left hz =>
      refine ⟨Event.passing z.message left, ?_, fun e => Event.concludes_of_mem_passing⟩
      simp [Progress.verdict?, hz]
  | panicked hz => exact ⟨[], by simp [Progress.verdict?, hz], by simp⟩
  | aborted => exact ⟨[], rfl, by simp⟩

/-- `events` is what a machine has reported on the way to `p`: it has done so as it should, and the
frames are those that the events tell. -/
structure Reports (m : Machine) (e : Option Interrupt) (p : Progress) (events : List Event) :
    Prop where
  log_eq : p.machine.log.toList = m.log.toList ++ events
  tells : Tells e p events
  shifts : events.foldlM Event.shift m.names = some p.unleft

theorem names_trace (m : Machine) : m.trace.map (·.name) = m.names := by
  simp [trace, names, Backtrace.ofFrames]

theorem names_push (hframes : m.frames = below.push f) :
    m.names = f.code.name :: below.toList.map (·.code.name) := by
  rw [names, hframes]
  rfl

/-! ### Interrupts -/

/-- A fault is told as such. -/
theorem reports_abort (m : Machine) (y : Fault) :
    m.Reports (some (.fault y)) (m.abort y) [.aborted y m.trace.length] := by
  have hdepth : m.trace.length = m.frames.height := length_trace m
  refine ⟨by simp [abort, report, Progress.machine, hdepth], .aborted, ?_⟩
  simp [Event.shift, abort, Progress.unleft, names_trace]

/-- A panic is told as such, and any other exception with what becomes of it. -/
theorem reports_raise (m : Machine) (z : Exception) :
    ∃ events, m.Reports (some (.raised z)) (m.raise z) events := by
  cases hz : z.catchable with
  | false =>
      have hpanic : z.isPanic = true := by simp [Exception.isPanic, hz]
      rw [raise, if_pos hpanic]
      refine ⟨_, by simp [report, Progress.machine], .panicked hz, ?_⟩
      simp [Event.shift, Progress.unleft, hz, names_trace]
  | true =>
      obtain ⟨log, hlog, hraise⟩ := m.raise_of_catchable hz
      rw [hraise]
      generalize hleft : (m.frames.toList.takeWhile (!·.catches)).map (·.code.name) = left at hlog
      change log.toList = m.log.toList ++ Event.passing z.message left at hlog
      have hnames :
          m.names = left ++ (m.frames.popWhile (!·.catches)).toList.map (·.code.name) := by
        rw [names, ← hleft, Stack.toList_popWhile, ← List.map_append,
          List.takeWhile_append_dropWhile]
      rcases (m.frames.popWhile (!·.catches)).eq_empty_or_push with hnone | ⟨f, below, hsome⟩
      · simp only [hnone, Stack.toList_empty, List.map_nil] at hnames
        simp only [hnone, Stack.pop?_empty]
        refine ⟨_, by simp [Progress.machine, hlog], .escaped left hz, ?_⟩
        rw [hnames, Event.foldlM_passing]
        simp [Event.shift, Progress.unleft, hz]
      · rw [hsome, Stack.toList_push, List.map_cons] at hnames
        have hcatches : f.catches := by simpa using Stack.not_of_popWhile_eq_push hsome
        obtain ⟨r, outer, hf⟩ := Frame.exists_handles_of_catches hcatches
        simp only [hsome, Stack.pop?_push]
        rw [deliver_eq hf]
        cases hpush : (f.resumed r outer).push (.exception z.markCaught) with
        | ok g =>
            have hcode : g.code = (f.resumed r outer).code := Frame.code_of_push hpush
            refine ⟨_, by simp [Progress.machine, hlog], .caught left r.entry hz, ?_⟩
            rw [hnames, Event.foldlM_passing]
            simp [Event.shift, Progress.unleft, names, hcode, Frame.resumed]
        | error y =>
            generalize hn : ({ m with
              frames := below.push (f.resumed r outer)
              log := log.push (.caught z.message r.entry) } : Machine) = n
            have habort := n.reports_abort y
            have hlast : n.log.toList = m.log.toList ++ (Event.passing z.message left ++
                [.caught z.message r.entry]) := by simp [← hn, hlog]
            have hactive : n.names = f.code.name :: below.toList.map (·.code.name) := by
              rw [← hn]
              rfl
            refine ⟨_, ?_, .overflowed left r.entry hz, ?_⟩
            · rw [habort.log_eq, hlast, List.append_assoc, List.append_assoc]
              rfl
            · rw [hnames, Event.foldlM_passing, List.foldlM_cons, ← hactive]
              exact habort.shifts

theorem reports_interrupt (m : Machine) (r : Interrupt) :
    ∃ events, m.Reports (some r) (m.interrupt r) events := by
  cases r with
  | raised z => exact m.reports_raise z
  | fault y => exact ⟨_, m.reports_abort y⟩

/-! ### Steps -/

/-- A report is about the log and the names of the frames only. -/
theorem Reports.congr (h : n.Reports e p events) (hlog : n.log = m.log)
    (hnames : n.names = m.names) : m.Reports e p events :=
  ⟨hlog ▸ h.log_eq, h.tells, hnames ▸ h.shifts⟩

theorem length_names (m : Machine) : m.names.length = m.frames.height := by
  rw [names, List.length_map, Stack.height_eq]

theorem reports_tryEnter (m : Machine) (code : CodeBlock) (scope : ScopeId) :
    ∃ events, m.Reports (m.tryEnter code scope).interrupt? (m.tryEnter code scope).settle
      events := by
  rw [tryEnter]
  split
  · exact m.reports_interrupt _
  · refine ⟨[.framePushed code.name (m.frames.height + 1)], ?_, .entered _ _, ?_⟩
    · simp [Attempt.settle, Progress.machine, report]
    · rw [← length_names]
      simp [Event.shift, Attempt.settle, Progress.unleft, names, report]

/-- A frame returns: the frame below, if there is one, has room for the value. -/
theorem reports_tryLeave (v : Value) (hframes : m.frames = below.push f)
    (hwaiting : ∀ g ∈ below.toList, g.sp < g.code.maxStack) :
    ∃ events, m.Reports (m.tryLeave v).interrupt? (m.tryLeave v).settle events := by
  have hnames := names_push hframes
  have hheight : below.height = (below.toList.map (·.code.name)).length := by
    rw [List.length_map, Stack.height_eq]
  simp only [tryLeave, hframes, Stack.pop?_push]
  rcases below.eq_empty_or_push with rfl | ⟨caller, rest, rfl⟩
  · refine ⟨_, by simp [Attempt.settle, Progress.machine, report], .ended f.code.name 0, ?_⟩
    rw [hnames]
    simp [Event.shift, Attempt.settle, Progress.unleft]
  · have hput : caller.push v = .ok { caller with stack := caller.stack.push v } :=
      if_pos (hwaiting caller (by simp))
    simp only [Stack.pop?_push, hput]
    refine ⟨[.framePopped f.code.name (rest.push caller).height], ?_, .left _ _, ?_⟩
    · simp [Attempt.settle, Progress.machine, report]
    · rw [hnames, hheight]
      simp [Event.shift, Attempt.settle, Progress.unleft, names]

/-- What a step reports, if the frames that wait for a call have room for its value. -/
theorem reports_step (n : Machine)
    (hwaiting : ∀ g ∈ n.frames.toList.tail, g.sp < g.code.maxStack) :
    ∃ events, n.Reports n.attempt.interrupt? n.step events := by
  rw [step_eq_settle]
  rcases n.frames.eq_empty_or_push with hnone | ⟨f, below, hframes⟩
  · simp only [attempt, hnone, Stack.pop?_empty]
    exact n.reports_interrupt _
  rw [hframes, Stack.toList_push, List.tail_cons] at hwaiting
  simp only [attempt, hframes, Stack.pop?_push]
  split
  · exact reports_tryLeave .null hframes hwaiting
  split
  · exact n.reports_interrupt _
  rename_i i hi
  -- the instruction changes neither the log nor the code that a frame runs
  have hsame {g : Frame} (t : Store) (hcode : g.code = f.code) :
      ({ n with store := t, frames := below.push g } : Machine).names = n.names := by
    rw [names_push hframes, names_push rfl, hcode]
  split
  · rename_i next g t hexecute
    have hcode : g.code = f.code := (Instruction.execute_ok rfl hexecute).code_eq
    suffices hreports : ∃ events,
        ({ n with store := t, frames := below.push g } : Machine).Reports _ _ events by
      obtain ⟨events, hevents⟩ := hreports
      exact ⟨events, hevents.congr rfl (hsame t hcode)⟩
    cases next with
    | proceed => exact ⟨[], by simp [tryFollow, Attempt.settle, Progress.machine], .silent, rfl⟩
    | enter c e => exact reports_tryEnter _ c e
    | leave v => exact reports_tryLeave v rfl hwaiting
  · rename_i r g t hexecute
    have hcode : g.code = f.code := (Instruction.execute_error rfl hexecute).code_eq
    obtain ⟨events, hevents⟩ :=
      ({ n with store := t, frames := below.push g } : Machine).reports_interrupt r
    exact ⟨events, hevents.congr rfl (hsame t hcode)⟩

/-! ### Runs -/

/-- The events of a run on the way to `p`: what its start has reported and then, one step after the
other, what each step has reported. All that is reported is as it should be. -/
inductive Chronicle (m : Machine) (code : CodeBlock) (scope : ScopeId) :
    Progress → List Event → Prop where
  | start {events : List Event} :
      (m.start code scope).machine.log.toList = m.log.toList ++ events →
      Tells ({ m with frames := .empty }.refusal? code) (m.start code scope) events →
      Chronicle m code scope (m.start code scope) events
  | step {n : Machine} {before events : List Event} :
      Chronicle m code scope (.running n) before →
      n.step.machine.log.toList = n.log.toList ++ events →
      Tells n.attempt.interrupt? n.step events →
      Chronicle m code scope n.step (before ++ events)

theorem interrupt?_tryEnter (m : Machine) (code : CodeBlock) (scope : ScopeId) :
    (m.tryEnter code scope).interrupt? = m.refusal? code := by
  rw [tryEnter]
  split
  · rename_i r hrefused
    rw [hrefused]
    rfl
  · rename_i hallowed
    rw [hallowed]
    rfl

/-- The events of a run tell what happens to its frames and to its exceptions. Each frame that is
left is the last one that has been entered and not left. After a value or an exception that has
escaped all frames have been left, after a panic or a fault all but those of the trace. Each step
tells of its exception, panic or fault, and the run tells once how it ends, with its last event. -/
theorem chronicle_of_visits (h : m.Visits code scope p) :
    ∃ events, p.machine.log.toList = m.log.toList ++ events ∧ m.Chronicle code scope p events ∧
      Event.unmatched events = some p.unleft ∧
      ∃ before, events = before ++ p.verdict?.toList ∧ ∀ e ∈ before, e.concludes = false := by
  induction h with
  | start =>
      obtain ⟨events, hevents⟩ :=
        ({ m with frames := .empty } : Machine).reports_tryEnter code scope
      rw [← enter_eq_settle, interrupt?_tryEnter] at hevents
      exact ⟨events, hevents.log_eq, .start hevents.log_eq hevents.tells, hevents.shifts,
        hevents.tells.verdict⟩
  | @step n hvisit ih =>
      obtain ⟨earlier, hlog, hchronicle, hunmatched, before, hbefore, hgoes⟩ := ih
      obtain rfl : earlier = before := by simpa [Progress.verdict?] using hbefore
      have hbounded := Bounded.of_holds
        ((bounds m.natives m.limits).holds_of_visits trivial trivial hvisit)
      obtain ⟨events, hevents⟩ := n.reports_step hbounded.waiting
      obtain ⟨last, hlast, hconcludes⟩ := hevents.tells.verdict
      refine ⟨earlier ++ events, ?_, hchronicle.step hevents.log_eq hevents.tells, ?_,
        earlier ++ last, ?_, ?_⟩
      · rw [hevents.log_eq, ← List.append_assoc, ← hlog]
        rfl
      · rw [Event.unmatched, List.foldlM_append]
        rw [Event.unmatched] at hunmatched
        rw [hunmatched]
        exact hevents.shifts
      · rw [hlast, List.append_assoc]
      · exact List.forall_mem_append.mpr ⟨hgoes, hconcludes⟩

/-- A text that is thrown in a block and caught in the one that has called it. -/
theorem chronicle_caught :
    let callee : CodeBlock := { (default : CodeBlock) with
      name := "inner", constants := #[.string "no"], maxStack := 1
      code := #[Opcode.loadConst.byte, 0, 0, Opcode.throw.byte] }
    let caller : CodeBlock := { (default : CodeBlock) with
      name := "outer", constants := #[.code 0], maxStack := 1, maxBlocks := 1
      code := #[Opcode.startTry.byte, 0, 9, Opcode.loadConst.byte, 0, 0, Opcode.call.byte, 0, 0] }
    let m : Machine := { store := { blocks := #[callee] } }
    let events : List Event := [.framePushed "outer" 1, .framePushed "inner" 2, .raised "no",
      .frameUnwound "inner", .caught "no" 9, .framePopped "outer" 0]
    ∃ left : Machine, m.Visits caller 0 (.finished (.value .null) left) ∧
      left.log.toList = events ∧ m.Chronicle caller 0 (.finished (.value .null) left) events ∧
      Event.unmatched events = some [] := by
  intro callee caller m events
  let f : Frame := { code := caller, scope := 0 }
  let h : Frame := { code := callee, scope := 0 }
  let b : Block := .handler 9 0 0
  have htry : f.Fetches ⟨0, .startTry, .short 9⟩ :=
    Instruction.decodeAt_eq_ok_iff.mpr ⟨rfl, rfl, by decide⟩
  have hload : { f with blocks := Stack.empty.push b, pc := 3 }.Fetches ⟨3, .loadConst, .short 0⟩ :=
    Instruction.decodeAt_eq_ok_iff.mpr ⟨rfl, rfl, by decide⟩
  have hcall : { f with
      stack := Stack.empty.push (.code 0), blocks := Stack.empty.push b, pc := 6 }.Fetches
      ⟨6, .call, .short 0⟩ :=
    Instruction.decodeAt_eq_ok_iff.mpr ⟨rfl, rfl, by decide⟩
  have hload' : h.Fetches ⟨0, .loadConst, .short 0⟩ :=
    Instruction.decodeAt_eq_ok_iff.mpr ⟨rfl, rfl, by decide⟩
  have hthrow : { h with stack := Stack.empty.push (.string "no"), pc := 3 }.Fetches
      ⟨3, .throw, .none⟩ :=
    Instruction.decodeAt_eq_ok_iff.mpr ⟨rfl, rfl, by decide⟩
  have hstart : m.Visits caller 0 (.running { m with
      frames := Stack.empty.push f, log := #[.framePushed "outer" 1] }) := .start
  have htried := hstart.executed rfl htry
  have hloaded := htried.executed rfl hload
  have hcalled := hloaded.executed rfl hcall
  have hloaded' := hcalled.executed rfl hload'
  have hcaught := hloaded'.executed rfl hthrow
  have hreturned := hcaught.step
  obtain ⟨events', hlog, hchronicle, hunmatched, -⟩ := chronicle_of_visits hreturned
  obtain rfl : events = events' := hlog
  exact ⟨_, hreturned, rfl, hchronicle, hunmatched⟩

end Machine

end ScriptMachine
