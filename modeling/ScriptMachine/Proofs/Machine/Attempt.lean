import ScriptMachine.Proofs.Code.Decode
import ScriptMachine.Proofs.Machine.Invariant

/-! A step in two halves: what the next instruction comes to, and how an interrupt is dealt with.
Everything that the first half may come to is listed once, with the frames that it leaves. -/

namespace ScriptMachine

/-- What the next instruction of a machine comes to. An interrupt is still to be dealt with, in the
machine that it has left. -/
inductive Attempt where
  | running (m : Machine)
  | returned (v : Value) (m : Machine)
  | interrupted (e : Interrupt) (m : Machine)

def Attempt.settle : Attempt → Progress
  | .running m => .running m
  | .returned v m => .finished (.value v) m
  | .interrupted e m => m.interrupt e

namespace Machine

/-! ### Steps -/

/-- Adds a frame, or is refused by the limits. -/
def tryEnter (m : Machine) (code : CodeBlock) (scope : ScopeId) : Attempt :=
  match m.refusal? code with
  | some e => .interrupted e m
  | none =>
    let m := m.report (.framePushed code.name (m.frames.height + 1))
    .running { m with frames := m.frames.push { code, scope } }

/-- Has the innermost frame return a value. -/
def tryLeave (m : Machine) (v : Value) : Attempt :=
  match m.frames.pop? with
  | none => .interrupted (.fault .noActiveFrame) m
  | some (done, rest) =>
    let m := { m with frames := rest }.report (.framePopped done.code.name rest.height)
    match rest.pop? with
    | none => .returned v m
    | some (caller, below) =>
      match caller.push v with
      | .ok caller => .running { m with frames := below.push caller }
      | .error y => .interrupted (.fault y) m

def tryFollow (m : Machine) : Next → Attempt
  | .proceed => .running m
  | .enter code scope => m.tryEnter code scope
  | .leave v => m.tryLeave v

/-- Too deep a recursion is refused with a panic, a block that asks for too much with a fault. -/
theorem refusal?_eq_some {m : Machine} {c : CodeBlock} {r : Interrupt}
    (h : m.refusal? c = some r) :
    (∃ message, r = .raised (.panic message)) ∨ ∃ y, r = .fault y := by
  rw [refusal?] at h
  split at h
  · cases h
    exact .inl ⟨_, rfl⟩
  split at h
  · cases h
    exact .inr ⟨_, rfl⟩
  split at h <;> cases h
  exact .inr ⟨_, rfl⟩

/-- Executes the next instruction of the innermost frame, without dealing with interrupts. -/
def attempt (m : Machine) : Attempt :=
  match m.frames.pop? with
  | none => .interrupted (.fault .noActiveFrame) m
  | some (f, below) =>
    if f.code.code.size ≤ f.pc then m.tryLeave .null
    else
      match Instruction.decodeAt f.code.code f.pc with
      | .error y => .interrupted (.fault y) m
      | .ok i =>
        match i.execute m.natives ⟨f.fetched i, m.store⟩ with
        | .ok next ⟨g, store⟩ => { m with store, frames := below.push g }.tryFollow next
        | .error e ⟨g, store⟩ => .interrupted e { m with store, frames := below.push g }

/-- An attempt at an instruction that can be read is its execution. -/
theorem attempt_eq {m : Machine} {f : Frame} {below : Stack Frame} {i : Instruction}
    (hframes : m.frames = below.push f) (hi : f.Fetches i) :
    m.attempt = match i.execute m.natives ⟨f.fetched i, m.store⟩ with
      | .ok next ⟨g, store⟩ => { m with store, frames := below.push g }.tryFollow next
      | .error e ⟨g, store⟩ => .interrupted e { m with store, frames := below.push g } := by
  have hinside : ¬ f.code.code.size ≤ f.pc := Nat.not_le.mpr (Instruction.lt_size_of_decodeAt hi)
  rw [Frame.Fetches] at hi
  simp only [attempt, hframes, Stack.pop?_push, if_neg hinside, hi]

theorem enter_eq_settle (m : Machine) (code : CodeBlock) (scope : ScopeId) :
    m.enter code scope = (m.tryEnter code scope).settle := by
  rw [enter, tryEnter]
  cases m.refusal? code <;> rfl

theorem leave_eq_settle (m : Machine) (v : Value) : m.leave v = (m.tryLeave v).settle := by
  rw [leave, tryLeave]
  rcases m.frames.pop? with _ | ⟨done, rest⟩
  · rfl
  simp only
  rcases rest.pop? with _ | ⟨caller, below⟩
  · rfl
  simp only
  cases caller.push v <;> rfl

/-- A step is an attempt whose interrupt, if there is one, has been dealt with. -/
theorem step_eq_settle (m : Machine) : m.step = m.attempt.settle := by
  rw [step, attempt]
  rcases m.frames.pop? with _ | ⟨f, below⟩
  · rfl
  simp only
  split
  · exact leave_eq_settle m .null
  cases Instruction.decodeAt f.code.code f.pc with
  | error y => rfl
  | ok i =>
      obtain ⟨store, natives, limits, frames, log⟩ := m
      simp only [advance, Frame.fetched]
      rcases i.execute natives ⟨_, store⟩ with ⟨next, ⟨g, t⟩⟩ | ⟨e, ⟨g, t⟩⟩
      · cases next with
        | proceed => rfl
        | enter code scope => exact enter_eq_settle _ code scope
        | leave v => exact leave_eq_settle ⟨t, natives, limits, below.push g, log⟩ v
      · rfl

/-- A run goes on with what the next instruction comes to. -/
theorem Visits.executed {m n : Machine} {code : CodeBlock} {scope : ScopeId} {f : Frame}
    {below : Stack Frame} {i : Instruction} (hvisit : m.Visits code scope (.running n))
    (hframes : n.frames = below.push f) (hi : f.Fetches i) :
    m.Visits code scope (Attempt.settle <| match i.execute n.natives ⟨f.fetched i, n.store⟩ with
      | .ok next ⟨g, store⟩ => { n with store, frames := below.push g }.tryFollow next
      | .error e ⟨g, store⟩ => .interrupted e { n with store, frames := below.push g }) := by
  have hstep := hvisit.step
  rwa [step_eq_settle, attempt_eq hframes hi] at hstep

end Machine

/-! ### What a step can do -/

/-- A frame is about to return a value: null at the end of its code, or the topmost operand. -/
def Frame.Returns (f : Frame) (v : Value) : Prop :=
  f.code.code.size ≤ f.pc ∧ v = .null ∨
    ∃ i rest, f.Fetches i ∧ i.opcode = .return_ ∧ f.stack = Stack.push rest v

theorem Instruction.returns_of_execute {natives : Array Native} {i : Instruction} {f g : Frame}
    {s t : Store} {v : Value} (h : i.execute natives ⟨f, s⟩ = .ok (.leave v) ⟨g, t⟩)
    (hpc : f.pc = i.next) :
    i.opcode = .return_ ∧ (∃ rest, f.stack = Stack.push rest v) ∧ t = s := by
  have hop : i.opcode = .return_ := by
    cases execute_ok hpc h
    assumption
  simp only [execute, hop] at h
  obtain ⟨w, ⟨f', s'⟩, hpop, hleave⟩ := bind_eq_ok_iff.mp h
  cases hleave
  obtain ⟨hframe, rfl⟩ := Action.onFrame_eq_ok_iff.mp hpop
  obtain ⟨rest, hrest, -⟩ := Frame.pop_eq_ok_iff.mp hframe
  exact ⟨hop, ⟨rest, hrest⟩, rfl⟩

namespace Machine

/-- Everything that the next instruction of a machine may come to. -/
inductive Attempts (m : Machine) : Attempt → Prop where
  | idle : m.frames = .empty → Attempts m (.interrupted (.fault .noActiveFrame) m)
  | unread {f : Frame} {below : Stack Frame} {y : Fault} : m.frames = below.push f →
      Instruction.decodeAt f.code.code f.pc = .error y → Attempts m (.interrupted (.fault y) m)
  | proceeded {f g : Frame} {below : Stack Frame} {i : Instruction} {t : Store} :
      m.frames = below.push f → f.Fetches i →
      i.execute m.natives ⟨f.fetched i, m.store⟩ = .ok .proceed ⟨g, t⟩ →
      Attempts m (.running { m with store := t, frames := below.push g })
  | entered {f g : Frame} {below : Stack Frame} {i : Instruction} {t : Store} {c : CodeBlock}
      {e : ScopeId} {log : Array Event} : m.frames = below.push f → f.Fetches i →
      i.execute m.natives ⟨f.fetched i, m.store⟩ = .ok (.enter c e) ⟨g, t⟩ →
      Attempts m (.running { m with
        store := t, frames := (below.push g).push { code := c, scope := e }, log })
  | refused {f g : Frame} {below : Stack Frame} {i : Instruction} {t : Store} {c : CodeBlock}
      {e : ScopeId} {r : Interrupt} : m.frames = below.push f → f.Fetches i →
      i.execute m.natives ⟨f.fetched i, m.store⟩ = .ok (.enter c e) ⟨g, t⟩ →
      { m with store := t, frames := below.push g }.refusal? c = some r →
      Attempts m (.interrupted r { m with store := t, frames := below.push g })
  | interrupted {f g : Frame} {below : Stack Frame} {i : Instruction} {t : Store}
      {e : Interrupt} : m.frames = below.push f → f.Fetches i →
      i.execute m.natives ⟨f.fetched i, m.store⟩ = .error e ⟨g, t⟩ →
      Attempts m (.interrupted e { m with store := t, frames := below.push g })
  | returned {f : Frame} {v : Value} {log : Array Event} : m.frames = Stack.empty.push f →
      f.Returns v → Attempts m (.returned v { m with frames := .empty, log })
  | resumed {f caller g : Frame} {rest : Stack Frame} {v : Value} {log : Array Event} :
      m.frames = (rest.push caller).push f → f.Returns v → caller.push v = .ok g →
      Attempts m (.running { m with frames := rest.push g, log })
  | overflowed {f caller : Frame} {rest : Stack Frame} {v : Value} {y : Fault}
      {log : Array Event} : m.frames = (rest.push caller).push f → f.Returns v →
      caller.push v = .error y →
      Attempts m (.interrupted (.fault y) { m with frames := rest.push caller, log })

variable {m : Machine} {f : Frame} {below : Stack Frame} {v : Value}

/-- A return of the innermost frame, which may have taken the value off its operands before. -/
theorem Attempts.of_tryLeave {g : Frame} (hframes : m.frames = below.push f)
    (hreturns : f.Returns v) :
    m.Attempts ({ m with frames := below.push g }.tryLeave v) := by
  simp only [tryLeave, Stack.pop?_push, report]
  rcases below.eq_empty_or_push with rfl | ⟨caller, rest, rfl⟩
  · exact .returned hframes hreturns
  · simp only [Stack.pop?_push]
    cases hpush : caller.push v with
    | ok caller' => exact .resumed hframes hreturns hpush
    | error y => exact .overflowed hframes hreturns hpush

/-- Nothing else can happen in a step. -/
theorem attempts_attempt (m : Machine) : m.Attempts m.attempt := by
  rcases m.frames.eq_empty_or_push with hnone | ⟨f, below, hframes⟩
  · simp only [attempt, hnone, Stack.pop?_empty]
    exact .idle hnone
  simp only [attempt, hframes, Stack.pop?_push]
  split
  · rename_i hend
    have hsame : { m with frames := below.push f } = m := by rw [← hframes]
    have hleave := Attempts.of_tryLeave (g := f) hframes (.inl ⟨hend, rfl⟩)
    rwa [hsame] at hleave
  split
  · rename_i y hdecode
    exact .unread hframes hdecode
  rename_i i hi
  split
  · rename_i next g t hexecute
    cases next with
    | proceed => exact .proceeded hframes hi hexecute
    | enter c e =>
        simp only [tryFollow, tryEnter]
        split
        · rename_i r hrefused
          exact .refused hframes hi hexecute hrefused
        · exact .entered hframes hi hexecute
    | leave v =>
        obtain ⟨hop, ⟨rest, hrest⟩, rfl⟩ := Instruction.returns_of_execute hexecute rfl
        exact Attempts.of_tryLeave hframes (.inr ⟨i, rest, hi, hop, hrest⟩)
  · rename_i e g t hexecute
    exact .interrupted hframes hi hexecute

/-- A frame that is about to return does so. -/
theorem attempt_of_returns (hframes : m.frames = below.push f) (hreturns : f.Returns v) :
    ∃ g, m.attempt = { m with frames := below.push g }.tryLeave v := by
  rcases hreturns with ⟨hend, rfl⟩ | ⟨i, rest, hi, hop, hstack⟩
  · refine ⟨f, ?_⟩
    simp only [attempt, hframes, Stack.pop?_push, if_pos hend]
    rw [← hframes]
  · refine ⟨{ f.fetched i with stack := rest }, ?_⟩
    have hpop : i.execute m.natives ⟨f.fetched i, m.store⟩
        = .ok (.leave v) ⟨{ f.fetched i with stack := rest }, m.store⟩ := by
      simp only [Instruction.execute, hop]
      exact Action.pop_bind_apply hstack
    rw [attempt_eq hframes hi, hpop]
    rfl

/-- A return to a frame with room for the value. -/
theorem step_of_returns {caller : Frame} (hframes : m.frames = (below.push caller).push f)
    (hreturns : f.Returns v) (hroom : caller.sp < caller.code.maxStack) :
    ∃ log, m.step = .running { m with
      frames := below.push { caller with stack := caller.stack.push v }, log } := by
  obtain ⟨g, hattempt⟩ := attempt_of_returns hframes hreturns
  have hput : caller.push v = .ok { caller with stack := caller.stack.push v } := if_pos hroom
  rw [step_eq_settle, hattempt]
  simp only [tryLeave, Stack.pop?_push, report, hput]
  exact ⟨_, rfl⟩

end Machine

end ScriptMachine
