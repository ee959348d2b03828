import ScriptMachine.Proofs.Machine.Bounds
import ScriptMachine.Proofs.Machine.Delivery

/-! Calls are well bracketed. While the frames above it come and go, a frame that has called waits
as the call has left it, and so do all frames below. It goes on when a value is returned to it, or
when an exception leaves the frames above. -/

namespace ScriptMachine

namespace Machine

/-! ### Runs inside a run -/

/-- A run from `m` to `n` that satisfies `P` all the time. -/
inductive Stays (P : Machine → Prop) (m : Machine) : Machine → Prop where
  | start : P m → Stays P m m
  | step {n k : Machine} : Stays P m n → n.step = .running k → P k → Stays P m k

theorem Stays.holds {P : Machine → Prop} {m n : Machine} (h : m.Stays P n) : P n := by
  cases h <;> assumption

theorem Stays.mono {P Q : Machine → Prop} {m n : Machine} (h : m.Stays P n)
    (himp : ∀ k, P k → Q k) : m.Stays Q n := by
  induction h with
  | start h => exact .start (himp _ h)
  | step _ hstep h ih => exact ih.step hstep (himp _ h)

theorem Visits.stays {m n k : Machine} {code : CodeBlock} {scope : ScopeId} {P : Machine → Prop}
    (h : m.Visits code scope (.running n)) (hstays : n.Stays P k) :
    m.Visits code scope (.running k) := by
  induction hstays with
  | start => exact h
  | step _ hstep _ ih => exact hstep ▸ ih.step

/-! ### Frames that wait -/

/-- The frames of `base` lie below at least one other frame. -/
def Over (base : Stack Frame) (n : Machine) : Prop :=
  ∃ c above, n.frames = (base.pushAll above).push c

/-- What a step comes to above frames that wait. -/
inductive AttemptsOver (n : Machine) (below : Stack Frame) (g : Frame) : Attempt → Prop where
  | running {k : Machine} : k.Over (below.push g) → AttemptsOver n below g (.running k)
  | interrupted {e : Interrupt} {left : Machine} : left.Over (below.push g) →
      AttemptsOver n below g (.interrupted e left)
  | resumed {c h : Frame} {v : Value} {log : Array Event} :
      n.frames = (below.push g).push c → c.Returns v → g.push v = .ok h →
      AttemptsOver n below g (.running { n with frames := below.push h, log })
  | overflowed {c : Frame} {v : Value} {y : Fault} {log : Array Event} :
      n.frames = (below.push g).push c → c.Returns v → g.push v = .error y →
      AttemptsOver n below g (.interrupted (.fault y) { n with frames := below.push g, log })

variable {m n k : Machine} {base below : Stack Frame} {f g : Frame}

theorem Over.height_lt (h : n.Over base) : base.height < n.frames.height := by
  obtain ⟨c, above, hframes⟩ := h
  rw [hframes, Stack.height_push, Stack.height_pushAll]
  omega

/-- Nothing above frames that wait reaches down to them, except a return to the topmost one. -/
theorem Over.attempts (h : n.Over (below.push g)) : n.AttemptsOver below g n.attempt := by
  have hover := h
  obtain ⟨c, above, hframes⟩ := h
  have hattempts := n.attempts_attempt
  generalize n.attempt = a at hattempts ⊢
  cases hattempts with
  | idle hnone =>
      rw [hframes] at hnone
      exact absurd hnone.symm (Stack.empty_ne_push _ _)
  | unread => exact .interrupted hover
  | proceeded hpush =>
      rw [hframes, Stack.push_inj] at hpush
      obtain ⟨rfl, rfl⟩ := hpush
      exact .running ⟨_, above, rfl⟩
  | entered hpush =>
      rw [hframes, Stack.push_inj] at hpush
      obtain ⟨rfl, rfl⟩ := hpush
      exact .running ⟨_, _ :: above, rfl⟩
  | refused hpush | interrupted hpush =>
      rw [hframes, Stack.push_inj] at hpush
      obtain ⟨rfl, rfl⟩ := hpush
      exact .interrupted ⟨_, above, rfl⟩
  | returned hpush =>
      rw [hframes, Stack.push_inj] at hpush
      have hheight := congrArg Stack.height hpush.1
      simp at hheight
  | @resumed c' caller h' rest v log hpush hreturns hput =>
      rw [hframes, Stack.push_inj] at hpush
      obtain ⟨hrest, rfl⟩ := hpush
      cases above with
      | nil =>
          obtain ⟨rfl, rfl⟩ := Stack.push_inj.mp hrest
          exact .resumed hframes hreturns hput
      | cons d above =>
          obtain ⟨rfl, rfl⟩ := Stack.push_inj.mp hrest
          exact .running ⟨_, above, rfl⟩
  | @overflowed c' caller rest v y log hpush hreturns hput =>
      rw [hframes, Stack.push_inj] at hpush
      obtain ⟨hrest, rfl⟩ := hpush
      cases above with
      | nil =>
          obtain ⟨rfl, rfl⟩ := Stack.push_inj.mp hrest
          exact .overflowed hframes hreturns hput
      | cons d above =>
          obtain ⟨rfl, rfl⟩ := Stack.push_inj.mp hrest
          exact .interrupted ⟨_, above, rfl⟩

/-! ### Exceptions -/

/-- An exception above some frames is caught above them, or it comes to them as if it had been
raised there. -/
theorem Delivers.over_or {z : Exception} {above : List Frame} (h : m.Delivers z (.running k))
    (hframes : m.frames = base.pushAll above) :
    k.Over base ∨ (∀ a ∈ above, ¬ a.catches) ∧
      { m with frames := base }.Delivers z (.running k) := by
  cases h with
  | @caught f below above' r outer log hz hcaught habove' hf hroom =>
      rw [hframes] at hcaught
      rcases Stack.pushAll_eq_pushAll_push hcaught with ⟨zs, rfl, -⟩ | ⟨zs, hbase, rfl⟩
      · exact .inl ⟨_, zs, rfl⟩
      · rw [List.forall_mem_append] at habove'
        exact .inr ⟨habove'.1, .caught log hz hbase habove'.2 hf hroom⟩

/-- An exception that no frame above catches goes to the frames below as if it had been raised
there. Only if they do not catch it either, the trace names the frames above as well. -/
theorem Delivers.of_pushAll {z : Exception} {p : Progress} {above : List Frame}
    (h : m.Delivers z p) (hz : z.catchable = true) (hframes : m.frames = base.pushAll above)
    (habove : ∀ a ∈ above, ¬ a.catches) :
    ((∃ a ∈ base.toList, a.catches) → { m with frames := base }.Delivers z p) ∧
      ((∀ a ∈ base.toList, ¬ a.catches) →
        ∃ log, p = .finished (.exception z m.trace) { m with frames := .empty, log }) := by
  have hreaches {f : Frame} {below : Stack Frame} {above' : List Frame} {r : Frame.Handler}
      {outer : Stack Block} (hcaught : m.frames = (below.push f).pushAll above')
      (habove' : ∀ g ∈ above', ¬ g.catches) (hf : f.Handles r outer) :
      f ∈ base.toList ∧ f.catches ∧
        ∃ zs, base = (below.push f).pushAll zs ∧ ∀ g ∈ zs, ¬ g.catches := by
    have hcatches := Frame.catches_of_handles hf
    rw [hframes] at hcaught
    rcases Stack.pushAll_eq_pushAll_push hcaught with ⟨zs, -, rfl⟩ | ⟨zs, rfl, rfl⟩
    · exact absurd hcatches (habove f (by simp))
    · rw [List.forall_mem_append] at habove'
      exact ⟨by simp, hcatches, zs, rfl, habove'.2⟩
  cases h with
  | panicked _ hpanic =>
      rw [hz] at hpanic
      cases hpanic
  | escaped log _ hnone =>
      refine ⟨fun ⟨a, ha, hcatches⟩ => absurd hcatches (hnone a ?_), fun _ => ⟨log, rfl⟩⟩
      rw [hframes, Stack.toList_pushAll]
      exact List.mem_append_right above ha
  | caught log _ hcaught habove' hf hroom =>
      obtain ⟨hmem, hcatches, zs, hbase, hzs⟩ := hreaches hcaught habove' hf
      exact ⟨fun _ => .caught log hz hbase hzs hf hroom,
        fun hnone => absurd hcatches (hnone _ hmem)⟩
  | overflowed log _ hcaught habove' hf hfull =>
      obtain ⟨hmem, hcatches, zs, hbase, hzs⟩ := hreaches hcaught habove' hf
      exact ⟨fun _ => .overflowed log hz hbase hzs hf hfull,
        fun hnone => absurd hcatches (hnone _ hmem)⟩

theorem Delivers.height_le {z : Exception} (h : m.Delivers z (.running k)) :
    k.frames.height ≤ m.frames.height := by
  cases h with
  | caught _ _ hframes =>
      rw [hframes, Stack.height_pushAll, Stack.height_push, Stack.height_push]
      omega

/-! ### Steps -/

/-- After a step above frames that wait, they still do, or the topmost one has been given a value,
or an exception has come to them. -/
theorem Over.step (h : n.Over (below.push g)) (hstep : n.step = .running k) :
    k.Over (below.push g) ∨
    (∃ c v g', n.frames = (below.push g).push c ∧ c.Returns v ∧ g.push v = .ok g' ∧
      k.frames = below.push g') ∨
    ∃ z left above, n.attempt = .interrupted (.raised z) left ∧
      left.frames = (below.push g).pushAll above ∧ (∀ a ∈ above, ¬ a.catches) ∧
      { left with frames := below.push g }.Delivers z (.running k) := by
  have hattempts := h.attempts
  rw [step_eq_settle] at hstep
  generalize hattempt : n.attempt = a at hattempts hstep ⊢
  cases hattempts with
  | running hover =>
      cases hstep
      exact .inl hover
  | resumed hframes hreturns hput =>
      cases hstep
      exact .inr (.inl ⟨_, _, _, hframes, hreturns, hput, rfl⟩)
  | overflowed => cases hstep
  | @interrupted e left hover =>
      obtain ⟨c, above, hframes⟩ := hover
      cases e with
      | fault y => cases hstep
      | raised z =>
          have hdelivers := left.delivers_raise z
          rw [Attempt.settle, interrupt] at hstep
          rw [hstep] at hdelivers
          rcases hdelivers.over_or (hframes.trans (Stack.pushAll_cons _ c above).symm)
            with hover | ⟨habove, hreaches⟩
          · exact .inl hover
          · exact .inr (.inr ⟨z, left, c :: above, rfl, hframes, habove, hreaches⟩)

/-- As long as there are more frames, those that wait stay as they are. -/
theorem Over.stays (h : n.Over (below.push g))
    (hstays : n.Stays (below.height + 1 < ·.frames.height) k) : k.Over (below.push g) := by
  induction hstays with
  | start => exact h
  | step _ hstep hheight ih =>
      rcases ih.step hstep with hover | ⟨c, v, g', -, -, -, hframes⟩ | ⟨z, left, above, -, -, -, hz⟩
      · exact hover
      · rw [hframes, Stack.height_push] at hheight
        omega
      · have hle := hz.height_le
        rw [Stack.height_push] at hle
        omega

/-! ### Calls -/

/-- What holds while `g` and the frames below it wait for a call to return. -/
structure Brackets (below : Stack Frame) (g : Frame) (k : Machine) : Prop where
  /-- The frames are as the call has left them. -/
  waits : k.Over (below.push g)
  /-- A value that the call returns becomes one more operand. -/
  returns : ∀ c v, k.frames = (below.push g).push c → c.Returns v →
    ∃ log, k.step = .running { k with
      frames := below.push { g with stack := g.stack.push v }, log }
  /-- An exception that leaves the call goes on as if it had been raised in `g`. -/
  raises : ∀ z left, k.attempt = .interrupted (.raised z) left → z.catchable = true →
    ∃ c above, left.frames = ((below.push g).pushAll above).push c ∧
      ((∀ a ∈ c :: above, ¬ a.catches) →
        ((∃ a ∈ (below.push g).toList, a.catches) →
          { left with frames := below.push g }.Delivers z k.step) ∧
        ((∀ a ∈ (below.push g).toList, ¬ a.catches) → ∃ log,
          k.step = .finished (.exception z left.trace) { left with frames := .empty, log }))
  /-- The call ends in no other way, unless the run ends. -/
  ends : ∀ k', k.step = .running k' → below.height + 1 < k'.frames.height ∨
    (∃ c v, k.frames = (below.push g).push c ∧ c.Returns v) ∨
    ∃ z left above, k.attempt = .interrupted (.raised z) left ∧ z.catchable = true ∧
      left.frames = (below.push g).pushAll above ∧ ∀ a ∈ above, ¬ a.catches

theorem Over.brackets (h : k.Over (below.push g)) (hroom : g.sp < g.code.maxStack) :
    k.Brackets below g := by
  refine ⟨h, fun c v hframes hreturns => step_of_returns hframes hreturns hroom,
    fun z left hattempt hz => ?_, fun k' hstep => ?_⟩
  · have hattempts := h.attempts
    rw [hattempt] at hattempts
    cases hattempts with
    | interrupted hover =>
        obtain ⟨c, above, hframes⟩ := hover
        refine ⟨c, above, hframes, fun habove => ?_⟩
        rw [step_eq_settle, hattempt]
        exact (left.delivers_raise z).of_pushAll hz
          (hframes.trans (Stack.pushAll_cons _ c above).symm) habove
  · rcases h.step hstep with hover | ⟨c, v, g', hframes, hreturns, -, -⟩ |
      ⟨z, left, above, hattempt, hframes, habove, hz⟩
    · exact .inl (Stack.height_push below g ▸ hover.height_lt)
    · exact .inr (.inl ⟨c, v, hframes, hreturns⟩)
    · refine .inr (.inr ⟨z, left, above, hattempt, ?_, hframes, habove⟩)
      cases hz
      assumption

theorem height_le_of_interrupt {e : Interrupt} (h : m.interrupt e = .running k) :
    k.frames.height ≤ m.frames.height := by
  cases e with
  | fault y => cases h
  | raised z =>
      have hdelivers := m.delivers_raise z
      rw [interrupt] at h
      rw [h] at hdelivers
      exact hdelivers.height_le

/-- A step adds a frame only by entering what is called. -/
theorem entered_of_step (hstep : n.step = .running k)
    (hadded : n.frames.height < k.frames.height) :
    ∃ f below i c e g t log, n.frames = Stack.push below f ∧ f.Fetches i ∧
      i.execute n.natives ⟨f.fetched i, n.store⟩ = .ok (.enter c e) ⟨g, t⟩ ∧
      k = { n with
        store := t, frames := (below.push g).push { code := c, scope := e }, log } := by
  have hattempts := n.attempts_attempt
  rw [step_eq_settle] at hstep
  generalize n.attempt = x at hattempts hstep
  cases hattempts with
  | idle | unread | returned | overflowed => cases hstep
  | proceeded hframes =>
      cases hstep
      rw [hframes, Stack.height_push, Stack.height_push] at hadded
      omega
  | entered hframes hi hexecute =>
      cases hstep
      exact ⟨_, _, _, _, _, _, _, _, hframes, hi, hexecute, rfl⟩
  | refused hframes | interrupted hframes =>
      have hle := height_le_of_interrupt hstep
      rw [Stack.height_push] at hle
      rw [hframes, Stack.height_push] at hadded
      omega
  | resumed hframes =>
      cases hstep
      rw [hframes, Stack.height_push, Stack.height_push, Stack.height_push] at hadded
      omega

/-- A call of script code enters it, if it does not end the run. -/
theorem enters_of_step {i : Instruction} {rest : Stack Value} {v : Value}
    (hframes : n.frames = below.push f) (hi : f.Fetches i) (hop : i.opcode = .call)
    (hstack : f.stack = rest.push v) (hv : (∃ r, v = .function r) ∨ ∃ id, v = .code id)
    (hstep : n.step = .running k) :
    ∃ c e g t log, i.execute n.natives ⟨f.fetched i, n.store⟩ = .ok (.enter c e) ⟨g, t⟩ ∧
      k = { n with
        store := t, frames := (below.push g).push { code := c, scope := e }, log } := by
  rw [step_eq_settle, attempt_eq hframes hi] at hstep
  have hfetched : (f.fetched i).stack = rest.push v := hstack
  rcases Instruction.enters_of_call n.natives n.store hop hfetched hv
    with ⟨c, e, ⟨g, t⟩, hexecute⟩ | ⟨y, a, hexecute⟩
  · rw [hexecute] at hstep
    simp only [tryFollow, tryEnter] at hstep
    cases hrefused : ({ n with store := t, frames := below.push g } : Machine).refusal? c with
    | none =>
        rw [hrefused] at hstep
        cases hstep
        exact ⟨c, e, g, t, _, hexecute, rfl⟩
    | some r =>
        rw [hrefused] at hstep
        rcases refusal?_eq_some hrefused with ⟨message, rfl⟩ | ⟨y, rfl⟩ <;> cases hstep
  · rw [hexecute] at hstep
    cases hstep

/-- The frame that has called waits below the new one. -/
theorem frames_of_call {i : Instruction} {rest : Stack Value} {v : Value}
    (hframes : n.frames = below.push f) (hi : f.Fetches i) (hop : i.opcode = .call)
    (hstack : f.stack = rest.push v) (hv : (∃ r, v = .function r) ∨ ∃ id, v = .code id)
    (hstep : n.step = .running k) :
    ∃ c e, k.frames = (below.push ((f.fetched i).exchange (i.arg + 1) [])).push
      { code := c, scope := e } := by
  have htakes : i.takes = i.arg + 1 := by simp [Instruction.takes, hop]
  obtain ⟨c, e, g, t, log, hexecute, rfl⟩ := enters_of_step hframes hi hop hstack hv hstep
  cases Instruction.execute_ok rfl hexecute with
  | called _ _ =>
      rw [← htakes]
      exact ⟨_, e, rfl⟩

/-- A call of script code is well bracketed: the frame that calls and the frames below it wait as
the call has left them, without the callee and the arguments, until the call returns or an
exception leaves it. -/
theorem brackets_of_stays {m n₁ : Machine} {code : CodeBlock} {scope : ScopeId} {i : Instruction}
    {v : Value} (hvisit : m.Visits code scope (.running n)) (hframes : n.frames = below.push f)
    (hi : f.Fetches i) (hop : i.opcode = .call) (htop : f.stack.top? = some v)
    (hv : (∃ r, v = .function r) ∨ ∃ id, v = .code id) (hstep : n.step = .running n₁) :
    (∃ c e, n₁.frames = (below.push ((f.fetched i).exchange (i.arg + 1) [])).push
      { code := c, scope := e }) ∧
    ∀ k, n₁.Stays (below.height + 1 < ·.frames.height) k →
      k.Brackets below ((f.fetched i).exchange (i.arg + 1) []) := by
  obtain ⟨rest, hstack⟩ : ∃ rest : Stack Value, f.stack = rest.push v := by
    rcases f.stack.eq_empty_or_push with hnone | ⟨w, rest, hsome⟩
    · rw [hnone] at htop
      cases htop
    · rw [hsome] at htop
      cases htop
      exact ⟨rest, hsome⟩
  obtain ⟨c, e, hcalled⟩ := frames_of_call hframes hi hop hstack hv hstep
  refine ⟨⟨c, e, hcalled⟩, fun k hstays => ?_⟩
  have hover : k.Over (below.push ((f.fetched i).exchange (i.arg + 1) [])) :=
    Over.stays ⟨_, [], hcalled⟩ hstays
  have hvisit' : m.Visits code scope (.running k) := Visits.stays (hstep ▸ hvisit.step) hstays
  have hbounded : k.Bounded m.limits :=
    Bounded.of_holds ((bounds m.natives m.limits).holds_of_visits trivial trivial hvisit')
  refine hover.brackets (hbounded.waiting _ ?_)
  obtain ⟨c', above, hk⟩ := hover
  simp [hk]

/-- A call of a code block that is empty. -/
theorem brackets_call :
    let b : CodeBlock := { (default : CodeBlock) with
      code := #[Opcode.loadConst.byte, 0, 0, Opcode.call.byte, 0, 0], constants := #[.code 0],
      maxStack := 1 }
    let f : Frame := { code := b, stack := Stack.empty.push (.code 0), pc := 3, scope := 0 }
    let n : Machine := { frames := Stack.empty.push f, log := #[.framePushed b.name 1] }
    ∃ n₁, n.step = .running n₁ ∧
      n₁.Brackets .empty ((f.fetched ⟨3, .call, .short 0⟩).exchange 1 []) := by
  intro b f n
  let f₀ : Frame := { code := b, scope := 0 }
  have hload : f₀.Fetches ⟨0, .loadConst, .short 0⟩ :=
    Instruction.decodeAt_eq_ok_iff.mpr ⟨rfl, rfl, by decide⟩
  have hcall : f.Fetches ⟨3, .call, .short 0⟩ :=
    Instruction.decodeAt_eq_ok_iff.mpr ⟨rfl, rfl, by decide⟩
  let n₀ : Machine := { n with frames := Stack.empty.push f₀ }
  have hstart : ({} : Machine).Visits b 0 (.running n₀) := .start
  have hload' : n₀.step = .running n := by
    rw [step_eq_settle, attempt_eq (m := n₀) rfl hload]
    rfl
  have hvisit := hstart.step
  rw [hload'] at hvisit
  obtain ⟨n₁, hstep⟩ : ∃ n₁, n.step = .running n₁ := by
    rw [step_eq_settle, attempt_eq (m := n) rfl hcall]
    exact ⟨_, rfl⟩
  obtain ⟨⟨c, e, hframes⟩, hbrackets⟩ :=
    brackets_of_stays hvisit rfl hcall rfl rfl (.inr ⟨0, rfl⟩) hstep
  exact ⟨n₁, hstep, hbrackets n₁ (.start (by simp [hframes]))⟩

end Machine

end ScriptMachine
