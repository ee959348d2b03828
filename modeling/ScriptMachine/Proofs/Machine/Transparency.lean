import Mathlib.Data.List.Forall2
import ScriptMachine.Proofs.Machine.Activation
import ScriptMachine.Proofs.Machine.Host
import ScriptMachine.Proofs.Machine.Resizing

/-! Limits are transparent. A run that is not stopped by its limits goes the same way under larger
limits, and with blocks that declare more room, as long as the host can hand out this room: the two
machines are alike after every step. -/

namespace ScriptMachine

/-- No limit is larger than the other one. -/
structure Limits.AtMost (l k : Limits) : Prop where
  stack : l.maxStackSize ≤ k.maxStackSize
  depth : l.maxRecursionDepth ≤ k.maxRecursionDepth

variable {limits : Limits} {R : Resizing limits}

/-- The run has ended because a frame had no room for one more operand or open block. -/
def Outcome.overflows : Outcome → Bool
  | .fault y _ => y.overflows
  | _ => false

/-! ### Lists of frames -/

theorem forall₂_takeWhile_dropWhile {α : Type} {A : α → α → Prop} {p : α → Bool} {xs ys : List α}
    (h : List.Forall₂ A xs ys) (hp : ∀ x y, A x y → p y = p x) :
    List.Forall₂ A (xs.takeWhile p) (ys.takeWhile p) ∧
      List.Forall₂ A (xs.dropWhile p) (ys.dropWhile p) := by
  induction h with
  | nil => exact ⟨.nil, .nil⟩
  | @cons x y xs ys hxy hrest ih =>
      rw [List.takeWhile_cons, List.takeWhile_cons, List.dropWhile_cons, List.dropWhile_cons,
        hp x y hxy]
      split
      · exact ⟨.cons hxy ih.1, ih.2⟩
      · exact ⟨.nil, .cons hxy hrest⟩

namespace Frame

variable {f g : Frame}

theorem Alike.catches_eq (h : f.Alike R g) : g.catches = f.catches := by
  obtain ⟨d, -, rfl⟩ := h
  rfl

theorem Alike.trace_eq (h : f.Alike R g) :
    (⟨g.code.name, g.code.filename, g.lastOffset⟩ : TraceEntry) =
      ⟨f.code.name, f.code.filename, f.lastOffset⟩ := by
  obtain ⟨d, hd, rfl⟩ := h
  obtain ⟨maxStack, maxBlocks, rfl⟩ := R.exists_eq hd
  rfl

theorem takeHandler_resized (f : Frame) (d : CodeBlock) :
    f.takeHandler.2.code = f.code ∧ { f with code := d }.takeHandler =
      (f.takeHandler.1, { f.takeHandler.2 with code := d }) := by
  have hexpose : ({ f with code := d }.expose .handler).blocks = (f.expose .handler).blocks := rfl
  rw [takeHandler, takeHandler, hexpose]
  split <;> exact ⟨rfl, rfl⟩

end Frame

/-! ### Machines -/

/-- The machine `n` has the given limits, which are no less than those of `m`, and other blocks may
stand for those of `m`. In all else it is the same. -/
structure Machine.Alike (R : Resizing limits) (m n : Machine) : Prop where
  natives : n.natives = m.natives
  within : m.limits.AtMost limits
  limits : n.limits = limits
  log : n.log = m.log
  store : m.store.Alike R n.store
  frames : List.Forall₂ (Frame.Alike R) m.frames.toList n.frames.toList

/-- The same progress, in machines that are alike. Nothing is asked of the second one when the first
one ends with an overflow. -/
inductive Progress.Mirrored (R : Resizing limits) : Progress → Progress → Prop where
  | running {m n : Machine} : m.Alike R n → Mirrored R (.running m) (.running n)
  | finished {o : Outcome} {m n : Machine} : m.Alike R n →
      Mirrored R (.finished o m) (.finished o n)
  | overflowed {y : Fault} {trace : Backtrace} {m : Machine} {p : Progress} : y.overflows →
      Mirrored R (.finished (.fault y trace) m) p

/-- The same for attempts. -/
inductive Attempt.Mirrored (R : Resizing limits) : Attempt → Attempt → Prop where
  | running {m n : Machine} : m.Alike R n → Mirrored R (.running m) (.running n)
  | returned {v : Value} {m n : Machine} : m.Alike R n → Mirrored R (.returned v m) (.returned v n)
  | interrupted {e : Interrupt} {m n : Machine} : m.Alike R n →
      Mirrored R (.interrupted e m) (.interrupted e n)
  | overflowed {e : Interrupt} {m : Machine} {a : Attempt} : e.overflows →
      Mirrored R (.interrupted e m) a

namespace Machine

variable {m n : Machine} {below below' : Stack Frame} {f : Frame} {c d : CodeBlock}
  {scope : ScopeId}

namespace Alike

variable (h : m.Alike R n)
include h

theorem height_eq : n.frames.height = m.frames.height := by
  rw [Stack.height_eq, Stack.height_eq, h.frames.length_eq]

theorem trace_eq : n.trace = m.trace := by
  rw [Machine.trace, Machine.trace, Backtrace.ofFrames, Backtrace.ofFrames]
  have hframes := h.frames
  generalize m.frames.toList = fs, n.frames.toList = gs at hframes
  induction hframes with
  | nil => rfl
  | cons hfg _ ih => rw [List.map_cons, List.map_cons, ih, hfg.trace_eq]

theorem report (e : Event) : (m.report e).Alike R (n.report e) :=
  ⟨h.natives, h.within, h.limits, congrArg (·.push e) h.log, h.store, h.frames⟩

theorem with_frames (hframes : List.Forall₂ (Frame.Alike R) below.toList below'.toList) :
    { m with frames := below }.Alike R { n with frames := below' } :=
  ⟨h.natives, h.within, h.limits, h.log, h.store, hframes⟩

/-- Either machine has an innermost frame, or neither. -/
theorem frames_cases : m.frames = .empty ∧ n.frames = .empty ∨ ∃ f below d below',
    m.frames = Stack.push below f ∧ n.frames = Stack.push below' { f with code := d } ∧
      R.Pairs f.code d ∧ List.Forall₂ (Frame.Alike R) below.toList below'.toList := by
  have hframes := h.frames
  rcases m.frames.eq_empty_or_push with hm | ⟨f, below, hm⟩ <;>
    rcases n.frames.eq_empty_or_push with hn | ⟨g, below', hn⟩ <;>
    rw [hm, hn] at hframes
  · exact .inl ⟨hm, hn⟩
  · cases hframes
  · cases hframes
  · rw [Stack.toList_push, Stack.toList_push, List.forall₂_cons] at hframes
    obtain ⟨⟨d, hd, rfl⟩, hbelow⟩ := hframes
    exact .inr ⟨f, below, d, below', hm, hn, hd, hbelow⟩

end Alike

theorem forall₂_push (hd : R.Pairs f.code d)
    (hbelow : List.Forall₂ (Frame.Alike R) below.toList below'.toList) :
    List.Forall₂ (Frame.Alike R) (below.push f).toList
      (below'.push { f with code := d }).toList := by
  rw [Stack.toList_push, Stack.toList_push]
  exact .cons ⟨d, hd, rfl⟩ hbelow

/-! ### Interrupts -/

theorem Alike.abort (h : m.Alike R n) (y : Fault) :
    Progress.Mirrored R (m.abort y) (n.abort y) := by
  rw [Machine.abort, Machine.abort, h.trace_eq, h.height_eq]
  exact .finished (h.report _)

theorem Alike.unwind (h : m.Alike R n) : m.unwind.Alike R n.unwind := by
  obtain ⟨htaken, hkept⟩ := forall₂_takeWhile_dropWhile (p := (!·.catches)) h.frames
    fun f g hfg => by rw [hfg.catches_eq]
  rw [← Stack.toList_popWhile, ← Stack.toList_popWhile] at hkept
  refine List.rel_foldl (fun m n hmn f g hfg => ?_) (h.with_frames hkept) htaken
  obtain ⟨d, hd, rfl⟩ := hfg
  obtain ⟨maxStack, maxBlocks, rfl⟩ := R.exists_eq hd
  exact hmn.report _

theorem Alike.deliver (h : m.Alike R n) (hd : R.Pairs f.code d) (z : Exception) :
    Progress.Mirrored R (m.deliver z f) (n.deliver z { f with code := d }) := by
  obtain ⟨hcode, htake⟩ := f.takeHandler_resized d
  rw [Machine.deliver, Machine.deliver, htake]
  rw [← hcode] at hd
  generalize f.takeHandler = p at hd ⊢
  rcases p with ⟨_ | r, g⟩
  · exact (h.with_frames (forall₂_push hd h.frames)).abort _
  · rcases (g.restored r).push_resized hd (.exception z.markCaught) with
      ⟨y, hput, hover⟩ | ⟨g', hcode', hput, hput'⟩
    · rw [Frame.restored] at hput
      simp only [hput]
      exact .overflowed hover
    · have hg' : R.Pairs g'.code d := hcode' ▸ hd
      rw [Frame.restored] at hput hput'
      have htruncate : { g with code := d }.truncate r.sp = { g.truncate r.sp with code := d } :=
        rfl
      simp only [hput, hput', htruncate]
      exact .running ((h.report _).with_frames (forall₂_push hg' h.frames))

/-- An interrupt is dealt with in the same way. -/
theorem Alike.interrupt (h : m.Alike R n) (e : Interrupt) :
    Progress.Mirrored R (m.interrupt e) (n.interrupt e) := by
  cases e with
  | fault y => exact h.abort y
  | raised z =>
      rw [Machine.interrupt, Machine.interrupt, raise, raise, h.trace_eq]
      split
      · exact .finished (h.report _)
      have hleft := (h.report (.raised z.message)).unwind
      have htrace : Backtrace.ofFrames n.frames.toList = .ofFrames m.frames.toList := h.trace_eq
      rcases hleft.frames_cases with ⟨hm, hn⟩ | ⟨f, below, d, below', hm, hn, hd, hbelow⟩
      · simp only [hm, hn, Stack.pop?_empty, htrace]
        exact .finished (hleft.report _)
      · simp only [hm, hn, Stack.pop?_push]
        exact (hleft.with_frames hbelow).deliver hd z

/-! ### Steps -/

theorem Alike.settle {a b : Attempt} (h : Attempt.Mirrored R a b) :
    Progress.Mirrored R a.settle b.settle := by
  cases h with
  | running h => exact .running h
  | returned h => exact .finished h
  | interrupted h => exact h.interrupt _
  | @overflowed e m a hover =>
      cases e with
      | fault y => exact .overflowed hover
      | raised z => cases hover

/-- Nothing stands in the way of another frame. -/
theorem refusal?_eq_none_iff : m.refusal? c = none ↔
    m.frames.height < m.limits.maxRecursionDepth ∧ c.maxStack ≤ m.limits.maxStackSize ∧
      c.maxBlocks ≤ m.limits.maxStackSize := by
  rw [refusal?]
  split
  · simp
    omega
  split
  · simp
    omega
  split <;> simp <;> omega

/-- What is not refused is not refused with more room under larger limits. -/
theorem Alike.refusal?_eq_none (h : m.Alike R n) (hd : R.Pairs c d)
    (hfree : m.refusal? c = none) : n.refusal? d = none := by
  rw [refusal?_eq_none_iff] at hfree ⊢
  obtain ⟨hdepth, hstack, hblocks⟩ := hfree
  obtain ⟨hstack', hdepth'⟩ := h.within
  rw [h.limits, h.height_eq]
  refine ⟨Nat.lt_of_lt_of_le hdepth hdepth', ?_⟩
  rcases (R.resized hd).fits with rfl | ⟨hfits, hfits', -⟩
  · exact ⟨Nat.le_trans hstack hstack', Nat.le_trans hblocks hstack'⟩
  · exact ⟨hfits, hfits'⟩

/-- What the host can hand out to the first machine, it can to the second one. -/
theorem Alike.allocated (h : m.Alike R n) (hroom : m.Allocated) : n.Allocated := by
  rcases h.frames_cases with ⟨-, hn⟩ | ⟨f, below, d, below', hm, hn, hd, -⟩
  · simp [Allocated, hn]
  rw [allocated_iff hm] at hroom
  rw [allocated_iff hn]
  rcases (R.resized hd).fits with hsame | ⟨-, -, hfits⟩
  · exact hsame ▸ hroom
  · exact hfits

theorem Alike.tryEnter (h : m.Alike R n) (hd : R.Pairs c d) (hfree : m.refusal? c = none) :
    Attempt.Mirrored R (m.tryEnter c scope) (n.tryEnter d scope) := by
  obtain ⟨maxStack, maxBlocks, hsame⟩ := R.exists_eq hd
  have hname : d.name = c.name := by rw [hsame]
  rw [Machine.tryEnter, Machine.tryEnter, hfree, h.refusal?_eq_none hd hfree, h.height_eq, hname]
  exact .running ((h.report _).with_frames (forall₂_push (f := { code := c, scope }) hd h.frames))

theorem Alike.tryLeave (h : m.Alike R n) (v : Value) :
    Attempt.Mirrored R (m.tryLeave v) (n.tryLeave v) := by
  rw [Machine.tryLeave, Machine.tryLeave]
  rcases h.frames_cases with ⟨hm, hn⟩ | ⟨f, below, d, below', hm, hn, hd, hbelow⟩
  · simp only [hm, hn, Stack.pop?_empty]
    exact .interrupted h
  obtain ⟨maxStack, maxBlocks, hsame⟩ := R.exists_eq hd
  have hname : d.name = f.code.name := by rw [hsame]
  have hheight : below'.height = below.height := by
    rw [Stack.height_eq, Stack.height_eq, hbelow.length_eq]
  simp only [hm, hn, Stack.pop?_push, hname, hheight]
  have hleft := (h.with_frames hbelow).report (.framePopped f.code.name below.height)
  rcases hleft.frames_cases with ⟨hm', hn'⟩ | ⟨g, rest, c, rest', hm', hn', hc, hrest⟩
  · obtain rfl : below = .empty := hm'
    obtain rfl : below' = .empty := hn'
    exact .returned hleft
  · obtain rfl : below = rest.push g := hm'
    obtain rfl : below' = rest'.push { g with code := c } := hn'
    simp only [Stack.pop?_push]
    rcases g.push_resized hc v with ⟨y, hput, hover⟩ | ⟨g', hcode, hput, hput'⟩
    · simp only [hput]
      exact .overflowed hover
    · simp only [hput, hput']
      exact .running (hleft.with_frames (forall₂_push (hcode ▸ hc) hrest))

/-- The innermost frame is about to enter code that the limits refuse. -/
def Refused (m : Machine) : Prop :=
  ∃ f below i c e g t r, m.frames = Stack.push below f ∧ f.Fetches i ∧
    i.execute m.natives ⟨f.fetched i, m.store⟩ = .ok (.enter c e) ⟨g, t⟩ ∧
    { m with store := t, frames := below.push g }.refusal? c = some r

/-- Blocks that stand for each other are entered, or left, in the same way. -/
theorem Alike.tryFollow (h : m.Alike R n) {p q : Next} (hpq : Next.Alike R p q)
    (hfree : ∀ c e, p = .enter c e → m.refusal? c = none) :
    Attempt.Mirrored R (m.tryFollow p) (n.tryFollow q) := by
  cases hpq with
  | proceed => exact .running h
  | enter hd => exact h.tryEnter hd (hfree _ _ rfl)
  | leave => exact h.tryLeave _

theorem Alike.attempt (h : m.Alike R n) (hnatives : ∀ r ∈ m.natives, r.Mirrors R)
    (hfree : ¬ m.Refused) : Attempt.Mirrored R m.attempt n.attempt := by
  rcases h.frames_cases with ⟨hm, hn⟩ | ⟨f, below, d, below', hm, hn, hd, hbelow⟩
  · simp only [Machine.attempt, hm, hn, Stack.pop?_empty]
    exact .interrupted h
  obtain ⟨maxStack, maxBlocks, hsame⟩ := R.exists_eq hd
  have hcode : d.code = f.code.code := by rw [hsame]
  by_cases hend : f.code.code.size ≤ f.pc
  · simp only [Machine.attempt, hm, hn, Stack.pop?_push, hcode, if_pos hend]
    exact h.tryLeave .null
  cases hread : Instruction.decodeAt f.code.code f.pc with
  | error y =>
      simp only [Machine.attempt, hm, hn, Stack.pop?_push, hcode, if_neg hend, hread]
      exact .interrupted h
  | ok i =>
      have hi : { f with code := d }.Fetches i := by rwa [Frame.Fetches, hcode]
      rw [attempt_eq hm hread, attempt_eq hn hi]
      have hresult : Mirrored (Activation.Alike R) (Next.Alike R)
          (i.execute m.natives ⟨f.fetched i, m.store⟩)
          (i.execute n.natives ⟨{ f with code := d }.fetched i, n.store⟩) := by
        rw [h.natives]
        exact Action.Mirrors.execute hnatives i _ _ ⟨⟨d, hd, rfl⟩, h.store⟩
      generalize hx : i.execute m.natives ⟨f.fetched i, m.store⟩ = x at hresult
      generalize i.execute n.natives ⟨{ f with code := d }.fetched i, n.store⟩ = y at hresult
      have halike {a b : Activation} (hab : a.Alike R b) :
          { m with store := a.store, frames := below.push a.frame }.Alike R
            { n with store := b.store, frames := below'.push b.frame } := by
        refine ⟨h.natives, h.within, h.limits, h.log, hab.store, ?_⟩
        rw [Stack.toList_push, Stack.toList_push]
        exact .cons hab.frame hbelow
      cases hresult with
      | error hab => exact .interrupted (halike hab)
      | overflowed hover => exact .overflowed hover
      | ok hnext hab =>
          refine (halike hab).tryFollow hnext ?_
          rintro c e rfl
          refine Option.eq_none_iff_forall_ne_some.mpr fun r hr => hfree ?_
          exact ⟨f, below, i, c, e, _, _, r, hm, hread, hx, hr⟩

/-- Machines that are alike make the same step, unless the first one is refused a frame or overflows
one. -/
theorem Alike.step (h : m.Alike R n) (hnatives : ∀ r ∈ m.natives, r.Mirrors R)
    (hfree : ¬ m.Refused) : Progress.Mirrored R m.step n.step := by
  rw [step_eq_settle, step_eq_settle]
  exact Alike.settle (h.attempt hnatives hfree)

/-! ### Runs -/

/-- The instruction that the innermost frame reads next, if there is one. -/
def next? (m : Machine) : Option Instruction :=
  match m.frames.pop? with
  | none => none
  | some (f, _) => (Instruction.decodeAt f.code.code f.pc).toOption

/-- The instructions that a machine executes in at most `budget` steps, in order. -/
def executed : Nat → Machine → List Instruction
  | 0, _ => []
  | budget + 1, m => m.next?.toList ++
    match m.step with
    | .running m => executed budget m
    | .finished .. => []

/-- The instructions that a run of a block executes. -/
def executedIn (budget : Nat) (code : CodeBlock) (scope : ScopeId) (m : Machine) :
    List Instruction :=
  match m.start code scope with
  | .running m => m.executed budget
  | .finished .. => []

/-- No frame of a run is refused. -/
structure Unhindered (m : Machine) (code : CodeBlock) (scope : ScopeId) : Prop where
  start : { m with frames := .empty }.refusal? code = none
  steps (n : Machine) : m.Visits code scope (.running n) → ¬ n.Refused

variable {code : CodeBlock} {budget : Nat} {o : Outcome} {left : Machine}

/-- Code without a call is not refused a frame. -/
theorem Unhindered.of_runsOnly (hstart : { m with frames := .empty }.refusal? code = none)
    (hcode : m.RunsOnly (Opcode.call.byte ∉ ·.code.toList) code scope) :
    m.Unhindered code scope := by
  refine ⟨hstart, fun n hvisit ⟨f, below, i, c, e, g, t, r, hframes, hi, hexecute, _⟩ => ?_⟩
  obtain ⟨hop, -⟩ := Instruction.called_of_execute hexecute
  have hf : f ∈ n.frames.toList := by simp [hframes]
  have hbytes := (Instruction.decodeAt_eq_ok_iff.mp hi).2.2
  refine hcode _ hvisit f hf ?_
  rw [Instruction.bytes, hop, cons_prefix_drop_iff] at hbytes
  exact List.mem_of_getElem? hbytes.1

theorem Alike.next?_eq (h : m.Alike R n) : n.next? = m.next? := by
  rw [next?, next?]
  rcases h.frames_cases with ⟨hm, hn⟩ | ⟨f, below, d, below', hm, hn, hd, -⟩
  · rw [hm, hn]
  · obtain ⟨maxStack, maxBlocks, rfl⟩ := R.exists_eq hd
    rw [hm, hn, Stack.pop?_push, Stack.pop?_push]

/-- Steps of machines that are alike, up to the end of the run. -/
theorem Alike.hosted {start : Machine} (hnatives : ∀ r ∈ start.natives, r.Mirrors R)
    (hfree : ∀ k, start.Visits code scope (.running k) → ¬ k.Refused) (ho : ¬ o.overflows)
    (hvisit : start.Visits code scope (.running m)) (h : m.Alike R n)
    (hrun : m.hosted budget = .ended (o, left)) :
    ∃ left', n.hosted budget = .ended (o, left') ∧ left.Alike R left' ∧
      n.executed budget = m.executed budget := by
  -- `m` is visited from the start of the run, and so it is not refused a frame
  induction budget generalizing m n with
  | zero => cases hrun
  | succ budget ih =>
      obtain ⟨hroom, hrun⟩ := hosted_succ_eq_ended_iff.mp hrun
      have hm : m.natives = start.natives := natives_of_visits hvisit
      have hstep := h.step (hm ▸ hnatives) (hfree m hvisit)
      have hnext := hvisit.step
      rw [hosted_succ (h.allocated hroom), executed, executed, h.next?_eq]
      generalize m.step = p, n.step = q at hstep hnext hrun
      cases hstep with
      | running h' =>
          obtain ⟨left', hrun', hleft, hsame⟩ := ih hnext h' hrun
          exact ⟨left', hrun', hleft, congrArg (m.next?.toList ++ ·) hsame⟩
      | finished h' =>
          cases hrun
          exact ⟨_, rfl, h', rfl⟩
      | overflowed hover =>
          cases hrun
          exact absurd hover ho

theorem Alike.start (h : m.Alike R n) (scope : ScopeId) (hd : R.Pairs code d)
    (hfree : { m with frames := .empty }.refusal? code = none) :
    ∃ m' n', m.start code scope = .running m' ∧ n.start d scope = .running n' ∧
      m'.Alike R n' := by
  have hbare : { m with frames := .empty }.Alike R { n with frames := .empty } :=
    h.with_frames .nil
  have hstart : Progress.Mirrored R (m.start code scope) (n.start d scope) := by
    rw [Machine.start, Machine.start, enter_eq_settle, enter_eq_settle]
    exact Alike.settle (hbare.tryEnter hd hfree)
  have hentered : ∃ m', m.start code scope = .running m' := by
    rw [Machine.start, enter, hfree]
    exact ⟨_, rfl⟩
  obtain ⟨m', hm'⟩ := hentered
  rw [hm'] at hstart
  generalize n.start d scope = p at hstart
  cases hstart with
  | running h' => exact ⟨m', _, hm', rfl, h'⟩

/-- Runs of machines that are alike, of blocks that stand for each other. -/
theorem Alike.hostedIn (hnatives : ∀ r ∈ m.natives, r.Mirrors R)
    (hfree : m.Unhindered code scope) (ho : ¬ o.overflows) (h : m.Alike R n) (hd : R.Pairs code d)
    (hrun : m.hostedIn budget code scope = .ended (o, left)) :
    ∃ left', n.hostedIn budget d scope = .ended (o, left') ∧ left.Alike R left' ∧
      left'.frames = left.frames ∧
      n.executedIn budget d scope = m.executedIn budget code scope := by
  obtain ⟨m', n', hm, hn, h'⟩ := h.start scope hd hfree.start
  rw [hostedIn_eq, hm, Hosted.map_eq_ended_iff] at hrun
  obtain ⟨⟨p, k⟩, hrun, heq⟩ := hrun
  obtain ⟨rfl, rfl⟩ := Prod.mk.inj heq
  obtain ⟨k', hrun', hk, hsame⟩ := Alike.hosted hnatives hfree.steps ho (hm ▸ .start) h' hrun
  refine ⟨{ k' with frames := .empty }, ?_, hk.with_frames .nil, rfl, ?_⟩
  · rw [hostedIn_eq, hn, Progress.host, hrun']
    rfl
  · rw [executedIn, executedIn, hm, hn]
    exact hsame

/-- The same machine with the limits and the blocks of the other one. -/
theorem Alike.eq_with (h : m.Alike R n) (hframes : n.frames = m.frames) :
    n = { m with limits, store := { m.store with blocks := n.store.blocks } } := by
  obtain ⟨store, natives, limits', frames, log⟩ := n
  obtain rfl := h.natives
  obtain rfl := h.limits
  obtain rfl := h.log
  obtain rfl := hframes
  rw [← h.store.eq_with]

theorem alike_with {blocks : Array CodeBlock} (hrefl : ∀ c, R.Pairs c c)
    (hlimits : m.limits.AtMost limits) (hstore : m.store.Alike R { m.store with blocks }) :
    m.Alike R { m with limits, store := { m.store with blocks } } :=
  ⟨rfl, hlimits, rfl, rfl, hstore, List.forall₂_same.mpr fun f _ => ⟨f.code, hrefl _, rfl⟩⟩

/-- Limits are transparent. If a run ends that is never refused a frame and overflows none, it
executes the same instructions and ends in the same way under larger limits. It also does so if the
blocks declare more room that the host can hand out, as long as the natives do not ask for it. -/
theorem transparent_of_hostedIn {k : Limits} (hlimits : m.limits.AtMost k)
    (hrun : m.hostedIn budget code scope = .ended (o, left)) (hfree : m.Unhindered code scope)
    (ho : ¬ o.overflows) :
    ({ m with limits := k }.hostedIn budget code scope = .ended (o, { left with limits := k }) ∧
      { m with limits := k }.executedIn budget code scope = m.executedIn budget code scope) ∧
    ∀ d blocks, code.Resized k d → m.store.Alike (.all k) { m.store with blocks } →
      (∀ r ∈ m.natives, r.Mirrors (.all k)) → ∃ blocks',
        { m with limits := k, store := { m.store with blocks } }.hostedIn budget d scope =
          .ended (o, { left with limits := k, store := { left.store with blocks := blocks' } }) ∧
        { m with limits := k, store := { m.store with blocks } }.executedIn budget d scope =
          m.executedIn budget code scope := by
  constructor
  · have halike : m.Alike (.same k) { m with limits := k } :=
      alike_with (fun _ => rfl) hlimits (Store.alike_same_iff.mpr rfl)
    obtain ⟨left', hrun', hleft, hframes, hsame⟩ :=
      halike.hostedIn (fun r _ => r.mirrors_same) hfree ho rfl hrun
    have heq := hleft.eq_with hframes
    rw [Store.alike_same_iff.mp hleft.store] at heq
    exact ⟨heq ▸ hrun', hsame⟩
  · intro d blocks hd hstore hnatives
    have halike := alike_with (CodeBlock.Resized.refl k) hlimits hstore
    obtain ⟨left', hrun', hleft, hframes, hsame⟩ := halike.hostedIn hnatives hfree ho hd hrun
    refine ⟨left'.store.blocks, ?_, hsame⟩
    rw [← hleft.eq_with hframes]
    exact hrun'

/-! ### The smallest limits -/

/-- Returns a constant. -/
def constantCode : CodeBlock :=
  { (default : CodeBlock) with
    code := #[Opcode.loadConst.byte, 0, 0, Opcode.return_.byte]
    constants := #[.integer 7]
    maxStack := 1 }

/-- One frame, with room for one operand. -/
def smallest : Machine :=
  { natives := (Prelude.natives 0).toArray, limits := ⟨1, 1⟩ }

theorem smallest_returns : ∃ budget left,
    smallest.hostedIn budget constantCode 0 = .ended (.value (.integer 7), left) := by
  let f : Frame := { code := constantCode, scope := 0 }
  let g : Frame := { f with stack := Stack.empty.push (.integer 7), pc := 3 }
  have hload : f.Fetches ⟨0, .loadConst, .short 0⟩ :=
    Instruction.decodeAt_eq_ok_iff.mpr ⟨rfl, rfl, by decide⟩
  have hreturn : g.Fetches ⟨3, .return_, .none⟩ :=
    Instruction.decodeAt_eq_ok_iff.mpr ⟨rfl, rfl, by decide⟩
  have hvisit : smallest.Visits constantCode 0 (.running
      ({ smallest with log := #[.framePushed constantCode.name 1] }.alone ⟨f, smallest.store⟩)) :=
    .start
  have hloaded := hvisit.concluded (.step hload rfl (.refl _))
  obtain ⟨log, steps, hrun⟩ := hloaded.exists_runIn_of_returns (p := ⟨g, smallest.store⟩)
    (.inr ⟨_, .empty, hreturn, rfl, rfl⟩)
  have hgranted : smallest.limits.Granted := by
    rw [Limits.Granted]
    decide
  have hended := (result?_hostedIn hgranted).trans (hrun 0)
  exact ⟨_, _, Hosted.result?_eq_some_iff.mp hended⟩

theorem smallest_native {r : Native} (h : r ∈ smallest.natives) : r ∈ Prelude.natives 0 := by
  simpa [smallest] using h

theorem smallest_unhindered : smallest.Unhindered constantCode 0 := by
  refine .of_runsOnly rfl (runsOnly_of_store ?_ ?_ fun r hr => ?_)
  · decide
  · exact fun _ => List.not_mem_nil
  · exact Prelude.keepsCode (smallest_native hr)

/-- A constant that is returned under the smallest limits, and with more room. -/
theorem transparent_constant :
    let k : Limits := ⟨4, 2⟩
    ∃ budget left blocks,
      smallest.hostedIn budget constantCode 0 = .ended (.value (.integer 7), left) ∧
      { smallest with limits := k }.hostedIn budget { constantCode with maxStack := 3 } 0 =
        .ended (.value (.integer 7),
          { left with limits := k, store := { left.store with blocks } }) := by
  intro k
  obtain ⟨budget, left, hrun⟩ := smallest_returns
  have hroom : constantCode.Resized k { constantCode with maxStack := 3 } :=
    ⟨rfl, by decide, Nat.le_refl _, .inr (by decide)⟩
  have hstore : smallest.store.Alike (.all k) smallest.store :=
    ⟨rfl, rfl, rfl, rfl, rfl, fun _ => .refl _ _⟩
  obtain ⟨blocks, hrun', -⟩ := (transparent_of_hostedIn (k := k) ⟨by decide, by decide⟩ hrun
    smallest_unhindered (by simp [Outcome.overflows])).2 _ smallest.store.blocks hroom hstore
    fun r hr => Prelude.mirrors (smallest_native hr)
  exact ⟨budget, left, blocks, hrun, hrun'⟩

/-- Room that larger limits allow, but that the host cannot hand out, is not transparent: the same
constant is returned with room for one operand, and crashes the host with room for more. -/
theorem crashed_with_room :
    let k : Limits := ⟨2 ^ 62, 1⟩
    let d : CodeBlock := { constantCode with maxStack := 2 ^ 62 }
    smallest.limits.AtMost k ∧ smallest.Unhindered constantCode 0 ∧
      (∃ budget left,
        smallest.hostedIn budget constantCode 0 = .ended (.value (.integer 7), left)) ∧
      constantCode.maxStack ≤ d.maxStack ∧ d.maxStack ≤ k.maxStackSize ∧
      ∀ budget, { smallest with limits := k }.hostedIn (budget + 1) d 0 = .crashed := by
  intro k d
  refine ⟨⟨by decide, by decide⟩, smallest_unhindered, smallest_returns, by decide, by decide,
    fun budget => ?_⟩
  have hroom : ¬ d.Allocatable := by decide
  have hstart : { smallest with limits := k }.start d 0 = .running
      { smallest with
        limits := k, log := #[.framePushed d.name 1]
        frames := Stack.empty.push { code := d, scope := 0 } } :=
    rfl
  rw [hostedIn_eq, hstart, Progress.host, hosted_succ_eq_crashed]
  · rfl
  · rwa [allocated_iff rfl]

end Machine

end ScriptMachine
