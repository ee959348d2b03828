import ScriptMachine.Proofs.Machine.Effect
import ScriptMachine.Proofs.Machine.Run

/-! Invariants of the active frames. An invariant says what holds of the innermost frame between
two steps, of a frame that waits for a call to return, and of one that has been interrupted. What
single instructions preserve is then preserved by calls, returns, unwinding and whole runs. -/

namespace ScriptMachine

/-! ### Frames between two steps -/

namespace Frame

/-- The frame when an instruction has been read. -/
def fetched (f : Frame) (i : Instruction) : Frame :=
  { f with lastOffset := f.pc, pc := i.next }

@[simp]
theorem code_fetched (f : Frame) (i : Instruction) : (f.fetched i).code = f.code :=
  rfl

@[simp]
theorem sp_fetched (f : Frame) (i : Instruction) : (f.fetched i).sp = f.sp :=
  rfl

@[simp]
theorem blocks_fetched (f : Frame) (i : Instruction) : (f.fetched i).blocks = f.blocks :=
  rfl

/-- The instruction that a frame reads next. -/
def Fetches (f : Frame) (i : Instruction) : Prop :=
  Instruction.decodeAt f.code.code f.pc = .ok i

/-- The frame when a handler has restored it, before the exception lies on top. -/
def restored (f : Frame) (h : Handler) : Frame :=
  { f.truncate h.sp with scope := h.scope, pc := h.entry }

theorem code_restored {f g : Frame} {r : Handler} (h : f.takeHandler = (some r, g)) :
    (g.restored r).code = f.code := by
  obtain ⟨rest, -, rfl⟩ := takeHandler_eq_some_iff.mp h
  rfl

end Frame

namespace Machine

/-! ### Invariants -/

/-- What holds of frames and of the store in the runs of machines with the given natives and
limits, by what the steps of such a machine do. -/
structure Invariant (natives : Array Native) (limits : Limits) where
  /-- The innermost frame between two steps. -/
  running : Frame → Prop
  /-- A frame that waits for a call to return. -/
  suspended : Frame → Prop
  /-- A frame that an exception has reached. -/
  raising : Frame → Prop
  /-- The innermost frame at the end of a run. -/
  left : Frame → Prop
  /-- Code that may be called. -/
  code : CodeBlock → Prop
  store : Store → Prop
  entered {c : CodeBlock} {e : ScopeId} : code c → c.maxStack ≤ limits.maxStackSize →
    c.maxBlocks ≤ limits.maxStackSize → running { code := c, scope := e }
  proceeds {f g : Frame} {i : Instruction} {t : Store} : running f → f.Fetches i →
    i.Effect (f.fetched i) t .proceed g → running g
  calls {f g : Frame} {i : Instruction} {t : Store} {c : CodeBlock} {e : ScopeId} :
    running f → f.Fetches i → i.Effect (f.fetched i) t (.enter c e) g → suspended g
  interrupted {f g : Frame} {i : Instruction} {e : Exception} : running f → f.Fetches i →
    i.Interrupted natives (f.fetched i) (.raised e) g → raising g
  returned {f g : Frame} {v : Value} : suspended f → f.push v = .ok g → running g
  reached {f : Frame} : suspended f → raising f
  delivered {f g h : Frame} {r : Frame.Handler} {v : Value} : raising f →
    f.takeHandler = (some r, g) → (g.restored r).push v = .ok h → running h
  left_of_running {f : Frame} : running f → left f
  left_of_raising {f : Frame} : raising f → left f
  left_of_faulted {f g : Frame} {i : Instruction} {y : Fault} : running f → f.Fetches i →
    i.Interrupted natives (f.fetched i) (.fault y) g → left g
  left_of_restored {f g : Frame} {r : Frame.Handler} : raising f →
    f.takeHandler = (some r, g) → left (g.restored r)
  stored {f g : Frame} {i : Instruction} {s t : Store} {next : Next} : store s →
    i.execute natives ⟨f, s⟩ = .ok next ⟨g, t⟩ → store t
  stored_of_interrupted {f g : Frame} {i : Instruction} {s t : Store} {e : Interrupt} : store s →
    i.execute natives ⟨f, s⟩ = .error e ⟨g, t⟩ → store t
  callable {s : Store} (id : CodeId) : store s → code (s.block id)

namespace Invariant

variable {natives : Array Native} {limits : Limits} (I : Invariant natives limits)

/-- Where a fault of a run comes from, with the frames that it leaves. -/
inductive Cause : Fault → Stack Frame → Prop where
  | stackLimit {c : CodeBlock} {frames : Stack Frame} : limits.maxStackSize < c.maxStack →
      Cause (.stackLimitExceeded c.maxStack limits.maxStackSize) frames
  | blockLimit {c : CodeBlock} {frames : Stack Frame} : limits.maxStackSize < c.maxBlocks →
      Cause (.blockLimitExceeded c.maxBlocks limits.maxStackSize) frames
  | decoding {f : Frame} {below : Stack Frame} {y : Fault} : I.running f →
      f.pc < f.code.code.size → Instruction.decodeAt f.code.code f.pc = .error y →
      Cause y (below.push f)
  | instruction {f g : Frame} {below : Stack Frame} {i : Instruction} {y : Fault} :
      I.running f → f.Fetches i → i.Interrupted natives (f.fetched i) (.fault y) g →
      Cause y (below.push g)
  | returning {f : Frame} {below : Stack Frame} {v : Value} {y : Fault} : I.suspended f →
      f.push v = .error y → Cause y (below.push f)
  | delivering {f g : Frame} {below : Stack Frame} {r : Frame.Handler} {v : Value} {y : Fault} :
      I.raising f → f.takeHandler = (some r, g) → (g.restored r).push v = .error y →
      Cause y (below.push (g.restored r))

/-- What holds of a machine apart from its frames. -/
structure Fits (m : Machine) : Prop where
  natives_eq : m.natives = natives
  limits_eq : m.limits = limits
  store : I.store m.store
  depth : m.frames.height ≤ limits.maxRecursionDepth

/-- Frames of which the innermost one satisfies `P` and all others wait. -/
def Nested (P : Frame → Prop) (frames : Stack Frame) : Prop :=
  ∃ f below, frames = Stack.push below f ∧ P f ∧ ∀ g ∈ below.toList, I.suspended g

/-- What holds of everything that a run comes to. -/
def Holds : Progress → Prop
  | .running m => I.Fits m ∧ I.Nested I.running m.frames
  | .finished o m => I.Fits m ∧ (m.frames = .empty ∨ I.Nested I.left m.frames) ∧
      ∀ y trace, o = .fault y trace → I.Cause y m.frames

variable {I} {m : Machine} {f : Frame} {below : Stack Frame}

/-- What holds of frames between two steps, of those that wait and of those that are left holds of
all frames. -/
theorem Holds.forall_frames {Q : Frame → Prop} {p : Progress} (h : I.Holds p)
    (hrunning : ∀ f, I.running f → Q f) (hsuspended : ∀ f, I.suspended f → Q f)
    (hleft : ∀ f, I.left f → Q f) : ∀ f ∈ p.machine.frames.toList, Q f := by
  have hnested {P : Frame → Prop} {frames : Stack Frame} (hframes : I.Nested P frames)
      (himp : ∀ f, P f → Q f) : ∀ f ∈ frames.toList, Q f := by
    obtain ⟨f, below, rfl, hf, hbelow⟩ := hframes
    rw [Stack.toList_push, List.forall_mem_cons]
    exact ⟨himp f hf, fun g hg => hsuspended g (hbelow g hg)⟩
  cases p with
  | running m => exact hnested h.2 hrunning
  | finished o m =>
      rcases h.2.1 with hnone | hframes
      · simp [Progress.machine, hnone]
      · exact hnested hframes hleft

/-! ### Interrupts -/

theorem Fits.report (h : I.Fits m) (e : Event) : I.Fits (m.report e) :=
  ⟨h.natives_eq, h.limits_eq, h.store, h.depth⟩

theorem Nested.mono {P Q : Frame → Prop} {frames : Stack Frame} (h : I.Nested P frames)
    (himp : ∀ f, P f → Q f) : I.Nested Q frames := by
  obtain ⟨f, below, rfl, hf, hbelow⟩ := h
  exact ⟨f, below, rfl, himp f hf, hbelow⟩

theorem holds_abort {y : Fault} (hfits : I.Fits m)
    (hleft : m.frames = .empty ∨ I.Nested I.left m.frames) (hcause : I.Cause y m.frames) :
    I.Holds (m.abort y) := by
  refine ⟨hfits.report _, hleft, fun z trace hz => ?_⟩
  cases hz
  exact hcause

/-- To unwind only removes frames and writes to the log. -/
theorem unwind_eq (m : Machine) :
    ∃ log, m.unwind = { m with frames := m.frames.popWhile (!·.catches), log } := by
  have hreport (l : List Frame) (n : Machine) : ∃ log,
      l.foldl (fun m f => m.report (.frameUnwound f.code.name)) n = { n with log } := by
    induction l generalizing n with
    | nil => exact ⟨n.log, rfl⟩
    | cons f rest ih => exact ih (n.report _)
  exact hreport _ _

/-- Delivering to the innermost handler of a frame that has one. -/
theorem holds_deliver {e : Exception} (hfits : I.Fits m)
    (hdepth : m.frames.height < limits.maxRecursionDepth)
    (hbelow : ∀ g ∈ m.frames.toList, I.suspended g) (hf : I.raising f) (hcatches : f.catches) :
    I.Holds (m.deliver e f) := by
  obtain ⟨r, hr⟩ := Option.isSome_iff_exists.mp (Frame.takeHandler_isSome hcatches)
  have htake : f.takeHandler = (some r, f.takeHandler.2) := by rw [← hr]
  have hfits' (h : Frame) (log : Array Event) :
      I.Fits { m with frames := m.frames.push h, log } :=
    ⟨hfits.natives_eq, hfits.limits_eq, hfits.store, hdepth⟩
  rw [deliver, htake]
  cases hput : (f.takeHandler.2.restored r).push (.exception e.markCaught) with
  | ok h =>
      rw [Frame.restored] at hput
      simp only [hput]
      exact ⟨hfits' h _, h, m.frames, rfl, I.delivered hf htake hput, hbelow⟩
  | error y =>
      have hcause := hput
      rw [Frame.restored] at hput
      simp only [hput]
      exact holds_abort (hfits' _ _)
        (.inr ⟨_, m.frames, rfl, I.left_of_restored hf htake, hbelow⟩)
        (.delivering hf htake hcause)

/-- After a frame on which others wait has been reached by an exception, the exception goes to the
innermost handler, in this frame or in one of the others. -/
theorem holds_raise {e : Exception} (hfits : I.Fits m) (hframes : I.Nested I.raising m.frames) :
    I.Holds (m.raise e) := by
  rw [raise]
  split
  · exact ⟨hfits.report _, .inr (hframes.mono fun _ => I.left_of_raising), fun _ _ h => by cases h⟩
  obtain ⟨log, hunwind⟩ := unwind_eq (m.report (.raised e.message))
  rw [hunwind]
  obtain ⟨top, below, hstack, htop, hbelow⟩ := hframes
  rcases (m.frames.popWhile (!·.catches)).eq_empty_or_push with hnone | ⟨f, rest, hsome⟩
  · simp only [report, hnone, Stack.pop?_empty]
    exact ⟨⟨hfits.natives_eq, hfits.limits_eq, hfits.store, Nat.zero_le _⟩, .inl rfl,
      fun _ _ h => by cases h⟩
  · simp only [report, hsome, Stack.pop?_push]
    have hlist := congrArg Stack.toList hsome
    rw [Stack.toList_popWhile, Stack.toList_push] at hlist
    have hcatches : f.catches := by simpa using Stack.not_of_popWhile_eq_push hsome
    have hheight := Stack.height_popWhile_le m.frames (!·.catches)
    rw [hsome, Stack.height_push] at hheight
    have hdepth := hfits.depth
    -- what is left of the frames is all of them, or only frames that wait
    have hframes : I.raising f ∧ ∀ g ∈ rest.toList, I.suspended g := by
      have hsuffix := List.dropWhile_suffix (l := m.frames.toList) (!·.catches)
      rw [hlist, hstack, Stack.toList_push, List.suffix_cons_iff] at hsuffix
      rcases hsuffix with heq | hsuffix
      · obtain ⟨rfl, hrest⟩ := List.cons.inj heq
        exact ⟨htop, hrest ▸ hbelow⟩
      · have hmem := hsuffix.subset
        exact ⟨I.reached (hbelow f (hmem (by simp))),
          fun g hg => hbelow g (hmem (List.mem_cons_of_mem _ hg))⟩
    exact holds_deliver ⟨hfits.natives_eq, hfits.limits_eq, hfits.store, by simp only; omega⟩
      (by simp only; omega) hframes.2 hframes.1 hcatches

/-! ### Calls and returns -/

/-- Entering a block: the frames below wait, if there are any. -/
theorem holds_enter {c : CodeBlock} {e : ScopeId} (hfits : I.Fits m) (hcode : I.code c)
    (hframes : ∀ g ∈ m.frames.toList, I.suspended g) : I.Holds (m.enter c e) := by
  have hnested {P : Frame → Prop} (himp : ∀ f, I.suspended f → P f) :
      m.frames = .empty ∨ I.Nested P m.frames := by
    rcases m.frames.eq_empty_or_push with hnone | ⟨f, below, hsome⟩
    · exact .inl hnone
    · rw [hsome, Stack.toList_push, List.forall_mem_cons] at hframes
      exact .inr ⟨f, below, hsome, himp f hframes.1, hframes.2⟩
  have hleft := hnested fun f hf => I.left_of_raising (I.reached hf)
  have hlimits := hfits.limits_eq
  rw [enter, refusal?, hlimits]
  split
  · rename_i y hrefused
    split at hrefused
    · cases hrefused
      exact ⟨hfits.report _, hleft, fun _ _ h => by cases h⟩
    split at hrefused
    · rename_i hstack
      cases hrefused
      exact holds_abort hfits hleft (.stackLimit hstack)
    split at hrefused
    · rename_i hblocks
      cases hrefused
      exact holds_abort hfits hleft (.blockLimit hblocks)
    · cases hrefused
  · rename_i hallowed
    split at hallowed
    · cases hallowed
    rename_i hdepth
    split at hallowed
    · cases hallowed
    rename_i hstack
    split at hallowed
    · cases hallowed
    rename_i hblocks
    refine ⟨⟨hfits.natives_eq, hfits.limits_eq, hfits.store, ?_⟩, _, m.frames, rfl,
      I.entered hcode (by omega) (by omega), hframes⟩
    simp only [report, Stack.height_push]
    omega

/-- The innermost frame returns. -/
theorem holds_leave {v : Value} (hfits : I.Fits m) (hframes : m.frames = below.push f)
    (hbelow : ∀ g ∈ below.toList, I.suspended g) : I.Holds (m.leave v) := by
  have hheight : below.height + 1 ≤ limits.maxRecursionDepth := by
    have hdepth := hfits.depth
    rwa [hframes, Stack.height_push] at hdepth
  have hfits' {frames : Stack Frame} (log : Array Event)
      (hle : frames.height ≤ below.height) : I.Fits { m with frames, log } :=
    ⟨hfits.natives_eq, hfits.limits_eq, hfits.store, by simp only; omega⟩
  simp only [leave, hframes, Stack.pop?_push, report]
  rcases below.eq_empty_or_push with hnone | ⟨caller, rest, hsome⟩
  · simp only [hnone, Stack.pop?_empty]
    exact ⟨hfits' _ (Nat.zero_le _), .inl rfl, fun _ _ h => by cases h⟩
  · rw [hsome, Stack.toList_push, List.forall_mem_cons] at hbelow
    simp only [hsome, Stack.pop?_push]
    cases hput : caller.push v with
    | ok g =>
        exact ⟨hfits' _ (by simp [hsome]), g, rest, rfl, I.returned hbelow.1 hput, hbelow.2⟩
    | error y =>
        exact holds_abort (hfits' _ (by simp [hsome]))
          (.inr ⟨caller, rest, rfl, I.left_of_raising (I.reached hbelow.1), hbelow.2⟩)
          (.returning hbelow.1 hput)

/-! ### Steps and runs -/

/-- Executing the instruction that the innermost frame has read. -/
theorem holds_advance {i : Instruction} (hfits : I.Fits m)
    (hdepth : below.height < limits.maxRecursionDepth) (hf : I.running f) (hi : f.Fetches i)
    (hbelow : ∀ g ∈ below.toList, I.suspended g) :
    I.Holds (m.advance (f.fetched i) below i) := by
  obtain ⟨store, nats, lims, frames, log⟩ := m
  obtain rfl := hfits.natives_eq
  obtain rfl := hfits.limits_eq
  have hfits' {t : Store} (g : Frame) (ht : I.store t) :
      I.Fits ⟨t, nats, lims, below.push g, log⟩ := ⟨rfl, rfl, ht, hdepth⟩
  rw [advance]
  split
  · rename_i next g t hexecute
    have ht := I.stored hfits.store hexecute
    have heffect := Instruction.execute_ok rfl hexecute
    cases next with
    | proceed => exact ⟨hfits' g ht, g, below, rfl, I.proceeds hf hi heffect, hbelow⟩
    | enter c e =>
        have hcode : I.code c := by
          cases heffect
          exact I.callable _ ht
        refine holds_enter (hfits' g ht) hcode ?_
        rw [Stack.toList_push, List.forall_mem_cons]
        exact ⟨I.calls hf hi heffect, hbelow⟩
    | leave v => exact holds_leave (hfits' g ht) rfl hbelow
  · rename_i e g t hexecute
    have ht := I.stored_of_interrupted hfits.store hexecute
    have hinterrupted := Instruction.execute_error rfl hexecute
    cases e with
    | raised e =>
        exact holds_raise (hfits' g ht) ⟨g, below, rfl, I.interrupted hf hi hinterrupted, hbelow⟩
    | fault y =>
        exact holds_abort (hfits' g ht)
          (.inr ⟨g, below, rfl, I.left_of_faulted hf hi hinterrupted, hbelow⟩)
          (.instruction hf hi hinterrupted)

theorem holds_step (hfits : I.Fits m) (hframes : I.Nested I.running m.frames) :
    I.Holds m.step := by
  obtain ⟨f, below, hstack, hf, hbelow⟩ := hframes
  simp only [step, hstack, Stack.pop?_push]
  have hdepth := hfits.depth
  rw [hstack, Stack.height_push] at hdepth
  split
  · exact holds_leave hfits hstack hbelow
  rename_i hinside
  split
  · rename_i y hdecode
    have hleft : I.Nested I.left m.frames := ⟨f, below, hstack, I.left_of_running hf, hbelow⟩
    refine holds_abort hfits (.inr hleft) ?_
    rw [hstack]
    exact .decoding hf (by omega) hdecode
  · rename_i i hdecode
    exact holds_advance hfits hdepth hf hdecode hbelow

/-- An invariant holds of everything that a run comes to. -/
theorem holds_of_visits (I : Invariant m.natives m.limits) {c : CodeBlock} {e : ScopeId}
    {p : Progress} (hcode : I.code c) (hstore : I.store m.store) (h : m.Visits c e p) :
    I.Holds p := by
  induction h with
  | start => exact holds_enter ⟨rfl, rfl, hstore, Nat.zero_le _⟩ hcode (by simp)
  | step _ ih => exact holds_step ih.1 ih.2

end Invariant

end Machine

end ScriptMachine
