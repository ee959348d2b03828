import ScriptMachine.Proofs.Machine.Bounds
import ScriptMachine.Proofs.Machine.CodeTable

/-! What a run prints: the lines of its calls of `print`, in the order in which they are executed,
whichever frame executes them and whatever becomes of it. -/

namespace ScriptMachine

variable {output : Nat}

/-! ### Natives that print -/

/-- The line for some arguments: their texts with a space between neighbours, and a line feed. -/
def Store.line (s : Store) (args : List Value) : String :=
  " ".intercalate (args.map s.inspect) ++ "\n"

/-- From one store to another, calls of `print` have written these lines to an output, and whatever
else has happened has left the output alone. -/
inductive Store.Prints (output : Nat) : Store → List String → Store → Prop where
  | silent {s t : Store} : t.outputs[output]? = s.outputs[output]? → Prints output s [] t
  | printed (s : Store) (args : List Value) :
      Prints output s [s.line args] (s.print output (s.line args))
  | trans {s t u : Store} {lines more : List String} : Prints output s lines t →
      Prints output t more u → Prints output s (lines ++ more) u

theorem Store.Prints.output_eq {s t : Store} {lines : List String} (h : s.Prints output lines t) :
    t.outputs[output]? = s.outputs[output]?.map (· ++ String.join lines) := by
  induction h with
  | silent h => simp [h]
  | printed s args => simp [print, Array.getElem?_modify]
  | trans _ _ ih ih' => simp [ih', ih, Function.comp_def, String.append_assoc]

namespace Native

variable {n : Native}

/-- The store that a call of a native leaves, whether it succeeds or not. -/
def leaves (n : Native) (scope : ScopeId) (args : List Value) (s : Store) : Store :=
  match n.run scope args s with
  | .ok _ t => t
  | .error _ t => t

/-- A call of `print` writes the line for its arguments. -/
theorem leaves_print (scope : ScopeId) (args : List Value) (s : Store) :
    (Prelude.print output).leaves scope args s = s.print output (s.line args) :=
  rfl

/-- A native that writes to an output by calls of `print` only. -/
def PrintsOnly (output : Nat) (n : Native) : Prop :=
  ∀ (scope : ScopeId) (args : List Value) (s : Store),
    ∃ lines, s.Prints output lines (n.leaves scope args s)

/-- A native that never writes to an output. -/
theorem PrintsOnly.of_keeps
    (h : ∀ scope args, Keeps (fun s : Store => s.outputs[output]?) (n.run scope args)) :
    n.PrintsOnly output := by
  intro scope args s
  refine ⟨[], .silent ?_⟩
  rw [leaves]
  cases hrun : n.run scope args s with
  | ok v t => exact (h scope args).ok hrun
  | error e t => exact (h scope args).error hrun

end Native

/-- What interpreters offer writes to an output by its own `print` only. -/
theorem Prelude.printsOnly {other : Nat} {n : Native} (h : n ∈ natives other) :
    n.PrintsOnly output := by
  simp only [natives, List.mem_cons, List.not_mem_nil, or_false] at h
  rcases h with rfl | rfl | rfl | rfl | rfl | rfl | rfl | rfl | rfl | rfl
  · intro scope args s
    by_cases hother : other = output
    · subst hother
      rw [Native.leaves_print]
      exact ⟨_, .printed s args⟩
    · refine ⟨_, .silent ?_⟩
      simp [Native.leaves, print, Store.print, Array.getElem?_modify, hother]
  all_goals exact .of_keeps fun scope args => keeps_pureNative _ _ _ _ _

/-! ### Calls of natives -/

/-- The frame is about to call a native: the native lies on top of the arguments. -/
def Instruction.CallsNative (natives : Array Native) (i : Instruction) (f : Frame) (n : Native)
    (args : List Value) : Prop :=
  i.opcode = .call ∧ ∃ rest r g, f.stack = Stack.push rest (.native r) ∧
    { f with stack := rest }.popN i.arg = .ok (args, g) ∧ r.place.bind (natives[·]?) = some n

namespace Instruction

open ScriptMachine.Action

variable {natives : Array Native} {i : Instruction} {f : Frame} {s t : Store} {n : Native}
  {args : List Value}

theorem Alters.outputs_eq (h : i.Alters natives f s t) (hop : i.opcode ≠ .call) :
    t.outputs = s.outputs := by
  cases h with
  | answered hcall => exact absurd hcall hop
  | refused hcall => exact absurd hcall hop
  | _ => rfl

/-- A call of a native leaves the store that the native leaves. -/
theorem leaves_of_callsNative (h : i.CallsNative natives f n args) :
    (i.execute natives).Leaves ⟨f, s⟩ (· = n.leaves f.scope args s) := by
  obtain ⟨hop, rest, r, g, hstack, hargs, hn⟩ := h
  have hscope : g.scope = f.scope := by
    rw [Frame.popN] at hargs
    split at hargs <;> cases hargs
    rfl
  have hcalled : (callNative natives r args).Leaves ⟨g, s⟩ (· = n.leaves f.scope args s) := by
    rw [← hscope]
    constructor
    · intro v b hok
      simp only [callNative, hn] at hok
      split at hok <;> cases hok
      rename_i hrun
      simp [Native.leaves, hrun]
    · intro e b herror
      simp only [callNative, hn] at herror
      split at herror <;> cases herror
      rename_i hrun
      simp [Native.leaves, hrun]
  have happly : i.execute natives ⟨f, s⟩ =
      (callNative natives r args >>= fun v => push v >>= fun _ => pure Next.proceed) ⟨g, s⟩ := by
    simp only [execute, hop, call, pop_bind_apply hstack]
    change EStateM.bind (popN _) _ _ = _
    rw [EStateM.bind, popN, onFrame, hargs]
  have hleaves := hcalled.bind_keeps (g := fun v => push v >>= fun _ => pure Next.proceed)
    fun v => .onFrame_bind fun _ => .pure _
  exact ⟨fun hok => hleaves.ok (happly ▸ hok), fun herror => hleaves.error (happly ▸ herror)⟩

/-- Any other instruction leaves the outputs alone. -/
theorem leaves_of_not_callsNative (h : ∀ n args, ¬ i.CallsNative natives f n args) :
    (i.execute natives).Leaves ⟨f, s⟩ (·.outputs = s.outputs) := by
  by_cases hop : i.opcode = .call
  · simp only [execute, hop, call]
    refine .pop_bind rfl fun callee rest hstack => .keeps_bind (.onFrame _) rfl ?_
    rintro args ⟨g, t⟩ hok
    obtain ⟨hargs, rfl⟩ := onFrame_eq_ok_iff.mp hok
    have henter (outer : ScopeId) (params : List String) (id : CodeId) :
        Action.Leaves (do
          let scope ← encloseIn outer
          bindArguments scope params args
          return Next.enter (← codeBlock id) scope) ⟨g, s⟩ (·.outputs = s.outputs) := by
      constructor
      · intro next b hok
        rw [enter_apply] at hok
        cases hok
        rfl
      · intro e b herror
        rw [enter_apply] at herror
        cases herror
    split
    · rename_i r
      have hcalled : (callNative natives r args).Leaves ⟨g, s⟩ (·.outputs = s.outputs) := by
        have hn : r.place.bind (natives[·]?) = none := by
          by_contra hsome
          obtain ⟨n, hn⟩ := Option.ne_none_iff_exists'.mp hsome
          exact h n args ⟨hop, rest, r, g, hstack, hargs, hn⟩
        constructor
        · intro v b hok
          simp only [callNative, hn] at hok
          cases hok
          rfl
        · intro e b herror
          simp only [callNative, hn] at herror
          cases herror
      exact .bind_keeps hcalled fun v => .onFrame_bind fun _ => .pure _
    · exact henter _ _ _
    · exact .currentScope_bind (henter _ _ _)
    · exact .of_keeps (.misuse _) rfl
  · have halters := leaves_execute natives i f s
    exact ⟨fun hok => (halters.ok hok).outputs_eq hop,
      fun herror => (halters.error herror).outputs_eq hop⟩

end Instruction

namespace Machine

variable {m : Machine} {f : Frame} {below : Stack Frame} {i : Instruction}

theorem store_settle_tryFollow (m : Machine) (next : Next) :
    (m.tryFollow next).settle.machine.store = m.store := by
  cases next with
  | proceed => rfl
  | enter code scope =>
      rw [tryFollow, tryEnter]
      split
      · exact store_interrupt _ _
      · rfl
  | leave v =>
      rw [tryFollow, tryLeave]
      repeat' split
      all_goals rfl

/-- A step leaves the store that the instruction leaves. -/
theorem store_of_fetches {Q : Store → Prop} (hframes : m.frames = below.push f)
    (hi : f.Fetches i) (h : (i.execute m.natives).Leaves ⟨f.fetched i, m.store⟩ Q) :
    Q m.step.machine.store := by
  rw [step_eq_settle, attempt_eq hframes hi]
  cases hexecute : i.execute m.natives ⟨f.fetched i, m.store⟩ with
  | ok next a =>
      simp only [store_settle_tryFollow]
      exact h.ok hexecute
  | error e a =>
      simp only [Attempt.settle, store_interrupt]
      exact h.error hexecute

/-- The next instruction of the innermost frame calls a native. -/
def Calls (m : Machine) (n : Native) (scope : ScopeId) (args : List Value) : Prop :=
  ∃ f below i, m.frames = Stack.push below f ∧ f.Fetches i ∧
    i.CallsNative m.natives (f.fetched i) n args ∧ scope = f.scope

/-- The lines that the next step writes to an output. -/
inductive NextPrints (m : Machine) (output : Nat) : List String → Prop where
  | printed {scope : ScopeId} {args : List Value} : m.Calls (Prelude.print output) scope args →
      NextPrints m output [m.store.line args]
  /-- Natives of the host may call `print` themselves. -/
  | hosted {n : Native} {scope : ScopeId} {args : List Value} {lines : List String} :
      n ≠ Prelude.print output → m.Calls n scope args →
      m.store.Prints output lines (n.leaves scope args m.store) → NextPrints m output lines
  | silent : (∀ n scope args, ¬ m.Calls n scope args) → NextPrints m output []

/-- What a run has come to, with the lines that it has written to an output on the way. -/
inductive RunPrints (m : Machine) (code : CodeBlock) (scope : ScopeId) (output : Nat) :
    Progress → List String → Prop where
  | start : RunPrints m code scope output (m.start code scope) []
  | step {n : Machine} {lines more : List String} :
      RunPrints m code scope output (.running n) lines → n.NextPrints output more →
      RunPrints m code scope output n.step (lines ++ more)

theorem store_of_calls {n : Native} {scope : ScopeId} {args : List Value}
    (h : m.Calls n scope args) : m.step.machine.store = n.leaves scope args m.store := by
  obtain ⟨f, below, i, hframes, hi, hcalls, rfl⟩ := h
  exact store_of_fetches hframes hi (Instruction.leaves_of_callsNative hcalls)

theorem outputs_of_not_calls (h : ∀ n scope args, ¬ m.Calls n scope args) :
    m.step.machine.store.outputs = m.store.outputs := by
  rcases m.alters_of_step with hkept | ⟨f, below, i, hframes, hi, -⟩
  · rw [hkept]
  · have hnone (n : Native) (args : List Value) : ¬ i.CallsNative m.natives (f.fetched i) n args :=
      fun hcalls => h n f.scope args ⟨f, below, i, hframes, hi, hcalls, rfl⟩
    exact store_of_fetches hframes hi (Instruction.leaves_of_not_callsNative hnone)

/-- A step writes the lines that it is said to write. -/
theorem NextPrints.prints {lines : List String} (h : m.NextPrints output lines) :
    m.store.Prints output lines m.step.machine.store := by
  cases h with
  | printed hcalls =>
      rw [store_of_calls hcalls, Native.leaves_print]
      exact .printed _ _
  | hosted _ hcalls hprints =>
      rw [store_of_calls hcalls]
      exact hprints
  | silent hsilent => exact .silent (by rw [outputs_of_not_calls hsilent])

/-- Every step writes some lines, if no native writes anything else. -/
theorem exists_nextPrints (hnatives : ∀ n ∈ m.natives, n.PrintsOnly output) :
    ∃ lines, m.NextPrints output lines := by
  by_cases hcalls : ∃ n scope args, m.Calls n scope args
  · obtain ⟨n, scope, args, hcalls⟩ := hcalls
    by_cases hprint : n = Prelude.print output
    · subst hprint
      exact ⟨_, .printed hcalls⟩
    · obtain ⟨f, below, i, -, -, ⟨-, rest, r, g, -, -, hn⟩, -⟩ := id hcalls
      obtain ⟨place, -, hplace⟩ := Option.bind_eq_some_iff.mp hn
      obtain ⟨lines, hlines⟩ := hnatives n (Array.mem_of_getElem? hplace) scope args m.store
      exact ⟨lines, .hosted hprint hcalls hlines⟩
  · exact ⟨[], .silent fun n scope args h => hcalls ⟨n, scope, args, h⟩⟩

namespace RunPrints

variable {code : CodeBlock} {scope : ScopeId} {p : Progress} {lines : List String}

theorem visits (h : m.RunPrints code scope output p lines) : m.Visits code scope p := by
  induction h with
  | start => exact .start
  | step _ _ ih => exact ih.step

/-- A run writes its lines, and nothing else, to the output. -/
theorem prints (h : m.RunPrints code scope output p lines) :
    m.store.Prints output lines p.machine.store := by
  induction h with
  | start => exact .silent (by rw [store_start])
  | step _ hnext ih => exact ih.trans hnext.prints

end RunPrints

theorem Visits.exists_runPrints {code : CodeBlock} {scope : ScopeId} {p : Progress}
    (h : m.Visits code scope p) (hnatives : ∀ n ∈ m.natives, n.PrintsOnly output) :
    ∃ lines, m.RunPrints code scope output p lines := by
  induction h with
  | start => exact ⟨[], .start⟩
  | @step n hvisit ih =>
      obtain ⟨lines, hlines⟩ := ih
      have hsame : n.natives = m.natives := natives_of_visits hvisit
      obtain ⟨more, hmore⟩ := exists_nextPrints (m := n) (hsame ▸ hnatives)
      exact ⟨_, hlines.step hmore⟩

/-- A run ends in one way only. -/
theorem Visits.finished_unique {code : CodeBlock} {scope : ScopeId} {o o' : Outcome}
    {left left' : Machine} (h : m.Visits code scope (.finished o left))
    (h' : m.Visits code scope (.finished o' left')) :
    o = o' ∧ { left with frames := .empty } = { left' with frames := .empty } := by
  obtain ⟨steps, hrun⟩ := h.exists_runIn
  obtain ⟨steps', hrun'⟩ := h'.exists_runIn
  have hsame := hrun steps'
  rw [Nat.add_comm, hrun' steps] at hsame
  simp only [Option.some.injEq, Prod.mk.injEq] at hsame
  exact ⟨hsame.1.symm, hsame.2.symm⟩

end Machine

end ScriptMachine
