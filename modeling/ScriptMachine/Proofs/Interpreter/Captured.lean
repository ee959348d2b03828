import ScriptMachine.Interpreter
import ScriptMachine.Proofs.Machine.Host
import ScriptMachine.Proofs.Machine.Printing

/-! The output of an execution. Whatever happened before, an execution begins with an empty output
and answers what its own calls of `print` have written, and it leaves an empty output behind even if
it fails. -/

namespace ScriptMachine

/-! ### Natives of an interpreter -/

namespace Machine

variable {m m' : Machine} {e : ScopeId}

theorem registerNative_eq_ok {n : Native} (h : m.registerNative e n = .ok m') :
    m'.store.outputs = m.store.outputs ∧ m'.natives = m.natives.push n := by
  rw [registerNative] at h
  cases hscopes : (m.addNative n).2.store.scopes.createConst e n.name (m.addNative n).1 with
  | error y =>
      simp only [hscopes] at h
      cases h
  | ok scopes =>
      simp only [hscopes] at h
      cases h
      exact ⟨rfl, rfl⟩

/-- To register natives leaves the outputs as they are. -/
theorem registerAll_eq_ok {natives : List Native} (h : m.registerAll e natives = .ok m') :
    m'.store.outputs = m.store.outputs ∧ m'.natives.toList = m.natives.toList ++ natives := by
  induction natives generalizing m with
  | nil =>
      cases h
      exact ⟨rfl, by simp⟩
  | cons n natives ih =>
      rw [registerAll, List.foldlM_cons] at h
      cases hn : m.registerNative e n with
      | error y =>
          rw [hn] at h
          cases h
      | ok m₁ =>
          rw [hn] at h
          obtain ⟨houtputs, hnatives⟩ := registerNative_eq_ok hn
          obtain ⟨houtputs', hnatives'⟩ := ih h
          exact ⟨houtputs'.trans houtputs, by simp [hnatives', hnatives]⟩

end Machine

namespace Interpreter

variable {i : Interpreter} {m m' : Machine} {code : CodeBlock} {e : ScopeId} {o : Outcome}
  {r : Except Failure Execution} {budget : Nat}

/-! ### Between executions -/

/-- Nothing waits in the output of an interpreter, and natives write to it by `print` only. -/
structure Ready (i : Interpreter) (m : Machine) : Prop where
  empty : m.store.outputs[i.output]? = some ""
  natives : ∀ n ∈ m.natives, n.PrintsOnly i.output

theorem ready_of_create {settings : Settings} (h : create settings m = .ok (i, m'))
    (hnatives : ∀ n ∈ m.natives, n.PrintsOnly i.output) : i.Ready m' := by
  rw [create] at h
  simp only [Store.newOutput] at h
  generalize hregister : Machine.registerAll _ _ _ = registered at h
  cases registered with
  | error y => cases h
  | ok m₁ =>
      cases h
      obtain ⟨houtputs, htable⟩ := Machine.registerAll_eq_ok hregister
      refine ⟨by simp [houtputs], fun n hn => ?_⟩
      rw [← Array.mem_toList_iff, htable, List.mem_append] at hn
      rcases hn with hold | hnew
      · exact hnatives n (Array.mem_toList_iff.mp hold)
      · exact Prelude.printsOnly hnew

/-! ### Before and after a run -/

theorem exists_foldl_report_eq (lines : List String) (m : Machine) :
    ∃ log, lines.foldl (fun m line => m.report (.listed line)) m = { m with log } := by
  induction lines generalizing m with
  | nil => exact ⟨_, rfl⟩
  | cons line lines ih => exact ih (m.report (.listed line))

theorem exists_reportListing_eq (code : CodeBlock) (m : Machine) :
    ∃ log, reportListing code m = { m with log } := by
  rw [reportListing]
  split
  · exact exists_foldl_report_eq _ _
  · exact ⟨_, rfl⟩

/-- Before a run nothing changes but the limits and the log. -/
theorem exists_prepare_eq (i : Interpreter) (code : CodeBlock) (m : Machine) :
    ∃ log, i.prepare code m = { m with limits := i.settings.limits, log } := by
  rw [prepare]
  split
  · exact exists_reportListing_eq _ _
  · exact ⟨_, rfl⟩

/-- After a run what was printed is answered with the value, and taken in any case. -/
theorem conclude_spec (i : Interpreter) (e : ScopeId) (o : Outcome) (m : Machine) :
    (i.conclude e o m).1 =
        (Failure.ofOutcome o).map (⟨·, m.store.outputs.getD i.output ""⟩) ∧
      (i.conclude e o m).2.store = (m.store.takeOutput i.output).2 ∧
      (i.conclude e o m).2.natives = m.natives := by
  rw [conclude]
  cases i.settings.dumpScope <;> cases o <;> exact ⟨rfl, rfl, rfl⟩

/-! ### Executions -/

/-- The answer to an execution has the value of its run, together with all lines that the calls of
`print` in this run have written. -/
structure Captures (i : Interpreter) (m : Machine) (code : CodeBlock) (e : ScopeId)
    (r : Except Failure Execution) : Prop where
  ends : ∃ o left lines,
    (i.prepare code m).RunPrints code e i.output (.finished o left) lines
  answers : ∀ o left lines,
    (i.prepare code m).RunPrints code e i.output (.finished o left) lines →
      r = (Failure.ofOutcome o).map (⟨·, String.join lines⟩)

/-- An execution captures what it prints, and leaves the interpreter ready for the next one. -/
theorem Ready.executeIn (hready : i.Ready m) (h : i.executeIn budget code e m = some (r, m')) :
    i.Captures m code e r ∧ i.Ready m' := by
  obtain ⟨log, hprepare⟩ := i.exists_prepare_eq code m
  have hnatives : ∀ n ∈ (i.prepare code m).natives, n.PrintsOnly i.output := by
    rw [hprepare]
    exact hready.natives
  have hempty : (i.prepare code m).store.outputs[i.output]? = some "" := by
    rw [hprepare]
    exact hready.empty
  rw [Interpreter.executeIn, Option.map_eq_some_iff] at h
  obtain ⟨⟨o, ended⟩, hhosted, hconclude⟩ := h
  obtain ⟨hrun, -⟩ := Machine.hostedIn_eq_ended_iff.mp (Hosted.result?_eq_some_iff.mp hhosted)
  obtain ⟨left, hvisit, rfl⟩ := Machine.exists_runIn_eq_some_iff.mp ⟨budget, hrun⟩
  obtain ⟨lines, hlines⟩ := hvisit.exists_runPrints hnatives
  obtain ⟨hanswer, hstore, htable⟩ := i.conclude_spec e o { left with frames := .empty }
  simp only [hconclude] at hanswer hstore htable
  have hprinted {o' : Outcome} {left' : Machine} {lines' : List String}
      (h : (i.prepare code m).RunPrints code e i.output (.finished o' left') lines') :
      left'.store.outputs[i.output]? = some (String.join lines') := by
    have houtput := h.prints.output_eq
    rw [hempty] at houtput
    simpa [Progress.machine] using houtput
  refine ⟨⟨⟨o, left, lines, hlines⟩, fun o' left' lines' h => ?_⟩, ?_, ?_⟩
  · obtain ⟨rfl, hsame⟩ := hvisit.finished_unique h.visits
    have hstores := congrArg Machine.store hsame
    simp only at hstores
    rw [hanswer, hstores, Array.getD_eq_getD_getElem?, hprinted h]
    rfl
  · have hinside := (Array.getElem?_eq_some_iff.mp (hprinted hlines)).1
    simp [hstore, Store.takeOutput, hinside]
  · rw [htable]
    have hkept : left.natives = (i.prepare code m).natives := Machine.natives_of_visits hvisit
    simpa only [hkept] using hnatives

/-- A new scope inside the global one, in which `execute` runs a block. -/
def inside (i : Interpreter) (m : Machine) : ScopeId × Machine :=
  let (e, scopes) := m.store.scopes.enclose i.globals
  (e, { m with store := { m.store with scopes } })

theorem execute_eq (i : Interpreter) (budget : Nat) (code : CodeBlock) (m : Machine) :
    i.execute budget code m = i.executeIn budget code (i.inside m).1 (i.inside m).2 :=
  rfl

theorem Ready.inside (hready : i.Ready m) : i.Ready (i.inside m).2 :=
  ⟨hready.empty, hready.natives⟩

theorem Ready.execute (hready : i.Ready m) (h : i.execute budget code m = some (r, m')) :
    i.Captures (i.inside m).2 code (i.inside m).1 r ∧ i.Ready m' :=
  hready.inside.executeIn (execute_eq i budget code m ▸ h)

/-! ### Sessions -/

/-- What becomes of a machine with an interpreter: it executes blocks, one after the other and
however each of them ends, and meanwhile the host may do anything that leaves the output alone, such
as to register more natives. -/
inductive Session (i : Interpreter) : Machine → Prop where
  | created {settings : Settings} {m m' : Machine} : create settings m = .ok (i, m') →
      (∀ n ∈ m.natives, n.PrintsOnly i.output) → Session i m'
  | executed {m m' : Machine} {budget : Nat} {code : CodeBlock} {r : Except Failure Execution} :
      Session i m → i.execute budget code m = some (r, m') → Session i m'
  | executedIn {m m' : Machine} {budget : Nat} {code : CodeBlock} {e : ScopeId}
      {r : Except Failure Execution} :
      Session i m → i.executeIn budget code e m = some (r, m') → Session i m'
  | hosted {m m' : Machine} : Session i m →
      m'.store.outputs[i.output]? = m.store.outputs[i.output]? →
      (∀ n ∈ m'.natives, n.PrintsOnly i.output) → Session i m'

/-- At any time in a session nothing waits to be captured. -/
theorem Session.ready (h : i.Session m) : i.Ready m := by
  induction h with
  | created hcreate hnatives => exact ready_of_create hcreate hnatives
  | executed _ hexecute ih => exact (ih.execute hexecute).2
  | executedIn _ hexecute ih => exact (ih.executeIn hexecute).2
  | hosted _ houtput hnatives ih => exact ⟨houtput.trans ih.empty, hnatives⟩

/-- In any session an execution captures exactly what its own run prints. -/
theorem captures_of_session (hsession : i.Session m) :
    m.store.outputs[i.output]? = some "" ∧
      (∀ budget code e r m', i.executeIn budget code e m = some (r, m') →
        i.Captures m code e r) ∧
      ∀ budget code r m', i.execute budget code m = some (r, m') →
        i.Captures (i.inside m).2 code (i.inside m).1 r := by
  have hready := hsession.ready
  refine ⟨hready.empty, fun budget code e r m' h => ?_, fun budget code r m' h => ?_⟩
  · exact (hready.executeIn h).1
  · exact (hready.execute h).1

/-- A block that prints a text and throws the result, and then one that prints another text. -/
theorem captures_afresh :
    let printing (text : String) (last : Opcode) : CodeBlock := { (default : CodeBlock) with
      constants := #[.string text], names := #["print"], maxStack := 2
      code := #[Opcode.loadConst.byte, 0, 0, Opcode.loadGlobal.byte, 0, 0, Opcode.call.byte, 0, 1,
        last.byte] }
    ∃ i m m' y x left, create {} {} = .ok (i, m) ∧
      i.execute 10 (printing "lost" .throw) m = some (.error y, m') ∧ i.Session m' ∧
      i.execute 10 (printing "hello" .return_) m' = some (.ok x, left) ∧ x.printed = "hello\n" ∧
      i.Captures (i.inside m').2 (printing "hello" .return_) (i.inside m').1 (.ok x) := by
  intro printing
  have hruns : ((create {} {}).toOption.any fun r =>
      (r.1.execute 10 (printing "lost" .throw) r.2).any fun s => !s.1.isOk &&
        (r.1.execute 10 (printing "hello" .return_) s.2).any fun t =>
          t.1.toOption.any fun x => x.printed == "hello\n") = true := by
    decide +kernel
  cases hcreate : create {} {} with
  | error y =>
      rw [hcreate] at hruns
      cases hruns
  | ok r =>
      simp only [hcreate, Except.toOption, Option.any_some] at hruns
      obtain ⟨⟨failure, m'⟩, hfailed, hruns⟩ := (Option.any_eq_true _ _).mp hruns
      obtain ⟨hfailure, hruns⟩ := Bool.and_eq_true_iff.mp hruns
      obtain ⟨⟨success, left⟩, hserved, hruns⟩ := (Option.any_eq_true _ _).mp hruns
      cases failure with
      | ok x => cases hfailure
      | error y =>
          cases success with
          | error y => cases hruns
          | ok x =>
              have hsession : r.1.Session m' :=
                (Session.created hcreate (by simp)).executed hfailed
              exact ⟨r.1, r.2, m', y, x, left, rfl, hfailed, hsession, hserved, eq_of_beq hruns,
                (captures_of_session hsession).2.2 _ _ _ _ hserved⟩

end Interpreter

end ScriptMachine
