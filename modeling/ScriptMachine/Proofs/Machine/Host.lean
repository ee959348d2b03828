import ScriptMachine.Machine.Host
import ScriptMachine.Proofs.Machine.Bounds

/-! Runs on the host. A run ends there just as it does without a host, if the host can hand out the
stacks of every frame that the run enters; if it cannot, it crashes. Limits that the host can grant
keep every run from crashing it. -/

namespace ScriptMachine

/-- The host can hand out all that the limits let a block declare. -/
def Limits.Granted (l : Limits) : Prop :=
  l.maxStackSize * Block.bytes ≤ maxAllocation

theorem CodeBlock.allocatable_of_granted {l : Limits} {b : CodeBlock} (h : l.Granted)
    (hstack : b.maxStack ≤ l.maxStackSize) (hblocks : b.maxBlocks ≤ l.maxStackSize) :
    b.Allocatable := by
  rw [Limits.Granted, Block.bytes] at h
  rw [Allocatable, Value.bytes, Block.bytes]
  omega

theorem Hosted.result?_eq_some_iff {α : Type} {x : Hosted α} {result : α} :
    x.result? = some result ↔ x = .ended result := by
  cases x <;> simp [result?]

theorem Hosted.map_eq_ended_iff {α β : Type} {f : α → β} {x : Hosted α} {result : β} :
    x.map f = .ended result ↔ ∃ a, x = .ended a ∧ f a = result := by
  cases x <;> simp [map]

/-- Goes on with a run on the host, for at most `budget` steps. -/
def Progress.host (budget : Nat) : Progress → Hosted (Outcome × Machine)
  | .running m => m.hosted budget
  | .finished o m => .ended (o, m)

namespace Machine

variable {m n : Machine} {code : CodeBlock} {scope : ScopeId} {budget : Nat} {p : Progress}
  {r : Outcome × Machine}

theorem allocated_iff {f : Frame} {below : Stack Frame} (h : m.frames = below.push f) :
    m.Allocated ↔ f.code.Allocatable := by
  simp [Allocated, h]

/-- The next step on the host is the next step, if the host has the memory for it. -/
theorem hosted_succ (h : m.Allocated) : m.hosted (budget + 1) = m.step.host budget := by
  rw [hosted, if_pos h]
  cases m.step <;> rfl

theorem hosted_succ_eq_crashed (h : ¬ m.Allocated) : m.hosted (budget + 1) = .crashed := by
  rw [hosted, if_neg h]

theorem hosted_succ_eq_ended_iff :
    m.hosted (budget + 1) = .ended r ↔ m.Allocated ∧ m.step.host budget = .ended r := by
  rcases Decidable.em m.Allocated with hroom | hroom
  · simp [hosted_succ hroom, hroom]
  · simp [hosted_succ_eq_crashed hroom, hroom]

/-- A run on the host is what its start goes on to, with the frames dropped. -/
theorem hostedIn_eq (budget : Nat) : m.hostedIn budget code scope =
    ((m.start code scope).host budget).map fun r => (r.1, { r.2 with frames := .empty }) := by
  rw [hostedIn]
  cases m.start code scope <;> rfl

/-! ### Runs that end -/

/-- The host does not change how a run ends. -/
theorem resume_of_host (h : p.host budget = .ended r) : p.resume budget = some r := by
  induction budget generalizing p with
  | zero =>
      cases p with
      | running n => cases h
      | finished o n =>
          cases h
          rfl
  | succ budget ih =>
      cases p with
      | running n =>
          rw [resume_succ]
          exact ih (hosted_succ_eq_ended_iff.mp h).2
      | finished o n =>
          cases h
          rfl

theorem host_of_resume (hroom : ∀ n, m.Visits code scope (.running n) → n.Allocated)
    (hvisit : m.Visits code scope p) (h : p.resume budget = some r) : p.host budget = .ended r := by
  induction budget generalizing p with
  | zero =>
      cases p with
      | running n => cases h
      | finished o n =>
          cases h
          rfl
  | succ budget ih =>
      cases p with
      | running n =>
          rw [resume_succ] at h
          exact hosted_succ_eq_ended_iff.mpr ⟨hroom n hvisit, ih hvisit.step h⟩
      | finished o n =>
          cases h
          rfl

/-- A machine from which a run ends has had its stacks. -/
theorem allocated_of_host (h : (Progress.running m).host budget = .ended r) :
    m.Allocated ∧ ∃ k, m.step.host k = .ended r := by
  cases budget with
  | zero => cases h
  | succ k =>
      obtain ⟨hroom, hnext⟩ := hosted_succ_eq_ended_iff.mp h
      exact ⟨hroom, k, hnext⟩

/-- If a run ends on the host, it does so from wherever it has been. -/
theorem Visits.exists_host (h : m.Visits code scope p)
    (hended : (m.start code scope).host budget = .ended r) : ∃ k, p.host k = .ended r := by
  induction h with
  | start => exact ⟨budget, hended⟩
  | step _ ih =>
      obtain ⟨k, hk⟩ := ih
      exact (allocated_of_host hk).2

/-- A run ends on the host exactly if it ends and the host can hand out the stacks of each of its
frames. -/
theorem hostedIn_eq_ended_iff : m.hostedIn budget code scope = .ended r ↔
    m.runIn budget code scope = some r ∧
      ∀ n, m.Visits code scope (.running n) → n.Allocated := by
  rw [hostedIn_eq, runIn_eq, Hosted.map_eq_ended_iff, Option.map_eq_some_iff]
  constructor
  · rintro ⟨ended, hended, rfl⟩
    refine ⟨⟨ended, resume_of_host hended, rfl⟩, fun n hvisit => ?_⟩
    obtain ⟨k, hk⟩ := hvisit.exists_host hended
    exact (allocated_of_host hk).1
  · rintro ⟨⟨ended, hended, rfl⟩, hroom⟩
    exact ⟨ended, host_of_resume hroom .start hended, rfl⟩

/-! ### Runs that crash -/

/-- On the host, too, what a run visits is what its start goes on to, unless it has crashed. -/
theorem Visits.crashed_or_host (h : m.Visits code scope p) :
    (∃ budget, (m.start code scope).host budget = .crashed) ∨
      ∃ steps, ∀ budget, (m.start code scope).host (budget + steps) = p.host budget := by
  induction h with
  | start => exact .inr ⟨0, fun _ => rfl⟩
  | @step n _ ih =>
      obtain hcrashed | ⟨steps, hsteps⟩ := ih
      · exact .inl hcrashed
      rcases Decidable.em n.Allocated with hroom | hroom
      · refine .inr ⟨steps + 1, fun budget => ?_⟩
        rw [Nat.add_comm steps 1, ← Nat.add_assoc, hsteps]
        exact hosted_succ hroom
      · exact .inl ⟨1 + steps, (hsteps 1).trans (hosted_succ_eq_crashed hroom)⟩

/-- A run crashes the host exactly if it enters a frame whose stacks the host cannot hand out. -/
theorem exists_hostedIn_eq_crashed_iff : (∃ budget, m.hostedIn budget code scope = .crashed) ↔
    ∃ n, m.Visits code scope (.running n) ∧ ¬ n.Allocated := by
  have hmap (budget : Nat) : m.hostedIn budget code scope = .crashed ↔
      (m.start code scope).host budget = .crashed := by
    rw [hostedIn_eq]
    cases (m.start code scope).host budget <;> simp [Hosted.map]
  simp only [hmap]
  constructor
  · rintro ⟨budget, h⟩
    have hvisit : m.Visits code scope (m.start code scope) := .start
    generalize m.start code scope = p at h hvisit
    induction budget generalizing p with
    | zero => cases p <;> cases h
    | succ budget ih =>
        cases p with
        | finished o n => cases h
        | running n =>
            rcases Decidable.em n.Allocated with hroom | hroom
            · rw [Progress.host, hosted_succ hroom] at h
              exact ih _ h hvisit.step
            · exact ⟨n, hvisit, hroom⟩
  · rintro ⟨n, hvisit, hroom⟩
    obtain hcrashed | ⟨steps, hsteps⟩ := hvisit.crashed_or_host
    · exact hcrashed
    · exact ⟨1 + steps, (hsteps 1).trans (hosted_succ_eq_crashed hroom)⟩

/-! ### Limits -/

/-- Under limits that the host can grant, every frame of every run can have its stacks. -/
theorem allocated_of_granted (h : m.limits.Granted) (hvisit : m.Visits code scope (.running n)) :
    n.Allocated := by
  intro f hf
  have hbounded := Bounded.of_holds
    ((bounds m.natives m.limits).holds_of_visits trivial trivial hvisit)
  have hframe := hbounded.frames f (List.mem_of_mem_head? hf)
  exact CodeBlock.allocatable_of_granted h hframe.maxStack hframe.maxBlocks

/-- Under such limits a run on the host is the run itself. -/
theorem result?_hostedIn (h : m.limits.Granted) :
    (m.hostedIn budget code scope).result? = m.runIn budget code scope := by
  refine Option.ext fun r => ?_
  rw [Hosted.result?_eq_some_iff, hostedIn_eq_ended_iff]
  exact and_iff_left fun n => allocated_of_granted h

end Machine

end ScriptMachine
