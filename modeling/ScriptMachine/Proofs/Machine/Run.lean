import ScriptMachine.Machine.Basic

/-! Runs as a relation: what a run of a block comes to, step after step. The function that runs a
block ends exactly where the relation does. -/

namespace ScriptMachine

/-- The machine that is left, whether the run goes on or not. -/
def Progress.machine : Progress → Machine
  | .running m => m
  | .finished _ m => m

/-- Goes on with a run, for at most `budget` steps. -/
def Progress.resume (budget : Nat) : Progress → Option (Outcome × Machine)
  | .running m => m.run budget
  | .finished o m => some (o, m)

namespace Machine

/-- What a run of `code` in `scope` comes to: its start, and whatever a step makes of a machine
that the run has reached. -/
inductive Visits (m : Machine) (code : CodeBlock) (scope : ScopeId) : Progress → Prop where
  | start : Visits m code scope (m.start code scope)
  | step {m' : Machine} : Visits m code scope (.running m') → Visits m code scope m'.step

variable {m m' : Machine} {code : CodeBlock} {scope : ScopeId} {o : Outcome}

/-- Going on with a machine that still runs is going on with its next step. -/
theorem resume_succ (budget : Nat) (m : Machine) :
    (Progress.running m).resume (budget + 1) = m.step.resume budget := by
  rw [Progress.resume, run]
  cases m.step <;> rfl

theorem Visits.of_resume {p : Progress} {budget : Nat} {left : Machine}
    (h : m.Visits code scope p) (hresume : p.resume budget = some (o, left)) :
    m.Visits code scope (.finished o left) := by
  induction budget generalizing p with
  | zero =>
      cases p with
      | running n => cases hresume
      | finished q n =>
          cases hresume
          exact h
  | succ budget ih =>
      cases p with
      | running n =>
          rw [resume_succ] at hresume
          exact ih h.step hresume
      | finished q n =>
          cases hresume
          exact h

/-- Whatever a run visits, going on from there is going on from the start for some steps more. -/
theorem Visits.exists_resume {p : Progress} (h : m.Visits code scope p) :
    ∃ steps, ∀ budget,
      (m.start code scope).resume (budget + steps) = p.resume budget := by
  induction h with
  | start => exact ⟨0, fun _ => rfl⟩
  | step _ ih =>
      obtain ⟨steps, hsteps⟩ := ih
      refine ⟨steps + 1, fun budget => ?_⟩
      rw [Nat.add_comm steps 1, ← Nat.add_assoc, hsteps]
      exact resume_succ budget _

/-- A run is what its start goes on to, with the frames dropped. -/
theorem runIn_eq (budget : Nat) : m.runIn budget code scope =
    ((m.start code scope).resume budget).map fun r => (r.1, { r.2 with frames := .empty }) := by
  rw [runIn]
  cases m.start code scope <;> rfl

/-- A run that comes to an end ends there for every budget that is large enough. -/
theorem Visits.exists_runIn (h : m.Visits code scope (.finished o m')) :
    ∃ steps, ∀ budget, m.runIn (budget + steps) code scope =
      some (o, { m' with frames := .empty }) := by
  obtain ⟨steps, hsteps⟩ := h.exists_resume
  refine ⟨steps, fun budget => ?_⟩
  rw [runIn_eq, hsteps]
  rfl

/-- The runs of a block end where the relation ends, with the frames dropped. -/
theorem exists_runIn_eq_some_iff :
    (∃ budget, m.runIn budget code scope = some (o, m')) ↔
      ∃ left, m.Visits code scope (.finished o left) ∧ m' = { left with frames := .empty } := by
  constructor
  · rintro ⟨budget, hrun⟩
    rw [runIn_eq, Option.map_eq_some_iff] at hrun
    obtain ⟨⟨p, left⟩, hleft, heq⟩ := hrun
    obtain ⟨rfl, rfl⟩ := Prod.mk.inj heq
    have hstart : m.Visits code scope (m.start code scope) := .start
    exact ⟨left, hstart.of_resume hleft, rfl⟩
  · rintro ⟨left, hvisit, rfl⟩
    obtain ⟨steps, hsteps⟩ := hvisit.exists_runIn
    exact ⟨0 + steps, hsteps 0⟩

end Machine

end ScriptMachine
