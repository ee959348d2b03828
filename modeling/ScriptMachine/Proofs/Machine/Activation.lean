import ScriptMachine.Proofs.Machine.Delivery

/-! Runs inside one frame: instructions that neither call nor return, one after the other, up to one
that is interrupted. They are runs of every machine in which the frame is the innermost one. -/

namespace ScriptMachine

/-- What instructions make of an activation: another activation, or an interrupt with the activation
that it has left. -/
inductive Activation.Runs (natives : Array Native) :
    Activation → EStateM.Result Interrupt Activation Unit → Prop where
  | refl (p : Activation) : Runs natives p (.ok () p)
  | step {f : Frame} {s : Store} {i : Instruction} {p : Activation}
      {r : EStateM.Result Interrupt Activation Unit} : f.Fetches i →
      i.execute natives ⟨f.fetched i, s⟩ = .ok .proceed p → Runs natives p r →
      Runs natives ⟨f, s⟩ r
  | interrupted {f : Frame} {s : Store} {i : Instruction} {e : Interrupt} {p : Activation} :
      f.Fetches i → i.execute natives ⟨f.fetched i, s⟩ = .error e p →
      Runs natives ⟨f, s⟩ (.error e p)

theorem Activation.Runs.trans {natives : Array Native} {p q : Activation}
    {r : EStateM.Result Interrupt Activation Unit} (h : Runs natives p (.ok () q))
    (h' : Runs natives q r) : Runs natives p r := by
  generalize hq : EStateM.Result.ok () q = r' at h
  induction h with
  | refl p =>
      cases hq
      exact h'
  | step hi hexecute _ ih => exact .step hi hexecute (ih hq)
  | interrupted => cases hq

/-- How a run ends that is interrupted for good. -/
def Interrupt.outcome (e : Interrupt) (trace : Backtrace) : Outcome :=
  match e with
  | .raised z => .exception z trace
  | .fault y => .fault y trace

namespace Machine

/-- The machine with an activation as its only one. -/
def alone (m : Machine) (p : Activation) : Machine :=
  { m with store := p.store, frames := Stack.empty.push p.frame }

/-- What a run inside the only frame comes to. -/
def concluded (m : Machine) : EStateM.Result Interrupt Activation Unit → Progress
  | .ok () p => .running (m.alone p)
  | .error e p => (m.alone p).interrupt e

variable {m m' : Machine} {code : CodeBlock} {scope : ScopeId} {p : Activation} {v : Value}
  {e : Interrupt}

theorem Visits.concluded {r : EStateM.Result Interrupt Activation Unit}
    (hvisits : m.Visits code scope (.running (m'.alone p))) (h : p.Runs m'.natives r) :
    m.Visits code scope (m'.concluded r) := by
  induction h with
  | refl p => exact hvisits
  | @step f s i p r hi hexecute _ ih =>
      refine ih ?_
      have hstep := hvisits.step
      rw [step_eq_settle, attempt_eq (m := m'.alone ⟨f, s⟩) rfl hi] at hstep
      simp only [alone, hexecute] at hstep
      exact hstep
  | @interrupted f s i e p hi hexecute =>
      have hstep := hvisits.step
      rw [step_eq_settle, attempt_eq (m := m'.alone ⟨f, s⟩) rfl hi] at hstep
      simp only [alone, hexecute] at hstep
      exact hstep

/-- The only frame returns, and the run ends with the value. -/
theorem step_of_returns_alone (h : p.frame.Returns v) :
    ∃ log, (m.alone p).step = .finished (.value v)
      { m with store := p.store, frames := .empty, log } := by
  obtain ⟨g, hattempt⟩ := attempt_of_returns (m := m.alone p) rfl h
  rw [step_eq_settle, hattempt]
  exact ⟨_, rfl⟩

/-- An interrupt that no handler receives ends the run. -/
theorem interrupt_alone (hblocks : p.frame.blocks = .empty)
    (hcatchable : ∀ z, e = .raised z → z.catchable) :
    ∃ frames log, (m.alone p).interrupt e = .finished (e.outcome (m.alone p).trace)
      { m with store := p.store, frames, log } := by
  cases e with
  | fault y => exact ⟨_, _, rfl⟩
  | raised z =>
      obtain ⟨log, hraise⟩ := (m.alone p).raise_eq (hcatchable z rfl)
      have hnone : (m.alone p).frames.popWhile (!·.catches) = .empty := by
        refine Stack.ext ?_
        simp [alone, Frame.catches, hblocks]
      rw [hnone] at hraise
      exact ⟨_, log, hraise⟩

/-- A block that asks for no more than there is starts in a frame of its own. -/
theorem start_eq (m : Machine) (scope : ScopeId) (hdepth : 0 < m.limits.maxRecursionDepth)
    (hstack : code.maxStack ≤ m.limits.maxStackSize)
    (hblocks : code.maxBlocks ≤ m.limits.maxStackSize) :
    ∃ log, m.start code scope = .running
      ({ m with log }.alone ⟨{ code, scope }, m.store⟩) := by
  have hrefusal : { m with frames := .empty }.refusal? code = none := by
    rw [refusal?]
    simp [Nat.not_lt.mpr hstack, Nat.not_lt.mpr hblocks]
    omega
  rw [start, enter, hrefusal]
  exact ⟨_, rfl⟩

/-- A run ends with the value that its only frame returns. -/
theorem Visits.exists_runIn_of_returns (hvisits : m.Visits code scope (.running (m'.alone p)))
    (h : p.frame.Returns v) : ∃ log steps, ∀ budget, m.runIn (budget + steps) code scope =
      some (.value v, { m' with store := p.store, frames := .empty, log }) := by
  obtain ⟨log, hstep⟩ := step_of_returns_alone (m := m') h
  have hend := hvisits.step
  rw [hstep] at hend
  exact ⟨log, hend.exists_runIn⟩

/-- A run ends with the interrupt that its only frame does not receive. -/
theorem Visits.exists_runIn_of_interrupt
    (hvisits : m.Visits code scope ((m'.alone p).interrupt e)) (hblocks : p.frame.blocks = .empty)
    (hcatchable : ∀ z, e = .raised z → z.catchable) :
    ∃ log steps, ∀ budget, m.runIn (budget + steps) code scope =
      some (e.outcome [⟨p.frame.code.name, p.frame.code.filename, p.frame.lastOffset⟩],
        { m' with store := p.store, frames := .empty, log }) := by
  obtain ⟨frames, log, hinterrupt⟩ := interrupt_alone (m := m') hblocks hcatchable
  rw [hinterrupt] at hvisits
  exact ⟨log, hvisits.exists_runIn⟩

end Machine

end ScriptMachine
