import ScriptMachine.Proofs.Machine.Bounds
import ScriptMachine.Proofs.Machine.Delivery
import ScriptMachine.Proofs.Machine.Within

/-! Runs name existing scopes only, if they start so. The scopes that exist stay, each inside the
same scope as before. -/

namespace ScriptMachine

/-! ### Frames -/

namespace Frame.Within

variable {f : Frame} {r : Frame.Handler} {outer : Stack Block} {v : Value} {n : Nat}

theorem fetched (hf : f.Within n) (i : Instruction) : (f.fetched i).Within n :=
  ⟨hf.code, hf.operands, hf.blocks, hf.scope⟩

/-- A handler restores a scope that its block has remembered. -/
theorem resumed (hf : f.Within n) (hr : f.Handles r outer) : (f.resumed r outer).Within n := by
  obtain ⟨inner, hblocks, -⟩ := hr
  have hall := hf.blocks
  rw [hblocks, Stack.toList_pushAll, List.forall_mem_append, Stack.toList_push,
    List.forall_mem_cons] at hall
  exact ⟨hf.code, fun v hv => hf.operands v (List.mem_of_mem_drop hv), hall.2.2, hall.2.1⟩

/-- The scope around the body of what is called. -/
theorem home (hf : f.Within n) {rest : Stack Value} {callee : Value} {outer : ScopeId}
    (hstack : f.stack = rest.push callee) (hhome : callee.home? f.scope = some outer) :
    outer < n := by
  cases callee with
  | function r =>
      cases hhome
      exact hf.operands (.function r) (by simp [hstack])
  | code id =>
      cases hhome
      exact hf.scope
  | _ => cases hhome

theorem of_returns (hf : f.Within n) (h : f.Returns v) : v.Within n := by
  rcases h with ⟨-, rfl⟩ | ⟨i, rest, -, -, hstack⟩
  · trivial
  · exact hf.operands v (by simp [hstack])

end Frame.Within

namespace Machine

variable {m n k : Machine} {f g : Frame} {below : Stack Frame} {code : CodeBlock} {scope : ScopeId}

/-! ### Grounded machines -/

/-- All frames and the store name existing scopes only. -/
structure Grounded (m : Machine) : Prop where
  store : m.store.Grounded
  frames : ∀ f ∈ m.frames.toList, f.Within m.store.scopes.cells.size

/-- The scopes of `m` are still there in `k`, where everything names existing scopes only. -/
def Leads (m k : Machine) : Prop :=
  m.store.scopes.Extends k.store.scopes ∧ k.Grounded

theorem Leads.refl (h : m.Grounded) : m.Leads m :=
  ⟨.refl _, h⟩

theorem Leads.trans (h : m.Leads n) (h' : n.Leads k) : m.Leads k :=
  ⟨h.1.trans h'.1, h'.2⟩

namespace Grounded

theorem of_push (h : m.Grounded) (hframes : m.frames = below.push f) :
    f.Within m.store.scopes.cells.size ∧
      ∀ g ∈ below.toList, g.Within m.store.scopes.cells.size := by
  have hall := h.frames
  rwa [hframes, Stack.toList_push, List.forall_mem_cons] at hall

theorem delivers {z : Exception} {p : Progress} (h : m.Grounded) (hdelivers : m.Delivers z p) :
    m.Leads p.machine := by
  have hsome {f : Frame} {below : Stack Frame} {above : List Frame}
      (hframes : m.frames = (below.push f).pushAll above) :
      f.Within m.store.scopes.cells.size ∧
        ∀ g ∈ below.toList, g.Within m.store.scopes.cells.size := by
    have hall := h.frames
    rw [hframes, Stack.toList_pushAll, List.forall_mem_append, Stack.toList_push,
      List.forall_mem_cons] at hall
    exact hall.2
  refine ⟨?_, ?_⟩
  · cases hdelivers <;> exact .refl _
  cases hdelivers with
  | panicked => exact ⟨h.store, h.frames⟩
  | escaped => exact ⟨h.store, fun f hf => by cases hf⟩
  | caught log _ hframes _ hr =>
      obtain ⟨hf, hbelow⟩ := hsome hframes
      refine ⟨h.store, ?_⟩
      simp only [Progress.machine, Stack.toList_push, List.forall_mem_cons]
      have hresumed := hf.resumed hr
      refine ⟨⟨hresumed.code, ?_, hresumed.blocks, hresumed.scope⟩, hbelow⟩
      rw [Stack.toList_push, List.forall_mem_cons]
      exact ⟨trivial, hresumed.operands⟩
  | overflowed log _ hframes _ hr =>
      obtain ⟨hf, hbelow⟩ := hsome hframes
      refine ⟨h.store, ?_⟩
      simp only [Progress.machine, Stack.toList_push, List.forall_mem_cons]
      exact ⟨hf.resumed hr, hbelow⟩

theorem interrupt (h : m.Grounded) (e : Interrupt) : m.Leads (m.interrupt e).machine := by
  cases e with
  | fault y => exact ⟨.refl _, h.store, h.frames⟩
  | raised z => exact h.delivers (m.delivers_raise z)

/-- A step keeps the scopes that exist, and names existing scopes only. -/
theorem step (h : m.Grounded) (hnatives : ∀ r ∈ m.natives, r.KeepsChains) :
    m.Leads m.step.machine := by
  have hattempts := m.attempts_attempt
  rw [step_eq_settle]
  -- what an instruction leaves, with the frames below it
  have hexecuted {f g : Frame} {below : Stack Frame} {i : Instruction} {t : Store}
      (hframes : m.frames = below.push f)
      (hleads : Activation.Leads ⟨f.fetched i, m.store⟩ ⟨g, t⟩) :
      m.Leads { m with store := t, frames := below.push g } := by
    refine ⟨hleads.1, hleads.2.2, ?_⟩
    rw [Stack.toList_push, List.forall_mem_cons]
    exact ⟨hleads.2.1, fun g hg => ((h.of_push hframes).2 g hg).mono hleads.1.size_le⟩
  have hok {f g : Frame} {below : Stack Frame} {i : Instruction} {t : Store} {next : Next}
      (hframes : m.frames = below.push f)
      (hexecute : i.execute m.natives ⟨f.fetched i, m.store⟩ = .ok next ⟨g, t⟩) :=
    (Action.Carries.execute hnatives i).ok (Nat.zero_le _)
      ⟨(h.of_push hframes).1.fetched i, h.store⟩ hexecute
  generalize m.attempt = x at hattempts
  cases hattempts with
  | idle | unread => exact h.interrupt (.fault _)
  | proceeded hframes hi hexecute => exact hexecuted hframes (hok hframes hexecute).1
  | entered hframes hi hexecute =>
      obtain ⟨hleads, hc, he⟩ := hok hframes hexecute
      obtain ⟨hextends, hstore, hall⟩ := hexecuted hframes hleads
      refine ⟨hextends, hstore, ?_⟩
      simp only [Attempt.settle, Progress.machine]
      rw [Stack.toList_push, List.forall_mem_cons]
      exact ⟨⟨hc, by simp, by simp, he⟩, hall⟩
  | refused hframes hi hexecute =>
      have hleads := hexecuted hframes (hok hframes hexecute).1
      exact hleads.trans (hleads.2.interrupt _)
  | interrupted hframes hi hexecute =>
      have hleads := hexecuted hframes ((Action.Carries.execute hnatives _).error (Nat.zero_le _)
        ⟨(h.of_push hframes).1.fetched _, h.store⟩ hexecute)
      exact hleads.trans (hleads.2.interrupt _)
  | returned => exact ⟨.refl _, h.store, fun f hf => by cases hf⟩
  | resumed hframes hreturns hput =>
      obtain ⟨hf, hbelow⟩ := h.of_push hframes
      rw [Stack.toList_push, List.forall_mem_cons] at hbelow
      refine ⟨.refl _, h.store, ?_⟩
      simp only [Attempt.settle, Progress.machine]
      rw [Stack.toList_push, List.forall_mem_cons]
      exact ⟨hbelow.1.push (hf.of_returns hreturns) hput, hbelow.2⟩
  | @overflowed _ caller rest _ _ log hframes =>
      have hleads : m.Leads { m with frames := rest.push caller, log } :=
        ⟨.refl _, h.store, (h.of_push hframes).2⟩
      exact hleads.trans (hleads.2.interrupt (.fault _))

end Grounded

/-! ### Runs -/

/-- A run of `code` in `scope` starts from existing scopes. -/
structure Rooted (m : Machine) (code : CodeBlock) (scope : ScopeId) : Prop where
  store : m.store.Grounded
  code : code.Within m.store.scopes.cells.size
  scope : scope < m.store.scopes.cells.size

theorem Rooted.start (h : m.Rooted code scope) : m.Leads (m.start code scope).machine := by
  have hempty : m.Leads { m with frames := .empty } :=
    ⟨.refl _, h.store, fun f hf => by cases hf⟩
  rw [Machine.start, enter]
  split
  · exact hempty.trans (hempty.2.interrupt _)
  · refine ⟨.refl _, h.store, ?_⟩
    simp only [Progress.machine, report, Stack.toList_push, List.forall_mem_cons]
    exact ⟨⟨h.code, by simp, by simp, h.scope⟩, by simp⟩

/-- Whatever a run comes to names existing scopes only. -/
theorem Rooted.leads {p : Progress} (h : m.Rooted code scope)
    (hnatives : ∀ r ∈ m.natives, r.KeepsChains) (hvisit : m.Visits code scope p) :
    m.Leads p.machine := by
  induction hvisit with
  | start => exact h.start
  | @step n hvisit ih =>
      exact ih.trans (ih.2.step (natives_of_visits hvisit ▸ hnatives))

end Machine

/-! ### Natives -/

namespace Prelude

variable {n : Native} {output : Nat}

theorem keepsChains_pureNative (name : String) (least : Nat)
    {answer : Store → List Value → Except Interrupt Value}
    (hanswer : ∀ s args v k, answer s args = .ok v → v.Within k) :
    (pureNative name least answer).KeepsChains := by
  intro scope args s _ _ hs
  have hwithin (v : Value)
      (h : (checkArguments name least args >>= fun _ => answer s args) = .ok v) :
      v.Within s.scopes.cells.size := by
    cases hargs : checkArguments name least args with
    | error e =>
        rw [hargs] at h
        cases h
    | ok _ =>
        rw [hargs] at h
        exact hanswer s args v _ h
  simp only [pureNative]
  generalize checkArguments name least args >>= (fun _ => answer s args) = x at hwithin
  constructor
  · intro v t h
    cases x <;> cases h
    exact ⟨.refl _, hs, hwithin v rfl⟩
  · intro e t h
    cases x <;> cases h
    exact ⟨.refl _, hs⟩

theorem keepsChains (h : n ∈ natives output) : n.KeepsChains := by
  simp only [natives, List.mem_cons, List.not_mem_nil, or_false] at h
  rcases h with rfl | rfl | rfl | rfl | rfl | rfl | rfl | rfl | rfl | rfl
  · intro scope args s _ _ hs
    refine ⟨fun v t hrun => ?_, fun e t hrun => by cases hrun⟩
    cases hrun
    exact ⟨.refl _, ⟨hs.heap, hs.scopes, hs.blocks⟩, trivial⟩
  · refine keepsChains_pureNative _ _ fun s args v k h => ?_
    cases hv : args.headD .null <;> rw [hv] at h <;> cases h <;> trivial
  all_goals
    refine keepsChains_pureNative _ _ fun s args v k h => ?_
    cases h
  all_goals trivial

end Prelude

end ScriptMachine
