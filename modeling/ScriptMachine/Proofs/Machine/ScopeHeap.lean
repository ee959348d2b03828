import ScriptMachine.Proofs.Machine.Bracket
import ScriptMachine.Proofs.Machine.Grounded

/-! The scopes of a run as a heap that grows. New scopes are made inside scopes that exist, and none
is moved afterwards, so the ways outward have no cycle if they had none before. What a scope binds
read-only it keeps, to the same value, until an instruction deletes the name there. -/

namespace ScriptMachine

/-! ### Natives -/

/-- A native that leaves the scopes as they are. -/
structure Native.SparesScopes (n : Native) : Prop where
  keeps : ∀ scope args, Keeps Store.scopes (n.run scope args)
  chains : n.KeepsChains

theorem Prelude.sparesScopes {n : Native} {output : Nat} (h : n ∈ natives output) :
    n.SparesScopes :=
  ⟨keeps_run (fun _ _ _ => rfl) h, keepsChains h⟩

/-! ### Instructions -/

namespace Instruction

/-- The instruction removes the name from the scope `e`. -/
def Removes (i : Instruction) (f : Frame) (s : Scopes) (name : String) (e : ScopeId) : Prop :=
  (i.opcode = .deleteFast ∨ i.opcode = .deleteGlobal) ∧ i.Touches f s name e

variable {natives : Array Native} {i : Instruction} {f : Frame} {s t : Store} {e : ScopeId}
  {name : String} {v : Value}

/-- A new scope lies inside one that the frame or its operands name. -/
theorem Alters.spawns (h : i.Alters natives f s t) (hnatives : ∀ n ∈ natives, n.SparesScopes)
    (hf : f.Within s.scopes.cells.size) : s.scopes.Spawns t.scopes := by
  cases h with
  | kept | grown | written | counted => exact .of_agreesOff (.refl _ 0)
  | bound => exact .of_agreesOff (.bind _ _ _ _)
  | removed => exact .of_agreesOff (.unbind _ _ _)
  | opened => exact .enclose hf.scope
  | @called rest callee outer params args _ hstack hhome =>
      exact (Scopes.Spawns.enclose (hf.home hstack hhome)).agreesOff
        (s.agreesOff_called outer params args)
  | answered _ hn hrun =>
      rw [((hnatives _ hn).keeps _ _).ok hrun]
      exact .of_agreesOff (.refl _ 0)
  | refused _ hn hrun =>
      rw [((hnatives _ hn).keeps _ _).error hrun]
      exact .of_agreesOff (.refl _ 0)

/-- Only a deletion of the name from its scope ends a read-only binding. -/
theorem Alters.binding?_readonly (h : i.Alters natives f s t)
    (hnatives : ∀ n ∈ natives, n.SparesScopes) (hspared : ¬ i.Removes f s.scopes name e)
    (hb : s.scopes.binding? e name = some ⟨v, true⟩) :
    t.scopes.binding? e name = some ⟨v, true⟩ := by
  cases h with
  | kept | grown | written | counted => exact hb
  | @bound name' d b htouches hwritable =>
      rw [Scopes.binding?_bind_of_ne]
      · exact hb
      · rintro ⟨rfl, rfl⟩
        cases hwritable _ hb
  | @removed name' d hop htouches =>
      rw [Scopes.binding?_unbind, if_neg]
      · exact hb
      · rintro ⟨rfl, rfl⟩
        exact hspared ⟨hop, htouches⟩
  | opened => rwa [Scopes.binding?_enclose]
  | called => rwa [Store.binding?_called _ _ _ _ (Scopes.lt_size_of_binding? hb)]
  | answered _ hn hrun => rwa [((hnatives _ hn).keeps _ _).ok hrun]
  | refused _ hn hrun => rwa [((hnatives _ hn).keeps _ _).error hrun]

end Instruction

/-! ### Steps and runs -/

namespace Machine

variable {m n k : Machine} {code : CodeBlock} {scope e : ScopeId} {name : String} {v : Value}

/-- The next instruction removes the name from the scope `e`. -/
def Removes (n : Machine) (e : ScopeId) (name : String) : Prop :=
  ∃ f below i, n.frames = Stack.push below f ∧ f.Fetches i ∧
    i.Removes (f.fetched i) n.store.scopes name e

theorem Grounded.spawns (h : n.Grounded) (hnatives : ∀ r ∈ n.natives, r.SparesScopes) :
    n.store.scopes.Spawns n.step.machine.store.scopes := by
  rcases n.alters_of_step with hsame | ⟨f, below, i, hframes, -, halters⟩
  · rw [hsame]
    exact .of_agreesOff (.refl _ 0)
  · exact halters.spawns hnatives ((h.of_push hframes).1.fetched i)

theorem binding?_of_step (hnatives : ∀ r ∈ n.natives, r.SparesScopes) (hspared : ¬ n.Removes e name)
    (hb : n.store.scopes.binding? e name = some ⟨v, true⟩) :
    n.step.machine.store.scopes.binding? e name = some ⟨v, true⟩ := by
  rcases n.alters_of_step with hsame | ⟨f, below, i, hframes, hi, halters⟩
  · rwa [hsame]
  · exact halters.binding?_readonly hnatives
      (fun hremoves => hspared ⟨f, below, i, hframes, hi, hremoves⟩) hb

/-- The scopes grow all the time. -/
theorem grows_of_visits {p : Progress} (hroot : m.Rooted code scope)
    (hnatives : ∀ r ∈ m.natives, r.SparesScopes) (hvisit : m.Visits code scope p) :
    m.store.scopes.Grows p.machine.store.scopes := by
  induction hvisit with
  | start =>
      rw [store_start]
      exact .refl _
  | @step n hvisit ih =>
      have hleads := hroot.leads (fun r hr => (hnatives r hr).chains) hvisit
      exact ih.trans (hleads.2.spawns (natives_of_visits hvisit ▸ hnatives)).grows

/-- A read-only binding stays as long as no instruction deletes the name from its scope. -/
theorem binding?_of_stays (hvisit : m.Visits code scope (.running n))
    (hnatives : ∀ r ∈ m.natives, r.SparesScopes)
    (hb : n.store.scopes.binding? e name = some ⟨v, true⟩)
    (hstays : n.Stays (¬ ·.Removes e name) k) :
    k.store.scopes.binding? e name = some ⟨v, true⟩ := by
  induction hstays with
  | start => exact hb
  | @step k k' hstays hstep _ ih =>
      have hkept : ∀ r ∈ k.natives, r.SparesScopes :=
        natives_of_visits (hvisit.stays hstays) ▸ hnatives
      have hk := binding?_of_step hkept hstays.holds ih
      rwa [hstep] at hk

/-- Runs whose natives leave scopes alone. Scopes never move and new ones lie inside those that
exist, so all searches outward terminate, at any time. A read-only binding is there in every later
state, the last one included, unless an instruction has deleted its name from its scope. -/
theorem scopes_of_visits (hroot : m.Rooted code scope) (hacyclic : m.store.scopes.Acyclic)
    (hnatives : ∀ r ∈ m.natives, r.SparesScopes) :
    (∀ p, m.Visits code scope p → m.store.scopes.Grows p.machine.store.scopes ∧
      p.machine.store.scopes.Acyclic ∧ p.machine.store.scopes.Terminates) ∧
    (∀ n, m.Visits code scope (.running n) →
      n.store.scopes.Spawns n.step.machine.store.scopes) ∧
    ∀ n e name v k, m.Visits code scope (.running n) →
      n.store.scopes.binding? e name = some ⟨v, true⟩ → n.Stays (¬ ·.Removes e name) k →
      k.store.scopes.binding? e name = some ⟨v, true⟩ ∧
        k.step.machine.store.scopes.binding? e name = some ⟨v, true⟩ := by
  refine ⟨fun p hvisit => ?_, fun n hvisit => ?_, fun n e name v k hvisit hb hstays => ?_⟩
  · have hgrows := grows_of_visits hroot hnatives hvisit
    have hacyclic' := hgrows.acyclic hacyclic hroot.store.scopes.parents
    exact ⟨hgrows, hacyclic', hacyclic'.terminates⟩
  · have hleads := hroot.leads (fun r hr => (hnatives r hr).chains) hvisit
    exact hleads.2.spawns (natives_of_visits hvisit ▸ hnatives)
  · have hkept : ∀ r ∈ k.natives, r.SparesScopes :=
      natives_of_visits (hvisit.stays hstays) ▸ hnatives
    have hk := binding?_of_stays hvisit hnatives hb hstays
    exact ⟨hk, binding?_of_step hkept hstays.holds hk⟩

/-- A scope is opened inside one that binds a name read-only. -/
theorem scopes_openScope :
    let outer : Scope := { bindings := Dict.empty.insert "x" ⟨.null, true⟩ }
    let c : CodeBlock := { (default : CodeBlock) with
      code := #[Opcode.openScope.byte], maxStack := 1 }
    let m : Machine := {
      store := { scopes := ⟨#[outer]⟩ }
      natives := (Prelude.natives 0).toArray }
    ∃ n, m.start c 0 = .running n ∧ n.store.scopes.Spawns n.step.machine.store.scopes ∧
      n.step.machine.store.scopes.binding? 0 "x" = some ⟨.null, true⟩ := by
  intro outer c m
  let n : Machine := { m with
    frames := Stack.empty.push { code := c, scope := 0 }
    log := #[.framePushed c.name 1] }
  have hstart : m.start c 0 = .running n := rfl
  have hbound : m.store.scopes.binding? 0 "x" = some ⟨.null, true⟩ := by
    simp [m, outer, Scopes.binding?, Scopes.scope, Dict.get?_insert]
  have hparent (e p : ScopeId) : ¬ m.store.scopes.Inside e p := by
    cases e <;> rintro ⟨⟩
  have hroot : m.Rooted c 0 := by
    refine ⟨.of_scopes (fun e name b hb => ?_) fun e p hp => (hparent e p hp).elim,
      fun v hv => (Array.not_mem_empty v hv).elim, by decide⟩
    cases e with
    | zero =>
        simp only [outer, Scopes.binding?, Scopes.scope, Array.getD_eq_getD_getElem?,
          List.getElem?_toArray, List.getElem?_cons_zero, Option.getD_some, Dict.get?_insert,
          Dict.get?_empty] at hb
        split at hb <;> cases hb
        trivial
    | succ e => simp [Scopes.binding?, Scopes.scope] at hb
  have hnatives : ∀ r ∈ m.natives, r.SparesScopes := by
    intro r hr
    have hmem : r ∈ Prelude.natives 0 := by simpa [m] using hr
    exact Prelude.sparesScopes hmem
  have hvisit : m.Visits c 0 (.running n) := hstart ▸ .start
  obtain ⟨-, hspawns, hreadonly⟩ :=
    scopes_of_visits hroot (Scopes.acyclic_of_lt fun e p hp => (hparent e p hp).elim) hnatives
  have hi : Frame.Fetches { code := c, scope := 0 } ⟨0, .openScope, .none⟩ :=
    Instruction.decodeAt_eq_ok_iff.mpr ⟨rfl, rfl, by decide⟩
  have hspared : ¬ n.Removes 0 "x" := by
    rintro ⟨f, below, i, hframes, hfetches, hop, -⟩
    obtain ⟨-, rfl⟩ := Stack.push_inj.mp hframes
    cases hi.symm.trans hfetches
    simp at hop
  exact ⟨n, hstart, hspawns n hvisit, (hreadonly n 0 "x" .null n hvisit hbound (.start hspared)).2⟩

end Machine

end ScriptMachine
