import ScriptMachine.Proofs.Scope.Growth

/-! Mutations of scopes as data. They leave each scope where it is, and the bindings that a sequence
of them comes to are those that one gets by following what each says, binding by binding. -/

namespace ScriptMachine

namespace Scopes

variable {s t : Scopes} {d e : ScopeId} {name : String}

/-! ### Mutations -/

/-- A mutation of the scope on which it is called, or of one around it. -/
inductive Mutation where
  | create (e : ScopeId) (name : String) (v : Value)
  | createConst (e : ScopeId) (name : String) (v : Value)
  | set (e : ScopeId) (name : String) (v : Value)
  | setForce (e : ScopeId) (name : String) (v : Value) (readonly : Bool)
  | unset (e : ScopeId) (name : String)
  | unsetLocal (e : ScopeId) (name : String)

/-- What a mutation makes of the scopes. One that is refused leaves them as they are. -/
def mutate (s : Scopes) : Mutation → Scopes
  | .create e name v => (s.create e name v).toOption.getD s
  | .createConst e name v => (s.createConst e name v).toOption.getD s
  | .set e name v => (s.set e name v).toOption.getD s
  | .setForce e name v readonly => s.setForce e name v readonly
  | .unset e name => (s.unset e name).2
  | .unsetLocal e name => (s.unsetLocal e name).2

def mutateAll (s : Scopes) (mutations : List Mutation) : Scopes :=
  mutations.foldl mutate s

/-- A mutation binds one name in one scope, unbinds it there, or changes nothing. -/
theorem mutate_eq (s : Scopes) (m : Mutation) :
    s.mutate m = s ∨ ∃ d name, (∃ b, s.mutate m = s.bind d name b) ∨
      s.mutate m = s.unbind d name := by
  have hdeclare (e : ScopeId) (name : String) (b : Binding) :
      (s.declare e name b).toOption.getD s = s ∨
        (s.declare e name b).toOption.getD s = s.bind e name b := by
    rw [declare]
    cases s.vacant e name <;> simp [Except.map, Except.toOption]
  cases m with
  | create e name v | createConst e name v =>
      exact (hdeclare e name _).imp_right fun h => ⟨e, name, .inl ⟨_, h⟩⟩
  | set e name v =>
      rw [mutate, set]
      cases s.assignable e name with
      | error y => exact .inl rfl
      | ok d => exact .inr ⟨d, name, .inl ⟨_, rfl⟩⟩
  | setForce e name v readonly => exact .inr ⟨e, name, .inl ⟨_, rfl⟩⟩
  | unset e name =>
      rw [mutate, unset_eq]
      cases s.resolve? e name with
      | none => exact .inl rfl
      | some found => exact .inr ⟨found.1, name, .inr rfl⟩
  | unsetLocal e name => exact .inr ⟨e, name, .inr rfl⟩

/-- Mutations leave every scope where it is. -/
theorem mutateAll_keeps (s : Scopes) (mutations : List Mutation) :
    (s.mutateAll mutations).cells.size = s.cells.size ∧
      ∀ d, (s.mutateAll mutations).parent d = s.parent d := by
  have hmutate (s : Scopes) (m : Mutation) :
      (s.mutate m).cells.size = s.cells.size ∧ ∀ d, (s.mutate m).parent d = s.parent d := by
    rcases s.mutate_eq m with h | ⟨d, name, ⟨b, h⟩ | h⟩
    · simp [h]
    · simp [h, parent_bind]
    · simp [h, parent_unbind]
  induction mutations generalizing s with
  | nil => exact ⟨rfl, fun _ => rfl⟩
  | cons m rest ih =>
      obtain ⟨hsize, hparent⟩ := ih (s.mutate m)
      rw [mutateAll, List.foldl_cons]
      exact ⟨hsize.trans (hmutate s m).1, fun d => (hparent d).trans ((hmutate s m).2 d)⟩

/-! ### What mutations come to -/

/-- What each scope binds each name to. -/
abbrev Bindings :=
  ScopeId → String → Option Binding

namespace Bindings

/-- The same bindings, but for one name in one scope. -/
def put (bs : Bindings) (d : ScopeId) (name : String) (b? : Option Binding) : Bindings :=
  fun x n => if x = d ∧ n = name then b? else bs x n

/-- The first binding of the name along a way outward. -/
def nearest (bs : Bindings) (way : List ScopeId) (name : String) : Option (ScopeId × Binding) :=
  way.findSome? fun d => (bs d name).map (d, ·)

end Bindings

namespace Mutation

/-- The scope on which a mutation is called. -/
def scope : Mutation → ScopeId
  | .create e _ _ | .createConst e _ _ | .set e _ _ | .setForce e _ _ _ | .unset e _
  | .unsetLocal e _ => e

/-- What a mutation says of the bindings: a name is made only where it is free, it is assigned and
removed where it is bound first on the way outward, and it is not assigned where it is read-only. -/
def change (ways : ScopeId → List ScopeId) (bs : Bindings) : Mutation → Bindings
  | .create e name v => if (bs e name).isSome then bs else bs.put e name (some ⟨v, false⟩)
  | .createConst e name v => if (bs e name).isSome then bs else bs.put e name (some ⟨v, true⟩)
  | .set e name v =>
    match bs.nearest (ways e) name with
    | some (d, b) => if b.readonly then bs else bs.put d name (some ⟨v, false⟩)
    | none => bs
  | .setForce e name v readonly => bs.put e name (some ⟨v, readonly⟩)
  | .unset e name =>
    match bs.nearest (ways e) name with
    | some (d, _) => bs.put d name none
    | none => bs
  | .unsetLocal e name => bs.put e name none

end Mutation

theorem nearest_chain (s : Scopes) (e : ScopeId) (name : String) :
    Bindings.nearest s.binding? (s.chain e) name = s.resolve? e name :=
  (s.resolve?_eq e name).symm

theorem binding?_bind_eq (hd : d < s.cells.size) (name : String) (b : Binding) :
    (s.bind d name b).binding? = Bindings.put s.binding? d name (some b) := by
  funext x n
  exact binding?_bind hd x name n b

theorem binding?_unbind_eq (s : Scopes) (d : ScopeId) (name : String) :
    (s.unbind d name).binding? = Bindings.put s.binding? d name none := by
  funext x n
  exact s.binding?_unbind d x name n

/-- A mutation does what it says. -/
theorem binding?_mutate {m : Mutation} (hm : m.scope < s.cells.size) :
    (s.mutate m).binding? = m.change s.chain s.binding? := by
  have hdeclare {e : ScopeId} (he : e < s.cells.size) (name : String) (b : Binding) :
      ((s.declare e name b).toOption.getD s).binding? = if (s.binding? e name).isSome
        then s.binding? else Bindings.put s.binding? e name (some b) := by
    rw [declare, vacant, containsLocal]
    split
    · rfl
    · exact binding?_bind_eq he name b
  cases m with
  | create e name v => exact hdeclare hm name _
  | createConst e name v => exact hdeclare hm name _
  | set e name v =>
      rw [mutate, set, assignable_eq, Mutation.change, nearest_chain]
      cases hfound : s.resolve? e name with
      | none => rfl
      | some found =>
          obtain ⟨d, b⟩ := found
          have hd := lt_size_of_binding? (nearest_of_resolveTo hfound).binding?
          cases hreadonly : b.readonly with
          | true => simp [hreadonly, Except.map, Except.toOption]
          | false =>
              simp only [hreadonly]
              exact binding?_bind_eq hd name _
  | setForce e name v readonly => exact binding?_bind_eq hm name _
  | unset e name =>
      rw [mutate, unset_eq, Mutation.change, nearest_chain]
      cases s.resolve? e name with
      | none => rfl
      | some found => exact s.binding?_unbind_eq found.1 name
  | unsetLocal e name => exact s.binding?_unbind_eq e name

theorem chain_congr (hsize : t.cells.size = s.cells.size)
    (hparent : ∀ d, t.parent d = s.parent d) : t.chain = s.chain := by
  have hchain (bound : Nat) (e : ScopeId) : t.chainTo bound e = s.chainTo bound e := by
    induction bound generalizing e with
    | zero => rfl
    | succ bound ih =>
        rw [chainTo, chainTo, hparent]
        cases s.parent e with
        | none => rfl
        | some p => exact congrArg (e :: ·) (ih p)
  funext e
  rw [chain, chain, hsize, hchain]

/-- Mutations do what they say, one after the other. -/
theorem binding?_mutateAll {ms : List Mutation} (hms : ∀ m ∈ ms, m.scope < s.cells.size) :
    (s.mutateAll ms).binding? = ms.foldl (Mutation.change s.chain) s.binding? := by
  induction ms generalizing s with
  | nil => rfl
  | cons m rest ih =>
      rw [List.forall_mem_cons] at hms
      obtain ⟨hsize, hparent⟩ := s.mutateAll_keeps [m]
      have hrest : ∀ m' ∈ rest, m'.scope < (s.mutate m).cells.size :=
        fun m' hm' => (hms.2 m' hm').trans_eq hsize.symm
      have hchain : (s.mutate m).chain = s.chain := chain_congr hsize hparent
      rw [mutateAll, List.foldl_cons, List.foldl_cons, ← binding?_mutate hms.1, ← hchain]
      exact ih hrest

end Scopes

end ScriptMachine
