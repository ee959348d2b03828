import ScriptMachine.Proofs.Machine.CodeTable

/-! The exceptions that instructions raise. No handler has received one of them before, unless it
comes from a native of the host. -/

namespace ScriptMachine

/-- An exception that a native answers some call with. -/
def Native.Raises (n : Native) (z : Exception) : Prop :=
  ∃ scope args s t, n.run scope args s = .error (.raised z) t

namespace Action

variable {α β : Type} {P Q : Exception → Prop}

/-- An action that raises exceptions in `P` only. It may fault. -/
def RaisesOnly (P : Exception → Prop) (x : Action α) : Prop :=
  ∀ a b z, x a = .error (.raised z) b → P z

namespace RaisesOnly

theorem pure (v : α) : (Pure.pure v : Action α).RaisesOnly P :=
  fun _ _ _ h => by cases h

theorem raised {z : Exception} (h : P z) : (throw (.raised z) : Action α).RaisesOnly P :=
  fun _ _ _ heq => by cases heq; exact h

theorem misuse (u : Misuse) : (Action.misuse u : Action α).RaisesOnly (·.caught = false) :=
  raised rfl

theorem fault (y : Fault) : (Action.fault y : Action α).RaisesOnly P :=
  fun _ _ _ h => by cases h

theorem mono {x : Action α} (hx : x.RaisesOnly P) (h : ∀ z, P z → Q z) : x.RaisesOnly Q :=
  fun a b z hz => h z (hx a b z hz)

theorem bind {x : Action α} {g : α → Action β} (hx : x.RaisesOnly P)
    (hg : ∀ v, (g v).RaisesOnly P) : (x >>= g).RaisesOnly P := by
  intro a b z h
  rcases bind_eq_error_iff.mp h with hfirst | ⟨v, a', -, hsecond⟩
  · exact hx a b z hfirst
  · exact hg v a' b z hsecond

theorem discard {x : Action α} (hx : x.RaisesOnly P) : (Functor.discard x).RaisesOnly P := by
  rw [discard_eq]
  exact hx.bind fun _ => pure _

/-! ### Frames and the store -/

theorem onFrame (g : Frame → Except Fault (α × Frame)) : (Action.onFrame g).RaisesOnly P := by
  rintro ⟨f, s⟩ ⟨f', t⟩ z h
  obtain ⟨y, -, hy, -⟩ := onFrame_eq_error_iff.mp h
  cases hy

/-- An action that goes on after one on the frame, such as a push, a pop or a look at a table. -/
theorem onFrame_bind {g : Frame → Except Fault (α × Frame)} {next : α → Action β}
    (h : ∀ v, (next v).RaisesOnly P) : (Action.onFrame g >>= next).RaisesOnly P :=
  (onFrame g).bind h

theorem onStore (g : Store → α × Store) : (Action.onStore g).RaisesOnly P :=
  fun _ _ _ h => by cases h

theorem onHeap (g : Heap → α × Heap) : (Action.onHeap g).RaisesOnly P :=
  onStore _

theorem onScopes (g : Scopes → α × Scopes) : (Action.onScopes g).RaisesOnly P :=
  onStore _

theorem readHeap {g : Heap → Except Interrupt α} (hg : ∀ h z, g h = .error (.raised z) → P z) :
    (Action.readHeap g).RaisesOnly P := by
  intro a b z h
  rw [Action.readHeap] at h
  split at h <;> cases h
  rename_i herror
  exact hg _ z herror

theorem readHeap_raises {g : Heap → Except Interrupt α} (hg : ∀ h, Raises (·.inFlight) (g h)) :
    (Action.readHeap g).RaisesOnly (·.caught = false) := by
  refine readHeap fun h z hz => ?_
  obtain ⟨z', heq, hfresh⟩ := hg h _ hz
  cases heq
  exact z.caught_of_inFlight hfresh

theorem readScopes (g : Scopes → ScopeId → Except ScopeError α) :
    (Action.readScopes g).RaisesOnly (·.caught = false) := by
  intro a b z h
  rw [Action.readScopes] at h
  split at h <;> cases h
  rfl

theorem setVariable (name : String) (v : Value) :
    (Action.setVariable name v).RaisesOnly (·.caught = false) :=
  (readScopes _).bind fun _ => onScopes _

theorem declare (name : String) (v : Value) (readonly : Bool) :
    (Action.declare name v readonly).RaisesOnly (·.caught = false) :=
  (readScopes _).bind fun _ => onFrame_bind fun _ => onScopes _

theorem jump (offset : Nat) : (Action.jump offset).RaisesOnly P :=
  onFrame_bind fun _ => onFrame _

theorem exposeLoop : Action.exposeLoop.RaisesOnly P :=
  onFrame_bind fun _ => onFrame _

/-! ### Instructions -/

theorem binary (op : BinaryOp) : (Action.binary op).RaisesOnly (·.caught = false) := by
  refine onFrame_bind fun right => onFrame_bind fun left => ?_
  refine (readHeap fun h z hz => ?_).bind fun _ => (onHeap _).bind fun _ => onFrame _
  rcases BinaryOp.compute_eq_error hz with heq | ⟨z', heq, hfresh⟩
  · cases heq
  · cases heq
    exact z.caught_of_inFlight hfresh

theorem compare (i : Instruction) : (Action.compare i).RaisesOnly (·.caught = false) := by
  rw [Action.compare]
  split
  · exact fault _
  · exact onFrame_bind fun _ => onFrame_bind fun _ =>
      (readHeap_raises fun _ => CompareOp.raises_apply _ _ _).bind fun _ => onFrame _

theorem makeFunction : Action.makeFunction.RaisesOnly (·.caught = false) := by
  refine onFrame_bind fun body => onFrame_bind fun params => onFrame_bind fun name => ?_
  split
  · exact (readHeap_raises fun _ => raises_parameterNames _).bind fun _ =>
      onFrame_bind fun _ => (onStore _).bind fun _ => onFrame _
  · exact misuse _
  · exact misuse _

theorem popJumpIf (truth : Bool) (offset : Nat) :
    (Action.popJumpIf truth offset).RaisesOnly (·.caught = false) := by
  refine onFrame_bind fun condition => ?_
  split
  · split
    · exact jump _
    · exact pure _
  · exact misuse _

theorem jumpIfOrPop (truth : Bool) (offset : Nat) :
    (Action.jumpIfOrPop truth offset).RaisesOnly P := by
  refine onFrame_bind fun condition => ?_
  split
  · exact jump _
  · exact (onFrame _).discard

theorem startLoop (i : Instruction) : (Action.startLoop i).RaisesOnly P := by
  rw [Action.startLoop]
  split
  · exact onFrame_bind fun _ => onFrame_bind fun _ => onFrame _
  · exact fault _

theorem breakLoop : Action.breakLoop.RaisesOnly P := by
  refine exposeLoop.bind fun b => ?_
  split
  · exact (onFrame _).discard.bind fun _ => onFrame _
  · exact fault _

theorem continueLoop : Action.continueLoop.RaisesOnly P := by
  refine exposeLoop.bind fun b => ?_
  split
  · exact onFrame _
  · exact fault _

/-- To throw an exception that has been caught before makes it a new one. -/
theorem throwTop : Action.throwTop.RaisesOnly (·.caught = false) := by
  refine onFrame_bind fun v => ?_
  intro a b z h
  cases h
  cases v <;> rfl

theorem closeScope : Action.closeScope.RaisesOnly (·.caught = false) := by
  refine (readScopes _).bind fun parent => ?_
  split
  · exact onFrame _
  · exact fault _

/-- The instructions that neither call nor return. -/
theorem executeLocal (i : Instruction) : i.executeLocal.RaisesOnly (·.caught = false) := by
  obtain ⟨offset, opcode, operand⟩ := i
  cases opcode with
  | noop | call | return_ => exact pure _
  | popTop => exact (onFrame _).discard
  | dupTop | loadConst => exact onFrame_bind fun _ => onFrame _
  | loadFast | loadGlobal =>
      exact onFrame_bind fun _ => (readScopes _).bind fun _ => onFrame _
  | storeFast | storeGlobal =>
      exact onFrame_bind fun _ => onFrame_bind fun _ => setVariable _ _
  | storeConst | define => exact onFrame_bind fun _ => onFrame_bind fun _ => declare _ _ _
  | deleteFast | deleteGlobal =>
      exact onFrame_bind fun _ => onFrame_bind fun _ => onScopes _
  | loadAttribute =>
      exact onFrame_bind fun _ => onFrame_bind fun _ =>
        (readHeap_raises fun h => h.raises_loadAttribute _ _).bind fun _ => onFrame _
  | storeAttribute =>
      exact onFrame_bind fun _ => onFrame_bind fun _ => onFrame_bind fun _ =>
        (readHeap_raises fun _ => Heap.raises_attributeSlot _ _ _).bind fun _ => onHeap _
  | loadIndex =>
      exact onFrame_bind fun _ => onFrame_bind fun _ =>
        (readHeap_raises fun h => h.raises_loadIndex _ _).bind fun _ => onFrame _
  | storeIndex =>
      exact onFrame_bind fun _ => onFrame_bind fun _ => onFrame_bind fun _ =>
        (readHeap_raises fun h => h.raises_indexSlot _ _ _).bind fun _ => onHeap _
  | binary op => exact binary op
  | unaryNeg =>
      exact onFrame_bind fun v => (readHeap_raises fun _ => v.raises_negate).bind fun _ => onFrame _
  | unaryNot => exact onFrame_bind fun _ => onFrame _
  | compare => exact compare _
  | makeArray => exact onFrame_bind fun _ => (onHeap _).bind fun _ => onFrame _
  | makeMap =>
      exact onFrame_bind fun vs => (readHeap_raises fun _ => raises_entriesOf vs).bind fun _ =>
        (onHeap _).bind fun _ => onFrame _
  | makeFunction => exact makeFunction
  | jumpAbsolute => exact jump _
  | jumpForward => exact onFrame_bind fun _ => jump _
  | popJumpIf truth => exact popJumpIf _ _
  | jumpIfOrPop truth => exact jumpIfOrPop _ _
  | startLoop => exact startLoop _
  | endBlock => exact onFrame_bind fun _ => onFrame _
  | break_ => exact breakLoop
  | continue_ => exact continueLoop
  | startTry => exact onFrame_bind fun _ => onFrame _
  | throw => exact throwTop
  | openScope => exact onFrame_bind fun _ => (onScopes _).bind fun _ => onFrame _
  | closeScope => exact closeScope

theorem callNative {natives : Array Native} (f : NativeRef) (args : List Value) :
    (Action.callNative natives f args).RaisesOnly fun z => ∃ n ∈ natives, n.Raises z := by
  rintro ⟨fr, s⟩ ⟨fr', t⟩ z h
  rw [Action.callNative] at h
  split at h
  · cases h
  · rename_i n hn
    split at h <;> cases h
    rename_i hrun
    obtain ⟨place, -, hat⟩ := Option.bind_eq_some_iff.mp hn
    exact ⟨n, Array.mem_of_getElem? hat, _, _, _, _, hrun⟩

/-- To enter a block in a new scope raises nothing. -/
theorem enter (d : ScopeId) (params : List String) (args : List Value) (id : CodeId) :
    Action.RaisesOnly P (do
      let scope ← encloseIn d
      bindArguments scope params args
      return Next.enter (← codeBlock id) scope) := by
  have hbind (e : ScopeId) : (bindArguments e params args).RaisesOnly P :=
    (onScopes _).bind fun _ => (onHeap _).bind fun _ => onScopes _
  exact (onScopes _).bind fun e => (hbind e).bind fun _ => (onStore _).bind fun _ => pure _

theorem call (natives : Array Native) (argc : Nat) :
    (Action.call natives argc).RaisesOnly
      fun z => z.caught = false ∨ ∃ n ∈ natives, n.Raises z := by
  refine onFrame_bind fun callee => onFrame_bind fun args => ?_
  split
  · exact ((callNative _ _).mono fun _ => .inr).bind fun _ => onFrame_bind fun _ => pure _
  · exact enter _ _ _ _
  · exact onFrame_bind fun _ => enter _ _ _ _
  · exact (misuse _).mono fun _ => .inl

/-- What an instruction raises is new, or comes from a native that it calls. -/
theorem execute (natives : Array Native) (i : Instruction) :
    (i.execute natives).RaisesOnly
      fun z => z.caught = false ∨ i.opcode = .call ∧ ∃ n ∈ natives, n.Raises z := by
  rw [Instruction.execute.eq_def]
  split
  · rename_i hop
    exact (call natives i.arg).mono fun _ hz => hz.imp_right fun hn => ⟨hop, hn⟩
  · exact onFrame_bind fun _ => pure _
  · exact ((executeLocal i).mono fun _ => .inl).bind fun _ => pure _

end RaisesOnly

end Action

/-! ### Calls of script code -/

namespace Action

/-- An action that enters a block, or faults. -/
def Enters (x : Action Next) : Prop :=
  ∀ a, (∃ c e b, x a = .ok (.enter c e) b) ∨ ∃ y b, x a = .error (.fault y) b

namespace Enters

theorem onFrame_bind {α : Type} {g : Frame → Except Fault (α × Frame)} {next : α → Action Next}
    (h : ∀ v, (next v).Enters) : (Action.onFrame g >>= next).Enters := by
  rintro ⟨f, s⟩
  change (∃ c e b, EStateM.bind (Action.onFrame g) next ⟨f, s⟩ = _) ∨
    ∃ y b, EStateM.bind (Action.onFrame g) next ⟨f, s⟩ = _
  simp only [EStateM.bind, Action.onFrame]
  cases g f with
  | ok r => exact h r.1 ⟨r.2, s⟩
  | error y => exact .inr ⟨y, _, rfl⟩

theorem enter (d : ScopeId) (params : List String) (args : List Value) (id : CodeId) :
    Enters (do
      let scope ← encloseIn d
      bindArguments scope params args
      return Next.enter (← codeBlock id) scope) := by
  rintro ⟨f, s⟩
  generalize hx : (do
      let scope ← encloseIn d
      bindArguments scope params args
      return Next.enter (← codeBlock id) scope : Action Next) ⟨f, s⟩ = x
  cases x with
  | ok next b =>
      obtain ⟨-, e, rfl⟩ := Instruction.enter_ok hx
      exact .inl ⟨_, e, b, rfl⟩
  | error e b => cases hx

end Enters

end Action

theorem Instruction.enters_of_call {i : Instruction} {f : Frame} {rest : Stack Value} {v : Value}
    (natives : Array Native) (s : Store) (hop : i.opcode = .call)
    (hstack : f.stack = rest.push v) (hv : (∃ r, v = .function r) ∨ ∃ id, v = .code id) :
    (∃ c e b, i.execute natives ⟨f, s⟩ = .ok (.enter c e) b) ∨
      ∃ y b, i.execute natives ⟨f, s⟩ = .error (.fault y) b := by
  simp only [execute, hop, Action.call, Action.pop_bind_apply hstack]
  rcases hv with ⟨r, rfl⟩ | ⟨id, rfl⟩
  · exact Action.Enters.onFrame_bind (fun _ => .enter _ _ _ _) _
  · exact Action.Enters.onFrame_bind (fun _ => .onFrame_bind fun _ => .enter _ _ _ _) _

end ScriptMachine
