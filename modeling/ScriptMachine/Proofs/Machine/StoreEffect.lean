import ScriptMachine.Proofs.Heap.Access
import ScriptMachine.Proofs.Machine.Attempt
import ScriptMachine.Proofs.Scope.Growth

/-! The effect of an instruction on the store: which of its parts it changes, and where. Most
instructions leave the store alone. What outlives a run is kept or changed by a run as the single
instructions keep or change it. -/

namespace ScriptMachine

/-! ### Actions that leave the store alone -/

namespace Action

variable {α β : Type}

/-- An action that leaves the store as it is. -/
abbrev KeepsStore (x : Action α) : Prop :=
  Keeps Activation.store x

namespace KeepsStore

theorem onFrame (g : Frame → Except Fault (α × Frame)) : (Action.onFrame g).KeepsStore := by
  constructor
  · rintro ⟨f, s⟩ ⟨f', t⟩ v h
    exact (onFrame_eq_ok_iff.mp h).2.symm
  · rintro ⟨f, s⟩ ⟨f', t⟩ e h
    obtain ⟨-, -, -, -, rfl⟩ := onFrame_eq_error_iff.mp h
    rfl

theorem readHeap (g : Heap → Except Interrupt α) : (Action.readHeap g).KeepsStore := by
  refine Keeps.look (g := fun a => g a.store.heap) fun a => ?_
  rw [Action.readHeap]
  cases g a.store.heap <;> rfl

theorem readScopes (g : Scopes → ScopeId → Except ScopeError α) :
    (Action.readScopes g).KeepsStore := by
  refine Keeps.look (g := fun a => (g a.store.scopes a.frame.scope).mapError (·.interrupt))
    fun a => ?_
  rw [Action.readScopes]
  cases g a.store.scopes a.frame.scope <;> rfl

/-- An action that goes on after one on the frame, such as a push, a pop or a look at a table. -/
theorem onFrame_bind {g : Frame → Except Fault (α × Frame)} {next : α → Action β}
    (h : ∀ v, (next v).KeepsStore) : (Action.onFrame g >>= next).KeepsStore :=
  (onFrame g).bind h

theorem jump (offset : Nat) : (Action.jump offset).KeepsStore :=
  onFrame_bind fun _ => onFrame _

theorem exposeLoop : Action.exposeLoop.KeepsStore :=
  onFrame_bind fun _ => onFrame _

theorem misuse (u : Misuse) : (Action.misuse u : Action α).KeepsStore :=
  .throw _

theorem fault (y : Fault) : (Action.fault y : Action α).KeepsStore :=
  .throw _

theorem compare (i : Instruction) : (Action.compare i).KeepsStore := by
  rw [Action.compare]
  split
  · exact fault _
  · exact onFrame_bind fun _ => onFrame_bind fun _ => (readHeap _).bind fun _ => onFrame _

theorem popJumpIf (truth : Bool) (offset : Nat) : (Action.popJumpIf truth offset).KeepsStore := by
  refine onFrame_bind fun condition => ?_
  split
  · split
    · exact jump _
    · exact .pure _
  · exact misuse _

theorem jumpIfOrPop (truth : Bool) (offset : Nat) :
    (Action.jumpIfOrPop truth offset).KeepsStore := by
  refine onFrame_bind fun condition => ?_
  split
  · exact jump _
  · exact (onFrame _).discard

theorem startLoop (i : Instruction) : (Action.startLoop i).KeepsStore := by
  rw [Action.startLoop]
  split
  · exact onFrame_bind fun _ => onFrame_bind fun _ => onFrame _
  · exact fault _

theorem breakLoop : Action.breakLoop.KeepsStore := by
  refine exposeLoop.bind fun b => ?_
  split
  · exact (onFrame _).discard.bind fun _ => onFrame _
  · exact fault _

theorem continueLoop : Action.continueLoop.KeepsStore := by
  refine exposeLoop.bind fun b => ?_
  split
  · exact onFrame _
  · exact fault _

theorem throwTop : Action.throwTop.KeepsStore :=
  onFrame_bind fun _ => Keeps.bind ⟨fun h => by cases h; rfl, (by cases ·)⟩ fun _ => .throw _

theorem closeScope : Action.closeScope.KeepsStore := by
  refine (readScopes _).bind fun parent => ?_
  split
  · exact onFrame _
  · exact fault _

end KeepsStore

/-- A look at a table of the block. -/
theorem look_eq_ok_iff {look : Frame → Except Fault α} {f g : Frame} {s t : Store} {v : α} :
    onFrame (fun f => (look f).map (·, f)) ⟨f, s⟩ = .ok v ⟨g, t⟩ ↔
      look f = .ok v ∧ g = f ∧ t = s := by
  rw [onFrame_eq_ok_iff]
  cases look f <;> simp [Except.map, and_assoc, eq_comm]

/-! ### The store that an action leaves -/

/-- Whether the action succeeds or not, the store that it leaves satisfies `Q`. -/
structure Leaves (x : Action α) (a : Activation) (Q : Store → Prop) : Prop where
  ok {v : α} {b : Activation} : x a = .ok v b → Q b.store
  error {e : Interrupt} {b : Activation} : x a = .error e b → Q b.store

namespace Leaves

variable {x : Action α} {g : α → Action β} {a : Activation} {f : Frame} {s : Store}
  {Q : Store → Prop}

theorem of_keeps (hx : x.KeepsStore) (h : Q a.store) : x.Leaves a Q :=
  ⟨fun hok => by rwa [hx.ok hok], fun herror => by rwa [hx.error herror]⟩

theorem bind (herror : ∀ e b, x a = .error e b → Q b.store)
    (hok : ∀ v b, x a = .ok v b → (g v).Leaves b Q) : (x >>= g).Leaves a Q := by
  constructor
  · intro w c h
    obtain ⟨v, b, hfirst, hsecond⟩ := bind_eq_ok_iff.mp h
    exact (hok v b hfirst).ok hsecond
  · intro e c h
    rcases bind_eq_error_iff.mp h with hfirst | ⟨v, b, hfirst, hsecond⟩
    · exact herror e c hfirst
    · exact (hok v b hfirst).error hsecond

theorem keeps_bind (hx : x.KeepsStore) (h : Q a.store)
    (hok : ∀ v b, x a = .ok v b → (g v).Leaves b Q) : (x >>= g).Leaves a Q :=
  bind (fun e b herror => by rwa [hx.error herror]) hok

theorem bind_keeps (hx : x.Leaves a Q) (hg : ∀ v, (g v).KeepsStore) : (x >>= g).Leaves a Q :=
  bind (fun _ _ => hx.error) fun v _ hok => of_keeps (hg v) (hx.ok hok)

/-- To go on after a pop. Either too few operands were there, or `v` lay on top. -/
theorem pop_bind {g : Value → Action β} (h : Q s)
    (hg : ∀ v rest, f.stack = Stack.push rest v → (g v).Leaves ⟨{ f with stack := rest }, s⟩ Q) :
    (pop >>= g).Leaves ⟨f, s⟩ Q := by
  refine keeps_bind (.onFrame _) h ?_
  rintro v ⟨f', s'⟩ hok
  obtain ⟨hframe, rfl⟩ := onFrame_eq_ok_iff.mp hok
  obtain ⟨rest, hstack, rfl⟩ := Frame.pop_eq_ok_iff.mp hframe
  exact hg v rest hstack

theorem popN_bind {n : Nat} {g : List Value → Action β} (h : Q s)
    (hg : ∀ vs, (g vs).Leaves ⟨{ f with stack := f.stack.drop n }, s⟩ Q) :
    (popN n >>= g).Leaves ⟨f, s⟩ Q := by
  refine keeps_bind (.onFrame _) h ?_
  rintro vs ⟨f', s'⟩ hok
  obtain ⟨hframe, rfl⟩ := onFrame_eq_ok_iff.mp hok
  rw [Frame.popN] at hframe
  split at hframe
  · cases hframe
  · cases hframe
    exact hg _

/-- To go on after a look at a table of the block. -/
theorem look_bind {look : Frame → Except Fault α} (h : Q s)
    (hg : ∀ v, look f = .ok v → (g v).Leaves ⟨f, s⟩ Q) :
    ((Action.onFrame fun f => (look f).map (·, f)) >>= g).Leaves ⟨f, s⟩ Q := by
  refine keeps_bind (.onFrame _) h ?_
  rintro v ⟨f', s'⟩ hok
  obtain ⟨hlook, rfl, rfl⟩ := look_eq_ok_iff.mp hok
  exact hg v hlook

theorem currentScope_bind {g : ScopeId → Action β} (hg : (g f.scope).Leaves ⟨f, s⟩ Q) :
    (currentScope >>= g).Leaves ⟨f, s⟩ Q :=
  bind (fun e b h => by cases h) fun v b h => by cases h; exact hg

theorem readHeap_bind {r : Heap → Except Interrupt α} (h : Q s)
    (hg : ∀ v, r s.heap = .ok v → (g v).Leaves ⟨f, s⟩ Q) :
    (Action.readHeap r >>= g).Leaves ⟨f, s⟩ Q := by
  refine keeps_bind (.readHeap _) h ?_
  intro v b hok
  rw [Action.readHeap] at hok
  split at hok <;> cases hok
  exact hg _ ‹_›

theorem readScopes_bind {r : Scopes → ScopeId → Except ScopeError α} (h : Q s)
    (hg : ∀ v, r s.scopes f.scope = .ok v → (g v).Leaves ⟨f, s⟩ Q) :
    (Action.readScopes r >>= g).Leaves ⟨f, s⟩ Q := by
  refine keeps_bind (.readScopes _) h ?_
  intro v b hok
  rw [Action.readScopes] at hok
  split at hok <;> cases hok
  exact hg _ ‹_›

theorem onStore {r : Store → α × Store} (h : Q (r s).2) : (Action.onStore r).Leaves ⟨f, s⟩ Q :=
  ⟨fun hok => by cases hok; exact h, (by cases ·)⟩

theorem onHeap {r : Heap → α × Heap} (h : Q { s with heap := (r s.heap).2 }) :
    (Action.onHeap r).Leaves ⟨f, s⟩ Q :=
  onStore h

theorem onScopes {r : Scopes → α × Scopes} (h : Q { s with scopes := (r s.scopes).2 }) :
    (Action.onScopes r).Leaves ⟨f, s⟩ Q :=
  onStore h

end Leaves

end Action

/-! ### Calls -/

namespace Store

/-- The store when a call has bound its arguments in a new scope inside `outer`. -/
def called (s : Store) (outer : ScopeId) (params : List String) (args : List Value) : Store :=
  let scopes := (s.scopes.enclose outer).2
  let (rest, heap) := s.heap.newArray (args.drop params.length).toArray
  { s with
    heap
    scopes := (Action.bindParameters s.scopes.cells.size params args scopes).setForce
      s.scopes.cells.size Action.argumentsName rest false }

end Store

theorem Action.agreesOff_bindParameters (e : ScopeId) (params : List String) (args : List Value)
    (s : Scopes) : s.AgreesOff e (bindParameters e params args s) := by
  induction params generalizing args s with
  | nil => exact .refl s e
  | cons p params ih => exact (Scopes.AgreesOff.bind s e p _).trans (ih _ _)

namespace Store

variable (s : Store) (outer : ScopeId) (params : List String) (args : List Value)

/-- A call changes the bindings of its new scope only. -/
theorem agreesOff_called : (s.scopes.enclose outer).2.AgreesOff s.scopes.cells.size
    (s.called outer params args).scopes :=
  (Action.agreesOff_bindParameters _ _ _ _).trans (.bind _ _ _ _)

theorem inside_called :
    (s.called outer params args).scopes.Inside s.scopes.cells.size outer := by
  rw [Scopes.Inside, (s.agreesOff_called outer params args).parent, Scopes.parent_enclose,
    if_pos rfl]

theorem binding?_called {d : ScopeId} (h : d < s.scopes.cells.size) (name : String) :
    (s.called outer params args).scopes.binding? d name = s.scopes.binding? d name := by
  rw [(s.agreesOff_called outer params args).binding? d h.ne, Scopes.binding?_enclose]

end Store

/-- The scope around the body of what is called from a scope. -/
def Value.home? (caller : ScopeId) : Value → Option ScopeId
  | .function r => some r.scope
  | .code _ => some caller
  | _ => none

theorem Action.enter_apply (f : Frame) (s : Store) (outer : ScopeId) (params : List String)
    (args : List Value) (id : CodeId) :
    (do
      let scope ← encloseIn outer
      bindArguments scope params args
      return Next.enter (← codeBlock id) scope : Action Next) ⟨f, s⟩ =
    .ok (.enter (s.block id) s.scopes.cells.size) ⟨f, s.called outer params args⟩ :=
  rfl

/-! ### Instructions -/

namespace Instruction

/-- The name that an instruction takes from the tables of its block. -/
def Names (i : Instruction) (f : Frame) (name : String) : Prop :=
  i.opcode.usesLocal ∧ f.code.localAt i.arg = .ok name ∨
    i.opcode.usesName ∧ f.code.nameAt i.arg = .ok name

/-- An instruction for variables reads, writes, creates or removes the binding of the name in the
scope `d`. -/
def Touches (i : Instruction) (f : Frame) (s : Scopes) (name : String) (d : ScopeId) : Prop :=
  i.Names f name ∧
    match i.opcode with
    | .loadFast | .storeFast | .loadGlobal | .storeGlobal | .deleteGlobal =>
      ∃ b, s.resolve? f.scope name = some (d, b)
    | .storeConst | .define | .deleteFast => d = f.scope
    | _ => False

/-- An instruction is about to store a value into a container. -/
def Stores (i : Instruction) (f : Frame) (container value : Value) : Prop :=
  i.opcode = .storeIndex ∧
      (∃ rest key, f.stack = ((Stack.push rest value).push container).push key) ∨
    i.opcode = .storeAttribute ∧ ∃ rest, f.stack = (Stack.push rest value).push container

/-- What an instruction may make of the store. The program counter of the frame stands behind the
instruction. -/
inductive Alters (natives : Array Native) (i : Instruction) (f : Frame) (s : Store) :
    Store → Prop where
  | kept : Alters natives i f s s
  | grown {heap : Heap} : s.heap.Grows heap → Alters natives i f s { s with heap }
  | written {value : Value} {slot : Heap.Slot} : i.Stores f slot.container value →
      Alters natives i f s { s with heap := s.heap.write value slot }
  | counted : Alters natives i f s { s with functions := s.functions + 1 }
  | bound {name : String} {d : ScopeId} {b : Binding} : i.Touches f s.scopes name d →
      (∀ b', s.scopes.binding? d name = some b' → b'.readonly = false) →
      Alters natives i f s { s with scopes := s.scopes.bind d name b }
  | removed {name : String} {d : ScopeId} : i.opcode = .deleteFast ∨ i.opcode = .deleteGlobal →
      i.Touches f s.scopes name d → Alters natives i f s { s with scopes := s.scopes.unbind d name }
  | opened : i.opcode = .openScope →
      Alters natives i f s { s with scopes := (s.scopes.enclose f.scope).2 }
  | called {rest : Stack Value} {callee : Value} {outer : ScopeId} {params : List String}
      {args : List Value} : i.opcode = .call → f.stack = rest.push callee →
      callee.home? f.scope = some outer → Alters natives i f s (s.called outer params args)
  | answered {n : Native} {args : List Value} {v : Value} {t : Store} : i.opcode = .call →
      n ∈ natives → n.run f.scope args s = .ok v t → Alters natives i f s t
  | refused {n : Native} {args : List Value} {e : Interrupt} {t : Store} : i.opcode = .call →
      n ∈ natives → n.run f.scope args s = .error e t → Alters natives i f s t

/-! ### The effect of each instruction -/

open ScriptMachine.Action

variable {natives : Array Native} {i : Instruction} {f g : Frame} {s t : Store}

/-- To assign to a name of the block. -/
theorem leaves_setVariable {rest : Stack Value} {name : String} {v : Value}
    (hop : i.opcode = .storeFast ∨ i.opcode = .storeGlobal) (hname : i.Names f name) :
    (setVariable name v).Leaves ⟨{ f with stack := rest }, s⟩ (i.Alters natives f s) := by
  refine .readScopes_bind .kept fun d hd => .onScopes ?_
  rw [Scopes.assignable_eq] at hd
  cases hresolve : s.scopes.resolve? f.scope name with
  | none =>
      rw [hresolve] at hd
      cases hd
  | some r =>
      rw [hresolve] at hd
      simp only at hd
      split at hd <;> cases hd
      rename_i hwritable
      refine .bound (d := r.1) ⟨hname, ?_⟩ fun b hb => ?_
      · rcases hop with hop | hop <;> simp only [hop] <;> exact ⟨r.2, hresolve⟩
      · rw [(Scopes.nearest_of_resolveTo hresolve).binding?] at hb
        cases hb
        simpa using hwritable

/-- To declare a local variable. -/
theorem leaves_declare {rest : Stack Value} {name : String} {v : Value} {readonly : Bool}
    (hop : i.opcode = .storeConst ∨ i.opcode = .define) (hname : i.Names f name) :
    (declare name v readonly).Leaves ⟨{ f with stack := rest }, s⟩ (i.Alters natives f s) := by
  refine .readScopes_bind .kept fun _ hvacant => .currentScope_bind (.onScopes ?_)
  refine .bound (d := f.scope) ⟨hname, ?_⟩ fun b hb => ?_
  · rcases hop with hop | hop <;> simp [hop]
  · rw [Scopes.vacant] at hvacant
    split at hvacant
    · cases hvacant
    · rename_i hfree
      simp [Scopes.containsLocal, hb] at hfree

theorem leaves_storeIndex (hop : i.opcode = .storeIndex) :
    storeIndex.Leaves ⟨f, s⟩ (i.Alters natives f s) := by
  refine .pop_bind .kept fun key r₁ h₁ => .pop_bind .kept fun target r₂ h₂ =>
    .pop_bind .kept fun value r₃ h₃ => .readHeap_bind .kept fun slot hslot => .onHeap ?_
  simp only at h₂ h₃
  refine .written (.inl ⟨hop, r₃, key, ?_⟩)
  rw [h₁, h₂, h₃, (Heap.indexSlot_eq_ok_iff.mp hslot).2.container_eq]

theorem leaves_storeAttribute (hop : i.opcode = .storeAttribute) :
    (storeAttribute i.arg).Leaves ⟨f, s⟩ (i.Alters natives f s) := by
  refine .pop_bind .kept fun target r₁ h₁ => .pop_bind .kept fun value r₂ h₂ =>
    .look_bind .kept fun name hname => .readHeap_bind .kept fun slot hslot => .onHeap ?_
  simp only at h₂
  have hcontainer : slot.container = target := by
    obtain ⟨-, id, rfl, rfl⟩ := Heap.attributeSlot_eq_ok_iff.mp hslot
    rfl
  refine .written (.inr ⟨hop, r₂, ?_⟩)
  rw [h₁, h₂, hcontainer]

theorem leaves_makeFunction :
    makeFunction.Leaves ⟨f, s⟩ (i.Alters natives f s) := by
  refine .pop_bind .kept fun body _ _ => .pop_bind .kept fun params _ _ =>
    .pop_bind .kept fun name _ _ => ?_
  split
  · refine .readHeap_bind .kept fun _ _ => .currentScope_bind ?_
    exact .bind_keeps (.onStore .counted) fun _ => .onFrame _
  · exact .of_keeps (.misuse _) .kept
  · exact .of_keeps (.misuse _) .kept

theorem leaves_callNative (hop : i.opcode = .call) (hscope : g.scope = f.scope) (r : NativeRef)
    (args : List Value) : (callNative natives r args).Leaves ⟨g, s⟩ (i.Alters natives f s) := by
  have hmem {n : Native} (h : r.place.bind (natives[·]?) = some n) : n ∈ natives := by
    obtain ⟨place, -, hat⟩ := Option.bind_eq_some_iff.mp h
    exact Array.mem_of_getElem? hat
  constructor
  · rintro v ⟨f', t⟩ h
    rw [callNative] at h
    split at h
    · cases h
      exact .kept
    · rename_i n hn
      split at h <;> cases h
      rename_i hok
      rw [hscope] at hok
      exact .answered hop (hmem hn) hok
  · rintro e ⟨f', t⟩ h
    rw [callNative] at h
    split at h
    · cases h
    · rename_i n hn
      split at h <;> cases h
      rename_i herror
      rw [hscope] at herror
      exact .refused hop (hmem hn) herror

theorem leaves_call (hop : i.opcode = .call) :
    (call natives i.arg).Leaves ⟨f, s⟩ (i.Alters natives f s) := by
  refine .pop_bind .kept fun callee rest hstack => .popN_bind .kept fun args => ?_
  have henter {outer : ScopeId} {params : List String} {id : CodeId}
      (hhome : callee.home? f.scope = some outer) :
      Action.Leaves (do
        let scope ← encloseIn outer
        bindArguments scope params args
        return Next.enter (← codeBlock id) scope)
      ⟨{ f with stack := rest.drop i.arg }, s⟩ (i.Alters natives f s) := by
    constructor
    · intro next b hok
      rw [enter_apply] at hok
      cases hok
      exact .called hop hstack hhome
    · intro e b herror
      rw [enter_apply] at herror
      cases herror
  split
  · exact .bind_keeps (leaves_callNative hop (by rfl) _ _) fun _ => .onFrame_bind fun _ => .pure _
  · exact henter rfl
  · exact .currentScope_bind (henter rfl)
  · exact .of_keeps (.misuse _) .kept

/-- The instructions that neither call nor return. -/
theorem leaves_executeLocal (natives : Array Native) (i : Instruction) (f : Frame) (s : Store) :
    i.executeLocal.Leaves ⟨f, s⟩ (i.Alters natives f s) := by
  cases hop : i.opcode <;> simp only [executeLocal, hop]
  case noop | call | return_ => exact .of_keeps (.pure _) .kept
  case popTop => exact .of_keeps (KeepsStore.onFrame _).discard .kept
  case dupTop | loadConst => exact .of_keeps (.onFrame_bind fun _ => .onFrame _) .kept
  case loadFast | loadGlobal =>
    exact .of_keeps (.onFrame_bind fun _ =>
      (KeepsStore.readScopes _).bind fun _ => KeepsStore.onFrame _)
      .kept
  case storeFast =>
    exact .pop_bind .kept fun v _ _ => .look_bind .kept fun name hname =>
      leaves_setVariable (.inl hop) (.inl ⟨by rw [hop]; rfl, hname⟩)
  case storeGlobal =>
    exact .pop_bind .kept fun v _ _ => .look_bind .kept fun name hname =>
      leaves_setVariable (.inr hop) (.inr ⟨by rw [hop]; rfl, hname⟩)
  case storeConst =>
    exact .pop_bind .kept fun v _ _ => .look_bind .kept fun name hname =>
      leaves_declare (.inl hop) (.inl ⟨by rw [hop]; rfl, hname⟩)
  case define =>
    exact .pop_bind .kept fun v _ _ => .look_bind .kept fun name hname =>
      leaves_declare (.inr hop) (.inl ⟨by rw [hop]; rfl, hname⟩)
  case deleteFast =>
    exact .look_bind .kept fun name hname => .currentScope_bind <| .onScopes <|
      .removed (.inl hop) ⟨.inl ⟨by rw [hop]; rfl, hname⟩, by simp [hop]⟩
  case deleteGlobal =>
    refine .look_bind .kept fun name hname => .currentScope_bind (.onScopes ?_)
    rw [Scopes.unset_eq]
    cases hresolve : s.scopes.resolve? f.scope name with
    | none => exact .kept
    | some r =>
        refine .removed (.inr hop) ⟨.inr ⟨by rw [hop]; rfl, hname⟩, ?_⟩
        simp only [hop]
        exact ⟨r.2, hresolve⟩
  case loadAttribute =>
    exact .of_keeps (.onFrame_bind fun _ => .onFrame_bind fun _ =>
      (KeepsStore.readHeap _).bind fun _ => KeepsStore.onFrame _) .kept
  case storeAttribute => exact leaves_storeAttribute hop
  case loadIndex =>
    exact .of_keeps (.onFrame_bind fun _ => .onFrame_bind fun _ =>
      (KeepsStore.readHeap _).bind fun _ => KeepsStore.onFrame _) .kept
  case storeIndex => exact leaves_storeIndex hop
  case binary op =>
    exact .pop_bind .kept fun _ _ _ => .pop_bind .kept fun _ _ _ => .readHeap_bind .kept fun c _ =>
      .bind_keeps (.onHeap (.grown (Heap.grows_keep _ c))) fun _ => .onFrame _
  case unaryNeg =>
    exact .of_keeps (.onFrame_bind fun _ =>
      (KeepsStore.readHeap _).bind fun _ => KeepsStore.onFrame _) .kept
  case unaryNot => exact .of_keeps (.onFrame_bind fun _ => .onFrame _) .kept
  case compare => exact .of_keeps (.compare i) .kept
  case makeArray =>
    exact .popN_bind .kept fun vs =>
      .bind_keeps (.onHeap (.grown (Heap.grows_newArray _ _))) fun _ => .onFrame _
  case makeMap =>
    exact .popN_bind .kept fun vs => .readHeap_bind .kept fun entries _ =>
      .bind_keeps (.onHeap (.grown (Heap.grows_newMap _ _))) fun _ => .onFrame _
  case makeFunction => exact leaves_makeFunction
  case jumpAbsolute => exact .of_keeps (.jump _) .kept
  case jumpForward => exact .of_keeps (.onFrame_bind fun _ => .jump _) .kept
  case popJumpIf truth => exact .of_keeps (.popJumpIf _ _) .kept
  case jumpIfOrPop truth => exact .of_keeps (.jumpIfOrPop _ _) .kept
  case startLoop => exact .of_keeps (.startLoop i) .kept
  case endBlock => exact .of_keeps (.onFrame_bind fun _ => .onFrame _) .kept
  case break_ => exact .of_keeps .breakLoop .kept
  case continue_ => exact .of_keeps .continueLoop .kept
  case startTry => exact .of_keeps (.onFrame_bind fun _ => .onFrame _) .kept
  case throw => exact .of_keeps .throwTop .kept
  case openScope =>
    exact .currentScope_bind (.bind_keeps (.onScopes (.opened hop)) fun _ => .onFrame _)
  case closeScope => exact .of_keeps .closeScope .kept

/-- Whatever an instruction comes to, it has altered the store in one of the ways listed. -/
theorem leaves_execute (natives : Array Native) (i : Instruction) (f : Frame) (s : Store) :
    (i.execute natives).Leaves ⟨f, s⟩ (i.Alters natives f s) := by
  rw [execute.eq_def]
  split
  · exact leaves_call ‹_›
  · exact .of_keeps (.onFrame_bind fun _ => .pure _) .kept
  · exact (leaves_executeLocal natives i f s).bind_keeps fun _ => .pure _

/-- What is called runs in a new scope, inside the scope around its body. -/
theorem called_of_execute {c : CodeBlock} {e : ScopeId}
    (h : i.execute natives ⟨f, s⟩ = .ok (.enter c e) ⟨g, t⟩) :
    i.opcode = .call ∧ ∃ rest callee outer params args, f.stack = Stack.push rest callee ∧
      callee.home? f.scope = some outer ∧ e = s.scopes.cells.size ∧
      t = s.called outer params args := by
  have hop : i.opcode = .call := by
    by_contra hcall
    by_cases hreturn : i.opcode = .return_
    · simp only [execute, hreturn] at h
      obtain ⟨_, _, _, hleave⟩ := bind_eq_ok_iff.mp h
      cases hleave
    · rw [execute_eq hcall hreturn] at h
      obtain ⟨_, _, _, hproceed⟩ := bind_eq_ok_iff.mp h
      cases hproceed
  refine ⟨hop, ?_⟩
  simp only [execute, hop] at h
  obtain ⟨callee, ⟨f₁, s₁⟩, hpop, hrest⟩ := bind_eq_ok_iff.mp h
  obtain ⟨htop, rfl⟩ := onFrame_eq_ok_iff.mp hpop
  obtain ⟨rest, hstack, rfl⟩ := Frame.pop_eq_ok_iff.mp htop
  obtain ⟨args, ⟨f₂, s₂⟩, hpopN, hcall⟩ := bind_eq_ok_iff.mp hrest
  obtain ⟨hargs, rfl⟩ := onFrame_eq_ok_iff.mp hpopN
  have hscope : f₂.scope = f.scope := by
    rw [Frame.popN] at hargs
    split at hargs <;> cases hargs
    rfl
  cases callee with
  | native r =>
      obtain ⟨v, a, -, hpush⟩ := bind_eq_ok_iff.mp hcall
      obtain ⟨_, _, -, hproceed⟩ := bind_eq_ok_iff.mp hpush
      cases hproceed
  | function r =>
      simp only [enter_apply] at hcall
      cases hcall
      exact ⟨rest, _, _, _, _, hstack, rfl, rfl, rfl⟩
  | code id =>
      obtain ⟨d, a, hd, henter⟩ := bind_eq_ok_iff.mp hcall
      cases hd
      rw [enter_apply] at henter
      cases henter
      exact ⟨rest, _, _, _, _, hstack, rfl, rfl, by rw [hscope]⟩
  | _ => cases hcall

end Instruction

/-! ### Steps -/

namespace Machine

variable {m : Machine}

/-- To deal with an interrupt leaves the store alone. -/
theorem store_interrupt (m : Machine) (e : Interrupt) :
    (m.interrupt e).machine.store = m.store := by
  cases e with
  | fault y => rfl
  | raised z =>
      rw [interrupt, raise]
      split
      · rfl
      obtain ⟨log, hunwind⟩ := Invariant.unwind_eq (m.report (.raised z.message))
      rw [hunwind]
      simp only
      split
      · rfl
      rw [deliver]
      split
      · rfl
      simp only
      split <;> rfl

theorem store_start (m : Machine) (code : CodeBlock) (scope : ScopeId) :
    (m.start code scope).machine.store = m.store := by
  rw [start, enter]
  split
  · exact store_interrupt _ _
  · rfl

/-- In a step only the next instruction of the innermost frame alters the store. -/
theorem alters_of_step (m : Machine) :
    m.step.machine.store = m.store ∨ ∃ f below i, m.frames = Stack.push below f ∧ f.Fetches i ∧
      i.Alters m.natives (f.fetched i) m.store m.step.machine.store := by
  have hattempts := m.attempts_attempt
  rw [step_eq_settle]
  generalize m.attempt = x at hattempts
  cases hattempts with
  | idle => exact .inl rfl
  | unread => exact .inl rfl
  | proceeded hframes hi hexecute =>
      exact .inr ⟨_, _, _, hframes, hi, (Instruction.leaves_execute _ _ _ _).ok hexecute⟩
  | entered hframes hi hexecute =>
      exact .inr ⟨_, _, _, hframes, hi, (Instruction.leaves_execute _ _ _ _).ok hexecute⟩
  | refused hframes hi hexecute =>
      rw [Attempt.settle, store_interrupt]
      exact .inr ⟨_, _, _, hframes, hi, (Instruction.leaves_execute _ _ _ _).ok hexecute⟩
  | interrupted hframes hi hexecute =>
      rw [Attempt.settle, store_interrupt]
      exact .inr ⟨_, _, _, hframes, hi, (Instruction.leaves_execute _ _ _ _).error hexecute⟩
  | returned => exact .inl rfl
  | resumed => exact .inl rfl
  | overflowed => exact .inl rfl

end Machine

end ScriptMachine
