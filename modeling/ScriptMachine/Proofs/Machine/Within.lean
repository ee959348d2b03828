import ScriptMachine.Proofs.Machine.StoreEffect

/-! Scopes are known by their number. Closures name the scope in which they were made, frames and
open blocks the scopes in which they run, and scopes the one that lies around them. Everything that
an instruction does keeps these numbers among those of the scopes that exist. -/

namespace ScriptMachine

/-! ### Data that name scopes -/

/-- The scope that a value names, if it names one, is among the first `n`. -/
def Value.Within (n : Nat) : Value → Prop
  | .function r => r.scope < n
  | _ => True

/-- The contents of all containers name scopes among the first `n`. -/
structure Heap.Within (n : Nat) (h : Heap) : Prop where
  elements : ∀ id, ∀ v ∈ h.elements id, v.Within n
  fields : ∀ id key v, (h.fields id).get? key = some v → v.Within n

/-- All bindings and all scopes name scopes among the first `n`. -/
structure Scopes.Within (n : Nat) (s : Scopes) : Prop where
  bindings : ∀ e name b, s.binding? e name = some b → b.value.Within n
  parents : ∀ e p, s.Inside e p → p < n

def CodeBlock.Within (n : Nat) (c : CodeBlock) : Prop :=
  ∀ v ∈ c.constants, v.Within n

structure Store.Within (n : Nat) (s : Store) : Prop where
  heap : s.heap.Within n
  scopes : s.scopes.Within n
  blocks : ∀ id, (s.block id).Within n

structure Frame.Within (n : Nat) (f : Frame) : Prop where
  code : f.code.Within n
  operands : ∀ v ∈ f.stack.toList, v.Within n
  blocks : ∀ b ∈ f.blocks.toList, b.scope < n
  scope : f.scope < n

def Next.Within (n : Nat) : Next → Prop
  | .proceed => True
  | .enter c e => c.Within n ∧ e < n
  | .leave v => v.Within n

variable {n k : Nat} {v w : Value} {h : Heap} {s t : Scopes} {f g : Frame}

/-! ### More scopes -/

theorem Value.Within.mono (hv : v.Within n) (hle : n ≤ k) : v.Within k := by
  cases v with
  | function r => exact Nat.lt_of_lt_of_le hv hle
  | _ => trivial

theorem Heap.Within.mono (hh : h.Within n) (hle : n ≤ k) : h.Within k where
  elements id v hv := (hh.elements id v hv).mono hle
  fields id key v hv := (hh.fields id key v hv).mono hle

theorem Scopes.Within.mono (hs : s.Within n) (hle : n ≤ k) : s.Within k where
  bindings e name b hb := (hs.bindings e name b hb).mono hle
  parents e p hp := (hs.parents e p hp).trans_le hle

theorem CodeBlock.Within.mono {c : CodeBlock} (hc : c.Within n) (hle : n ≤ k) : c.Within k :=
  fun v hv => (hc v hv).mono hle

theorem Frame.Within.mono (hf : f.Within n) (hle : n ≤ k) : f.Within k where
  code := hf.code.mono hle
  operands v hv := (hf.operands v hv).mono hle
  blocks b hb := (hf.blocks b hb).trans_le hle
  scope := hf.scope.trans_le hle

theorem Frame.Within.push (hf : f.Within n) (hv : v.Within n) (h : f.push v = .ok g) :
    g.Within n := by
  obtain ⟨-, rfl⟩ := Frame.push_eq_ok_iff.mp h
  refine ⟨hf.code, ?_, hf.blocks, hf.scope⟩
  simpa [Frame.exchange] using ⟨hv, hf.operands⟩

/-! ### Containers -/

namespace Heap.Within

theorem loadIndex (hh : h.Within n) {target key : Value} (hload : h.loadIndex target key = .ok v) :
    v.Within n := by
  rw [Heap.loadIndex.eq_def] at hload
  split at hload
  · rename_i id i
    simp only [bind, Except.bind] at hload
    split at hload
    · cases hload
    · rename_i place hplace
      cases hload
      rw [Array.getD_eq_getD_getElem?]
      cases helement : (h.elements id)[place]? with
      | none => trivial
      | some w => exact hh.elements id w (Array.mem_of_getElem? helement)
  · simp only [bind, Except.bind] at hload
    split at hload <;> cases hload
    trivial
  · rename_i id name
    cases hload
    cases hfield : (h.fields id).get? name with
    | none => trivial
    | some w => exact hh.fields id name w hfield
  · cases hload

theorem loadAttribute (hh : h.Within n) {target : Value} {name : String}
    (hload : h.loadAttribute target name = .ok v) : v.Within n := by
  rw [Heap.loadAttribute.eq_def] at hload
  split at hload <;> cases hload
  rename_i id
  cases hfield : (h.fields id).get? name with
  | none => trivial
  | some w => exact hh.fields id name w hfield

theorem write (hh : h.Within n) (hv : v.Within n) (slot : Heap.Slot) :
    (h.write v slot).Within n := by
  cases slot with
  | element id place =>
      refine ⟨fun other w hw => ?_, hh.fields⟩
      rw [Heap.write, Heap.elements_setElement] at hw
      split at hw
      · rcases Array.mem_or_eq_of_mem_setIfInBounds hw with hw | rfl
        · exact hh.elements id w hw
        · exact hv
      · exact hh.elements other w hw
  | field id key =>
      refine ⟨hh.elements, fun other key' w hw => ?_⟩
      rw [Heap.write] at hw
      rcases h.fields_setField_or id other key v with hsame | ⟨-, hset⟩
      · rw [hsame] at hw
        exact hh.fields other key' w hw
      · rw [hset, Dict.get?_insert] at hw
        split at hw
        · cases hw
          exact hv
        · exact hh.fields id key' w hw

theorem newArray (hh : h.Within n) {xs : Array Value} (hxs : ∀ v ∈ xs, v.Within n) :
    (h.newArray xs).2.Within n := by
  refine ⟨fun id v hv => ?_, hh.fields⟩
  simp only [Heap.newArray, Heap.elements, Array.getD_eq_getD_getElem?, Array.getElem?_push] at hv
  split at hv
  · exact hxs v hv
  · exact hh.elements id v (by simpa [Heap.elements] using hv)

theorem newMap (hh : h.Within n) {d : Dict Value} (hd : ∀ key v, d.get? key = some v → v.Within n) :
    (h.newMap d).2.Within n := by
  refine ⟨hh.elements, fun id key v hv => ?_⟩
  simp only [Heap.newMap, Heap.fields, Array.getD_eq_getD_getElem?, Array.getElem?_push] at hv
  split at hv
  · exact hd key v hv
  · exact hh.fields id key v (by simpa [Heap.fields] using hv)

end Heap.Within

theorem Dict.forall_get?_ofList {P : Value → Prop} {l : List (String × Value)}
    (hl : ∀ e ∈ l, P e.2) (key : String) (v : Value) (hv : (Dict.ofList l).get? key = some v) :
    P v := by
  rw [get?_ofList, Option.map_eq_some_iff] at hv
  obtain ⟨e, he, rfl⟩ := hv
  exact hl e (List.mem_reverse.mp (List.mem_of_find?_eq_some he))

/-! ### Scopes -/

namespace Scopes.Within

theorem bind (hs : s.Within n) {b : Binding} (hb : b.value.Within n) (e : ScopeId)
    (name : String) : (s.bind e name b).Within n := by
  refine ⟨fun d m b' hb' => ?_, fun d p hp => hs.parents d p ?_⟩
  · rcases s.binding?_bind_or e d name m b with hnew | hsame
    · rw [hnew] at hb'
      cases hb'
      exact hb
    · exact hs.bindings d m b' (hsame ▸ hb')
  · rwa [Scopes.Inside, parent_bind] at hp

theorem unbind (hs : s.Within n) (e : ScopeId) (name : String) : (s.unbind e name).Within n := by
  refine ⟨fun d m b hb => ?_, fun d p hp => hs.parents d p ?_⟩
  · rw [binding?_unbind] at hb
    split at hb
    · cases hb
    · exact hs.bindings d m b hb
  · rwa [Scopes.Inside, parent_unbind] at hp

theorem enclose (hs : s.Within n) {e : ScopeId} (he : e < n) : (s.enclose e).2.Within n := by
  refine ⟨fun d m b hb => ?_, fun d p hp => ?_⟩
  · rw [binding?_enclose] at hb
    exact hs.bindings d m b hb
  · rw [Scopes.Inside, parent_enclose] at hp
    split at hp
    · cases hp
      exact he
    · exact hs.parents d p hp

theorem bindParameters (hs : s.Within n) (e : ScopeId) {params : List String} {args : List Value}
    (hargs : ∀ v ∈ args, v.Within n) : (Action.bindParameters e params args s).Within n := by
  induction params generalizing args s with
  | nil => exact hs
  | cons p params ih =>
      refine ih (hs.bind ?_ e p) fun v hv => hargs v (List.mem_of_mem_tail hv)
      cases args with
      | nil => trivial
      | cons v args => exact hargs v List.mem_cons_self

theorem get (hs : s.Within n) {e : ScopeId} {name : String} (hv : s.get e name = .ok v) :
    v.Within n := by
  rw [Scopes.get] at hv
  split at hv <;> cases hv
  exact hs.bindings _ _ _ (nearest_of_resolveTo ‹_›).binding?

end Scopes.Within

/-! ### Operators -/

def Computed.Within (n : Nat) : Computed → Prop
  | .value v => v.Within n
  | .array xs => ∀ v ∈ xs, v.Within n

theorem Computed.Within.mono {c : Computed} (hc : c.Within n) (hle : n ≤ k) : c.Within k := by
  cases c with
  | value v => exact Value.Within.mono hc hle
  | array xs => exact fun v hv => (hc v hv).mono hle

/-- Operators answer with numbers, texts and truth values, or with the elements of two arrays. -/
theorem Heap.Within.compute (hh : h.Within n) {op : BinaryOp} {c : Computed}
    (hc : op.compute v w h = .ok c) : c.Within n := by
  rw [BinaryOp.compute.eq_def] at hc
  simp only at hc
  split at hc
  · cases hc
  split at hc
  · rename_i a b _
    cases hop : op.onIntegers a b <;> rw [hop] at hc <;> cases hc
    trivial
  · rename_i a b _
    cases hop : op.onFloats? a b <;> rw [hop] at hc <;> cases hc
    trivial
  · split at hc <;> cases hc
    trivial
  · rename_i a b _
    split at hc <;> cases hc
    intro u hu
    rcases Array.mem_append.mp hu with hu | hu
    · exact hh.elements a u hu
    · exact hh.elements b u hu
  · rename_i a b _
    cases hop : op.onBooleans? a b <;> rw [hop] at hc <;> cases hc
    trivial
  · cases hc

theorem Heap.Within.keep (hh : h.Within n) {c : Computed} (hc : c.Within n) :
    (h.keep c).1.Within n ∧ (h.keep c).2.Within n := by
  cases c with
  | value v => exact ⟨hc, hh⟩
  | array xs => exact ⟨trivial, hh.newArray hc⟩

theorem CompareOp.within_apply {op : CompareOp} {u : Value} (hu : op.apply v w = .ok u) :
    u.Within n := by
  rw [apply.eq_def] at hu
  extract_lets answer at hu
  have hanswer (b? : Option Bool) (h : answer b? = .ok u) : u.Within n := by
    cases b? <;> cases h
    trivial
  clear_value answer
  by_cases hkind : v.kind ≠ w.kind
  · rw [if_pos hkind] at hu
    cases hu
  · rw [if_neg hkind] at hu
    cases v <;> cases w <;> exact hanswer _ hu

theorem Value.within_negate (hw : v.negate = .ok w) : w.Within n := by
  rw [Value.negate.eq_def] at hw
  split at hw <;> cases hw <;> trivial

theorem Action.within_entriesOf {items : List Value} {entries : List (String × Value)}
    (hitems : ∀ v ∈ items, v.Within n) (he : entriesOf items = .ok entries) :
    ∀ e ∈ entries, e.2.Within n := by
  induction items using entriesOf.induct generalizing entries with
  | case1 key v rest ih =>
      rw [entriesOf] at he
      cases hrest : entriesOf rest with
      | error x =>
          rw [hrest] at he
          cases he
      | ok more =>
          rw [hrest] at he
          cases he
          simp only [List.forall_mem_cons] at hitems ⊢
          exact ⟨hitems.2.1, ih hitems.2.2 hrest⟩
  | case2 key v rest hkey =>
      rw [entriesOf] at he
      · cases he
      · exact hkey
  | case3 items hone hnone =>
      rw [entriesOf] at he
      · cases he
        simp
      · exact hone
      · exact hnone

/-! ### Actions -/

/-- A store that names existing scopes only. -/
def Store.Grounded (s : Store) : Prop :=
  s.Within s.scopes.cells.size

theorem Store.Grounded.of_scopes {s : Scopes}
    (hbindings : ∀ e name b, s.binding? e name = some b → b.value.Within s.cells.size)
    (hclosed : s.Closed) : ({ scopes := s } : Store).Grounded where
  heap := {
    elements := fun id v hv => by simp [Heap.elements] at hv
    fields := fun id key v hv => by simp [Heap.fields] at hv }
  scopes := ⟨hbindings, hclosed⟩
  blocks _ v hv := (Array.not_mem_empty v hv).elim

/-- A native that leaves existing scopes where they are, and names existing scopes only, in what it
answers and in what it makes of the store. -/
def Native.KeepsChains (m : Native) : Prop :=
  ∀ scope args (s : Store), scope < s.scopes.cells.size →
    (∀ v ∈ args, v.Within s.scopes.cells.size) → s.Grounded →
    (∀ v t, m.run scope args s = .ok v t →
      s.scopes.Extends t.scopes ∧ t.Grounded ∧ v.Within t.scopes.cells.size) ∧
    ∀ e t, m.run scope args s = .error e t → s.scopes.Extends t.scopes ∧ t.Grounded

namespace Activation

def Grounded (a : Activation) : Prop :=
  a.frame.Within a.store.scopes.cells.size ∧ a.store.Grounded

/-- The scopes of `a` are still there in `b`, where everything names existing scopes only. -/
def Leads (a b : Activation) : Prop :=
  a.store.scopes.Extends b.store.scopes ∧ b.Grounded

variable {a b c : Activation}

theorem Leads.refl (ha : a.Grounded) : a.Leads a :=
  ⟨.refl _, ha⟩

theorem Leads.trans (h : a.Leads b) (h' : b.Leads c) : a.Leads c :=
  ⟨h.1.trans h'.1, h'.2⟩

end Activation

namespace Action

variable {α β : Type} {P : Nat → α → Prop} {Q : Nat → β → Prop}

/-- An action that keeps what names scopes grounded, at a time when at least `n` scopes exist. Its
result satisfies `P` at the number of scopes that exist in the end. -/
structure Carries (n : Nat) (P : Nat → α → Prop) (x : Action α) : Prop where
  ok {a b : Activation} {v : α} : n ≤ a.store.scopes.cells.size → a.Grounded → x a = .ok v b →
    a.Leads b ∧ P b.store.scopes.cells.size v
  error {a b : Activation} {e : Interrupt} : n ≤ a.store.scopes.cells.size → a.Grounded →
    x a = .error e b → a.Leads b

namespace Carries

theorem pure {v : α} (hv : ∀ k, n ≤ k → P k v) : (Pure.pure v : Action α).Carries n P :=
  ⟨fun hn ha h => by cases h; exact ⟨.refl ha, hv _ hn⟩, fun _ _ h => by cases h⟩

theorem throw (e : Interrupt) : (throw e : Action α).Carries n P :=
  ⟨fun _ _ h => (by cases h), fun _ ha h => by cases h; exact .refl ha⟩

theorem misuse (u : Misuse) : (Action.misuse u : Action α).Carries n P :=
  .throw _

theorem fault (y : Fault) : (Action.fault y : Action α).Carries n P :=
  .throw _

theorem bind {x : Action α} {next : α → Action β} (hx : x.Carries n P)
    (hnext : ∀ k v, n ≤ k → P k v → (next v).Carries k Q) : (x >>= next).Carries n Q := by
  constructor
  · intro a c w hn ha h
    obtain ⟨v, b, hfirst, hsecond⟩ := bind_eq_ok_iff.mp h
    obtain ⟨hb, hv⟩ := hx.ok hn ha hfirst
    obtain ⟨hc, hw⟩ := (hnext _ v (hn.trans hb.1.size_le) hv).ok (Nat.le_refl _) hb.2 hsecond
    exact ⟨hb.trans hc, hw⟩
  · intro a c e hn ha h
    rcases bind_eq_error_iff.mp h with hfirst | ⟨v, b, hfirst, hsecond⟩
    · exact hx.error hn ha hfirst
    · obtain ⟨hb, hv⟩ := hx.ok hn ha hfirst
      exact hb.trans ((hnext _ v (hn.trans hb.1.size_le) hv).error (Nat.le_refl _) hb.2 hsecond)

theorem discard {x : Action α} (hx : x.Carries n P) :
    (Functor.discard x).Carries n fun _ _ => True := by
  rw [discard_eq]
  exact hx.bind fun _ _ _ _ => pure fun _ _ => trivial

/-- An action on the frame. -/
theorem onFrame {g : Frame → Except Fault (α × Frame)} (hg : ∀ k f v f', n ≤ k → f.Within k →
    g f = .ok (v, f') → f'.Within k ∧ P k v) : (Action.onFrame g).Carries n P := by
  constructor
  · rintro ⟨f, s⟩ ⟨f', t⟩ v hn ha h
    obtain ⟨hframe, rfl⟩ := onFrame_eq_ok_iff.mp h
    obtain ⟨hf', hv⟩ := hg _ f v f' hn ha.1 hframe
    exact ⟨⟨.refl _, hf', ha.2⟩, hv⟩
  · rintro ⟨f, s⟩ ⟨f', t⟩ e hn ha h
    obtain ⟨-, -, -, rfl, rfl⟩ := onFrame_eq_error_iff.mp h
    exact .refl ha

/-- A look at the frame. -/
theorem look {g : Frame → Except Fault α} (hg : ∀ k f v, n ≤ k → f.Within k → g f = .ok v → P k v) :
    (Action.onFrame fun f => (g f).map (·, f)).Carries n P := by
  refine onFrame fun k f v f' hn hf h => ?_
  cases hgf : g f <;> rw [hgf] at h <;> cases h
  exact ⟨hf, hg k f _ hn hf hgf⟩

theorem readHeap {g : Heap → Except Interrupt α}
    (hg : ∀ k h v, n ≤ k → h.Within k → g h = .ok v → P k v) :
    (Action.readHeap g).Carries n P := by
  constructor
  · intro a b v hn ha h
    rw [Action.readHeap] at h
    split at h <;> cases h
    exact ⟨.refl ha, hg _ _ _ hn ha.2.heap ‹_›⟩
  · intro a b e hn ha h
    rw [Action.readHeap] at h
    split at h <;> cases h
    exact .refl ha

theorem readScopes {g : Scopes → ScopeId → Except ScopeError α}
    (hg : ∀ k s e v, n ≤ k → s.Within k → e < k → g s e = .ok v → P k v) :
    (Action.readScopes g).Carries n P := by
  constructor
  · intro a b v hn ha h
    rw [Action.readScopes] at h
    split at h <;> cases h
    exact ⟨.refl ha, hg _ _ _ _ hn ha.2.scopes ha.1.scope ‹_›⟩
  · intro a b e hn ha h
    rw [Action.readScopes] at h
    split at h <;> cases h
    exact .refl ha

theorem onStore {g : Store → α × Store} (hg : ∀ s : Store, n ≤ s.scopes.cells.size → s.Grounded →
    s.scopes.Extends (g s).2.scopes ∧ (g s).2.Grounded ∧ P (g s).2.scopes.cells.size (g s).1) :
    (Action.onStore g).Carries n P := by
  refine ⟨?_, fun _ _ h => by cases h⟩
  rintro ⟨f, s⟩ b v hn ha h
  cases h
  obtain ⟨hextends, hground, hv⟩ := hg s hn ha.2
  exact ⟨⟨hextends, ha.1.mono hextends.size_le, hground⟩, hv⟩

theorem onHeap {g : Heap → α × Heap}
    (hg : ∀ k h, n ≤ k → h.Within k → (g h).2.Within k ∧ P k (g h).1) :
    (Action.onHeap g).Carries n P :=
  onStore fun s hn hs =>
    have hheap := hg _ s.heap hn hs.heap
    ⟨.refl _, ⟨hheap.1, hs.scopes, hs.blocks⟩, hheap.2⟩

theorem onScopes {g : Scopes → α × Scopes} (hg : ∀ s : Scopes, n ≤ s.cells.size →
    s.Within s.cells.size → s.Extends (g s).2 ∧ (g s).2.Within (g s).2.cells.size ∧
      P (g s).2.cells.size (g s).1) :
    (Action.onScopes g).Carries n P := by
  refine onStore fun s hn hs => ?_
  obtain ⟨hextends, hscopes, hv⟩ := hg s.scopes hn hs.scopes
  have hle := hextends.size_le
  exact ⟨hextends, ⟨hs.heap.mono hle, hscopes, fun id => (hs.blocks id).mono hle⟩, hv⟩

/-! ### Operands and tables -/

theorem push (hv : v.Within n) : (Action.push v).Carries n fun _ _ => True := by
  refine onFrame fun k f u f' hn hf h => ⟨?_, trivial⟩
  cases hput : f.push v <;> rw [hput] at h <;> cases h
  exact hf.push (hv.mono hn) hput

theorem pop : Action.pop.Carries n Value.Within := by
  refine onFrame fun k f v f' hn hf h => ?_
  obtain ⟨rest, hstack, rfl⟩ := Frame.pop_eq_ok_iff.mp h
  have hoperands := hf.operands
  rw [hstack, Stack.toList_push, List.forall_mem_cons] at hoperands
  exact ⟨⟨hf.code, hoperands.2, hf.blocks, hf.scope⟩, hoperands.1⟩

theorem popN (m : Nat) : (Action.popN m).Carries n fun k vs => ∀ v ∈ vs, v.Within k := by
  refine onFrame fun k f vs f' hn hf h => ?_
  rw [Frame.popN] at h
  split at h <;> cases h
  refine ⟨⟨hf.code, fun v hv => hf.operands v ?_, hf.blocks, hf.scope⟩, fun v hv =>
    hf.operands v ?_⟩
  · exact List.mem_of_mem_drop (by simpa using hv)
  · exact List.mem_of_mem_take (List.mem_reverse.mp hv)

theorem peek : Action.peek.Carries n Value.Within := by
  refine look fun k f v hn hf h => ?_
  obtain ⟨rest, hstack⟩ := Frame.peek_eq_ok_iff.mp h
  exact hf.operands v (by simp [hstack])

theorem constant (index : Nat) : (Action.constant index).Carries n Value.Within := by
  refine look fun k f v hn hf h => ?_
  rw [CodeBlock.constant] at h
  split at h <;> cases h
  exact hf.code v (Array.mem_of_getElem? ‹_›)

/-- To look something up that names no scope. -/
theorem plain (g : Frame → Except Fault α) :
    (Action.onFrame fun f => (g f).map (·, f)).Carries n fun _ _ => True :=
  look fun _ _ _ _ _ _ => trivial

theorem currentScope : Action.currentScope.Carries n fun k e => e < k :=
  onFrame fun k f v f' hn hf h => by cases h; exact ⟨hf, hf.scope⟩

/-! ### Variables and containers -/

theorem getVariable (name : String) : (Action.getVariable name).Carries n Value.Within :=
  readScopes fun _ _ _ _ _ hs _ hv => hs.get hv

/-- To bind a name in any scope. -/
theorem bindName {e : ScopeId} {name : String} {readonly : Bool} (hv : v.Within n) :
    (Action.onScopes fun s => ((), s.bind e name ⟨v, readonly⟩)).Carries n fun _ _ => True := by
  refine onScopes fun s hn hs => ⟨.of_agreesOff (.bind s e name _), ?_, trivial⟩
  rw [Scopes.size_bind]
  exact hs.bind (hv.mono hn) e name

theorem setVariable {name : String} (hv : v.Within n) :
    (Action.setVariable name v).Carries n fun _ _ => True :=
  bind (P := fun _ _ => True) (readScopes fun _ _ _ _ _ _ _ _ => trivial) fun _ _ hn _ =>
    bindName (hv.mono hn)

theorem declare {name : String} {readonly : Bool} (hv : v.Within n) :
    (Action.declare name v readonly).Carries n fun _ _ => True :=
  bind (P := fun _ _ => True) (readScopes fun _ _ _ _ _ _ _ _ => trivial) fun _ _ hn _ =>
    currentScope.bind fun _ _ hn' _ => bindName (hv.mono (hn.trans hn'))

theorem unsetLocal (name : String) : (Action.unsetLocal name).Carries n fun _ _ => True := by
  refine currentScope.bind fun _ e _ _ => onScopes fun s _ hs =>
    ⟨.of_agreesOff (.unbind s e name), ?_, trivial⟩
  simpa [Scopes.unsetLocal] using hs.unbind e name

theorem unset (name : String) : (Action.unset name).Carries n fun _ _ => True := by
  refine currentScope.bind fun _ e _ _ => onScopes fun s _ hs => ?_
  rw [Scopes.unset_eq]
  split
  · refine ⟨.of_agreesOff (.unbind s _ name), ?_, trivial⟩
    simpa using hs.unbind _ name
  · exact ⟨.refl s, hs, trivial⟩

theorem encloseIn {e : ScopeId} (he : e < n) : (Action.encloseIn e).Carries n fun k d => d < k := by
  refine onScopes fun s hn hs => ⟨.enclose s e, ?_, ?_⟩
  · rw [Scopes.size_enclose]
    exact (hs.enclose (he.trans_le hn)).mono (Nat.le_succ _)
  · rw [Scopes.size_enclose]
    exact Nat.lt_succ_self _

theorem newArray {xs : List Value} (hxs : ∀ v ∈ xs, v.Within n) :
    (Action.newArray xs).Carries n Value.Within :=
  onHeap fun k h hn hh => ⟨hh.newArray fun v hv => (hxs v (by simpa using hv)).mono hn, trivial⟩

theorem write {slot : Heap.Slot} (hv : v.Within n) :
    (Action.write v slot).Carries n fun _ _ => True :=
  onHeap fun _ _ hn hh => ⟨hh.write (hv.mono hn) slot, trivial⟩

/-- To look something up in the heap that names no scope. -/
theorem inspect (g : Heap → Except Interrupt α) :
    (Action.readHeap g).Carries n fun _ _ => True :=
  readHeap fun _ _ _ _ _ _ => trivial

theorem loadAttribute (name : Nat) : (Action.loadAttribute name).Carries n fun _ _ => True :=
  pop.bind fun _ _ _ _ => (plain _).bind fun _ _ _ _ =>
    bind (readHeap fun _ _ _ _ hh hv => hh.loadAttribute hv) fun _ _ _ hv => push hv

theorem storeAttribute (name : Nat) : (Action.storeAttribute name).Carries n fun _ _ => True :=
  pop.bind fun _ _ _ _ => pop.bind fun _ _ _ hv => (plain _).bind fun _ _ hn _ =>
    (inspect _).bind fun _ _ hn' _ => write (hv.mono (hn.trans hn'))

theorem loadIndex : Action.loadIndex.Carries n fun _ _ => True :=
  pop.bind fun _ _ _ _ => pop.bind fun _ _ _ _ =>
    bind (readHeap fun _ _ _ _ hh hv => hh.loadIndex hv) fun _ _ _ hv => push hv

theorem storeIndex : Action.storeIndex.Carries n fun _ _ => True :=
  pop.bind fun _ _ _ _ => pop.bind fun _ _ _ _ => pop.bind fun _ _ _ hv =>
    (inspect _).bind fun _ _ hn _ => write (hv.mono hn)

theorem binary (op : BinaryOp) : (Action.binary op).Carries n fun _ _ => True := by
  refine pop.bind fun _ right _ _ => pop.bind fun _ left _ _ =>
    bind (P := Computed.Within) (readHeap fun _ _ _ _ hh hc => hh.compute hc) fun _ c _ hc =>
    bind (P := Value.Within) (onHeap fun _ h hn hh => ?_) fun _ _ _ hv => push hv
  obtain ⟨hv, hkeep⟩ := hh.keep (hc.mono hn)
  exact ⟨hkeep, hv⟩

theorem negate : Action.negate.Carries n fun _ _ => True :=
  pop.bind fun _ _ _ _ =>
    bind (P := Value.Within) (readHeap fun _ _ _ _ _ hw => Value.within_negate hw)
      fun _ _ _ hv => push hv

theorem compare (i : Instruction) : (Action.compare i).Carries n fun _ _ => True := by
  rw [Action.compare]
  split
  · exact fault _
  · exact pop.bind fun _ _ _ _ => pop.bind fun _ _ _ _ =>
      bind (P := Value.Within) (readHeap fun _ _ _ _ _ hv => CompareOp.within_apply hv)
        fun _ _ _ hv => push hv

theorem makeMap (pairs : Nat) : (Action.makeMap pairs).Carries n fun _ _ => True := by
  refine (popN _).bind fun _ items _ hitems =>
    bind (P := fun k (entries : List (String × Value)) => ∀ e ∈ entries, e.2.Within k)
      (readHeap fun _ _ _ hn _ he => within_entriesOf (fun v hv => (hitems v hv).mono hn) he)
      fun _ entries _ hentries => ?_
  refine bind (P := Value.Within) (onHeap fun _ h hn hh => ⟨hh.newMap ?_, trivial⟩)
    fun _ _ _ hv => push hv
  exact Dict.forall_get?_ofList fun e he => (hentries e he).mono hn

/-- A function names the scope in which the frame is. -/
theorem makeFunction : Action.makeFunction.Carries n fun _ _ => True := by
  refine pop.bind fun _ body _ _ => pop.bind fun _ params _ _ => pop.bind fun _ name _ _ => ?_
  split
  · refine (inspect _).bind fun _ _ _ _ => currentScope.bind fun _ e _ he => ?_
    refine bind (P := fun k (r : Closure) => r.scope < k) (onStore fun s hn hs => ?_)
      fun _ _ _ hr => push hr
    exact ⟨.refl _, ⟨hs.heap, hs.scopes, hs.blocks⟩, he.trans_le hn⟩
  · exact misuse _
  · exact misuse _

/-! ### Calls -/

theorem callNative {natives : Array Native} (hnatives : ∀ m ∈ natives, m.KeepsChains)
    (r : NativeRef) {args : List Value} (hargs : ∀ v ∈ args, v.Within n) :
    (Action.callNative natives r args).Carries n Value.Within := by
  have hrun {m : Native} (h : r.place.bind (natives[·]?) = some m) : m.KeepsChains := by
    obtain ⟨place, -, hat⟩ := Option.bind_eq_some_iff.mp h
    exact hnatives m (Array.mem_of_getElem? hat)
  constructor
  · rintro ⟨f, s⟩ ⟨f', t⟩ v hn ha h
    rw [Action.callNative] at h
    split at h
    · cases h
      exact ⟨.refl ha, trivial⟩
    · rename_i m hm
      split at h <;> cases h
      rename_i hok
      obtain ⟨hextends, hground, hv⟩ := (hrun hm f.scope args s ha.1.scope
        (fun v hv => (hargs v hv).mono hn) ha.2).1 v t hok
      exact ⟨⟨hextends, ha.1.mono hextends.size_le, hground⟩, hv⟩
  · rintro ⟨f, s⟩ ⟨f', t⟩ e hn ha h
    rw [Action.callNative] at h
    split at h
    · cases h
    · rename_i m hm
      split at h <;> cases h
      rename_i herror
      obtain ⟨hextends, hground⟩ := (hrun hm f.scope args s ha.1.scope
        (fun v hv => (hargs v hv).mono hn) ha.2).2 e t herror
      exact ⟨hextends, ha.1.mono hextends.size_le, hground⟩

theorem bindArguments (e : ScopeId) (params : List String) {args : List Value}
    (hargs : ∀ v ∈ args, v.Within n) :
    (Action.bindArguments e params args).Carries n fun _ _ => True := by
  refine bind (P := fun _ _ => True) (onScopes fun s hn hs => ?_) fun _ _ hn _ =>
    (newArray fun v hv => (hargs v (List.mem_of_mem_drop hv)).mono hn).bind fun _ rest _ hrest =>
    bindName hrest
  have hagrees := agreesOff_bindParameters e params args s
  refine ⟨.of_agreesOff hagrees, ?_, trivial⟩
  rw [hagrees.size]
  exact hs.bindParameters e fun v hv => (hargs v hv).mono hn

theorem codeBlock (id : CodeId) : (Action.codeBlock id).Carries n CodeBlock.Within :=
  ⟨fun _ ha h => by cases h; exact ⟨.refl ha, ha.2.blocks id⟩, fun _ _ h => by cases h⟩

/-- To enter a block in a new scope. -/
theorem enter {d : ScopeId} (hd : d < n) (params : List String) {args : List Value}
    (hargs : ∀ v ∈ args, v.Within n) (id : CodeId) :
    Action.Carries n Next.Within (do
      let scope ← Action.encloseIn d
      Action.bindArguments scope params args
      return Next.enter (← Action.codeBlock id) scope) :=
  (encloseIn hd).bind fun _ e hn he =>
    (bindArguments e params fun v hv => (hargs v hv).mono hn).bind fun _ _ hn' _ =>
    (codeBlock id).bind fun _ _ hn'' hc => pure fun _ hk =>
      ⟨hc.mono hk, he.trans_le ((hn'.trans hn'').trans hk)⟩

theorem call {natives : Array Native} (hnatives : ∀ m ∈ natives, m.KeepsChains) (argc : Nat) :
    (Action.call natives argc).Carries n Next.Within := by
  refine pop.bind fun _ callee _ hcallee => (popN argc).bind fun _ args hn hargs => ?_
  split
  · exact (callNative hnatives _ hargs).bind fun _ v _ hv => (push hv).bind fun _ _ _ _ =>
      pure fun _ _ => trivial
  · exact enter (hcallee.mono hn) _ hargs _
  · exact currentScope.bind fun _ e hn' he => enter he [] (fun v hv => (hargs v hv).mono hn') _
  · exact misuse _

/-! ### Jumps and blocks -/

theorem jump (offset : Nat) : (Action.jump offset).Carries n fun _ _ => True :=
  (plain _).bind fun _ _ _ _ => onFrame fun _ _ _ _ _ hf h => by
    cases h
    exact ⟨⟨hf.code, hf.operands, hf.blocks, hf.scope⟩, trivial⟩

theorem jumpForward (distance : Nat) :
    (Action.jumpForward distance).Carries n fun _ _ => True :=
  bind (P := fun _ _ => True) (onFrame fun _ _ _ _ _ hf h => by cases h; exact ⟨hf, trivial⟩)
    fun _ _ _ _ => jump _

theorem popJumpIf (truth : Bool) (offset : Nat) :
    (Action.popJumpIf truth offset).Carries n fun _ _ => True := by
  refine pop.bind fun _ condition _ _ => ?_
  split
  · split
    · exact jump _
    · exact pure fun _ _ => trivial
  · exact misuse _

theorem jumpIfOrPop (truth : Bool) (offset : Nat) :
    (Action.jumpIfOrPop truth offset).Carries n fun _ _ => True := by
  refine peek.bind fun _ condition _ _ => ?_
  split
  · exact jump _
  · exact pop.discard

theorem openBlock {b : Frame → Block} (hb : ∀ f, (b f).scope = f.scope) :
    (Action.openBlock b).Carries n fun _ _ => True := by
  refine onFrame fun k f u f' _ hf h => ⟨?_, trivial⟩
  cases hput : f.pushBlock (b f) <;> rw [hput] at h <;> cases h
  obtain ⟨-, rfl⟩ := Frame.pushBlock_eq_ok_iff.mp hput
  refine ⟨hf.code, hf.operands, ?_, hf.scope⟩
  simpa [hb] using ⟨hf.scope, hf.blocks⟩

theorem popBlock : Action.popBlock.Carries n fun k b => b.scope < k := by
  refine onFrame fun k f b f' _ hf h => ?_
  obtain ⟨rest, hblocks, rfl⟩ := Frame.popBlock_eq_ok_iff.mp h
  have hall := hf.blocks
  rw [hblocks, Stack.toList_push, List.forall_mem_cons] at hall
  exact ⟨⟨hf.code, hf.operands, hall.2, hf.scope⟩, hall.1⟩

theorem exposeLoop : Action.exposeLoop.Carries n fun k b => b.scope < k := by
  refine bind (P := fun _ _ => True) (onFrame fun k f _ f' _ hf h => ?_)
    fun _ _ _ _ => look fun k f b _ hf h => ?_
  · cases h
    exact ⟨⟨hf.code, hf.operands, fun b hb => hf.blocks b ((f.suffix_expose _).subset hb),
      hf.scope⟩, trivial⟩
  · rw [Frame.exposed] at h
    rcases f.blocks.eq_empty_or_push with hnone | ⟨c, rest, hsome⟩
    · simp [hnone] at h
    · rw [hsome] at h
      cases h
      exact hf.blocks _ (by simp [hsome])

theorem enterScope {e : ScopeId} (he : e < n) : (Action.enterScope e).Carries n fun _ _ => True :=
  onFrame fun _ _ _ _ hn hf h => by
    cases h
    exact ⟨⟨hf.code, hf.operands, hf.blocks, he.trans_le hn⟩, trivial⟩

theorem resumeAt {b : Block} (hb : b.scope < n) (offset : Nat) :
    (Action.resumeAt b offset).Carries n fun _ _ => True :=
  onFrame fun _ f _ _ hn hf h => by
    cases h
    refine ⟨⟨hf.code, fun v hv => hf.operands v ?_, hf.blocks, hb.trans_le hn⟩, trivial⟩
    exact List.mem_of_mem_drop hv

theorem startLoop (i : Instruction) : (Action.startLoop i).Carries n fun _ _ => True := by
  rw [Action.startLoop]
  split
  · exact (plain _).bind fun _ _ _ _ => (plain _).bind fun _ _ _ _ => openBlock fun _ => rfl
  · exact fault _

theorem breakLoop : Action.breakLoop.Carries n fun _ _ => True := by
  refine exposeLoop.bind fun _ b _ hb => ?_
  split
  · exact popBlock.discard.bind fun _ _ hn _ => resumeAt (hb.trans_le hn) _
  · exact fault _

theorem continueLoop : Action.continueLoop.Carries n fun _ _ => True := by
  refine exposeLoop.bind fun _ b _ hb => ?_
  split
  · exact resumeAt hb _
  · exact fault _

theorem throwTop : Action.throwTop.Carries n fun _ _ => True :=
  pop.bind fun _ _ _ _ =>
    bind (P := fun _ _ => True) (onStore fun _ _ hs => ⟨.refl _, hs, trivial⟩)
      fun _ _ _ _ => throw _

theorem closeScope : Action.closeScope.Carries n fun _ _ => True := by
  refine bind (P := fun k (p? : Option ScopeId) => ∀ p, p? = some p → p < k)
    (readScopes fun k s e p? _ hs _ h p hp => ?_) fun _ p? _ hp => ?_
  · cases h
    exact hs.parents e p hp
  · split
    · exact enterScope (hp _ rfl)
    · exact fault _

/-! ### Instructions -/

/-- The instructions that neither call nor return. -/
theorem executeLocal (i : Instruction) : i.executeLocal.Carries n fun _ _ => True := by
  obtain ⟨offset, opcode, operand⟩ := i
  cases opcode with
  | noop | call | return_ => exact pure fun _ _ => trivial
  | popTop => exact pop.discard
  | dupTop => exact peek.bind fun _ _ _ hv => push hv
  | loadConst => exact (constant _).bind fun _ _ _ hv => push hv
  | loadFast | loadGlobal =>
      exact (plain _).bind fun _ _ _ _ => (getVariable _).bind fun _ _ _ hv => push hv
  | storeFast | storeGlobal =>
      exact pop.bind fun _ _ _ hv => (plain _).bind fun _ _ hn _ => setVariable (hv.mono hn)
  | storeConst | define =>
      exact pop.bind fun _ _ _ hv => (plain _).bind fun _ _ hn _ => declare (hv.mono hn)
  | deleteFast => exact (plain _).bind fun _ _ _ _ => unsetLocal _
  | deleteGlobal => exact (plain _).bind fun _ _ _ _ => unset _
  | loadAttribute => exact loadAttribute _
  | storeAttribute => exact storeAttribute _
  | loadIndex => exact loadIndex
  | storeIndex => exact storeIndex
  | binary op => exact binary op
  | unaryNeg => exact negate
  | unaryNot => exact pop.bind fun _ _ _ _ => push trivial
  | compare => exact compare _
  | makeArray =>
      exact (popN _).bind fun _ _ _ hvs => (newArray hvs).bind fun _ _ _ hv => push hv
  | makeMap => exact makeMap _
  | makeFunction => exact makeFunction
  | jumpAbsolute => exact jump _
  | jumpForward => exact jumpForward _
  | popJumpIf truth => exact popJumpIf truth _
  | jumpIfOrPop truth => exact jumpIfOrPop truth _
  | startLoop => exact startLoop _
  | endBlock => exact popBlock.bind fun _ _ _ hb => enterScope hb
  | break_ => exact breakLoop
  | continue_ => exact continueLoop
  | startTry => exact (plain _).bind fun _ _ _ _ => openBlock fun _ => rfl
  | throw => exact throwTop
  | openScope =>
      exact currentScope.bind fun _ _ _ he => (encloseIn he).bind fun _ _ _ hd => enterScope hd
  | closeScope => exact closeScope

/-- Every instruction keeps what names scopes grounded. -/
theorem execute {natives : Array Native} (hnatives : ∀ m ∈ natives, m.KeepsChains)
    (i : Instruction) : (i.execute natives).Carries n Next.Within := by
  rw [Instruction.execute.eq_def]
  split
  · exact call hnatives _
  · exact pop.bind fun _ _ _ hv => pure fun _ hk => hv.mono hk
  · exact (executeLocal i).bind fun _ _ _ _ => pure fun _ _ => trivial

end Carries

end Action

end ScriptMachine
