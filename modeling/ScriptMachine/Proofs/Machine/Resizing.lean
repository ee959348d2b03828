import ScriptMachine.Machine.Host
import ScriptMachine.Proofs.Machine.CodeTable

/-! Blocks with more room. What an instruction does in a frame it does in the same way in a frame
for which more operands and more open blocks have been declared, unless it overflows the first
one. Neither frames nor stores show how much room there is. -/

namespace ScriptMachine

/-- Faults of a frame that has no room for one more operand or open block. -/
def Fault.overflows : Fault → Bool
  | .stackOverflow _ | .blockStackOverflow _ => true
  | _ => false

def Interrupt.overflows : Interrupt → Bool
  | .fault y => y.overflows
  | .raised _ => false

/-! ### Blocks, frames and stores -/

/-- The block `d` is `c`, but may declare more room. If it does, it is still within the limits, and
the host can still hand out its stacks. -/
structure CodeBlock.Resized (limits : Limits) (c d : CodeBlock) : Prop where
  same : d = { c with maxStack := d.maxStack, maxBlocks := d.maxBlocks }
  stack : c.maxStack ≤ d.maxStack
  blocks : c.maxBlocks ≤ d.maxBlocks
  fits : d = c ∨ d.maxStack ≤ limits.maxStackSize ∧ d.maxBlocks ≤ limits.maxStackSize ∧
    d.Allocatable

theorem CodeBlock.Resized.refl (limits : Limits) (c : CodeBlock) : c.Resized limits c :=
  ⟨rfl, Nat.le_refl _, Nat.le_refl _, .inl rfl⟩

/-- Which block may stand for which one. -/
structure Resizing (limits : Limits) where
  Pairs : CodeBlock → CodeBlock → Prop
  resized {c d : CodeBlock} : Pairs c d → c.Resized limits d

namespace Resizing

variable {limits : Limits}

/-- Every block stands for itself alone. -/
def same (limits : Limits) : Resizing limits where
  Pairs c d := d = c
  resized h := h ▸ .refl limits _

/-- A block stands for every block whose room it extends. -/
def all (limits : Limits) : Resizing limits where
  Pairs := CodeBlock.Resized limits
  resized := id

/-- Apart from its room the block is the same one. -/
theorem exists_eq (R : Resizing limits) {c d : CodeBlock} (h : R.Pairs c d) :
    ∃ maxStack maxBlocks, d = { c with maxStack, maxBlocks } :=
  ⟨_, _, (R.resized h).same⟩

end Resizing

variable {limits : Limits} {R : Resizing limits}

/-- The frame `g` is `f`, but executes a block that stands for the one of `f`. -/
def Frame.Alike (R : Resizing limits) (f g : Frame) : Prop :=
  ∃ d, R.Pairs f.code d ∧ g = { f with code := d }

/-- The stores differ only in the blocks, and these stand for each other. -/
structure Store.Alike (R : Resizing limits) (s t : Store) : Prop where
  heap : t.heap = s.heap
  scopes : t.scopes = s.scopes
  outputs : t.outputs = s.outputs
  functions : t.functions = s.functions
  size : t.blocks.size = s.blocks.size
  blocks (id : CodeId) : R.Pairs (s.block id) (t.block id)

namespace Frame

variable (f : Frame) {d : CodeBlock}

/-- A push overflows a frame, or does the same in one with more room. -/
theorem push_resized (hd : R.Pairs f.code d) (v : Value) :
    (∃ y, f.push v = .error y ∧ y.overflows) ∨
      ∃ g, g.code = f.code ∧ f.push v = .ok g ∧
        { f with code := d }.push v = .ok { g with code := d } := by
  cases hput : f.push v with
  | error y =>
      obtain ⟨-, rfl⟩ := push_eq_error_iff.mp hput
      exact .inl ⟨_, rfl, rfl⟩
  | ok g =>
      obtain ⟨hroom, rfl⟩ := push_eq_ok_iff.mp hput
      exact .inr ⟨f.exchange 0 [v], rfl, rfl,
        push_eq_ok_iff.mpr ⟨Nat.lt_of_lt_of_le hroom (R.resized hd).stack, rfl⟩⟩

theorem pushBlock_resized (hd : R.Pairs f.code d) (b : Block) :
    (∃ y, f.pushBlock b = .error y ∧ y.overflows) ∨
      ∃ g, g.code = f.code ∧ f.pushBlock b = .ok g ∧
        { f with code := d }.pushBlock b = .ok { g with code := d } := by
  cases hput : f.pushBlock b with
  | error y =>
      obtain ⟨-, rfl⟩ := pushBlock_eq_error_iff.mp hput
      exact .inl ⟨_, rfl, rfl⟩
  | ok g =>
      obtain ⟨hroom, rfl⟩ := pushBlock_eq_ok_iff.mp hput
      exact .inr ⟨{ f with blocks := f.blocks.push b }, rfl, rfl,
        pushBlock_eq_ok_iff.mpr ⟨Nat.lt_of_lt_of_le hroom (R.resized hd).blocks, rfl⟩⟩

end Frame

structure Activation.Alike (R : Resizing limits) (a b : Activation) : Prop where
  frame : a.frame.Alike R b.frame
  store : a.store.Alike R b.store

namespace Store.Alike

variable {s t : Store} (h : s.Alike R t)
include h

theorem inspect_eq (v : Value) : t.inspect v = s.inspect v := by
  have hlabel : t.label = s.label := by
    funext id
    obtain ⟨maxStack, maxBlocks, hblock⟩ := R.exists_eq (h.blocks id)
    rw [label, label, hblock]
  rw [inspect, inspect, h.heap, hlabel]

/-- The store with the blocks of the other one. -/
theorem eq_with : t = { s with blocks := t.blocks } := by
  obtain ⟨heap, scopes, blocks, outputs, functions⟩ := t
  obtain rfl := h.heap
  obtain rfl := h.scopes
  obtain rfl := h.outputs
  obtain rfl := h.functions
  rfl

theorem called (outer : ScopeId) (params : List String) (args : List Value) :
    (s.called outer params args).Alike R (t.called outer params args) := by
  obtain ⟨heap, scopes, outputs, functions, size, blocks⟩ := h
  constructor <;> simp only [Store.called, heap, scopes]
  · exact outputs
  · exact functions
  · exact size
  · exact blocks

end Store.Alike

/-- Where every block stands for itself, there is no other store. -/
theorem Store.alike_same_iff {s t : Store} : s.Alike (.same limits) t ↔ t = s := by
  constructor
  · intro h
    have hblocks : t.blocks = s.blocks := by
      refine Array.ext h.size fun id ht hs => ?_
      have hblock : t.block id = s.block id := h.blocks id
      rw [Store.block, Store.block] at hblock
      simpa [Array.getD, ht, hs] using hblock
    rw [h.eq_with, hblocks]
  · rintro rfl
    exact ⟨rfl, rfl, rfl, rfl, rfl, fun _ => rfl⟩

/-! ### Actions -/

/-- Two results: values in relation `Q` and states in relation `S`, or the same interrupt. Nothing
is asked of the second result when the first one is an overflow. -/
inductive Mirrored {σ α : Type} (S : σ → σ → Prop) (Q : α → α → Prop) :
    EStateM.Result Interrupt σ α → EStateM.Result Interrupt σ α → Prop where
  | ok {v w : α} {s t : σ} : Q v w → S s t → Mirrored S Q (.ok v s) (.ok w t)
  | error {e : Interrupt} {s t : σ} : S s t → Mirrored S Q (.error e s) (.error e t)
  | overflowed {e : Interrupt} {s : σ} {r : EStateM.Result Interrupt σ α} : e.overflows →
      Mirrored S Q (.error e s) r

/-- A native that does the same over a store with other room. -/
def Native.Mirrors (R : Resizing limits) (n : Native) : Prop :=
  ∀ scope args s t, s.Alike R t →
    Mirrored (Store.Alike R) Eq (n.run scope args s) (n.run scope args t)

namespace Action

variable {α β : Type} {Q : α → α → Prop} {P : β → β → Prop}

/-- An action that does the same in a frame with more room. -/
def Mirrors (R : Resizing limits) (Q : α → α → Prop) (x : Action α) : Prop :=
  ∀ a b, a.Alike R b → Mirrored (Activation.Alike R) Q (x a) (x b)

namespace Mirrors

theorem pure {v : α} (h : Q v v) : (Pure.pure v : Action α).Mirrors R Q :=
  fun _ _ hab => .ok h hab

theorem throw (e : Interrupt) : (throw e : Action α).Mirrors R Q :=
  fun _ _ hab => .error hab

theorem fault (y : Fault) : (Action.fault y : Action α).Mirrors R Q :=
  throw _

theorem misuse (u : Misuse) : (Action.misuse u : Action α).Mirrors R Q :=
  throw _

theorem bind {x : Action α} {g : α → Action β} (hx : x.Mirrors R Eq)
    (hg : ∀ v, (g v).Mirrors R P) : (x >>= g).Mirrors R P := by
  intro a b hab
  change Mirrored _ _ (EStateM.bind x g a) (EStateM.bind x g b)
  rw [EStateM.bind, EStateM.bind]
  have hresult := hx a b hab
  generalize x a = r, x b = r' at hresult
  cases hresult with
  | ok hv hs =>
      cases hv
      exact hg _ _ _ hs
  | error hs => exact .error hs
  | overflowed hy => exact .overflowed hy

theorem discard {x : Action α} (hx : x.Mirrors R Eq) : (Functor.discard x).Mirrors R Eq := by
  rw [discard_eq]
  exact hx.bind fun _ => pure rfl

/-! ### Frames -/

/-- A step in a frame: for every frame and its counterpart it overflows, or it fails in both, or it
makes the same of both. -/
theorem onFrame {h : Frame → Except Fault (α × Frame)}
    (hframe : ∀ f d, R.Pairs f.code d → (∃ y, h f = .error y ∧ y.overflows) ∨
      (∃ y, h f = .error y ∧ h { f with code := d } = .error y) ∨
      ∃ v g, g.code = f.code ∧ h f = .ok (v, g) ∧
        h { f with code := d } = .ok (v, { g with code := d })) :
    (Action.onFrame h).Mirrors R Eq := by
  rintro ⟨f, s⟩ ⟨f', t⟩ ⟨⟨d, hd, hf⟩, hstore⟩
  cases hf
  rw [Action.onFrame, Action.onFrame]
  rcases hframe f d hd with ⟨y, hy, hover⟩ | ⟨y, hy, hy'⟩ | ⟨v, g, hcode, hv, hv'⟩
  · rw [hy]
    exact .overflowed hover
  · rw [hy, hy']
    exact .error ⟨⟨d, hd, rfl⟩, hstore⟩
  · rw [hv, hv']
    exact .ok rfl ⟨⟨d, hcode ▸ hd, rfl⟩, hstore⟩

/-- A look at what does not depend on the room. -/
theorem look {r : Frame → Except Fault α}
    (hr : ∀ f d, R.Pairs f.code d → r { f with code := d } = r f) :
    (Action.onFrame fun f => (r f).map (·, f)).Mirrors R Eq := by
  refine onFrame fun f d hd => .inr ?_
  rw [hr f d hd]
  cases r f with
  | error y => exact .inl ⟨y, rfl, rfl⟩
  | ok v => exact .inr ⟨v, f, rfl, rfl, rfl⟩

/-- A change of what the room has nothing to do with. -/
theorem change {v : Frame → α} {u : Frame → Frame} (hcode : ∀ f, (u f).code = f.code)
    (hv : ∀ f d, v { f with code := d } = v f)
    (hu : ∀ f d, u { f with code := d } = { u f with code := d }) :
    (Action.onFrame fun f => .ok (v f, u f)).Mirrors R Eq :=
  onFrame fun f d _ => .inr (.inr ⟨v f, u f, hcode f, rfl, by rw [hv, hu]⟩)

theorem push (v : Value) : (Action.push v).Mirrors R Eq := by
  refine onFrame fun f d hd => ?_
  rcases f.push_resized hd v with ⟨y, hy, hover⟩ | ⟨g, hcode, hput, hput'⟩
  · exact .inl ⟨y, by rw [hy]; rfl, hover⟩
  · exact .inr (.inr ⟨(), g, hcode, by rw [hput]; rfl, by rw [hput']; rfl⟩)

theorem openBlock {b : Frame → Block} (hb : ∀ f d, b { f with code := d } = b f) :
    (Action.openBlock b).Mirrors R Eq := by
  refine onFrame fun f d hd => ?_
  rcases f.pushBlock_resized hd (b f) with ⟨y, hy, hover⟩ | ⟨g, hcode, hput, hput'⟩
  · exact .inl ⟨y, by rw [hy]; rfl, hover⟩
  · exact .inr (.inr ⟨(), g, hcode, by rw [hput]; rfl, by rw [hb, hput']; rfl⟩)

theorem pop : Action.pop.Mirrors R Eq := by
  refine onFrame fun f d _ => .inr ?_
  simp only [Frame.pop]
  cases f.stack.pop? with
  | none => exact .inl ⟨_, rfl, rfl⟩
  | some r => exact .inr ⟨r.1, { f with stack := r.2 }, rfl, rfl, rfl⟩

theorem popN (n : Nat) : (Action.popN n).Mirrors R Eq := by
  refine onFrame fun f d _ => .inr ?_
  by_cases hlow : f.sp < n
  · exact .inl ⟨_, if_pos hlow, if_pos hlow⟩
  · exact .inr ⟨_, { f with stack := f.stack.drop n }, rfl, if_neg hlow, if_neg hlow⟩

theorem popBlock : Action.popBlock.Mirrors R Eq := by
  refine onFrame fun f d _ => .inr ?_
  simp only [Frame.popBlock]
  cases f.blocks.pop? with
  | none => exact .inl ⟨_, rfl, rfl⟩
  | some r => exact .inr ⟨r.1, { f with blocks := r.2 }, rfl, rfl, rfl⟩

theorem peek : Action.peek.Mirrors R Eq :=
  look fun _ _ _ => rfl

theorem constant (index : Nat) : (Action.constant index).Mirrors R Eq := by
  refine look fun f d hd => ?_
  obtain ⟨maxStack, maxBlocks, rfl⟩ := R.exists_eq hd
  rfl

theorem nameAt (index : Nat) : (Action.nameAt index).Mirrors R Eq := by
  refine look fun f d hd => ?_
  obtain ⟨maxStack, maxBlocks, rfl⟩ := R.exists_eq hd
  rfl

theorem localAt (index : Nat) : (Action.localAt index).Mirrors R Eq := by
  refine look fun f d hd => ?_
  obtain ⟨maxStack, maxBlocks, rfl⟩ := R.exists_eq hd
  rfl

theorem target (offset : Nat) : (Action.target offset).Mirrors R Eq := by
  refine look fun f d hd => ?_
  obtain ⟨maxStack, maxBlocks, rfl⟩ := R.exists_eq hd
  rfl

theorem goTo (offset : Nat) : (Action.goTo offset).Mirrors R Eq :=
  change (fun _ => rfl) (fun _ _ => rfl) fun _ _ => rfl

theorem jump (offset : Nat) : (Action.jump offset).Mirrors R Eq :=
  (target offset).bind fun _ => goTo _

theorem jumpForward (distance : Nat) : (Action.jumpForward distance).Mirrors R Eq :=
  (change (fun _ => rfl) (fun _ _ => rfl) fun _ _ => rfl).bind fun _ => jump _

theorem enterScope (e : ScopeId) : (Action.enterScope e).Mirrors R Eq :=
  change (fun _ => rfl) (fun _ _ => rfl) fun _ _ => rfl

theorem currentScope : Action.currentScope.Mirrors R Eq :=
  change (fun _ => rfl) (fun _ _ => rfl) fun _ _ => rfl

theorem exposeLoop : Action.exposeLoop.Mirrors R Eq :=
  (change (u := (·.expose .loop)) (fun _ => rfl) (fun _ _ => rfl) fun _ _ => rfl).bind fun _ =>
    look (r := (·.exposed .loop)) fun _ _ _ => rfl

theorem resumeAt (b : Block) (offset : Nat) : (Action.resumeAt b offset).Mirrors R Eq :=
  change (fun _ => rfl) (fun _ _ => rfl) fun _ _ => rfl

/-! ### The store -/

theorem readHeap (g : Heap → Except Interrupt α) : (Action.readHeap g).Mirrors R Eq := by
  intro a b hab
  rw [Action.readHeap, Action.readHeap, hab.store.heap]
  cases g a.store.heap with
  | ok v => exact .ok rfl hab
  | error e => exact .error hab

theorem readScopes (g : Scopes → ScopeId → Except ScopeError α) :
    (Action.readScopes g).Mirrors R Eq := by
  intro a b hab
  have hscope : b.frame.scope = a.frame.scope := by
    obtain ⟨d, -, hframe⟩ := hab.frame
    rw [hframe]
  rw [Action.readScopes, Action.readScopes, hab.store.scopes, hscope]
  cases g a.store.scopes a.frame.scope with
  | ok v => exact .ok rfl hab
  | error e => exact .error hab

theorem onStore {g : Store → α × Store}
    (hg : ∀ s t, s.Alike R t → (g s).1 = (g t).1 ∧ (g s).2.Alike R (g t).2) :
    (Action.onStore g).Mirrors R Eq := by
  rintro ⟨f, s⟩ ⟨f', t⟩ ⟨hframe, hstore⟩
  obtain ⟨hvalue, hstore'⟩ := hg s t hstore
  exact .ok hvalue ⟨hframe, hstore'⟩

theorem onHeap (g : Heap → α × Heap) : (Action.onHeap g).Mirrors R Eq := by
  refine onStore fun ⟨_, _, _, _, _⟩ ⟨_, _, _, _, _⟩ h => ?_
  obtain ⟨rfl, scopes, outputs, functions, size, blocks⟩ := h
  exact ⟨rfl, ⟨rfl, scopes, outputs, functions, size, blocks⟩⟩

theorem onScopes (g : Scopes → α × Scopes) : (Action.onScopes g).Mirrors R Eq := by
  refine onStore fun ⟨_, _, _, _, _⟩ ⟨_, _, _, _, _⟩ h => ?_
  obtain ⟨heap, rfl, outputs, functions, size, blocks⟩ := h
  exact ⟨rfl, ⟨heap, rfl, outputs, functions, size, blocks⟩⟩

theorem setVariable (name : String) (v : Value) : (Action.setVariable name v).Mirrors R Eq :=
  (readScopes _).bind fun _ => onScopes _

theorem declare (name : String) (v : Value) (readonly : Bool) :
    (Action.declare name v readonly).Mirrors R Eq :=
  (readScopes _).bind fun _ => currentScope.bind fun _ => onScopes _

/-! ### Instructions -/

theorem makeFunction : Action.makeFunction.Mirrors R Eq := by
  refine pop.bind fun body => pop.bind fun params => pop.bind fun name => ?_
  split
  · refine (readHeap _).bind fun params => currentScope.bind fun scope => ?_
    refine (onStore fun s t h => ⟨?_, ?_⟩).bind fun _ => push _
    · cases name <;> simp only [Store.newClosure, h.functions, h.inspect_eq]
    · exact ⟨h.heap, h.scopes, h.outputs, congrArg (· + 1) h.functions, h.size, h.blocks⟩
  · exact misuse _
  · exact misuse _

theorem compare (i : Instruction) : (Action.compare i).Mirrors R Eq := by
  rw [Action.compare]
  split
  · exact fault _
  · exact pop.bind fun _ => pop.bind fun _ => (readHeap _).bind fun _ => push _

theorem popJumpIf (truth : Bool) (offset : Nat) :
    (Action.popJumpIf truth offset).Mirrors R Eq := by
  refine pop.bind fun condition => ?_
  split
  · split
    · exact jump _
    · exact pure rfl
  · exact misuse _

theorem jumpIfOrPop (truth : Bool) (offset : Nat) :
    (Action.jumpIfOrPop truth offset).Mirrors R Eq := by
  refine peek.bind fun condition => ?_
  split
  · exact jump _
  · exact pop.discard

theorem startLoop (i : Instruction) : (Action.startLoop i).Mirrors R Eq := by
  rw [Action.startLoop]
  split
  · exact (target _).bind fun _ => (target _).bind fun _ => openBlock fun _ _ => rfl
  · exact fault _

theorem breakLoop : Action.breakLoop.Mirrors R Eq := by
  refine exposeLoop.bind fun b => ?_
  split
  · exact popBlock.discard.bind fun _ => resumeAt _ _
  · exact fault _

theorem continueLoop : Action.continueLoop.Mirrors R Eq := by
  refine exposeLoop.bind fun b => ?_
  split
  · exact resumeAt _ _
  · exact fault _

theorem throwTop : Action.throwTop.Mirrors R Eq := by
  refine pop.bind fun v => (onStore fun s t h => ⟨?_, h⟩).bind fun _ => throw _
  cases v <;> simp [exceptionOf, h.inspect_eq]

theorem closeScope : Action.closeScope.Mirrors R Eq := by
  refine (readScopes _).bind fun parent => ?_
  split
  · exact enterScope _
  · exact fault _

/-- The instructions that neither call nor return. -/
theorem executeLocal (i : Instruction) : i.executeLocal.Mirrors R Eq := by
  obtain ⟨offset, opcode, operand⟩ := i
  cases opcode with
  | noop | call | return_ => exact pure rfl
  | popTop => exact pop.discard
  | dupTop => exact peek.bind fun _ => push _
  | loadConst => exact (constant _).bind fun _ => push _
  | loadFast => exact (localAt _).bind fun _ => (readScopes _).bind fun _ => push _
  | loadGlobal => exact (nameAt _).bind fun _ => (readScopes _).bind fun _ => push _
  | storeFast => exact pop.bind fun _ => (localAt _).bind fun _ => setVariable _ _
  | storeGlobal => exact pop.bind fun _ => (nameAt _).bind fun _ => setVariable _ _
  | storeConst | define => exact pop.bind fun _ => (localAt _).bind fun _ => declare _ _ _
  | deleteFast => exact (localAt _).bind fun _ => currentScope.bind fun _ => onScopes _
  | deleteGlobal => exact (nameAt _).bind fun _ => currentScope.bind fun _ => onScopes _
  | loadAttribute =>
      exact pop.bind fun _ => (nameAt _).bind fun _ => (readHeap _).bind fun _ => push _
  | storeAttribute =>
      exact pop.bind fun _ => pop.bind fun _ => (nameAt _).bind fun _ =>
        (readHeap _).bind fun _ => onHeap _
  | loadIndex => exact pop.bind fun _ => pop.bind fun _ => (readHeap _).bind fun _ => push _
  | storeIndex =>
      exact pop.bind fun _ => pop.bind fun _ => pop.bind fun _ =>
        (readHeap _).bind fun _ => onHeap _
  | binary op =>
      exact pop.bind fun _ => pop.bind fun _ => (readHeap _).bind fun _ =>
        (onHeap _).bind fun _ => push _
  | unaryNeg => exact pop.bind fun _ => (readHeap _).bind fun _ => push _
  | unaryNot => exact pop.bind fun _ => push _
  | compare => exact compare _
  | makeArray => exact (popN _).bind fun _ => (onHeap _).bind fun _ => push _
  | makeMap =>
      exact (popN _).bind fun _ => (readHeap _).bind fun _ => (onHeap _).bind fun _ => push _
  | makeFunction => exact makeFunction
  | jumpAbsolute => exact jump _
  | jumpForward => exact jumpForward _
  | popJumpIf truth => exact popJumpIf _ _
  | jumpIfOrPop truth => exact jumpIfOrPop _ _
  | startLoop => exact startLoop _
  | endBlock => exact popBlock.bind fun _ => enterScope _
  | break_ => exact breakLoop
  | continue_ => exact continueLoop
  | startTry => exact (target _).bind fun _ => openBlock fun _ _ => rfl
  | throw => exact throwTop
  | openScope => exact currentScope.bind fun _ => (onScopes _).bind fun _ => enterScope _
  | closeScope => exact closeScope

theorem callNative {natives : Array Native} (hnatives : ∀ n ∈ natives, n.Mirrors R)
    (r : NativeRef) (args : List Value) : (Action.callNative natives r args).Mirrors R Eq := by
  rintro ⟨f, s⟩ ⟨f', t⟩ ⟨⟨d, hd, hf⟩, hstore⟩
  cases hf
  rw [Action.callNative, Action.callNative]
  cases hn : r.place.bind (natives[·]?) with
  | none => exact .ok rfl ⟨⟨d, hd, rfl⟩, hstore⟩
  | some n =>
      obtain ⟨place, -, hat⟩ := Option.bind_eq_some_iff.mp hn
      have hresult := hnatives n (Array.mem_of_getElem? hat) f.scope args s t hstore
      simp only
      generalize n.run f.scope args s = x, n.run f.scope args t = x' at hresult
      cases hresult with
      | ok hv hs => exact .ok hv ⟨⟨d, hd, rfl⟩, hs⟩
      | error hs => exact .error ⟨⟨d, hd, rfl⟩, hs⟩
      | overflowed hy => exact .overflowed hy

end Mirrors

end Action

/-- The same way to go on, with blocks that stand for each other. -/
inductive Next.Alike (R : Resizing limits) : Next → Next → Prop where
  | proceed : Next.Alike R .proceed .proceed
  | enter {c d : CodeBlock} {scope : ScopeId} : R.Pairs c d →
      Next.Alike R (.enter c scope) (.enter d scope)
  | leave {v : Value} : Next.Alike R (.leave v) (.leave v)

namespace Action.Mirrors

/-- To enter a block in a new scope: it stands for the block that the other store has there. -/
theorem enter (outer : ScopeId) (params : List String) (args : List Value) (id : CodeId) :
    Action.Mirrors R (Next.Alike R) (do
      let scope ← encloseIn outer
      bindArguments scope params args
      return Next.enter (← codeBlock id) scope) := by
  rintro ⟨f, s⟩ ⟨f', t⟩ ⟨hframe, hstore⟩
  rw [enter_apply, enter_apply, hstore.scopes]
  exact .ok (.enter (hstore.blocks id)) ⟨hframe, hstore.called outer params args⟩

theorem call {natives : Array Native} (hnatives : ∀ n ∈ natives, n.Mirrors R) (argc : Nat) :
    (Action.call natives argc).Mirrors R (Next.Alike R) := by
  refine pop.bind fun callee => (popN argc).bind fun args => ?_
  split
  · exact (callNative hnatives _ _).bind fun _ => (push _).bind fun _ => pure .proceed
  · exact enter _ _ _ _
  · exact currentScope.bind fun _ => enter _ _ _ _
  · exact misuse _

/-- What an instruction does it does in the same way in a frame with more room. -/
theorem execute {natives : Array Native} (hnatives : ∀ n ∈ natives, n.Mirrors R)
    (i : Instruction) : (i.execute natives).Mirrors R (Next.Alike R) := by
  rw [Instruction.execute.eq_def]
  split
  · exact call hnatives _
  · exact pop.bind fun _ => pure .leave
  · exact (executeLocal i).bind fun _ => pure .proceed

end Action.Mirrors

/-! ### Natives -/

/-- Where every block stands for itself, nothing can be told from it. -/
theorem Native.mirrors_same (n : Native) : n.Mirrors (.same limits) := by
  intro scope args s t h
  obtain rfl := Store.alike_same_iff.mp h
  cases n.run scope args t with
  | ok v s => exact .ok rfl (Store.alike_same_iff.mpr rfl)
  | error e s => exact .error (Store.alike_same_iff.mpr rfl)

namespace Prelude

variable {n : Native} {output : Nat} {s t : Store}

theorem mirrors_pureNative (name : String) (least : Nat)
    {answer : Store → List Value → Except Interrupt Value}
    (hanswer : ∀ s t args, s.Alike R t → answer t args = answer s args) :
    (pureNative name least answer).Mirrors R := by
  intro scope args s t h
  simp only [pureNative, hanswer s t args h]
  cases checkArguments name least args >>= fun _ => answer s args with
  | ok v => exact .ok rfl h
  | error e => exact .error h

theorem messageOf_eq (h : s.Alike R t) (args : List Value) :
    messageOf t args = messageOf s args := by
  rw [messageOf, messageOf]
  cases args.headD .null <;> simp only [h.inspect_eq]

/-- What they answer and print does not depend on the room of blocks. -/
theorem mirrors (hn : n ∈ natives output) : n.Mirrors R := by
  simp only [natives, List.mem_cons, List.not_mem_nil, or_false] at hn
  rcases hn with rfl | rfl | rfl | rfl | rfl | rfl | rfl | rfl | rfl | rfl
  · intro scope args s t h
    have hline : printedLine t args = printedLine s args := by
      rw [printedLine, printedLine, funext h.inspect_eq]
    have hprinted : (s.print output (printedLine s args)).Alike R
        (t.print output (printedLine t args)) := by
      refine ⟨h.heap, h.scopes, ?_, h.functions, h.size, h.blocks⟩
      rw [hline, Store.print, Store.print, h.outputs]
    exact .ok rfl hprinted
  · exact mirrors_pureNative _ _ fun s t args h => by rw [h.heap]
  · exact mirrors_pureNative _ _ fun _ _ _ _ => rfl
  · exact mirrors_pureNative _ _ fun s t args h => by rw [h.inspect_eq]
  · exact mirrors_pureNative _ _ fun s t args h => by rw [messageOf_eq h]
  · exact mirrors_pureNative _ _ fun s t args h => by rw [messageOf_eq h]
  · exact mirrors_pureNative _ _ fun s t args h => by rw [messageOf_eq h]
  all_goals exact mirrors_pureNative _ _ fun _ _ _ _ => rfl

end Prelude

end ScriptMachine
