import ScriptMachine.Proofs.Assembler.Accounting
import ScriptMachine.Proofs.Expression.Operands
import ScriptMachine.Proofs.Machine.Activation

/-! The code of an expression puts its value on top of the operands, with the rest of the frame and
the operands below left alone. Where two ways through the code meet again, the frame has the height
that the assembler has counted. -/

namespace ScriptMachine

open Evaluation

/-! ### Settled steps -/

namespace Assembler

/-- All calls of the given steps are settled in a block. -/
def Settles (a : Assembler) (b : CodeBlock) (bound : Nat → Option Nat) (steps : List Directive) :
    Prop :=
  ∀ c ∈ a.calls steps, c.Settled b bound

variable {a : Assembler} {b : CodeBlock} {bound : Nat → Option Nat}

theorem afterAll_append (a : Assembler) (xs ys : List Directive) :
    a.afterAll (xs ++ ys) = (a.afterAll xs).afterAll ys := by
  induction xs generalizing a with
  | nil => rfl
  | cons d xs ih => exact ih _

theorem settles_cons {d : Directive} {steps : List Directive} :
    a.Settles b bound (d :: steps) ↔
      Call.Settled b bound ⟨a, d⟩ ∧ (d.after a).Settles b bound steps :=
  List.forall_mem_cons

theorem settles_append {xs ys : List Directive} :
    a.Settles b bound (xs ++ ys) ↔
      a.Settles b bound xs ∧ (a.afterAll xs).Settles b bound ys := by
  induction xs generalizing a with
  | nil => simp [Settles, calls, afterAll]
  | cons d xs ih => rw [List.cons_append, settles_cons, settles_cons, ih, and_assoc, afterAll]

theorem settles_singleton {d : Directive} :
    a.Settles b bound [d] ↔ Call.Settled b bound ⟨a, d⟩ := by
  simp [Settles, calls]

end Assembler

/-! ### Code between two states of the assembler -/

/-- A frame without open blocks, at an offset of a block. -/
structure Frame.At (f : Frame) (b : CodeBlock) (offset : Nat) (stack : Stack Value) : Prop where
  code : f.code = b
  pc : f.pc = offset
  stack : f.stack = stack
  blocks : f.blocks = .empty

theorem Frame.At.fetches {f : Frame} {b : CodeBlock} {offset : Nat} {stack : Stack Value}
    {i : Instruction} (hf : f.At b offset stack)
    (hi : Instruction.decodeAt b.code offset = .ok i) : f.Fetches i := by
  rw [Frame.Fetches, hf.code, hf.pc]
  exact hi

section

variable {α β : Type} (natives : Array Native) (b : CodeBlock)

/-- An activation comes to where the assembler stands, with the operands that `out` makes of an
answer, or to an interrupt. -/
def Activation.Reaches (a : Assembler) (rest : Stack Value) (out : α → List Value)
    (p : Activation) : EStateM.Result Interrupt Heap α → Prop
  | .ok w h => ∃ g, p.Runs natives (.ok () ⟨g, { p.store with heap := h }⟩) ∧
    g.At b a.code.size (rest.pushAll (out w)) ∧ rest.height + (out w).length = a.depth
  | .error e h => ∃ g, p.Runs natives (.error e ⟨g, { p.store with heap := h }⟩) ∧
    g.code = b ∧ g.blocks = .empty

/-- The code between two states of the assembler does to the operands `vs` what `x` does, and leaves
those that `out` makes of its answer. -/
def CodeBlock.Computes (a a' : Assembler) (vs : List Value) (x : Evaluation α)
    (out : α → List Value) : Prop :=
  ∀ (f : Frame) (s : Store) (rest : Stack Value), f.At b a.code.size (rest.pushAll vs) →
    rest.height + vs.length = a.depth →
    Activation.Reaches natives b a' rest out ⟨f, s⟩ (x s.heap)

end

/-- What an activation comes to after a while, it comes to. -/
theorem Activation.Reaches.of_runs {α : Type} {natives : Array Native} {b : CodeBlock}
    {a : Assembler} {rest : Stack Value} {out : α → List Value} {f g : Frame} {s : Store} {h : Heap}
    {r : EStateM.Result Interrupt Heap α}
    (hruns : Activation.Runs natives ⟨f, s⟩ (.ok () ⟨g, { s with heap := h }⟩))
    (hreaches : Activation.Reaches natives b a rest out ⟨g, { s with heap := h }⟩ r) :
    Activation.Reaches natives b a rest out ⟨f, s⟩ r := by
  cases r with
  | ok w h' =>
      obtain ⟨k, hruns', hk⟩ := hreaches
      exact ⟨k, hruns.trans hruns', hk⟩
  | error e h' =>
      obtain ⟨k, hruns', hk⟩ := hreaches
      exact ⟨k, hruns.trans hruns', hk⟩

/-- An evaluation can have an answer. -/
def Evaluation.Returns {α : Type} (x : Evaluation α) (w : α) : Prop :=
  ∃ h h', x h = .ok w h'

namespace CodeBlock.Computes

variable {α β : Type} {natives : Array Native} {b : CodeBlock} {bound : Nat → Option Nat}
  {a a' a'' : Assembler} {vs : List Value} {d : Directive}

theorem pure {w : α} {out : α → List Value} (h : out w = vs) :
    b.Computes natives a a vs (pure w) out := by
  subst h
  exact fun f s rest hf hheight => ⟨f, .refl _, hf, hheight⟩

theorem bind {x : Evaluation α} {y : α → Evaluation β} {out : α → List Value}
    {out' : β → List Value} (hx : b.Computes natives a a' vs x out)
    (hy : ∀ w, x.Returns w → b.Computes natives a' a'' (out w) (y w) out') :
    b.Computes natives a a'' vs (x >>= y) out' := by
  intro f s rest hf hheight
  have hreaches := hx f s rest hf hheight
  change Activation.Reaches natives b a'' rest out' ⟨f, s⟩ (EStateM.bind x y s.heap)
  rw [EStateM.bind]
  cases hw : x s.heap with
  | error e h =>
      rw [hw] at hreaches
      exact hreaches
  | ok w h =>
      rw [hw] at hreaches
      obtain ⟨g, hruns, hg, hheight'⟩ := hreaches
      exact .of_runs hruns (hy w ⟨_, _, hw⟩ g { s with heap := h } rest hg hheight')

/-- Operands below those that are computed with are left alone. -/
theorem above (us : List Value) {x : Evaluation α} {out : α → List Value}
    (h : b.Computes natives a a' vs x out) :
    b.Computes natives a a' (vs ++ us) x (fun w => out w ++ us) := by
  intro f s rest hf hheight
  rw [Stack.pushAll_append] at hf
  rw [List.length_append] at hheight
  have hreaches := h f s (rest.pushAll us) hf (by rw [Stack.height_pushAll]; omega)
  cases hw : x s.heap with
  | error e k =>
      rw [hw] at hreaches
      exact hreaches
  | ok w k =>
      rw [hw] at hreaches
      obtain ⟨g, hruns, hg, hheight'⟩ := hreaches
      refine ⟨g, hruns, ?_, ?_⟩
      · rwa [Stack.pushAll_append]
      · rw [Stack.height_pushAll] at hheight'
        rw [List.length_append]
        omega

/-! ### Instructions -/

/-- An instruction that yields a value. -/
theorem of_yields {y : Evaluation Value} (h : Call.Settled b bound ⟨a, d⟩) (hemits : d.emits)
    (heffect : d.effect = 1 - vs.length)
    (hyields : ∀ i, d.ReadsAs b bound i → ∃ x : Action Unit,
      i.execute natives = (x >>= fun _ => Pure.pure .proceed) ∧ x.Yields b vs y) :
    b.Computes natives a (d.after a) vs y fun v => [v] := by
  intro f s rest hf hheight
  obtain ⟨i, hi, hnext, hread⟩ := h.reads hemits
  obtain ⟨x, hexecute, hx⟩ := hyields i hread
  have hfetch := hf.fetches hi
  have hdepth : (d.after a).depth = (a.depth + d.effect).toNat := h.depth
  have hroom : (d.after a).depth ≤ b.maxStack := h.room
  have hx := hx (f.fetched i) s rest hf.code hf.stack (by omega)
  have hbind : i.execute natives ⟨f.fetched i, s⟩ =
      EStateM.bind x (fun _ => Pure.pure .proceed) ⟨f.fetched i, s⟩ :=
    congrFun hexecute _
  rw [EStateM.bind] at hbind
  cases hy : y s.heap with
  | ok v k =>
      rw [hy] at hx
      rw [hx] at hbind
      exact ⟨_, .step hfetch hbind (.refl _), ⟨hf.code, hnext, rfl, hf.blocks⟩, by simp; omega⟩
  | error e k =>
      rw [hy] at hx
      obtain ⟨stack, hx⟩ := hx
      rw [hx] at hbind
      exact ⟨_, .interrupted hfetch hbind, hf.code, hf.blocks⟩

theorem literal {v : Value} (h : Call.Settled b bound ⟨a, .loadConst v⟩) :
    b.Computes natives a ((Directive.loadConst v).after a) [] (Pure.pure v) fun v => [v] := by
  refine of_yields h rfl rfl ?_
  rintro ⟨_, _, _⟩ ⟨rfl, hv⟩
  exact ⟨_, rfl, .constant hv⟩

theorem negate (h : Call.Settled b bound ⟨a, .emit .unaryNeg⟩) (v : Value) :
    b.Computes natives a ((Directive.emit .unaryNeg).after a) [v] (reading fun _ => v.negate)
      fun v => [v] := by
  refine of_yields h rfl rfl ?_
  rintro ⟨_, _, _⟩ ⟨rfl, -⟩
  exact ⟨_, rfl, .negate v⟩

theorem not (h : Call.Settled b bound ⟨a, .emit .unaryNot⟩) (v : Value) :
    b.Computes natives a ((Directive.emit .unaryNot).after a) [v] (Pure.pure v.not)
      fun v => [v] := by
  refine of_yields h rfl rfl ?_
  rintro ⟨_, _, _⟩ ⟨rfl, -⟩
  exact ⟨_, rfl, .not v⟩

theorem loadIndex (h : Call.Settled b bound ⟨a, .emit .loadIndex⟩) (target key : Value) :
    b.Computes natives a ((Directive.emit .loadIndex).after a) [key, target]
      (reading fun h => h.loadIndex target key) fun v => [v] := by
  refine of_yields h rfl rfl ?_
  rintro ⟨_, _, _⟩ ⟨rfl, -⟩
  exact ⟨_, rfl, .loadIndex target key⟩

theorem binary {op : BinaryOp} (h : Call.Settled b bound ⟨a, .binary op⟩) (left right : Value) :
    b.Computes natives a ((Directive.binary op).after a) [right, left]
      (making (op.apply left right)) fun v => [v] := by
  refine of_yields h rfl rfl ?_
  rintro ⟨_, _, _⟩ ⟨rfl, -⟩
  exact ⟨_, rfl, .binary op left right⟩

theorem compare {op : CompareOp} (h : Call.Settled b bound ⟨a, .compare op⟩)
    (left right : Value) :
    b.Computes natives a ((Directive.compare op).after a) [right, left]
      (reading fun _ => op.apply left right) fun v => [v] := by
  refine of_yields h rfl rfl ?_
  rintro ⟨_, _, _⟩ ⟨rfl, hop⟩
  exact ⟨_, rfl, .compare hop left right⟩

theorem makeArray {n : Nat} (h : Call.Settled b bound ⟨a, .emitArg .makeArray n⟩)
    {items : List Value} (hn : items.length = n) :
    b.Computes natives a ((Directive.emitArg .makeArray n).after a) items.reverse
      (making fun h => .ok (h.newArray items.toArray)) fun v => [v] := by
  subst hn
  refine of_yields h rfl (by simp [Directive.effect, Opcode.stackEffect]) ?_
  rintro ⟨_, _, operand⟩ ⟨rfl, hn⟩
  refine ⟨_, rfl, ?_⟩
  simp only [Instruction.executeLocal, hn]
  exact .makeArray items

theorem makeMap {n : Nat} (h : Call.Settled b bound ⟨a, .emitArg .makeMap n⟩)
    {entries : List (Value × Value)} (hn : entries.length = n) :
    b.Computes natives a ((Directive.emitArg .makeMap n).after a)
      (Action.Yields.flatten entries).reverse
      (reading (fun _ => entries.mapM Expr.field) >>= fun fields =>
        making fun h => .ok (h.newMap (Dict.ofList fields))) fun v => [v] := by
  subst hn
  refine of_yields h rfl ?_ ?_
  · simp [Directive.effect, Opcode.stackEffect, Action.Yields.length_flatten]
    omega
  rintro ⟨_, _, operand⟩ ⟨rfl, hn⟩
  refine ⟨_, rfl, ?_⟩
  simp only [Instruction.executeLocal, hn]
  exact .makeMap entries

/-! ### Jumps -/

/-- A deciding operand is kept, with a jump over the code for the right operand. -/
theorem connective {decisive : Bool} {label : Nat} {x : Value} {y : Evaluation Value}
    (h : Call.Settled b bound ⟨a, .jump (.jumpIfOrPop decisive) label⟩)
    (htarget : ∀ offset, bound label = some offset → offset = a'.code.size)
    (hinside : a'.code.size ≤ b.code.size) (hdepth : a'.depth = a.depth)
    (hy : b.Computes natives ((Directive.jump (.jumpIfOrPop decisive) label).after a) a' [] y
      fun v => [v]) :
    b.Computes natives a a' [x] (if x.truthy = decisive then Pure.pure x else y)
      fun v => [v] := by
  intro f s rest hf hheight
  obtain ⟨⟨place, _, operand⟩, hi, hnext, rfl, hbound⟩ := h.reads rfl
  have hoffset := htarget _ hbound
  have hlocal := Action.jumpIfOrPop_apply (f := f.fetched ⟨place, .jumpIfOrPop decisive, operand⟩)
    decisive s hf.stack (hf.code ▸ hoffset ▸ hinside)
  have hruns : Activation.Runs natives ⟨f, s⟩ _ :=
    .step (hf.fetches hi) (bind_eq_ok_iff.mpr ⟨_, _, hlocal, rfl⟩) (.refl _)
  split
  · rename_i hx
    rw [if_pos hx] at hruns
    exact ⟨_, hruns, ⟨hf.code, hoffset, hf.stack, hf.blocks⟩, hdepth ▸ hheight⟩
  · rename_i hx
    rw [if_neg hx] at hruns
    have hpopped : ((Directive.jump (.jumpIfOrPop decisive) label).after a).depth =
        (a.depth + (-1 : Int)).toNat := h.depth
    refine .of_runs hruns (hy _ s rest ⟨hf.code, hnext, rfl, hf.blocks⟩ ?_)
    rw [hpopped, ← hheight, List.length_singleton, List.length_nil]
    omega

end CodeBlock.Computes

/-! ### Expressions -/

namespace Expr

open Assembler

variable {natives : Array Native} {b : CodeBlock} {bound : Nat → Option Nat} {a : Assembler}
  {k : Nat}

/-- An instruction that comes last leaves one operand in the place of `n`. -/
theorem depth_snoc {xs : List Directive} {d : Directive} {m n : Nat}
    (h : Call.Settled b bound ⟨a.afterAll xs, d⟩) (heffect : d.effect = 1 - n)
    (hdepth : (a.afterAll xs).depth = m + n) : (a.afterAll (xs ++ [d])).depth = m + 1 := by
  have hlast : (d.after (a.afterAll xs)).depth = ((a.afterAll xs).depth + d.effect).toNat := h.depth
  rw [afterAll_append, afterAll, afterAll]
  omega

mutual

/-- Code for an expression counts as one operand more. -/
theorem depth_steps (e : Expr) {k : Nat} {a : Assembler} (h : a.Settles b bound (e.steps k)) :
    (a.afterAll (e.steps k)).depth = a.depth + 1 := by
  cases e with
  | literal v => exact (settles_singleton.mp h).depth
  | negate e | not e =>
      rw [steps, settles_append, settles_singleton] at h
      exact depth_snoc h.2 rfl (depth_steps e h.1)
  | binary op left right | compare op left right | index left right =>
      rw [steps, settles_append, settles_append, settles_singleton] at h
      obtain ⟨hleft, hright, hop⟩ := h
      have hheight := depth_steps right hright
      rw [depth_steps left hleft, Nat.add_assoc] at hheight
      rw [steps, afterAll_append]
      exact depth_snoc hop rfl hheight
  | connective decisive left right =>
      rw [steps, settles_append, settles_cons, settles_cons, settles_append, settles_singleton] at h
      obtain ⟨hleft, -, hjump, hright, -⟩ := h
      have hdecided : (Directive.newLabel.after _).depth = _ := depth_steps left hleft
      have hpopped := hjump.depth
      have hheight := depth_steps right hright
      dsimp only at hpopped
      rw [hpopped, hdecided] at hheight
      rw [steps, afterAll_append, afterAll, afterAll, afterAll_append]
      refine Eq.trans hheight ?_
      change ((a.depth + 1 : Nat) + (-1 : Int)).toNat + 1 = _
      omega
  | array items =>
      rw [steps, settles_append, settles_singleton] at h
      exact depth_snoc h.2 rfl (depth_stepsAll items h.1)
  | map entries =>
      rw [steps, settles_append, settles_singleton] at h
      exact depth_snoc h.2 (by simp [Directive.effect, Opcode.stackEffect])
        (depth_stepsEntries entries h.1)

theorem depth_stepsAll (es : List Expr) {k : Nat} {a : Assembler}
    (h : a.Settles b bound (stepsAll k es)) :
    (a.afterAll (stepsAll k es)).depth = a.depth + es.length := by
  cases es with
  | nil => rfl
  | cons e rest =>
      rw [stepsAll, settles_append] at h
      rw [stepsAll, afterAll_append, depth_stepsAll rest h.2, depth_steps e h.1, List.length_cons]
      omega

theorem depth_stepsEntries (es : List (Expr × Expr)) {k : Nat} {a : Assembler}
    (h : a.Settles b bound (stepsEntries k es)) :
    (a.afterAll (stepsEntries k es)).depth = a.depth + 2 * es.length := by
  cases es with
  | nil => rfl
  | cons entry rest =>
      obtain ⟨key, value⟩ := entry
      rw [stepsEntries, settles_append, settles_append] at h
      obtain ⟨hkey, hvalue, hrest⟩ := h
      rw [stepsEntries, afterAll_append, afterAll_append, depth_stepsEntries rest hrest,
        depth_steps value hvalue, depth_steps key hkey, List.length_cons]
      omega

end

/-! ### Values -/

theorem length_of_evalAll {es : List Expr} {vs : List Value}
    (h : (evalAll es).Returns vs) : vs.length = es.length := by
  induction es generalizing vs with
  | nil =>
      obtain ⟨_, _, h⟩ := h
      cases h
      rfl
  | cons e rest ih =>
      obtain ⟨_, _, h⟩ := h
      rw [evalAll] at h
      obtain ⟨v, h₁, -, hrest⟩ := bind_eq_ok_iff.mp h
      obtain ⟨ws, h₂, hws, hpure⟩ := bind_eq_ok_iff.mp hrest
      cases hpure
      exact congrArg (· + 1) (ih ⟨_, _, hws⟩)

theorem length_of_evalEntries {es : List (Expr × Expr)} {entries : List (Value × Value)}
    (h : (evalEntries es).Returns entries) : entries.length = es.length := by
  induction es generalizing entries with
  | nil =>
      obtain ⟨_, _, h⟩ := h
      cases h
      rfl
  | cons entry rest ih =>
      obtain ⟨_, _, h⟩ := h
      obtain ⟨key, value⟩ := entry
      rw [evalEntries] at h
      obtain ⟨x, h₁, -, hvalue⟩ := bind_eq_ok_iff.mp h
      obtain ⟨y, h₂, -, hrest⟩ := bind_eq_ok_iff.mp hvalue
      obtain ⟨kvs, h₃, hkvs, hpure⟩ := bind_eq_ok_iff.mp hrest
      cases hpure
      exact congrArg (· + 1) (ih ⟨_, _, hkvs⟩)

mutual

/-- Code for an expression computes its value. -/
theorem computes (e : Expr) {k : Nat} {a : Assembler} (h : a.Settles b bound (e.steps k)) :
    b.Computes natives a (a.afterAll (e.steps k)) [] e.eval fun v => [v] := by
  cases e with
  | literal v => exact .literal (settles_singleton.mp h)
  | negate e =>
      rw [steps, settles_append, settles_singleton] at h
      rw [steps, afterAll_append, eval]
      exact (e.computes h.1).bind fun v _ => .negate h.2 v
  | not e =>
      rw [steps, settles_append, settles_singleton] at h
      rw [steps, afterAll_append, eval]
      exact (e.computes h.1).bind fun v _ => .not h.2 v
  | binary op left right =>
      rw [steps, settles_append, settles_append, settles_singleton] at h
      obtain ⟨hleft, hright, hop⟩ := h
      rw [steps, afterAll_append, afterAll_append, eval]
      exact (left.computes hleft).bind fun x _ => ((right.computes hright).above [x]).bind
        fun y _ => .binary hop x y
  | compare op left right =>
      rw [steps, settles_append, settles_append, settles_singleton] at h
      obtain ⟨hleft, hright, hop⟩ := h
      rw [steps, afterAll_append, afterAll_append, eval]
      exact (left.computes hleft).bind fun x _ => ((right.computes hright).above [x]).bind
        fun y _ => .compare hop x y
  | index target key =>
      rw [steps, settles_append, settles_append, settles_singleton] at h
      obtain ⟨htarget, hkey, hop⟩ := h
      rw [steps, afterAll_append, afterAll_append, eval]
      exact (target.computes htarget).bind fun x _ => ((key.computes hkey).above [x]).bind
        fun y _ => .loadIndex hop x y
  | connective decisive left right =>
      have hdepth := depth_steps _ h
      rw [steps, settles_append, settles_cons, settles_cons, settles_append, settles_singleton] at h
      obtain ⟨hleft, -, hjump, hright, hbind⟩ := h
      rw [steps, afterAll_append, afterAll, afterAll, afterAll_append] at hdepth ⊢
      rw [← depth_steps left hleft] at hdepth
      rw [eval]
      refine (left.computes hleft).bind fun x _ => ?_
      -- new and bound labels leave the place and the height of the code as they are
      refine CodeBlock.Computes.connective (a := Directive.newLabel.after _) hjump
        (fun offset hoffset => ?_) hbind.inside hdepth (right.computes hright)
      exact hbind.binds (beq_self_eq_true _) hoffset
  | array items =>
      rw [steps, settles_append, settles_singleton] at h
      rw [steps, afterAll_append, eval]
      exact (computesAll items h.1).bind fun vs hvs => .makeArray h.2 (length_of_evalAll hvs)
  | map entries =>
      rw [steps, settles_append, settles_singleton] at h
      rw [steps, afterAll_append, eval]
      exact (computesEntries entries h.1).bind fun kvs hkvs =>
        .makeMap h.2 (length_of_evalEntries hkvs)

theorem computesAll (es : List Expr) {k : Nat} {a : Assembler}
    (h : a.Settles b bound (stepsAll k es)) :
    b.Computes natives a (a.afterAll (stepsAll k es)) [] (evalAll es) List.reverse := by
  cases es with
  | nil => exact .pure rfl
  | cons e rest =>
      rw [stepsAll, settles_append] at h
      rw [stepsAll, afterAll_append, evalAll]
      exact (e.computes h.1).bind fun v _ => ((computesAll rest h.2).above [v]).bind
        fun vs _ => .pure List.reverse_cons

theorem computesEntries (es : List (Expr × Expr)) {k : Nat} {a : Assembler}
    (h : a.Settles b bound (stepsEntries k es)) :
    b.Computes natives a (a.afterAll (stepsEntries k es)) [] (evalEntries es)
      fun kvs => (Action.Yields.flatten kvs).reverse := by
  cases es with
  | nil => exact .pure rfl
  | cons entry rest =>
      obtain ⟨key, value⟩ := entry
      rw [stepsEntries, settles_append, settles_append] at h
      obtain ⟨hkey, hvalue, hrest⟩ := h
      rw [stepsEntries, afterAll_append, afterAll_append, evalEntries]
      exact (key.computes hkey).bind fun x _ => ((value.computes hvalue).above [x]).bind
        fun y _ => ((computesEntries rest hrest).above [y, x]).bind
          fun kvs _ => .pure (by simp [Action.Yields.flatten])

end

end Expr

end ScriptMachine
