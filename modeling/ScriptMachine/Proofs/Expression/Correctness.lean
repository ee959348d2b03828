import ScriptMachine.Proofs.Expression.Code

/-! The code of an expression is correct: to assemble an expression and to run the block is to
evaluate the expression. -/

namespace ScriptMachine

open Evaluation

/-! ### Interrupts -/

namespace Evaluation

variable {α β : Type}

/-- An evaluation is only interrupted by a division by zero, or by an exception that no handler has
received. -/
def Orderly (x : Evaluation α) : Prop :=
  ∀ h e h', x h = .error e h' → e = .fault .divisionByZero ∨ ∃ z, e = .raised z ∧ z.inFlight

namespace Orderly

theorem pure (v : α) : Orderly (pure v : Evaluation α) :=
  fun _ _ _ h => by cases h

theorem bind {x : Evaluation α} {y : α → Evaluation β} (hx : Orderly x) (hy : ∀ v, Orderly (y v)) :
    Orderly (x >>= y) := by
  intro h e h' herror
  rcases bind_eq_error_iff.mp herror with hfirst | ⟨v, k, -, hsecond⟩
  · exact hx _ _ _ hfirst
  · exact hy v _ _ _ hsecond

theorem reading {g : Heap → Except Interrupt α} (hg : ∀ h, Raises (·.inFlight) (g h)) :
    Orderly (reading g) := by
  intro h e h' herror
  rw [Evaluation.reading] at herror
  split at herror <;> cases herror
  exact .inr (hg h e ‹_›)

theorem making {g : Heap → α × Heap} : Orderly (making fun h => .ok (g h)) :=
  fun _ _ _ herror => by cases herror

theorem apply (op : BinaryOp) (left right : Value) :
    Orderly (Evaluation.making (op.apply left right)) := by
  intro h e h' herror
  rw [Evaluation.making, BinaryOp.apply] at herror
  cases hc : op.compute left right h with
  | ok c =>
      rw [hc] at herror
      cases herror
  | error x =>
      rw [hc] at herror
      cases herror
      exact BinaryOp.compute_eq_error hc

end Orderly

end Evaluation

namespace Expr

theorem raises_field (entry : Value × Value) : Raises (·.inFlight) (field entry) := by
  rw [field.eq_def]
  split
  · exact .ok _
  · exact .misuse _

theorem raises_fields (entries : List (Value × Value)) :
    Raises (·.inFlight) (entries.mapM field) := by
  induction entries with
  | nil => exact .ok _
  | cons entry rest ih =>
      rw [List.mapM_cons]
      exact (raises_field entry).bind fun _ => ih.bind fun _ => .ok _

mutual

theorem orderly_eval (e : Expr) : Orderly e.eval := by
  cases e with
  | literal v => exact .pure v
  | negate e => exact (orderly_eval e).bind fun v => .reading fun _ => v.raises_negate
  | not e => exact (orderly_eval e).bind fun v => .pure _
  | binary op left right =>
      exact (orderly_eval left).bind fun x => (orderly_eval right).bind fun y => .apply op x y
  | compare op left right =>
      exact (orderly_eval left).bind fun x => (orderly_eval right).bind fun y =>
        .reading fun _ => op.raises_apply x y
  | index target key =>
      exact (orderly_eval target).bind fun x => (orderly_eval key).bind fun y =>
        .reading fun h => h.raises_loadIndex x y
  | connective decisive left right =>
      refine (orderly_eval left).bind fun x => ?_
      split
      · exact .pure x
      · exact orderly_eval right
  | array items => exact (orderly_evalAll items).bind fun _ => .making
  | map entries =>
      exact (orderly_evalEntries entries).bind fun kvs =>
        (Orderly.reading fun _ => raises_fields kvs).bind fun _ => .making

theorem orderly_evalAll (es : List Expr) : Orderly (evalAll es) := by
  cases es with
  | nil => exact .pure []
  | cons e rest =>
      exact (orderly_eval e).bind fun _ => (orderly_evalAll rest).bind fun _ => .pure _

theorem orderly_evalEntries (es : List (Expr × Expr)) : Orderly (evalEntries es) := by
  cases es with
  | nil => exact .pure []
  | cons entry rest =>
      obtain ⟨key, value⟩ := entry
      exact (orderly_eval key).bind fun _ => (orderly_eval value).bind fun _ =>
        (orderly_evalEntries rest).bind fun _ => .pure _

end

/-! ### Steps -/

mutual

theorem plain_steps (e : Expr) (k : Nat) : (e.steps k).all Directive.plain := by
  cases e with
  | literal v => rfl
  | negate e | not e => simp [steps, plain_steps e, Directive.plain, Opcode.opens]
  | binary op left right | compare op left right | index left right =>
      simp [steps, plain_steps left, plain_steps right, Directive.plain, Opcode.opens]
  | connective decisive left right =>
      simp [steps, plain_steps left, plain_steps right, Directive.plain, Opcode.opens]
  | array items => simp [steps, plain_stepsAll items, Directive.plain, Opcode.opens]
  | map entries => simp [steps, plain_stepsEntries entries, Directive.plain, Opcode.opens]

theorem plain_stepsAll (es : List Expr) (k : Nat) : (stepsAll k es).all Directive.plain := by
  cases es with
  | nil => rfl
  | cons e rest => simp [stepsAll, plain_steps e, plain_stepsAll rest]

theorem plain_stepsEntries (es : List (Expr × Expr)) (k : Nat) :
    (stepsEntries k es).all Directive.plain := by
  cases es with
  | nil => rfl
  | cons entry rest =>
      obtain ⟨key, value⟩ := entry
      simp [stepsEntries, plain_steps key, plain_steps value, plain_stepsEntries rest]

end

/-- Steps that bind labels from `k` on, each of them at most once, `n` at most. -/
def BindsFrom (steps : List Directive) (k n : Nat) : Prop :=
  ∀ label, steps.countP (Directive.binds label) ≤ 1 ∧
    (steps.countP (Directive.binds label) ≠ 0 → k ≤ label ∧ label < k + n)

theorem BindsFrom.append {xs ys : List Directive} {k m n : Nat} (hx : BindsFrom xs k m)
    (hy : BindsFrom ys (k + m) n) : BindsFrom (xs ++ ys) k (m + n) := by
  intro label
  have hx := hx label
  have hy := hy label
  rw [List.countP_append]
  omega

theorem BindsFrom.nil (k : Nat) : BindsFrom [] k 0 :=
  fun _ => ⟨Nat.zero_le 1, fun h => absurd rfl h⟩

/-- Steps that do not bind any label. -/
theorem BindsFrom.snoc {xs : List Directive} {k n : Nat} (hx : BindsFrom xs k n) {d : Directive}
    (hd : ∀ label, d.binds label = false) : BindsFrom (xs ++ [d]) k n :=
  hx.append (n := 0) fun label => by simp [hd]

mutual

theorem bindsFrom_steps (e : Expr) (k : Nat) : BindsFrom (e.steps k) k e.labels := by
  cases e with
  | literal v => exact (BindsFrom.nil k).snoc fun _ => rfl
  | negate e | not e => exact (bindsFrom_steps e k).snoc fun _ => rfl
  | binary op left right | compare op left right | index left right =>
      rw [steps, labels, ← List.append_assoc]
      exact ((bindsFrom_steps left k).append (bindsFrom_steps right _)).snoc fun _ => rfl
  | connective decisive left right =>
      intro label
      have hleft := bindsFrom_steps left k label
      have hright := bindsFrom_steps right (k + left.labels + 1) label
      have hcount : ((Expr.connective decisive left right).steps k).countP (Directive.binds label) =
          (left.steps k).countP (Directive.binds label) +
            ((right.steps (k + left.labels + 1)).countP (Directive.binds label) +
              if k + left.labels = label then 1 else 0) := by
        simp [steps, Directive.binds]
      rw [hcount, labels]
      split <;> omega
  | array items =>
      exact (bindsFrom_stepsAll items k).snoc fun _ => rfl
  | map entries =>
      exact (bindsFrom_stepsEntries entries k).snoc fun _ => rfl

theorem bindsFrom_stepsAll (es : List Expr) (k : Nat) :
    BindsFrom (stepsAll k es) k (labelsAll es) := by
  cases es with
  | nil => exact .nil k
  | cons e rest => exact (bindsFrom_steps e k).append (bindsFrom_stepsAll rest _)

theorem bindsFrom_stepsEntries (es : List (Expr × Expr)) (k : Nat) :
    BindsFrom (stepsEntries k es) k (labelsEntries es) := by
  cases es with
  | nil => exact .nil k
  | cons entry rest =>
      obtain ⟨key, value⟩ := entry
      rw [stepsEntries, labelsEntries, ← List.append_assoc]
      exact ((bindsFrom_steps key k).append (bindsFrom_steps value _)).append
        (bindsFrom_stepsEntries rest _)

end

theorem plain_program (e : Expr) : ∀ d ∈ e.program, d.plain := by
  rw [program, List.forall_mem_append]
  exact ⟨List.all_eq_true.mp (e.plain_steps 0), by simp [Directive.plain, Opcode.opens]⟩

theorem countP_program_le (e : Expr) (label : Nat) :
    e.program.countP (Directive.binds label) ≤ 1 := by
  exact ((e.bindsFrom_steps 0).snoc (fun _ => rfl) label).1

/-! ### Runs -/

/-- To run the code of an expression is to evaluate it, from left to right. If the steps that emit
the code and a final return assemble a block which declares no more operands than the machine
allows, then the run of the block ends with the value of the expression, and with the containers
that evaluation has made; or it ends with the interrupt that evaluation comes to, which is an
exception that no handler has received or a division by zero. In particular the declared height is
enough. The size of the code is a machine word, like that of everything in memory. -/
theorem run_of_assemble {e : Expr} {name filename : String} {debugInfo : Bool} {b : CodeBlock}
    {m : Machine} (scope : ScopeId)
    (hb : (Assembler.fresh name filename debugInfo).assemble e.program = .ok b)
    (hsize : b.code.size < UInt64.size) (hstack : b.maxStack ≤ m.limits.maxStackSize)
    (hdepth : 0 < m.limits.maxRecursionDepth) :
    (∀ v h, e.eval m.store.heap = .ok v h → ∃ log steps, ∀ budget,
      m.runIn (budget + steps) b scope = some (.value v,
        { m with store := { m.store with heap := h }, frames := .empty, log })) ∧
    ∀ x h, e.eval m.store.heap = .error x h →
      (x = .fault .divisionByZero ∨ ∃ z, x = .raised z ∧ z.inFlight) ∧
      ∃ log offset steps, ∀ budget,
        m.runIn (budget + steps) b scope = some (x.outcome [⟨b.name, b.filename, offset⟩],
          { m with store := { m.store with heap := h }, frames := .empty, log }) := by
  obtain ⟨hmaxBlocks, hsettled⟩ :=
    settled_of_assemble e.plain_program e.countP_program_le hb hsize
  obtain ⟨hsteps, hreturn⟩ := Assembler.settles_append.mp hsettled
  rw [Assembler.settles_singleton] at hreturn
  obtain ⟨log, hstart⟩ := m.start_eq scope hdepth hstack (by omega)
  have hvisits : m.Visits b scope (m.start b scope) := .start
  rw [hstart] at hvisits
  have hreaches : Activation.Reaches m.natives b _ .empty _ ⟨{ code := b, scope }, m.store⟩ _ :=
    e.computes hsteps _ m.store .empty ⟨rfl, rfl, rfl, rfl⟩ rfl
  constructor
  · intro v h hv
    rw [hv] at hreaches
    obtain ⟨g, hruns, hg, -⟩ := hreaches
    obtain ⟨i, hi, -, hop, -⟩ := hreturn.reads rfl
    have hreturns : g.Returns v := .inr ⟨i, .empty, hg.fetches hi, hop, hg.stack⟩
    exact (hvisits.concluded hruns).exists_runIn_of_returns hreturns
  · intro x h hx
    have horderly := e.orderly_eval _ _ _ hx
    rw [hx] at hreaches
    obtain ⟨g, hruns, rfl, hblocks⟩ := hreaches
    have hcatchable : ∀ z, x = .raised z → z.catchable := by
      rcases horderly with rfl | ⟨z, rfl, hflight⟩
      · exact fun _ hz => by cases hz
      · rintro _ ⟨⟩
        exact (Bool.and_eq_true_iff.mp hflight).1
    obtain ⟨log', hend⟩ := (hvisits.concluded hruns).exists_runIn_of_interrupt hblocks hcatchable
    exact ⟨horderly, log', g.lastOffset, hend⟩

/-- An `or` that its left operand decides; the right one would raise an exception. -/
theorem run_of_assemble_or :
    let e : Expr := .connective true (.not (.array [])) (.negate (.array []))
    let b : CodeBlock := {
      name := "or", filename := "", code := #[0x40, 0, 0, 0x31, 0x54, 0, 11, 0x40, 0, 0, 0x30, 0x71]
      constants := #[], names := #[], locals := #[], maxStack := 1, maxBlocks := 0 }
    (Assembler.fresh "or" "" true).assemble e.program = .ok b ∧
      ∃ log steps, ∀ budget, Machine.runIn (budget + steps) b 0 {} = some (.value (.boolean true),
        { store := { heap := { arrays := #[#[]] } }, log }) := by
  intro e b
  have hb : (Assembler.fresh "or" "" true).assemble e.program = .ok b := rfl
  exact ⟨hb, (run_of_assemble 0 hb (by decide) (by decide) (by decide)).1 _ _ rfl⟩

end Expr

end ScriptMachine
