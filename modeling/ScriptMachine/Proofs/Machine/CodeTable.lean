import ScriptMachine.Prelude
import ScriptMachine.Proofs.Machine.StoreEffect

/-! The table of code blocks. No instruction changes it, so a run executes only blocks that were in
the table at its start. The natives that every interpreter offers do not change it either, and they
never fault. -/

namespace ScriptMachine

/-! ### Natives -/

/-- A native that leaves the table of code blocks as it is. -/
def Native.KeepsCode (n : Native) : Prop :=
  ∀ scope args, Keeps Store.blocks (n.run scope args)

namespace Prelude

variable {n : Native} {output : Nat}

theorem keeps_pureNative {γ : Type} {part : Store → γ} (name : String) (least : Nat)
    (answer : Store → List Value → Except Interrupt Value) (scope : ScopeId) (args : List Value) :
    Keeps part ((pureNative name least answer).run scope args) := by
  refine Keeps.look (g := fun s => checkArguments name least args >>= fun _ => answer s args)
    fun s => ?_
  simp only [pureNative]
  cases checkArguments name least args >>= fun _ => answer s args <;> rfl

/-- They change nothing but what is printed. -/
theorem keeps_run {γ : Type} {part : Store → γ}
    (hprint : ∀ s output text, part (s.print output text) = part s) (h : n ∈ natives output)
    (scope : ScopeId) (args : List Value) : Keeps part (n.run scope args) := by
  simp only [natives, List.mem_cons, List.not_mem_nil, or_false] at h
  rcases h with rfl | rfl | rfl | rfl | rfl | rfl | rfl | rfl | rfl | rfl
  · exact ⟨fun h => by cases h; exact hprint _ _ _, (by cases ·)⟩
  all_goals exact keeps_pureNative _ _ _ _ _

theorem keepsCode (h : n ∈ natives output) : n.KeepsCode :=
  keeps_run (fun _ _ _ => rfl) h

theorem raises_pureNative {name : String} {least : Nat}
    {answer : Store → List Value → Except Interrupt Value}
    (hanswer : ∀ s args, Raises (·.caught = false) (answer s args)) {scope : ScopeId}
    {args : List Value} {s t : Store} {e : Interrupt}
    (h : (pureNative name least answer).run scope args s = .error e t) :
    ∃ z, e = .raised z ∧ z.caught = false := by
  have harguments : Raises (·.caught = false) (checkArguments name least args) := by
    rw [checkArguments]
    split
    · exact .raised rfl
    · exact .ok _
  simp only [pureNative] at h
  split at h <;> cases h
  rename_i herror
  exact harguments.bind (fun _ => hanswer s args) e herror

theorem raises_lengthOf (h : Heap) (v : Value) : Raises (·.caught = false) (lengthOf h v) := by
  rw [lengthOf.eq_def]
  split
  · exact .ok _
  · exact .ok _
  · exact .ok _
  · exact .ok _
  · exact .raised rfl

/-- They never fault, and no handler has received what they raise. -/
theorem raises_of_run {scope : ScopeId} {args : List Value} {s t : Store} {e : Interrupt}
    (hn : n ∈ natives output) (h : n.run scope args s = .error e t) :
    ∃ z, e = .raised z ∧ z.caught = false := by
  simp only [natives, List.mem_cons, List.not_mem_nil, or_false] at hn
  rcases hn with rfl | rfl | rfl | rfl | rfl | rfl | rfl | rfl | rfl | rfl
  · cases h
  · exact raises_pureNative (fun s args => raises_lengthOf s.heap _) h
  · exact raises_pureNative (fun _ _ => .ok _) h
  · exact raises_pureNative (fun _ _ => .ok _) h
  · exact raises_pureNative (fun _ _ => .ok _) h
  · exact raises_pureNative (fun _ _ => .raised rfl) h
  all_goals exact raises_pureNative (fun _ _ => .ok _) h

theorem not_answers (hn : n ∈ natives output) (y : Fault) : ¬ n.Answers y := by
  rintro ⟨scope, args, s, t, hrun⟩
  obtain ⟨z, hz, -⟩ := raises_of_run hn hrun
  cases hz

end Prelude

/-! ### Instructions -/

/-- No instruction changes the table of code blocks. -/
theorem Instruction.Alters.blocks_eq {natives : Array Native} {i : Instruction} {f : Frame}
    {s t : Store} (h : i.Alters natives f s t) (hnatives : ∀ n ∈ natives, n.KeepsCode) :
    t.blocks = s.blocks := by
  cases h with
  | answered _ hn hrun => exact (hnatives _ hn _ _).ok hrun
  | refused _ hn hrun => exact (hnatives _ hn _ _).error hrun
  | _ => rfl

/-! ### Runs -/

namespace Machine

/-- Whatever a run comes to, its frames execute blocks in `P` only. -/
def RunsOnly (P : CodeBlock → Prop) (m : Machine) (code : CodeBlock) (scope : ScopeId) : Prop :=
  ∀ p, m.Visits code scope p → ∀ f ∈ p.machine.frames.toList, P f.code

variable {natives : Array Native} {limits : Limits} {P : CodeBlock → Prop}

/-- Frames that execute blocks in `P`, over a table with such blocks only. -/
def executing (P : CodeBlock → Prop) (hnatives : ∀ n ∈ natives, n.KeepsCode) :
    Invariant natives limits where
  running f := P f.code
  suspended f := P f.code
  raising f := P f.code
  left f := P f.code
  code := P
  store s := ∀ id, P (s.block id)
  entered hcode _ _ := hcode
  proceeds hf _ he := he.code_eq ▸ hf
  calls hf _ he := he.code_eq ▸ hf
  interrupted hf _ he := he.code_eq ▸ hf
  returned hf hpush := Frame.code_of_push hpush ▸ hf
  reached := id
  delivered hf hr hpush := Frame.code_of_push hpush ▸ Frame.code_restored hr ▸ hf
  left_of_running := id
  left_of_raising := id
  left_of_faulted hf _ he := he.code_eq ▸ hf
  left_of_restored hf hr := Frame.code_restored hr ▸ hf
  stored {_ _ _ s t _} hs h := by
    have hblocks : t.blocks = s.blocks :=
      ((Instruction.leaves_execute _ _ _ _).ok h).blocks_eq hnatives
    simpa only [Store.block, hblocks] using hs
  stored_of_interrupted {_ _ _ s t _} hs h := by
    have hblocks : t.blocks = s.blocks :=
      ((Instruction.leaves_execute _ _ _ _).error h).blocks_eq hnatives
    simpa only [Store.block, hblocks] using hs
  callable id hs := hs id

/-- A run executes blocks in `P` only, if its own block and those in the table are in `P`. -/
theorem runsOnly_of_store {m : Machine} {code : CodeBlock} {scope : ScopeId} (hcode : P code)
    (hstore : ∀ id, P (m.store.block id)) (hnatives : ∀ n ∈ m.natives, n.KeepsCode) :
    m.RunsOnly P code scope := by
  intro p hvisit
  have hholds : (executing P hnatives).Holds p := Invariant.holds_of_visits _ hcode hstore hvisit
  exact hholds.forall_frames (fun _ => id) (fun _ => id) fun _ => id

end Machine

end ScriptMachine
