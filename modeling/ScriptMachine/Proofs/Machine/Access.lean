import ScriptMachine.Proofs.Machine.StoreEffect

/-! The instructions that read and write single places of containers. A write that is refused leaves
the store as it was, and a read always does. -/

namespace ScriptMachine

variable {natives : Array Native} {i : Instruction} {f : Frame} {s : Store} {rest : Stack Value}
  {target key value : Value} {name : String}

/-! ### Instructions -/

namespace Action

theorem nameAt_bind_apply {α : Type} {g : String → Action α} {n : Nat}
    (h : f.code.nameAt n = .ok name) : (nameAt n >>= g) ⟨f, s⟩ = g name ⟨f, s⟩ := by
  change EStateM.bind (nameAt n) g ⟨f, s⟩ = _
  rw [EStateM.bind, nameAt, look_eq_ok_iff.mpr ⟨h, rfl, rfl⟩]

/-- To look for a slot and to write there. -/
theorem write_apply (find : Heap → Except Interrupt Heap.Slot) :
    (readHeap find >>= write value) ⟨f, s⟩ = match (find s.heap).map (s.heap.write value) with
      | .ok k => .ok () ⟨f, { s with heap := k }⟩
      | .error e => .error e ⟨f, s⟩ := by
  change EStateM.bind (readHeap find) (write value) ⟨f, s⟩ = _
  rw [EStateM.bind, readHeap]
  cases find s.heap <;> rfl

theorem storeIndex_apply (hstack : f.stack = ((Stack.push rest value).push target).push key) :
    storeIndex ⟨f, s⟩ = match s.heap.storeIndex target key value with
      | .ok k => .ok () ⟨{ f with stack := rest }, { s with heap := k }⟩
      | .error e => .error e ⟨{ f with stack := rest }, s⟩ := by
  rw [storeIndex, pop_bind_apply hstack, pop_bind_apply rfl, pop_bind_apply rfl]
  exact write_apply fun h => h.indexSlot target key value

theorem storeAttribute_apply (hstack : f.stack = (Stack.push rest value).push target)
    (hname : f.code.nameAt i.arg = .ok name) :
    storeAttribute i.arg ⟨f, s⟩ = match s.heap.storeAttribute target name value with
      | .ok k => .ok () ⟨{ f with stack := rest }, { s with heap := k }⟩
      | .error e => .error e ⟨{ f with stack := rest }, s⟩ := by
  rw [storeAttribute, pop_bind_apply hstack, pop_bind_apply rfl,
    nameAt_bind_apply (f := { f with stack := rest }) hname]
  exact write_apply fun _ => Heap.attributeSlot target name value

end Action

namespace Instruction

/-- A store that succeeds changes the heap, and one that does not keeps the store. -/
theorem execute_storeIndex (hop : i.opcode = .storeIndex)
    (hstack : f.stack = ((Stack.push rest value).push target).push key) :
    i.execute natives ⟨f, s⟩ = match s.heap.storeIndex target key value with
      | .ok k => .ok .proceed ⟨{ f with stack := rest }, { s with heap := k }⟩
      | .error e => .error e ⟨{ f with stack := rest }, s⟩ := by
  simp only [execute, hop, executeLocal]
  change EStateM.bind Action.storeIndex _ ⟨f, s⟩ = _
  rw [EStateM.bind, Action.storeIndex_apply hstack]
  cases s.heap.storeIndex target key value <;> rfl

theorem execute_storeAttribute (hop : i.opcode = .storeAttribute)
    (hstack : f.stack = (Stack.push rest value).push target)
    (hname : f.code.nameAt i.arg = .ok name) :
    i.execute natives ⟨f, s⟩ = match s.heap.storeAttribute target name value with
      | .ok k => .ok .proceed ⟨{ f with stack := rest }, { s with heap := k }⟩
      | .error e => .error e ⟨{ f with stack := rest }, s⟩ := by
  simp only [execute, hop, executeLocal]
  change EStateM.bind (Action.storeAttribute i.arg) _ ⟨f, s⟩ = _
  rw [EStateM.bind, Action.storeAttribute_apply hstack hname]
  cases s.heap.storeAttribute target name value <;> rfl

/-- To read from a container changes nothing but the operands. -/
theorem keepsStore_of_load (hop : i.opcode = .loadIndex ∨ i.opcode = .loadAttribute) :
    (i.execute natives).KeepsStore := by
  rcases hop with hop | hop <;> simp only [execute, hop, executeLocal]
  · exact Keeps.bind (Action.KeepsStore.onFrame_bind fun _ => .onFrame_bind fun _ =>
      (Action.KeepsStore.readHeap _).bind fun _ => Action.KeepsStore.onFrame _) fun _ => .pure _
  · exact Keeps.bind (Action.KeepsStore.onFrame_bind fun _ => .onFrame_bind fun _ =>
      (Action.KeepsStore.readHeap _).bind fun _ => Action.KeepsStore.onFrame _) fun _ => .pure _

end Instruction

/-! ### Reads and writes -/

namespace Heap

/-- To store a value succeeds exactly where the key names a slot of another container than the
value, and puts the value into that slot; the key reads it there, through whatever value names the
container. Whatever fails raises an exception that a handler can receive, and the instruction that
fails keeps the store. The attributes of a map are its fields, a missing field reads as null, and no
read changes the store. -/
theorem access_sound (natives : Array Native) (s : Store) (target key value : Value) (name : String)
    (hexist : s.heap.Exists target) :
    ((∃ k, s.heap.storeIndex target key value = .ok k) ↔
      value ≠ target ∧ ∃ slot, s.heap.Names target key slot) ∧
    (∀ k, s.heap.storeIndex target key value = .ok k →
      ∃ slot, s.heap.Names target key slot ∧ s.heap.Stored k slot value) ∧
    (∀ slot, s.heap.Names target key slot → s.heap.read? slot = none →
      s.heap.loadIndex target key = .ok .null) ∧
    (∀ id, target = .map id →
      s.heap.storeAttribute target name value = s.heap.storeIndex target (.string name) value ∧
      s.heap.loadAttribute target name = s.heap.loadIndex target (.string name)) ∧
    (Raises (·.inFlight) (s.heap.storeIndex target key value) ∧
      Raises (·.inFlight) (s.heap.storeAttribute target name value) ∧
      Raises (·.inFlight) (s.heap.loadIndex target key) ∧
      Raises (·.inFlight) (s.heap.loadAttribute target name)) ∧
    ∀ (i : Instruction) (f : Frame) (rest : Stack Value),
      (i.opcode = .storeIndex → f.stack = ((Stack.push rest value).push target).push key →
        i.execute natives ⟨f, s⟩ = match s.heap.storeIndex target key value with
          | .ok k => .ok .proceed ⟨{ f with stack := rest }, { s with heap := k }⟩
          | .error e => .error e ⟨{ f with stack := rest }, s⟩) ∧
      (i.opcode = .storeAttribute → f.stack = (Stack.push rest value).push target →
        f.code.nameAt i.arg = .ok name →
        i.execute natives ⟨f, s⟩ = match s.heap.storeAttribute target name value with
          | .ok k => .ok .proceed ⟨{ f with stack := rest }, { s with heap := k }⟩
          | .error e => .error e ⟨{ f with stack := rest }, s⟩) ∧
      (i.opcode = .loadIndex ∨ i.opcode = .loadAttribute → (i.execute natives).KeepsStore) := by
  refine ⟨?_, ?_, ?_, ?_, ⟨?_, ?_, ?_, ?_⟩, fun i f rest => ⟨?_, ?_, ?_⟩⟩
  · constructor
    · rintro ⟨k, hk⟩
      obtain ⟨hother, slot, hnames, -⟩ := storeIndex_eq_ok_iff.mp hk
      exact ⟨hother, slot, hnames⟩
    · rintro ⟨hother, slot, hnames⟩
      exact ⟨_, storeIndex_eq_ok_iff.mpr ⟨hother, slot, hnames, rfl⟩⟩
  · intro k hk
    obtain ⟨-, slot, hnames, rfl⟩ := storeIndex_eq_ok_iff.mp hk
    exact ⟨slot, hnames, stored_write hexist hnames value⟩
  · intro slot hnames hmissing
    rw [loadIndex_of_names hnames, hmissing, Option.getD_none]
  · rintro id rfl
    exact ⟨rfl, rfl⟩
  · exact (raises_indexSlot _ _ _ _).map
  · exact (raises_attributeSlot _ _ _).map
  · exact raises_loadIndex _ _ _
  · exact raises_loadAttribute _ _ _
  · exact Instruction.execute_storeIndex
  · exact Instruction.execute_storeAttribute
  · exact Instruction.keepsStore_of_load

/-- What is stored at the end of an array is read from there. -/
theorem access_sound_array :
    let s : Store := { heap := { arrays := #[#[.null, .null]] }, scopes := ⟨#[{}]⟩ }
    s.heap.Exists (.array 0) ∧ ∃ k, s.heap.storeIndex (.array 0) (.integer 1) (.boolean true) = .ok k
      ∧ k.loadIndex (.array 0) (.integer 1) = .ok (.boolean true)
      ∧ k.loadIndex (.array 0) (.integer 0) = .ok .null := by
  intro s
  have hexist : s.heap.Exists (.array 0) := (by decide : 0 < 1)
  have hone : s.heap.Names (.array 0) (.integer 1) (.element 0 1) :=
    .element (by decide) (by decide)
  obtain ⟨hsucceeds, hstored, -⟩ :=
    access_sound #[] s (.array 0) (.integer 1) (.boolean true) "" hexist
  obtain ⟨k, hk⟩ := hsucceeds.mpr ⟨(by decide), _, hone⟩
  obtain ⟨slot, hnames, hstored⟩ := hstored k hk
  refine ⟨hexist, k, hk, hstored.load _ _ hnames, ?_⟩
  rw [hstored.load_other]
  · rfl
  · intro hzero
    cases hnames
    cases hzero

end Heap

end ScriptMachine
