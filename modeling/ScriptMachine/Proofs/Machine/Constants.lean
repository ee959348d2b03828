import ScriptMachine.Proofs.Machine.Activation
import ScriptMachine.Proofs.Machine.Bracket
import ScriptMachine.Proofs.Machine.CodeTable

/-! The constants of code blocks. No run changes a block, and none changes an array or a map that is
a part of a constant, except by an instruction that stores into it. Such an instruction can be
reached, since a constant is loaded as it stands and not as a copy. -/

namespace ScriptMachine

/-! ### Parts of values -/

namespace Store

/-- The value `w` is an element or a field of `v`, or a constant of its body. -/
def Holds (s : Store) (v w : Value) : Prop :=
  match v with
  | .array id => w ∈ s.heap.elements id
  | .map id => ∃ key, (s.heap.fields id).get? key = some w
  | .code id => w ∈ (s.block id).constants
  | .function r => w ∈ (s.block r.code).constants
  | _ => False

/-- The values of which a value is made up, at any depth. -/
def Parts (s : Store) : Value → Value → Prop :=
  Relation.ReflTransGen s.Holds

/-- A value has the same contents in `t` as in `s`. -/
def SameAt (s t : Store) : Value → Prop
  | .array id => id < t.heap.arrays.size ∧ t.heap.elements id = s.heap.elements id
  | .map id => id < t.heap.maps.size ∧ t.heap.fields id = s.heap.fields id
  | .code id => t.block id = s.block id
  | .function r => t.block r.code = s.block r.code
  | _ => True

namespace SameAt

variable {s t u : Store} {v w : Value}

theorem refl (h : s.heap.Exists w) : s.SameAt s w := by
  cases w with
  | array | map => exact ⟨h, rfl⟩
  | code | function => rfl
  | _ => trivial

theorem exist (h : s.SameAt t w) : t.heap.Exists w := by
  cases w with
  | array | map => exact h.1
  | _ => trivial

theorem trans (h : s.SameAt t w) (h' : t.SameAt u w) : s.SameAt u w := by
  cases w with
  | array | map => exact ⟨h'.1, h'.2.trans h.2⟩
  | code | function => exact Eq.trans h' h
  | _ => trivial

theorem of_grows (hexist : s.heap.Exists w) (hheap : s.heap.Grows t.heap)
    (hblocks : t.blocks = s.blocks) : s.SameAt t w := by
  cases w with
  | array id => exact ⟨Nat.lt_of_lt_of_le hexist hheap.arrays_le, hheap.elements id hexist⟩
  | map id => exact ⟨Nat.lt_of_lt_of_le hexist hheap.maps_le, hheap.fields id hexist⟩
  | code | function => simp only [SameAt, block, hblocks]
  | _ => trivial

/-- A value that is stored into one container changes no other. -/
theorem write (hexist : s.heap.Exists w) {slot : Heap.Slot} (hother : slot.container ≠ w) :
    s.SameAt { s with heap := s.heap.write v slot } w := by
  have hsame : s.heap.SameAt (s.heap.write v slot) w := Heap.sameAt_write v hother
  cases w with
  | array | map => exact ⟨Heap.exists_write_iff.mpr hexist, hsame⟩
  | code | function => rfl
  | _ => trivial

end SameAt

/-- A value has the same contents in `t` as in `s`, at any depth. -/
def Preserves (s t : Store) (v : Value) : Prop :=
  ∀ w, s.Parts v w → s.SameAt t w

end Store

/-! ### Natives -/

/-- A native that leaves code blocks and the containers that exist as they are. -/
structure Native.SparesContainers (n : Native) : Prop where
  code : n.KeepsCode
  answered : ∀ {scope args s v t}, n.run scope args s = .ok v t → s.heap.Grows t.heap
  refused : ∀ {scope args s e t}, n.run scope args s = .error e t → s.heap.Grows t.heap

theorem Prelude.sparesContainers {n : Native} {output : Nat} (h : n ∈ natives output) :
    n.SparesContainers := by
  have hheap (scope : ScopeId) (args : List Value) : Keeps Store.heap (n.run scope args) :=
    keeps_run (fun _ _ _ => rfl) h scope args
  refine ⟨keepsCode h, fun hrun => ?_, fun hrun => ?_⟩
  · rw [(hheap _ _).ok hrun]
    exact .refl _
  · rw [(hheap _ _).error hrun]
    exact .refl _

/-! ### Instructions -/

/-- An instruction changes a container only if it stores into it. -/
theorem Instruction.Alters.sameAt {natives : Array Native} {i : Instruction} {f : Frame}
    {s t : Store} {w : Value} (h : i.Alters natives f s t)
    (hnatives : ∀ n ∈ natives, n.SparesContainers) (hexist : s.heap.Exists w)
    (hspared : ∀ v, ¬ i.Stores f w v) : s.SameAt t w := by
  have hblocks := h.blocks_eq fun n hn => (hnatives n hn).code
  cases h with
  | kept | counted | bound | removed | opened => exact .of_grows hexist (.refl _) hblocks
  | grown hgrows => exact .of_grows hexist hgrows hblocks
  | @written v slot hstores =>
      refine .write hexist ?_
      rintro rfl
      exact hspared v hstores
  | called => exact .of_grows hexist (Heap.grows_newArray _ _) hblocks
  | answered _ hn hrun => exact .of_grows hexist ((hnatives _ hn).answered hrun) hblocks
  | refused _ hn hrun => exact .of_grows hexist ((hnatives _ hn).refused hrun) hblocks

/-! ### Runs -/

namespace Machine

variable {m n k : Machine} {code : CodeBlock} {scope : ScopeId} {v w : Value}

/-- The next instruction stores a value into the container. -/
def StoresInto (n : Machine) (container : Value) : Prop :=
  ∃ f below i v, n.frames = Stack.push below f ∧ f.Fetches i ∧ i.Stores (f.fetched i) container v

theorem sameAt_of_step (hnatives : ∀ r ∈ n.natives, r.SparesContainers)
    (hexist : n.store.heap.Exists w) (hspared : ¬ n.StoresInto w) :
    n.store.SameAt n.step.machine.store w := by
  rcases n.alters_of_step with hsame | ⟨f, below, i, hframes, hi, halters⟩
  · rw [hsame]
    exact .refl hexist
  · exact halters.sameAt hnatives hexist fun v hstores =>
      hspared ⟨f, below, i, v, hframes, hi, hstores⟩

theorem sameAt_of_stays (hvisit : m.Visits code scope (.running n))
    (hnatives : ∀ r ∈ m.natives, r.SparesContainers) (hexist : n.store.heap.Exists w)
    (hstays : n.Stays (¬ ·.StoresInto w) k) : n.store.SameAt k.store w := by
  induction hstays with
  | start => exact .refl hexist
  | @step k k' hstays hstep _ ih =>
      have hk := sameAt_of_step (natives_of_visits (hvisit.stays hstays) ▸ hnatives) ih.exist
        hstays.holds
      rw [hstep] at hk
      exact ih.trans hk

/-- The table of code blocks, with all that belongs to a block, is at any time what it was. -/
theorem blocks_of_visits {p : Progress} (hnatives : ∀ r ∈ m.natives, r.KeepsCode)
    (hvisit : m.Visits code scope p) : p.machine.store.blocks = m.store.blocks := by
  induction hvisit with
  | start => rw [store_start]
  | @step n hvisit ih =>
      rcases n.alters_of_step with hsame | ⟨_, _, _, -, -, halters⟩
      · rw [hsame]
        exact ih
      · exact (halters.blocks_eq (natives_of_visits hvisit ▸ hnatives)).trans ih

/-- No run changes a code block, with its instructions, its tables and the sizes that it asks for.
What a constant contains stays the same, at any depth, as long as no instruction stores into one of
the containers of which it is made up. -/
theorem constants_of_visits (hnatives : ∀ r ∈ m.natives, r.SparesContainers) :
    (∀ p, m.Visits code scope p → p.machine.store.blocks = m.store.blocks) ∧
    ∀ n v k, m.Visits code scope (.running n) →
      (∀ w, n.store.Parts v w → n.store.heap.Exists w) →
      n.Stays (fun n' => ∀ w, n.store.Parts v w → ¬ n'.StoresInto w) k →
      n.store.Preserves k.store v ∧ n.store.Preserves k.step.machine.store v := by
  refine ⟨fun p hvisit => blocks_of_visits (fun r hr => (hnatives r hr).code) hvisit,
    fun n v k hvisit hexist hstays => ?_⟩
  have hpart (w : Value) (hw : n.store.Parts v w) : n.store.SameAt k.store w ∧
      n.store.SameAt k.step.machine.store w := by
    have hk := sameAt_of_stays hvisit hnatives (hexist w hw) (hstays.mono fun _ h => h w hw)
    refine ⟨hk, hk.trans ?_⟩
    exact sameAt_of_step (natives_of_visits (hvisit.stays hstays) ▸ hnatives) hk.exist
      (hstays.holds w hw)
  exact ⟨fun w hw => (hpart w hw).1, fun w hw => (hpart w hw).2⟩

/-- An array that is loaded from the constants. -/
theorem constants_loadConst :
    let c : CodeBlock := { (default : CodeBlock) with
      code := #[Opcode.loadConst.byte, 0, 0], constants := #[.array 0], maxStack := 1 }
    let m : Machine := {
      store := { heap := { arrays := #[#[.integer 0]] }, scopes := ⟨#[{}]⟩, blocks := #[c] }
      natives := (Prelude.natives 0).toArray }
    ∃ n, m.start c 0 = .running n ∧ n.step.machine.store.blocks = m.store.blocks ∧
      n.store.Preserves n.step.machine.store (.array 0) := by
  intro c m
  let n : Machine := { m with
    frames := Stack.empty.push { code := c, scope := 0 }
    log := #[.framePushed c.name 1] }
  have hstart : m.start c 0 = .running n := rfl
  have hvisit : m.Visits c 0 (.running n) := hstart ▸ .start
  have hnatives : ∀ r ∈ m.natives, r.SparesContainers := by
    intro r hr
    have hmem : r ∈ Prelude.natives 0 := by simpa [m] using hr
    exact Prelude.sparesContainers hmem
  have hparts (w : Value) (hw : n.store.Parts (.array 0) w) : w = .array 0 ∨ w = .integer 0 := by
    induction hw with
    | refl => exact .inl rfl
    | tail _ hholds ih =>
        rcases ih with rfl | rfl
        · exact .inr (by simpa [n, m, Store.Holds, Heap.elements] using hholds)
        · exact hholds.elim
  have hexist (w : Value) (hw : n.store.Parts (.array 0) w) : n.store.heap.Exists w := by
    rcases hparts w hw with rfl | rfl
    · exact (by decide : 0 < 1)
    · trivial
  have hi : Frame.Fetches { code := c, scope := 0 } ⟨0, .loadConst, .short 0⟩ :=
    Instruction.decodeAt_eq_ok_iff.mpr ⟨rfl, rfl, by decide⟩
  have hspared (w : Value) : ¬ n.StoresInto w := by
    rintro ⟨f, below, i, v, hframes, hfetches, hstores⟩
    obtain ⟨-, rfl⟩ := Stack.push_inj.mp hframes
    cases hi.symm.trans hfetches
    rcases hstores with ⟨hop, -⟩ | ⟨hop, -⟩ <;> cases hop
  obtain ⟨hblocks, hconstants⟩ := @constants_of_visits m c 0 hnatives
  exact ⟨n, hstart, hblocks _ hvisit.step,
    (hconstants n (.array 0) n hvisit hexist (.start fun w _ => hspared w)).2⟩

/-- A block with an array among its constants, which stores into it after having loaded an element:
run for the second time it finds another constant. -/
theorem constant_overwritten :
    let b : CodeBlock := { (default : CodeBlock) with
      code := #[Opcode.loadConst.byte, 0, 0, Opcode.loadConst.byte, 0, 1, Opcode.loadIndex.byte,
        Opcode.loadConst.byte, 0, 2, Opcode.loadConst.byte, 0, 0, Opcode.loadConst.byte, 0, 1,
        Opcode.storeIndex.byte, Opcode.return_.byte]
      constants := #[.array 0, .integer 0, .integer 7]
      maxStack := 4 }
    let m : Machine := {
      store := { heap := { arrays := #[#[.integer 0]] }, scopes := ⟨#[{}]⟩, blocks := #[b] } }
    ∃ m' m'' steps steps', m.runIn steps b 0 = some (.value (.integer 0), m') ∧
      m'.runIn steps' b 0 = some (.value (.integer 7), m'') ∧
      m.store.heap.elements 0 = #[.integer 0] ∧ m'.store.heap.elements 0 = #[.integer 7] := by
  intro b m
  let s (n : Int64) : Store := { m.store with heap := { arrays := #[#[.integer n]] } }
  let f : Frame := { code := b, scope := 0 }
  have hfetch (i : Instruction) (g : Frame) (hcode : g.code = b) (hpc : g.pc = i.offset)
      (hform : i.WellFormed) (hbytes : i.bytes <+: b.code.toList.drop i.offset) : g.Fetches i := by
    rw [Frame.Fetches, hcode, hpc]
    exact Instruction.decodeAt_eq_ok_iff.mpr ⟨rfl, hform, hbytes⟩
  let g (n : Int64) : Frame :=
    { f with stack := Stack.empty.push (.integer n), pc := 17, lastOffset := 16 }
  -- whatever number the array holds is put on the stack, and then replaced
  have hruns (n : Int64) : Activation.Runs #[] ⟨f, s n⟩ (.ok () ⟨g n, s 7⟩) := by
    refine .step (hfetch ⟨0, .loadConst, .short 0⟩ _ rfl rfl rfl (by decide)) rfl ?_
    refine .step (hfetch ⟨3, .loadConst, .short 1⟩ _ rfl rfl rfl (by decide)) rfl ?_
    refine .step (hfetch ⟨6, .loadIndex, .none⟩ _ rfl rfl rfl (by decide)) rfl ?_
    refine .step (hfetch ⟨7, .loadConst, .short 2⟩ _ rfl rfl rfl (by decide)) rfl ?_
    refine .step (hfetch ⟨10, .loadConst, .short 0⟩ _ rfl rfl rfl (by decide)) rfl ?_
    refine .step (hfetch ⟨13, .loadConst, .short 1⟩ _ rfl rfl rfl (by decide)) rfl ?_
    refine .step (hfetch ⟨16, .storeIndex, .none⟩ _ rfl rfl rfl (by decide)) rfl ?_
    exact .refl _
  have hreturns (n : Int64) : (g n).Returns (.integer n) :=
    .inr ⟨⟨17, .return_, .none⟩, .empty, hfetch _ _ rfl rfl rfl (by decide), rfl, rfl⟩
  have hrun (n : Int64) (log : Array Event) : ∃ log' steps, ∀ budget,
      Machine.runIn (budget + steps) b 0 { store := s n, log } =
        some (.value (.integer n), { store := s 7, log := log' }) := by
    have hvisit : Visits { store := s n, log } b 0 (.running (Machine.alone
      { store := s n, log := log.push (.framePushed b.name 1) } ⟨f, s n⟩)) := .start
    exact (hvisit.concluded (hruns n)).exists_runIn_of_returns (hreturns n)
  obtain ⟨log, steps, hfirst⟩ := hrun 0 #[]
  obtain ⟨log', steps', hsecond⟩ := hrun 7 log
  exact ⟨_, _, _, _, hfirst 0, hsecond 0, rfl, rfl⟩

end Machine

end ScriptMachine
