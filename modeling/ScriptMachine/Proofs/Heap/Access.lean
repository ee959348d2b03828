import ScriptMachine.Proofs.Heap.Growth
import ScriptMachine.Proofs.Operator.Faultless

/-! Reading and writing single places of containers. To store a value is to put it into one slot;
nothing else that can be read changes. -/

namespace ScriptMachine

namespace Heap

variable {h k : Heap} {target key value v : Value} {slot : Slot} {name : String}

/-! ### Slots -/

/-- The container of a slot. -/
def Slot.container : Slot → Value
  | .element id _ => .array id
  | .field id _ => .map id

/-- What lies in a slot, if the container has it. -/
def read? (h : Heap) : Slot → Option Value
  | .element id place => (h.elements id)[place]?
  | .field id name => (h.fields id).get? name

theorem SameAt.read? (hsame : h.SameAt k slot.container) : k.read? slot = h.read? slot := by
  cases slot with
  | element id place => exact congrArg (·[place]?) hsame
  | field id name => exact congrArg (·.get? name) hsame

/-- The key names a slot of the target: an element of an array by its index, or a field of a map,
whether the map has it yet or not. -/
inductive Names (h : Heap) : Value → Value → Slot → Prop where
  | element {id : ArrayId} {n : Int64} : 0 ≤ n.toInt → n.toInt < (h.elements id).size →
      h.Names (.array id) (.integer n) (.element id n.toInt.toNat)
  | field (id : MapId) (name : String) : h.Names (.map id) (.string name) (.field id name)

theorem Names.container_eq (hnames : h.Names target key slot) : slot.container = target := by
  cases hnames <;> rfl

theorem Names.congr (hsizes : ∀ id, (k.elements id).size = (h.elements id).size)
    (hnames : h.Names target key slot) : k.Names target key slot := by
  cases hnames with
  | element hnonneg hbelow => exact .element hnonneg (by rwa [hsizes])
  | field => exact .field _ _

theorem position_eq_ok_iff {n : Int64} {length place : Nat} :
    position n length = .ok place ↔ 0 ≤ n.toInt ∧ n.toInt < length ∧ place = n.toInt.toNat := by
  rw [position]
  split
  · rename_i hwithin
    simp only [Except.ok.injEq, hwithin, true_and, eq_comm]
  · rename_i houtside
    refine ⟨(by cases ·), fun hplace => absurd ⟨hplace.1, hplace.2.1⟩ houtside⟩

theorem sameContainer_array {id : ArrayId} :
    sameContainer (.array id) value = true ↔ value = .array id := by
  cases value with
  | array other => simp [sameContainer, @eq_comm _ id]
  | _ => simp [sameContainer]

theorem sameContainer_map {id : MapId} :
    sameContainer (.map id) value = true ↔ value = .map id := by
  cases value with
  | map other => simp [sameContainer, @eq_comm _ id]
  | _ => simp [sameContainer]

/-- A value can be stored wherever the key names a slot, but not in itself. -/
theorem indexSlot_eq_ok_iff :
    h.indexSlot target key value = .ok slot ↔ value ≠ target ∧ h.Names target key slot := by
  constructor
  · intro hslot
    rw [indexSlot.eq_def, refuseSelf] at hslot
    split at hslot
    · cases hslot
    rename_i hother
    simp only [bind, Except.bind, pure, Except.pure] at hslot
    split at hslot
    · split at hslot <;> cases hslot
      rename_i hplace
      obtain ⟨hnonneg, hbelow, rfl⟩ := position_eq_ok_iff.mp hplace
      exact ⟨fun hself => hother (sameContainer_array.mpr hself), .element hnonneg hbelow⟩
    · cases hslot
      exact ⟨fun hself => hother (sameContainer_map.mpr hself), .field _ _⟩
    · cases hslot
  · rintro ⟨hother, hnames⟩
    cases hnames with
    | @element id n hnonneg hbelow =>
        rw [indexSlot, refuseSelf, if_neg (hother ∘ sameContainer_array.mp),
          position_eq_ok_iff.mpr ⟨hnonneg, hbelow, rfl⟩]
        rfl
    | field id name =>
        rw [indexSlot, refuseSelf, if_neg (hother ∘ sameContainer_map.mp)]
        rfl

/-- An attribute is the field that the name has as a key. -/
theorem attributeSlot_eq_ok_iff :
    attributeSlot target name value = .ok slot ↔
      value ≠ target ∧ ∃ id, target = .map id ∧ slot = .field id name := by
  constructor
  · intro hslot
    rw [attributeSlot.eq_def, refuseSelf] at hslot
    split at hslot
    · cases hslot
    rename_i hother
    simp only [bind, Except.bind, pure, Except.pure] at hslot
    split at hslot <;> cases hslot
    exact ⟨fun hself => hother (sameContainer_map.mpr hself), _, rfl, rfl⟩
  · rintro ⟨hother, id, rfl, rfl⟩
    rw [attributeSlot, refuseSelf, if_neg (hother ∘ sameContainer_map.mp)]
    rfl

/-! ### Reading -/

/-- A key that names a slot reads what lies there, and null where nothing does. -/
theorem loadIndex_of_names (hnames : h.Names target key slot) :
    h.loadIndex target key = .ok ((h.read? slot).getD .null) := by
  cases hnames with
  | @element id n hnonneg hbelow =>
      rw [loadIndex, position_eq_ok_iff.mpr ⟨hnonneg, hbelow, rfl⟩, read?,
        ← Array.getD_eq_getD_getElem?]
      rfl
  | field id name => rfl

/-- What a key reads depends on the slot that it names, and on no other. -/
theorem loadIndex_congr (hsizes : ∀ id, (k.elements id).size = (h.elements id).size)
    (hread : ∀ slot, h.Names target key slot → k.read? slot = h.read? slot) :
    k.loadIndex target key = h.loadIndex target key := by
  by_cases hnamed : ∃ slot, h.Names target key slot
  · obtain ⟨slot, hnames⟩ := hnamed
    rw [loadIndex_of_names (hnames.congr hsizes), loadIndex_of_names hnames, hread slot hnames]
  · rw [loadIndex.eq_def, loadIndex.eq_def]
    split
    · rename_i id n
      have houtside : ¬ (0 ≤ n.toInt ∧ n.toInt < (h.elements id).size) :=
        fun hwithin => hnamed ⟨_, .element hwithin.1 hwithin.2⟩
      rw [hsizes, position, if_neg houtside]
      rfl
    · rfl
    · exact absurd ⟨_, .field _ _⟩ hnamed
    · rfl

/-! ### Writing -/

/-- A change of one map shows in that map only, whether it exists or not. -/
theorem fields_setField_or (h : Heap) (id other : MapId) (key : String) (v : Value) :
    (h.setField id key v).fields other = h.fields other ∨
      other = id ∧ (h.setField id key v).fields other = (h.fields id).insert key v := by
  by_cases hid : id < h.maps.size
  · rw [fields_setField hid]
    split
    · exact .inr ⟨‹_›, rfl⟩
    · exact .inl rfl
  · refine .inl ?_
    simp only [fields, setField, Array.getD_eq_getD_getElem?, Array.getElem?_modify]
    split
    · rename_i hsame
      subst hsame
      simp [hid]
    · rfl

/-- A value that is written into one container changes no other. -/
theorem sameAt_write {w : Value} (v : Value) (hother : slot.container ≠ w) :
    h.SameAt (h.write v slot) w := by
  cases slot with
  | element id place =>
      cases w with
      | array other =>
          rw [SameAt, write, elements_setElement, if_neg]
          rintro rfl
          exact hother rfl
      | map => rfl
      | _ => trivial
  | field id name =>
      cases w with
      | array => rfl
      | map other =>
          rcases h.fields_setField_or id other name v with hsame | ⟨rfl, -⟩
          · exact hsame
          · exact absurd rfl hother
      | _ => trivial

theorem exists_write_iff {w : Value} : (h.write v slot).Exists w ↔ h.Exists w := by
  cases slot <;> cases w <;> simp [Exists, write, setElement, setField]

theorem size_elements_write (h : Heap) (v : Value) (slot : Slot) (id : ArrayId) :
    ((h.write v slot).elements id).size = (h.elements id).size := by
  cases slot with
  | element other place =>
      rw [write, elements_setElement]
      split
      · simp [*]
      · rfl
  | field => rfl

theorem read?_setElement {id : ArrayId} {place : Nat} (hplace : place < (h.elements id).size)
    (v : Value) (s : Slot) : (h.setElement id place v).read? s =
      if s = .element id place then some v else h.read? s := by
  cases s with
  | field => rfl
  | element other place' =>
      rw [read?, elements_setElement, read?]
      by_cases hid : other = id
      · subst hid
        rw [if_pos rfl, Array.getElem?_setIfInBounds]
        by_cases hsame : place = place'
        · subst hsame
          simp [hplace]
        · simp [hsame, Ne.symm hsame]
      · simp [hid]

theorem read?_setField {id : MapId} (hexist : id < h.maps.size) (name : String) (v : Value)
    (s : Slot) : (h.setField id name v).read? s =
      if s = .field id name then some v else h.read? s := by
  cases s with
  | element => rfl
  | field other name' =>
      rw [read?, fields_setField hexist, read?]
      by_cases hid : other = id
      · subst hid
        simp [Dict.get?_insert]
      · simp [hid]

/-- A write shows in its own slot and in no other. -/
theorem read?_write (hexist : h.Exists target) (hnames : h.Names target key slot) (v : Value)
    (s : Slot) : (h.write v slot).read? s = if s = slot then some v else h.read? s := by
  cases hnames with
  | element hnonneg hbelow => exact read?_setElement (by omega) v s
  | field id name => exact read?_setField hexist name v s

/-- The heap `k` is `h` with a value put into one slot. The number of containers, the lengths of
arrays, whatever lies in another slot and all other containers are the same. So is what any key
reads from any value, unless the key names that slot. -/
structure Stored (h k : Heap) (slot : Slot) (v : Value) : Prop where
  arrays : k.arrays.size = h.arrays.size
  maps : k.maps.size = h.maps.size
  sizes : ∀ id, (k.elements id).size = (h.elements id).size
  read : ∀ s, k.read? s = if s = slot then some v else h.read? s
  same : ∀ w, slot.container ≠ w → h.SameAt k w
  load : ∀ target key, h.Names target key slot → k.loadIndex target key = .ok v
  load_other : ∀ target key, ¬ h.Names target key slot →
    k.loadIndex target key = h.loadIndex target key

theorem stored_write (hexist : h.Exists target) (hnames : h.Names target key slot) (v : Value) :
    h.Stored (h.write v slot) slot v where
  arrays := by cases slot <;> simp [write, setElement, setField]
  maps := by cases slot <;> simp [write, setElement, setField]
  sizes := h.size_elements_write v slot
  read := read?_write hexist hnames v
  same _ := sameAt_write v
  load target' key' hnames' := by
    have hnamed := hnames'.congr (h.size_elements_write v slot)
    rw [loadIndex_of_names hnamed, read?_write hexist hnames, if_pos rfl, Option.getD_some]
  load_other target' key' hother := by
    refine loadIndex_congr (h.size_elements_write v slot) fun s hnames' => ?_
    rw [read?_write hexist hnames, if_neg]
    rintro rfl
    exact hother hnames'

theorem map_write_eq_ok_iff {find : Except Interrupt Slot} :
    find.map (h.write value) = .ok k ↔ ∃ slot, find = .ok slot ∧ k = h.write value slot := by
  cases find <;> simp [Except.map, eq_comm]

/-- What it takes to store a value, and what it changes. -/
theorem storeIndex_eq_ok_iff :
    h.storeIndex target key value = .ok k ↔
      value ≠ target ∧ ∃ slot, h.Names target key slot ∧ k = h.write value slot := by
  rw [storeIndex, map_write_eq_ok_iff]
  constructor
  · rintro ⟨slot, hslot, rfl⟩
    obtain ⟨hother, hnames⟩ := indexSlot_eq_ok_iff.mp hslot
    exact ⟨hother, slot, hnames, rfl⟩
  · rintro ⟨hother, slot, hnames, rfl⟩
    exact ⟨slot, indexSlot_eq_ok_iff.mpr ⟨hother, hnames⟩, rfl⟩

theorem storeAttribute_eq_ok_iff :
    h.storeAttribute target name value = .ok k ↔
      value ≠ target ∧ ∃ id, target = .map id ∧ k = h.write value (.field id name) := by
  rw [storeAttribute, map_write_eq_ok_iff]
  constructor
  · rintro ⟨slot, hslot, rfl⟩
    obtain ⟨hother, id, rfl, rfl⟩ := attributeSlot_eq_ok_iff.mp hslot
    exact ⟨hother, id, rfl, rfl⟩
  · rintro ⟨hother, id, rfl, rfl⟩
    exact ⟨_, attributeSlot_eq_ok_iff.mpr ⟨hother, id, rfl, rfl⟩, rfl⟩

end Heap

end ScriptMachine
