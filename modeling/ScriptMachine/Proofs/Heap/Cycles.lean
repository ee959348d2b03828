import ScriptMachine.Heap.Equal
import ScriptMachine.Proofs.Heap.Copy

/-! Containers that come to lie in themselves. A store refuses to put a container directly into
itself, but not a value that has the container further inside. A heap stays free of cycles just as
long as no value is stored into a container that lies in it. -/

namespace ScriptMachine

namespace Heap

variable {h k l : Heap} {v w x z target key value : Value} {slot : Slot} {P : Value → Prop}
  {n m : Nat}

/-- What containers hold exists, and no container lies in itself. -/
structure Sound (h : Heap) : Prop where
  exist : ∀ v w, h.Holds v w → h.Exists w
  acyclic : ∀ w, ¬ Relation.TransGen h.Holds w w

theorem Sound.closed (hsound : h.Sound) (hexist : h.Exists v) : h.Closed v := by
  intro w hw
  cases hw with
  | refl => exact hexist
  | tail _ hholds => exact hsound.exist _ _ hholds

theorem sound_empty : Sound {} := by
  have hnone (v w : Value) : ¬ Holds {} v w := by
    rintro ⟨slot, -, hread⟩
    cases slot with
    | element id place => simp [read?, elements] at hread
    | field id key => simp [read?, fields, Dict.get?_empty] at hread
  refine ⟨fun v w hw => absurd hw (hnone v w), fun w hw => ?_⟩
  obtain ⟨x, hx, -⟩ := Relation.TransGen.head'_iff.mp hw
  exact hnone w x hx

/-! ### New edges -/

/-- Where only `z` holds more than before, a way is an old one or goes through `z`. -/
theorem crosses (hedges : ∀ v w, k.Holds v w → h.Holds v w ∨ v = z ∧ P w)
    (hway : Relation.TransGen k.Holds v w) :
    Relation.TransGen h.Holds v w ∨ h.Nested v z ∧ ∃ x, P x ∧ h.Nested x w := by
  -- if the last edge is a new one, the way has come to `z` before it
  induction hway with
  | single hholds =>
      rcases hedges _ _ hholds with hold | ⟨rfl, hw⟩
      · exact .inl (.single hold)
      · exact .inr ⟨.refl, _, hw, .refl⟩
  | tail _ hholds ih =>
      rcases hedges _ _ hholds with hold | ⟨rfl, hw⟩
      · rcases ih with hway | ⟨hv, x, hx, hway⟩
        · exact .inl (hway.tail hold)
        · exact .inr ⟨hv, x, hx, hway.tail hold⟩
      · rcases ih with hway | ⟨hv, -⟩
        · exact .inr ⟨hway.to_reflTransGen, _, hw, .refl⟩
        · exact .inr ⟨hv, _, hw, .refl⟩

/-- A heap stays sound if what is put into one container has that container nowhere in it. -/
theorem Sound.of_edges (hsound : h.Sound) (hexist : ∀ w, h.Exists w → k.Exists w)
    (hedges : ∀ v w, k.Holds v w → h.Holds v w ∨ v = z ∧ P w) (hput : ∀ x, P x → h.Exists x)
    (haway : ∀ x, P x → ¬ h.Nested x z) : k.Sound where
  exist v w hholds := by
    rcases hedges v w hholds with hold | ⟨-, hw⟩
    · exact hexist w (hsound.exist v w hold)
    · exact hexist w (hput w hw)
  acyclic w hway := by
    rcases crosses hedges hway with hold | ⟨hv, x, hx, hw⟩
    · exact hsound.acyclic w hold
    · exact haway x hx (hw.trans hv)

/-- Nothing that exists has a new container in it. -/
theorem Sound.newArray {xs : Array Value} (hsound : h.Sound) (hxs : ∀ v ∈ xs, h.Exists v) :
    (h.newArray xs).2.Sound := by
  refine hsound.of_edges (z := .array h.arrays.size) (P := (· ∈ xs))
    (fun w => (h.grows_newArray xs).exist) (fun v w hholds => ?_) hxs fun x hx hnested => ?_
  · cases v with
    | array id =>
        rw [holds_array_iff, elements_newArray_eq] at hholds
        split at hholds
        · rename_i hnew
          exact .inr ⟨congrArg Value.array hnew, Array.mem_toList_iff.mp hholds⟩
        · exact .inl (holds_array_iff.mpr hholds)
    | map =>
        have hfields := holds_map_iff.mp hholds
        exact .inl (holds_map_iff.mpr hfields)
    | _ => cases hholds.isContainer
  · exact absurd (hsound.closed (hxs x hx) _ hnested) (Nat.lt_irrefl _)

theorem Sound.newMap {d : Dict Value} (hsound : h.Sound) (hd : ∀ v ∈ d.values, h.Exists v) :
    (h.newMap d).2.Sound := by
  refine hsound.of_edges (z := .map h.maps.size) (P := (· ∈ d.values))
    (fun w => (h.grows_newMap d).exist) (fun v w hholds => ?_) hd fun x hx hnested => ?_
  · cases v with
    | array =>
        have helements := holds_array_iff.mp hholds
        exact .inl (holds_array_iff.mpr helements)
    | map id =>
        rw [holds_map_iff, fields_newMap_eq] at hholds
        split at hholds
        · rename_i hnew
          exact .inr ⟨congrArg Value.map hnew, hholds⟩
        · exact .inl (holds_map_iff.mpr hholds)
    | _ => cases hholds.isContainer
  · exact absurd (hsound.closed (hd x hx) _ hnested) (Nat.lt_irrefl _)

/-! ### Stores -/

/-- A store of the value into the target, under an index or as an attribute, makes `h` to `k`. -/
inductive Puts (h : Heap) (target value : Value) (k : Heap) : Prop where
  | storeIndex {key : Value} : h.storeIndex target key value = .ok k → h.Puts target value k
  | storeAttribute {name : String} : h.storeAttribute target name value = .ok k →
      h.Puts target value k

/-- A store puts the value into a slot of the target, which is not the value itself. -/
theorem Puts.exists_slot (hputs : h.Puts target value k) :
    value ≠ target ∧ ∃ key slot, h.Names target key slot ∧ k = h.write value slot := by
  cases hputs with
  | storeIndex hstore =>
      obtain ⟨hother, slot, hnames, hk⟩ := storeIndex_eq_ok_iff.mp hstore
      exact ⟨hother, _, slot, hnames, hk⟩
  | storeAttribute hstore =>
      obtain ⟨hother, id, rfl, hk⟩ := storeAttribute_eq_ok_iff.mp hstore
      exact ⟨hother, _, _, .field id _, hk⟩

theorem holds_write (hexist : h.Exists target) (hnames : h.Names target key slot)
    (hholds : (h.write value slot).Holds v w) : h.Holds v w ∨ v = target ∧ w = value := by
  obtain ⟨s, rfl, hread⟩ := hholds
  rw [read?_write hexist hnames] at hread
  split at hread
  · rename_i hslot
    exact .inr ⟨hslot ▸ hnames.container_eq, (Option.some.inj hread).symm⟩
  · exact .inl ⟨s, rfl, hread⟩

/-- A way to the target is there after a store into it. -/
theorem nested_write (hexist : h.Exists target) (hnames : h.Names target key slot)
    (hway : h.Nested v target) : (h.write value slot).Nested v target := by
  induction hway using Relation.ReflTransGen.head_induction_on with
  | refl => exact .refl
  | @head v x hholds _ ih =>
      -- what is written over lies in the target, where the way is at its end already
      by_cases hv : v = target
      · exact hv ▸ .refl
      obtain ⟨s, rfl, hread⟩ := hholds
      refine .head ⟨s, rfl, ?_⟩ ih
      rwa [read?_write hexist hnames, if_neg]
      rintro rfl
      exact hv hnames.container_eq

/-- A container that a value is stored into lies in itself if it lay in the value. -/
theorem cycle_of_puts (htarget : h.Exists target) (hputs : h.Puts target value k)
    (hnested : h.Nested value target) : Relation.TransGen k.Holds target target := by
  obtain ⟨-, key, slot, hnames, rfl⟩ := hputs.exists_slot
  have hholds : (h.write value slot).Holds target value :=
    ⟨slot, hnames.container_eq, by rw [read?_write htarget hnames, if_pos rfl]⟩
  exact .head' hholds (nested_write htarget hnames hnested)

/-- A store leaves a heap sound if and only if the target does not lie in the value. -/
theorem sound_iff_of_puts (hsound : h.Sound) (htarget : h.Exists target) (hvalue : h.Exists value)
    (hputs : h.Puts target value k) : k.Sound ↔ ¬ h.Nested value target := by
  refine ⟨fun hsound' hnested => hsound'.acyclic target (cycle_of_puts htarget hputs hnested),
    fun haway => ?_⟩
  obtain ⟨-, key, slot, hnames, rfl⟩ := hputs.exists_slot
  refine hsound.of_edges (fun w => exists_write_iff.mpr)
    (fun v w hholds => holds_write htarget hnames hholds) ?_ ?_
  · rintro x rfl
    exact hvalue
  · rintro x rfl
    exact haway

/-- What becomes of a heap by new containers of what exists, and by stores of values that do not
have their target in them. -/
inductive Builds (h : Heap) : Heap → Prop where
  | none : Builds h h
  | newArray {k : Heap} {xs : Array Value} : Builds h k → (∀ v ∈ xs, k.Exists v) →
      Builds h (k.newArray xs).2
  | newMap {k : Heap} {d : Dict Value} : Builds h k → (∀ v ∈ d.values, k.Exists v) →
      Builds h (k.newMap d).2
  | puts {k l : Heap} {target value : Value} : Builds h k → k.Exists target → k.Exists value →
      ¬ k.Nested value target → k.Puts target value l → Builds h l

theorem Sound.builds (hsound : h.Sound) (hbuilds : h.Builds k) : k.Sound := by
  induction hbuilds with
  | none => exact hsound
  | newArray _ hxs ih => exact ih.newArray hxs
  | newMap _ hd ih => exact ih.newMap hd
  | puts _ htarget hvalue haway hputs ih =>
      exact (sound_iff_of_puts ih htarget hvalue hputs).mpr haway

/-! ### Ways that end -/

theorem all_eq_of_mem {α : Type} {l : List α} {p q : α → Bool} (heq : ∀ a ∈ l, p a = q a) :
    l.all p = l.all q := by
  rw [Bool.eq_iff_iff, List.all_eq_true, List.all_eq_true]
  exact forall₂_congr fun a ha => by rw [heq a ha]

theorem equalTo_leaf (hv : v.isContainer = false) : h.equalTo n v w = v.leafEqual w := by
  cases v <;> cases n <;> first | rfl | cases hv

/-- Whether a value equals another one does not depend on how far one may go inward, if it is far
enough. -/
theorem equalTo_eq (hfathoms : h.Fathoms n v) (hle : n ≤ m) :
    h.equalTo m v w = h.equalTo n v w := by
  induction hfathoms generalizing m w with
  | leaf hv => rw [equalTo_leaf hv, equalTo_leaf hv]
  | @container n v _ ih =>
      obtain ⟨m, rfl⟩ := Nat.exists_eq_add_of_le' (Nat.le_trans (Nat.le_add_left 1 n) hle)
      have hpart (x y : Value) (hx : h.Holds v x) : h.equalTo m x y = h.equalTo n x y :=
        ih x hx (by omega)
      cases v with
      | array a =>
          cases w with
          | array b =>
              rw [equalTo, equalTo]
              refine congrArg _ (all_eq_of_mem fun p hp => ?_)
              exact hpart p.1 p.2 (holds_array_iff.mpr (List.of_mem_zip hp).1)
          | _ => rfl
      | map a =>
          cases w with
          | map b =>
              rw [equalTo, equalTo]
              refine congrArg _ (all_eq_of_mem fun p hp => ?_)
              have hvalue := List.mem_map_of_mem (f := (·.2)) (List.of_mem_zip hp).1
              exact hpart p.1.2 p.2.2 (holds_map_iff.mpr hvalue)
          | _ => rfl
      | _ => cases w <;> rfl

/-- Every way inward from the value ends: text, copy and comparison take all of it in, and none of
them changes if it may go further inward. -/
structure Ends (h : Heap) (v : Value) : Prop where
  inspect : ∀ label depth, h.containers ≤ depth → h.inspectTo label depth v = h.inspect label v
  copy : ∀ depth, h.containers ≤ depth → copyTo depth v h = h.copy v
  equal : ∀ w depth, h.containers ≤ depth → h.equalTo depth v w = h.equal v w

theorem Sound.ends (hsound : h.Sound) (hexist : h.Exists v) : h.Ends v := by
  have hclosed : h.Closed v := hsound.closed hexist
  have hacyclic : h.Acyclic v := fun w _ => hsound.acyclic w
  have hfathoms := fathoms_containers hclosed hacyclic
  have hsame : h.Preserves h v := fun w _ => .refl h w
  exact {
    inspect := fun label depth hdepth => inspectTo_congr label hfathoms hsame hdepth
    copy := (copied_copy hclosed hacyclic).2
    equal := fun w depth hdepth => equalTo_eq hfathoms hdepth }

/-! ### Ways that do not end -/

end Heap

theorem Text.length_le_join (separator : String) {part : String} {parts : List String}
    (hpart : part ∈ parts) : part.length ≤ (Text.join separator parts).length := by
  rw [Text.join]
  induction parts with
  | nil => cases hpart
  | cons first parts ih =>
      cases parts with
      | nil =>
          obtain rfl := List.mem_singleton.mp hpart
          exact Nat.le_of_eq (congrArg _ String.intercalate_singleton.symm)
      | cons second parts =>
          rw [String.intercalate_cons_cons, String.length_append, String.length_append]
          rcases List.mem_cons.mp hpart with rfl | hlater
          · omega
          · have hle := ih hlater
            omega

namespace Heap

variable {h k l : Heap} {v w : Value} {n : Nat}

/-- The text of a value with a way inward that does not end is the longer the further one goes. -/
theorem length_inspectTo_of_cycle (label : CodeId → String)
    (hcycle : Relation.TransGen h.Holds v v) (n : Nat) :
    2 * n ≤ (h.inspectTo label n v).length := by
  induction n generalizing v with
  | zero => exact Nat.zero_le _
  | succ n ih =>
      obtain ⟨x, hx, hway⟩ := Relation.TransGen.head'_iff.mp hcycle
      have hlong : 2 * n ≤ (h.inspectTo label n x).length := ih (.tail' hway hx)
      cases v with
      | array id =>
          have hpart := Text.length_le_join ", "
            (List.mem_map_of_mem (f := h.inspectTo label n) (holds_array_iff.mp hx))
          rw [inspectTo, String.length_append, String.length_append]
          have hbrackets : "[".length = 1 ∧ "]".length = 1 := ⟨rfl, rfl⟩
          omega
      | map id =>
          obtain ⟨e, he, rfl⟩ := List.mem_map.mp (holds_map_iff.mp hx)
          have hpart := Text.length_le_join ", " (List.mem_map_of_mem
            (f := fun e => e.1 ++ ": " ++ h.inspectTo label n e.2) he)
          rw [String.length_append, String.length_append] at hpart
          rw [inspectTo, String.length_append, String.length_append]
          have hbraces : "\x7b".length = 1 ∧ "\x7d".length = 1 := ⟨rfl, rfl⟩
          omega
      | _ => cases hx.isContainer

/-! ### Results -/

/-- As long as no value is stored into a container that lies in it, no container comes to lie in
itself, and texts, copies and comparisons of all that exists come to their ends. The next store
keeps it so if and only if its value does not have the target in it; otherwise the text of the
target has no end. -/
theorem sound_of_builds (hsound : h.Sound) (hbuilds : h.Builds k) :
    k.Sound ∧ (∀ v, k.Exists v → k.Ends v) ∧
      ∀ target value l, k.Exists target → k.Exists value → k.Puts target value l →
        (l.Sound ↔ ¬ k.Nested value target) ∧
          (k.Nested value target → ∀ label n, 2 * n ≤ (l.inspectTo label n target).length) := by
  have hsound' := hsound.builds hbuilds
  refine ⟨hsound', fun v => hsound'.ends, fun target value l htarget hvalue hputs =>
    ⟨sound_iff_of_puts hsound' htarget hvalue hputs, fun hnested label n => ?_⟩⟩
  exact length_inspectTo_of_cycle label (cycle_of_puts htarget hputs hnested) n

/-- Two arrays, the first of which is stored into the second. -/
theorem builds_pair : Builds {} { arrays := #[#[.integer 0], #[.array 0]] } := by
  let h : Heap := { arrays := #[#[.integer 0], #[.integer 0]] }
  have hfirst : Builds {} (({} : Heap).newArray #[.integer 0]).2 :=
    .newArray .none (by simp [Exists])
  have hsecond : Builds {} h := .newArray hfirst (by simp [Exists])
  have hputs : h.Puts (.array 1) (.array 0) { arrays := #[#[.integer 0], #[.array 0]] } :=
    .storeIndex (rfl : h.storeIndex (.array 1) (.integer 0) (.array 0) = _)
  have htarget : h.Exists (.array 1) := (by decide : 1 < 2)
  have hvalue : h.Exists (.array 0) := (by decide : 0 < 2)
  refine .puts hsecond htarget hvalue (fun hnested => ?_) hputs
  -- the first array holds a number, and nothing lies in this
  obtain heq | ⟨v, hholds, hrest⟩ := hnested.cases_head
  · cases heq
  · obtain rfl : v = .integer 0 := by simpa [holds_array_iff, elements, h] using hholds
    cases Nested.eq_of_leaf rfl hrest

/-- One of two arrays may hold the other one. A number may then be stored into the other one, but
not the one that holds it. -/
theorem sound_of_builds_pair :
    let h : Heap := { arrays := #[#[.integer 0], #[.array 0]] }
    let k : Heap := { arrays := #[#[.integer 1], #[.array 0]] }
    let l : Heap := { arrays := #[#[.array 1], #[.array 0]] }
    h.Sound ∧ h.Ends (.array 1) ∧
      h.storeIndex (.array 0) (.integer 0) (.integer 1) = .ok k ∧ k.Sound ∧
        h.storeIndex (.array 0) (.integer 0) (.array 1) = .ok l ∧ ¬ l.Sound ∧
          ∀ label n, 2 * n ≤ (l.inspectTo label n (.array 0)).length := by
  intro h k l
  have htarget : h.Exists (.array 0) := (by decide : 0 < 2)
  have hvalue : h.Exists (.array 1) := (by decide : 1 < 2)
  have hleaf : h.Exists (.integer 1) := trivial
  have hnumber : h.storeIndex (.array 0) (.integer 0) (.integer 1) = .ok k := rfl
  have haround : h.storeIndex (.array 0) (.integer 0) (.array 1) = .ok l := rfl
  have hnested : h.Nested (.array 1) (.array 0) := .single ⟨.element 1 0, rfl, rfl⟩
  have hapart : ¬ h.Nested (.integer 1) (.array 0) := fun hway => by
    cases Nested.eq_of_leaf rfl hway
  obtain ⟨hsound, hends, hstores⟩ := sound_of_builds sound_empty builds_pair
  obtain ⟨hkept, -⟩ := hstores _ _ _ htarget hleaf (.storeIndex hnumber)
  obtain ⟨hlost, hendless⟩ := hstores _ _ _ htarget hvalue (.storeIndex haround)
  exact ⟨hsound, hends _ hvalue, hnumber, hkept.mpr hapart, haround,
    fun hsound' => hlost.mp hsound' hnested, hendless hnested⟩

/-- A store that is not refused and closes a cycle: the second of two arrays holds the first, and is
stored into it. -/
theorem store_closes_cycle :
    let h : Heap := { arrays := #[#[.integer 0], #[.array 0]] }
    let k : Heap := { arrays := #[#[.array 1], #[.array 0]] }
    h.Sound ∧ h.Exists (.array 0) ∧ h.Exists (.array 1) ∧
      h.storeIndex (.array 0) (.integer 0) (.array 1) = .ok k ∧
        Relation.TransGen k.Holds (.array 0) (.array 0) ∧ ¬ k.Sound ∧
          ∀ label n, 2 * n ≤ (k.inspectTo label n (.array 0)).length := by
  intro h k
  have hsound : h.Sound := sound_empty.builds builds_pair
  have htarget : h.Exists (.array 0) := (by decide : 0 < 2)
  have hvalue : h.Exists (.array 1) := (by decide : 1 < 2)
  have hstore : h.storeIndex (.array 0) (.integer 0) (.array 1) = .ok k := rfl
  have hnested : h.Nested (.array 1) (.array 0) := .single ⟨.element 1 0, rfl, rfl⟩
  have hcycle := cycle_of_puts htarget (.storeIndex hstore) hnested
  exact ⟨hsound, htarget, hvalue, hstore, hcycle,
    fun hsound' => hsound'.acyclic _ hcycle, fun label => length_inspectTo_of_cycle label hcycle⟩

end Heap

end ScriptMachine
