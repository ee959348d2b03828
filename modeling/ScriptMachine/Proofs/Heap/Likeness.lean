import ScriptMachine.Proofs.Dict
import ScriptMachine.Proofs.Heap.Independence

/-! Values that look alike from the outside, in one heap or in two, and maps as their history has
made them. How a map has come to what it has for each key does not show. -/

namespace ScriptMachine

namespace Heap

variable {h k : Heap} {v w : Value} {i j : MapId} {a b : String → Option Value} {n m : Nat}

/-! ### Values that look alike -/

/-- The value `w` in `k` looks like `v` in `h`: arrays of the same length with elements that look
alike, maps with the same keys and fields that look alike, and otherwise the same value. -/
inductive Resembles (h k : Heap) : Value → Value → Prop where
  | leaf {v : Value} : v.isContainer = false → Resembles h k v v
  | array {i j : ArrayId} : (h.elements i).size = (k.elements j).size →
      (∀ (place : Nat) v w, (h.elements i)[place]? = some v → (k.elements j)[place]? = some w →
        Resembles h k v w) → Resembles h k (.array i) (.array j)
  | map {i j : MapId} :
      (∀ key, ((h.fields i).get? key).isSome = ((k.fields j).get? key).isSome) →
      (∀ key v w, (h.fields i).get? key = some v → (k.fields j).get? key = some w →
        Resembles h k v w) → Resembles h k (.map i) (.map j)

namespace Resembles

theorem symm (hsame : h.Resembles k v w) : k.Resembles h w v := by
  induction hsame with
  | leaf hv => exact .leaf hv
  | array hsize _ ih => exact .array hsize.symm fun place w v hw hv => ih place v w hv hw
  | map hkeys _ ih => exact .map (fun key => (hkeys key).symm) fun key w v hw hv => ih key v w hv hw

/-- Only what comes to an end inward looks like anything. -/
theorem acyclic (hsame : h.Resembles k v w) : h.Acyclic v := by
  have hinward {v : Value} (hparts : ∀ x, h.Holds v x → h.Acyclic x) : h.Acyclic v := by
    intro x hx hcycle
    rcases hx.cases_head with rfl | ⟨y, hy, hx⟩
    · obtain ⟨y, hy, hback⟩ := Relation.TransGen.head'_iff.mp hcycle
      exact hparts y hy _ hback hcycle
    · exact hparts y hy x hx hcycle
  induction hsame with
  | leaf hv => exact hinward fun x hx => by simp [hx.isContainer] at hv
  | @array i j hsize _ ih =>
      refine hinward fun x hx => ?_
      obtain ⟨place, hplace⟩ := List.mem_iff_getElem?.mp (holds_array_iff.mp hx)
      rw [Array.getElem?_toList] at hplace
      have hlt : place < (k.elements j).size := hsize ▸ (Array.getElem?_eq_some_iff.mp hplace).1
      exact ih place x _ hplace (Array.getElem?_eq_getElem hlt)
  | @map i j hkeys _ ih =>
      refine hinward fun x hx => ?_
      obtain ⟨⟨key, _⟩, hentry, rfl⟩ := List.mem_map.mp (holds_map_iff.mp hx)
      have hkey := Dict.mem_entries_iff.mp hentry
      have hbound : ((k.fields j).get? key).isSome := by rw [← hkeys, hkey, Option.isSome_some]
      obtain ⟨y, hy⟩ := Option.isSome_iff_exists.mp hbound
      exact ih key _ y hkey hy

/-- Values that look alike have the same text. -/
theorem inspectTo_eq (label : CodeId → String) (hsame : h.Resembles k v w) (hv : h.Fathoms n v)
    (hw : k.Fathoms m w) : h.inspectTo label n v = k.inspectTo label m w := by
  induction hsame generalizing n m with
  | leaf hleaf => rw [inspectTo_leaf label hleaf, inspectTo_leaf label hleaf]
  | @array i j hsize _ ih =>
      cases hv with
      | leaf hcontainer => cases hcontainer
      | @container n _ hv =>
      cases hw with
      | leaf hcontainer => cases hcontainer
      | @container m _ hw =>
      have htexts : (h.elements i).toList.map (h.inspectTo label n) =
          (k.elements j).toList.map (k.inspectTo label m) := by
        refine List.ext_getElem (by simpa using hsize) fun place hp hp' => ?_
        rw [List.length_map, Array.length_toList] at hp hp'
        simp only [List.getElem_map, Array.getElem_toList]
        exact ih place _ _ (Array.getElem?_eq_getElem hp) (Array.getElem?_eq_getElem hp')
          (hv _ (holds_array_iff.mpr (by simp))) (hw _ (holds_array_iff.mpr (by simp)))
      rw [inspectTo, inspectTo, htexts]
  | @map i j hkeys _ ih =>
      cases hv with
      | leaf hcontainer => cases hcontainer
      | @container n _ hv =>
      cases hw with
      | leaf hcontainer => cases hcontainer
      | @container m _ hw =>
      have htexts : (h.fields i).entries.map (fun e => e.1 ++ ": " ++ h.inspectTo label n e.2) =
          (k.fields j).entries.map fun e => e.1 ++ ": " ++ k.inspectTo label m e.2 := by
        refine Dict.map_entries_congr hkeys fun key v w hkey hkey' => ?_
        rw [ih key v w hkey hkey' (hv v ⟨.field i key, rfl, hkey⟩) (hw w ⟨.field j key, rfl, hkey'⟩)]
      rw [inspectTo, inspectTo, htexts]

theorem inspect_eq (hsame : h.Resembles k v w) (hv : h.Closed v) (hw : k.Closed w)
    (label : CodeId → String) : h.inspect label v = k.inspect label w :=
  hsame.inspectTo_eq label (fathoms_containers hv hsame.acyclic)
    (fathoms_containers hw hsame.symm.acyclic)

end Resembles

/-- The answers of two heaps: values that look alike, or the same refusal. -/
inductive AnswersAlike (h k : Heap) : Except Interrupt Value → Except Interrupt Value → Prop where
  | value {v w : Value} : h.Resembles k v w → AnswersAlike h k (.ok v) (.ok w)
  | refused (e : Interrupt) : AnswersAlike h k (.error e) (.error e)

/-- What can be told of two values from the outside: their texts and what keys and names read from
them. -/
structure ToldAlike (h k : Heap) (v w : Value) : Prop where
  inspect : ∀ label, h.inspect label v = k.inspect label w
  loadIndex : ∀ key, AnswersAlike h k (h.loadIndex v key) (k.loadIndex w key)
  loadAttribute : ∀ name, AnswersAlike h k (h.loadAttribute v name) (k.loadAttribute w name)

theorem Resembles.toldAlike_map (hsame : h.Resembles k (.map i) (.map j)) (hi : h.Closed (.map i))
    (hj : k.Closed (.map j)) : h.ToldAlike k (.map i) (.map j) := by
  have hfield (key : String) : h.Resembles k (((h.fields i).get? key).getD .null)
      (((k.fields j).get? key).getD .null) := by
    cases hsame with
    | leaf hcontainer => cases hcontainer
    | map hkeys hfields =>
        have hbound := hkeys key
        cases hv : (h.fields i).get? key with
        | none =>
            rw [hv, Option.isSome_none, eq_comm, Option.isSome_eq_false_iff,
              Option.isNone_iff_eq_none] at hbound
            rw [hbound]
            exact .leaf rfl
        | some v =>
            rw [hv, Option.isSome_some, eq_comm, Option.isSome_iff_exists] at hbound
            obtain ⟨w, hw⟩ := hbound
            rw [hw]
            exact hfields key v w hv hw
  refine ⟨hsame.inspect_eq hi hj, fun key => ?_, fun name => .value (hfield name)⟩
  cases key with
  | string name => exact .value (hfield name)
  | _ => exact .refused _

theorem Closed.of_leaf (hv : v.isContainer = false) : h.Closed v := by
  intro w hw
  rw [Nested.eq_of_leaf hv hw]
  cases v <;> trivial

/-! ### Maps and their history -/

/-- What the last of the entries for a key gives it. -/
def lastValue (entries : List (String × Value)) (key : String) : Option Value :=
  (entries.reverse.find? (·.1 == key)).map (·.2)

/-- The map has been made, and the stores into it since then have left it with this value for each
key. What has happened to other containers in between does not matter. -/
inductive Recorded : Heap → MapId → (String → Option Value) → Prop where
  | made (h : Heap) (entries : List (String × Value)) :
      Recorded (h.newMap (Dict.ofList entries)).2 h.maps.size (lastValue entries)
  | storedIndex {h k : Heap} {i : MapId} {a : String → Option Value} {name : String} {v : Value} :
      Recorded h i a → h.storeIndex (.map i) (.string name) v = .ok k →
      Recorded k i fun key => if key = name then some v else a key
  | storedAttribute {h k : Heap} {i : MapId} {a : String → Option Value} {name : String}
      {v : Value} : Recorded h i a → h.storeAttribute (.map i) name v = .ok k →
      Recorded k i fun key => if key = name then some v else a key
  | elsewhere {h k : Heap} {i : MapId} {a : String → Option Value} : Recorded h i a →
      h.Changes (· ≠ .map i) k → Recorded k i a

namespace Recorded

/-- A map answers what its history says. -/
theorem get?_eq (hmap : h.Recorded i a) :
    i < h.maps.size ∧ ∀ key, (h.fields i).get? key = a key := by
  have hwrite {h : Heap} {i : MapId} {a : String → Option Value}
      (hmap : i < h.maps.size ∧ ∀ key, (h.fields i).get? key = a key) (name : String) (v : Value) :
      i < (h.write v (.field i name)).maps.size ∧ ∀ key,
        ((h.write v (.field i name)).fields i).get? key = if key = name then some v else a key := by
    obtain ⟨hexist, hkeys⟩ := hmap
    refine ⟨(exists_write_iff (w := .map i)).mpr hexist, fun key => ?_⟩
    rw [write, fields_setField hexist, if_pos rfl, Dict.get?_insert, hkeys]
  induction hmap with
  | made h entries =>
      refine ⟨by simp [newMap], fun key => ?_⟩
      rw [fields_newMap, Dict.get?_ofList]
      rfl
  | storedIndex _ hstore ih =>
      obtain ⟨-, slot, hnames, rfl⟩ := storeIndex_eq_ok_iff.mp hstore
      cases hnames
      exact hwrite ih _ _
  | storedAttribute _ hstore ih =>
      obtain ⟨-, _, hmap, rfl⟩ := storeAttribute_eq_ok_iff.mp hstore
      cases hmap
      exact hwrite ih _ _
  | @elsewhere h k i a _ hchanges ih =>
      obtain ⟨hexist, hsame⟩ := hchanges.sameAt (w := .map i) ih.1 (fun h => h rfl)
      have hfields : k.fields i = h.fields i := hsame
      exact ⟨hexist, fun key => by rw [hfields, ih.2]⟩

/-- Maps whose histories end alike look alike. -/
theorem resembles (hi : h.Recorded i a) (hj : k.Recorded j b)
    (hends : ∀ key, Option.Rel (h.Resembles k) (a key) (b key)) :
    h.Resembles k (.map i) (.map j) := by
  refine .map (fun key => ?_) fun key v w hv hw => ?_
  · rw [hi.get?_eq.2, hj.get?_eq.2]
    have hend := hends key
    generalize a key = x, b key = y at hend ⊢
    cases hend <;> rfl
  · rw [hi.get?_eq.2] at hv
    rw [hj.get?_eq.2] at hw
    have hend := hends key
    rw [hv, hw] at hend
    cases hend
    assumption

/-- A map is closed if the values are that its history has left in it. -/
theorem closed (hi : h.Recorded i a) (hvalues : ∀ key v, a key = some v → h.Closed v) :
    h.Closed (.map i) := by
  intro w hw
  rcases hw.cases_head with rfl | ⟨v, ⟨slot, hslot, hv⟩, hw⟩
  · exact hi.get?_eq.1
  · cases slot with
    | element => cases hslot
    | field other key =>
        cases hslot
        exact hvalues key v ((hi.get?_eq.2 key).symm.trans hv) w hw

/-- Maps whose histories end with the same values have the same contents. -/
theorem fields_eq (hi : h.Recorded i a) (hj : k.Recorded j a) : h.fields i = k.fields j :=
  Dict.ext fun key => by rw [hi.get?_eq.2, hj.get?_eq.2]

end Recorded

end Heap

end ScriptMachine
