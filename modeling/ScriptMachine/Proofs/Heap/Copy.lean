import Mathlib.Data.List.Nodup
import ScriptMachine.Heap.Copy
import ScriptMachine.Proofs.Heap.Nesting

/-! Deep copies. Every container of a copy is made for it alone: it did not exist before, and it lies
in one place of the copy only. -/

namespace ScriptMachine

/-! ### Maps with new values -/

namespace Dict

variable {α : Type} {d : Dict α} {key : String} {v : α}

theorem nodup_keys (d : Dict α) : d.keys.Nodup :=
  List.pairwise_map.mpr (d.sorted_entries.imp fun hlt heq => absurd hlt (by simp [heq]))

theorem length_keys (d : Dict α) : d.keys.length = d.values.length := by
  simp [keys, values]

/-- A map that is made of entries with different keys consists of them. -/
theorem get?_ofList_iff {l : List (String × α)} (hkeys : (l.map (·.1)).Nodup) :
    (ofList l).get? key = some v ↔ (key, v) ∈ l := by
  rw [get?_ofList, Option.map_eq_some_iff]
  constructor
  · rintro ⟨e, hfound, rfl⟩
    have hkey : e.1 = key := by simpa using List.find?_some hfound
    simpa [← hkey] using List.mem_of_find?_eq_some hfound
  · intro hmem
    have hfound : (l.reverse.find? (·.1 == key)).isSome := by
      rw [List.find?_isSome]
      exact ⟨_, List.mem_reverse.mpr hmem, by simp⟩
    obtain ⟨e, he⟩ := Option.isSome_iff_exists.mp hfound
    have hkey : e.1 = key := by simpa using List.find?_some he
    have hsame : e = (key, v) := List.inj_on_of_nodup_map hkeys
      (List.mem_reverse.mp (List.mem_of_find?_eq_some he)) hmem hkey
    exact ⟨e, he, by rw [hsame]⟩

/-- The value of a key stands where the key stands among all of them. -/
theorem mem_zip_keys_iff {vs : List α} (hlength : d.keys.length = vs.length) :
    (key, v) ∈ d.keys.zip vs ↔ vs[d.keys.idxOf key]? = some v := by
  rw [List.mem_iff_getElem?]
  constructor
  · rintro ⟨i, hi⟩
    obtain ⟨hkey, hv⟩ := List.getElem?_zip_eq_some.mp hi
    obtain ⟨hlt, rfl⟩ := List.getElem?_eq_some_iff.mp hkey
    rwa [d.nodup_keys.idxOf_getElem]
  · intro hv
    obtain ⟨hlt, -⟩ := List.getElem?_eq_some_iff.mp hv
    refine ⟨_, List.getElem?_zip_eq_some.mpr ⟨?_, hv⟩⟩
    rw [List.getElem?_eq_getElem (by omega), List.getElem_idxOf]

theorem get?_eq_getElem? (d : Dict α) (key : String) :
    d.get? key = d.values[d.keys.idxOf key]? := by
  refine Option.ext fun v => ?_
  have hzip : d.keys.zip d.values = d.entries := by
    rw [keys, values, ← List.unzip_fst, ← List.unzip_snd, List.zip_unzip]
  rw [← mem_entries_iff, ← mem_zip_keys_iff d.length_keys, hzip]

/-- With new values for all keys, every key has the value that was given to its place. -/
theorem get?_withValues {vs : List α} (hlength : d.keys.length = vs.length) (key : String) :
    (d.withValues vs).get? key = vs[d.keys.idxOf key]? := by
  refine Option.ext fun v => ?_
  have hkeys : ((d.keys.zip vs).map (·.1)).Nodup := by
    rw [List.map_fst_zip (Nat.le_of_eq hlength)]
    exact d.nodup_keys
  rw [withValues, get?_ofList_iff hkeys, mem_zip_keys_iff hlength]

end Dict

namespace Heap

variable {h k l : Heap} {v w c d b : Value} {vs cs : List Value} {n m : Nat}

/-! ### The shape of a copy -/

/-- The value `c` in `k` is of the same shape as `v` in `h`: arrays of the same length with elements
of the same shape, maps with the same keys and fields of the same shape, null in the place of a code
block, and otherwise the same value. -/
inductive Mirrors (h k : Heap) : Value → Value → Prop where
  | same {v : Value} : v.isContainer = false → (∀ id, v ≠ .code id) → Mirrors h k v v
  | code (id : CodeId) : Mirrors h k (.code id) .null
  | array {a b : ArrayId} : (k.elements b).size = (h.elements a).size →
      (∀ place v c, h.read? (.element a place) = some v → k.read? (.element b place) = some c →
        Mirrors h k v c) → Mirrors h k (.array a) (.array b)
  | map {a b : MapId} : (∀ key, (k.fields b).contains key = (h.fields a).contains key) →
      (∀ key v c, h.read? (.field a key) = some v → k.read? (.field b key) = some c →
        Mirrors h k v c) → Mirrors h k (.map a) (.map b)

namespace Mirrors

/-- The shape depends on what is nested in the two values. -/
theorem congr {h' k' : Heap} (hmirrors : h.Mirrors k v c) (hv : h.Preserves h' v)
    (hc : k.Preserves k' c) : h'.Mirrors k' v c := by
  induction hmirrors with
  | same hleaf hcode => exact .same hleaf hcode
  | code id => exact .code id
  | @array a b hsize _ ih =>
      have helements : k'.elements b = k.elements b := hc _ .refl
      have helements' : h'.elements a = h.elements a := hv _ .refl
      refine .array (by rw [helements, helements', hsize]) fun place v c hread hread' => ?_
      rw [hv.read? rfl] at hread
      rw [hc.read? rfl] at hread'
      exact ih place v c hread hread' (hv.of_holds ⟨_, rfl, hread⟩) (hc.of_holds ⟨_, rfl, hread'⟩)
  | @map a b hkeys _ ih =>
      have hfields : k'.fields b = k.fields b := hc _ .refl
      have hfields' : h'.fields a = h.fields a := hv _ .refl
      refine .map (by rw [hfields, hfields']; exact hkeys) fun key v c hread hread' => ?_
      rw [hv.read? rfl] at hread
      rw [hc.read? rfl] at hread'
      exact ih key v c hread hread' (hv.of_holds ⟨_, rfl, hread⟩) (hc.of_holds ⟨_, rfl, hread'⟩)

/-- Whatever lies in the copy mirrors what lies in the same place of the value. -/
theorem exists_of_holds (hmirrors : h.Mirrors k v c) (hd : k.Holds c d) :
    ∃ w, h.Holds v w ∧ h.Mirrors k w d := by
  obtain ⟨slot, hslot, hread⟩ := hd
  cases hmirrors with
  | same hleaf =>
      rw [← hslot, slot.isContainer_container] at hleaf
      cases hleaf
  | code => cases slot <;> cases hslot
  | @array a b hsize hparts =>
      cases slot with
      | field => cases hslot
      | element id place =>
          cases hslot
          obtain ⟨hplace, -⟩ := Array.getElem?_eq_some_iff.mp hread
          have hread' : h.read? (.element a place) = some (h.elements a)[place] :=
            Array.getElem?_eq_getElem (by omega)
          exact ⟨_, ⟨_, rfl, hread'⟩, hparts place _ _ hread' hread⟩
  | @map a b hkeys hparts =>
      cases slot with
      | element => cases hslot
      | field id key =>
          cases hslot
          have hsome : ((h.fields a).get? key).isSome := by
            rw [← Dict.contains, ← hkeys key, Dict.contains]
            exact Option.isSome_of_eq_some hread
          obtain ⟨w, hw⟩ := Option.isSome_iff_exists.mp hsome
          have hread' : h.read? (.field a key) = some w := hw
          exact ⟨w, ⟨_, rfl, hread'⟩, hparts key _ _ hread' hread⟩

theorem fathoms (hmirrors : h.Mirrors k v c) (hfathoms : h.Fathoms n v) : k.Fathoms n c := by
  induction hfathoms generalizing c with
  | leaf hleaf =>
      cases hmirrors with
      | same => exact .leaf hleaf
      | code => exact .leaf rfl
      | array | map => cases hleaf
  | container _ ih =>
      refine .container fun d hd => ?_
      obtain ⟨w, hw, hmirrors'⟩ := hmirrors.exists_of_holds hd
      exact ih w hw hmirrors'

end Mirrors

/-! ### Copies made for themselves -/

/-- Every container of `c` is new in `k`, and each is in one place of `c` only. -/
structure Own (h k : Heap) (c : Value) : Prop where
  fresh : ∀ w, w.isContainer → k.Nested c w → k.Exists w ∧ ¬ h.Exists w
  single : ∀ p q w, w.isContainer → k.Leads c p w → k.Leads c q w → p = q

namespace Own

theorem of_leaf (hleaf : c.isContainer = false) : h.Own k c where
  fresh w hw hnested := by
    rw [hnested.eq_of_leaf hleaf, hleaf] at hw
    cases hw
  single p q w hw hp _ := by
    rw [hp.nested.eq_of_leaf hleaf, hleaf] at hw
    cases hw

theorem closed (hown : h.Own k c) : k.Closed c := by
  intro w hw
  cases w with
  | array | map => exact (hown.fresh _ rfl hw).1
  | _ => trivial

/-- More containers do not matter to a copy. -/
theorem grow (hown : h.Own k c) (hgrows : k.Grows l) : h.Own l c where
  fresh w hw hnested := by
    have hsame := hgrows.preserves hown.closed
    obtain ⟨hexist, hnew⟩ := hown.fresh w hw (hsame.nested hnested)
    exact ⟨hgrows.exist hexist, hnew⟩
  single p q w hw hp hq :=
    have hsame := hgrows.preserves hown.closed
    hown.single p q w hw (hsame.leads hp) (hsame.leads hq)

theorem of_grown (hown : l.Own k c) (hgrows : h.Grows l) : h.Own k c where
  fresh w hw hnested :=
    have hfresh := hown.fresh w hw hnested
    ⟨hfresh.1, fun hexist => hfresh.2 (hgrows.exist hexist)⟩
  single := hown.single

/-- A new container in which copies lie that have no container in common is itself a copy. -/
theorem of_new (hcontainer : b.isContainer) (hgrows : h.Grows k) (hgrows' : k.Grows l)
    (hnew : ¬ k.Exists b) (hexist : l.Exists b)
    (hown : ∀ slot c, slot.container = b → l.read? slot = some c → h.Own k c)
    (hapart : ∀ s t c d, s.container = b → t.container = b → l.read? s = some c →
      l.read? t = some d → s ≠ t → ∀ w, w.isContainer → k.Nested c w → ¬ k.Nested d w) :
    h.Own l b := by
  -- what lies in the new container is nested in one of the copies, and none of them contains it
  have hinside {slot : Slot} {c w : Value} (hslot : slot.container = b)
      (hread : l.read? slot = some c) (hw : l.Nested c w) : k.Nested c w :=
    (hgrows'.preserves (hown slot c hslot hread).closed).nested hw
  have hback {slot : Slot} {c : Value} (hslot : slot.container = b)
      (hread : l.read? slot = some c) : ¬ l.Nested c b := fun hb =>
    hnew ((hown slot c hslot hread).fresh b hcontainer (hinside hslot hread hb)).1
  constructor
  · intro w hw hnested
    rcases hnested.cases_head with rfl | ⟨c, ⟨slot, hslot, hread⟩, hnested⟩
    · exact ⟨hexist, fun hold => hnew (hgrows.exist hold)⟩
    · obtain ⟨hexist', hnew'⟩ :=
        (hown slot c hslot hread).fresh w hw (hinside hslot hread hnested)
      exact ⟨hgrows'.exist hexist', hnew'⟩
  · intro p q w hw hp hq
    cases hp with
    | here =>
        cases hq with
        | here => rfl
        | inward hslot hread hq => exact absurd hq.nested (hback hslot hread)
    | @inward _ c _ s p hslot hread hp =>
        cases hq with
        | here => exact absurd hp.nested (hback hslot hread)
        | @inward _ d _ t q hslot' hread' hq =>
            by_cases hsame : s = t
            · subst hsame
              cases hread.symm.trans hread'
              have hown' := (hown s c hslot hread).grow hgrows'
              rw [hown'.single p q w hw hp hq]
            · exact absurd (hinside hslot' hread' hq.nested)
                (hapart s t c d hslot hslot' hread hread' hsame w hw
                  (hinside hslot hread hp.nested))

end Own

/-- The heap `k` is `h` with a copy `c` of the value `v`. -/
structure Copied (h k : Heap) (v c : Value) : Prop where
  grows : h.Grows k
  mirrors : h.Mirrors k v c
  own : h.Own k c

/-- The heap `k` is `h` with a copy of each of the values, and no container is in two of the
copies. -/
structure CopiedAll (h k : Heap) (vs cs : List Value) : Prop where
  grows : h.Grows k
  mirrors : List.Forall₂ (h.Mirrors k) vs cs
  own : ∀ c ∈ cs, h.Own k c
  apart : cs.Pairwise fun c d => ∀ w, w.isContainer → k.Nested c w → ¬ k.Nested d w

/-- Where a slot comes among those of its container, by its position or by its key in a list. -/
def Slot.rank (keys : List String) : Slot → Nat
  | .element _ place => place
  | .field _ key => keys.idxOf key

namespace CopiedAll

theorem nil (h : Heap) : h.CopiedAll h [] [] :=
  ⟨.refl h, .nil, by simp, .nil⟩

/-- One value is copied, and then the others. -/
theorem cons (hclosed : ∀ w ∈ vs, h.Closed w) (hhead : h.Copied k v c)
    (htail : k.CopiedAll l vs cs) : h.CopiedAll l (v :: vs) (c :: cs) where
  grows := hhead.grows.trans htail.grows
  mirrors := by
    have hsame : k.Preserves l c := htail.grows.preserves hhead.own.closed
    refine .cons (hhead.mirrors.congr (fun w _ => .refl h w) hsame) ?_
    refine List.forall₂_iff_get.mpr ⟨htail.mirrors.length_eq, fun i hi hi' => ?_⟩
    have hback : k.Preserves h vs[i] :=
      (hhead.grows.preserves (hclosed _ (List.getElem_mem hi))).symm
    exact (htail.mirrors.get hi hi').congr hback fun w _ => .refl l w
  own := by
    simp only [List.forall_mem_cons]
    exact ⟨hhead.own.grow htail.grows, fun d hd => (htail.own d hd).of_grown hhead.grows⟩
  apart := by
    refine .cons (fun d hd w hw hc hd' => ?_) htail.apart
    -- the copies of the others are made of containers that came later
    have hc' := (htail.grows.preserves hhead.own.closed).nested hc
    exact ((htail.own d hd).fresh w hw hd').2 (hhead.own.fresh w hw hc').1

theorem mirrors_of_getElem? (hall : h.CopiedAll k vs cs) {i : Nat} (hv : vs[i]? = some v)
    (hc : cs[i]? = some c) : h.Mirrors k v c := by
  obtain ⟨hi, rfl⟩ := List.getElem?_eq_some_iff.mp hv
  obtain ⟨hi', rfl⟩ := List.getElem?_eq_some_iff.mp hc
  exact hall.mirrors.get hi hi'

theorem apart_of_ne (hall : h.CopiedAll k vs cs) {i j : Nat} (hi : cs[i]? = some c)
    (hj : cs[j]? = some d) (hne : i ≠ j) (hw : w.isContainer) (hc : k.Nested c w) :
    ¬ k.Nested d w := by
  obtain ⟨hi', rfl⟩ := List.getElem?_eq_some_iff.mp hi
  obtain ⟨hj', rfl⟩ := List.getElem?_eq_some_iff.mp hj
  intro hd
  have hapart := List.pairwise_iff_getElem.mp hall.apart
  rcases Nat.lt_or_gt_of_ne hne with hlt | hlt
  · exact hapart i j hi' hj' hlt w hw hc hd
  · exact hapart j i hj' hi' hlt w hw hd hc

/-- A new container that takes the copies, each into a slot of its own. -/
theorem own_of_new (hall : h.CopiedAll k vs cs) (hcontainer : b.isContainer)
    (hgrows : k.Grows l) (hnew : ¬ k.Exists b) (hexist : l.Exists b) (rank : Slot → Nat)
    (hrank : ∀ slot c, slot.container = b → l.read? slot = some c → cs[rank slot]? = some c)
    (hinj : ∀ s t, s.container = b → t.container = b → (l.read? s).isSome →
      rank s = rank t → s = t) : h.Own l b := by
  refine .of_new hcontainer hall.grows hgrows hnew hexist ?_ ?_
  · intro slot c hslot hread
    exact hall.own c (List.mem_of_getElem? (hrank slot c hslot hread))
  · intro s t c d hs ht hc hd hne w hw
    refine hall.apart_of_ne (hrank s c hs hc) (hrank t d ht hd) (fun hsame => ?_) hw
    exact hne (hinj s t hs ht (Option.isSome_of_eq_some hc) hsame)

theorem copied_newArray {a : ArrayId} (hall : h.CopiedAll k (h.elements a).toList cs) :
    h.Copied (k.newArray cs.toArray).2 (.array a) (k.newArray cs.toArray).1 := by
  have hgrows := grows_newArray k cs.toArray
  have hread (place : Nat) :
      (k.newArray cs.toArray).2.read? (.element k.arrays.size place) = cs[place]? := by
    rw [read?, elements_newArray, List.getElem?_toArray]
  refine ⟨hall.grows.trans hgrows, .array ?_ fun place v c hv hc => ?_, ?_⟩
  · rw [elements_newArray, List.size_toArray, ← hall.mirrors.length_eq, Array.length_toList]
  · rw [hread] at hc
    have hv' : (h.elements a).toList[place]? = some v := by rwa [Array.getElem?_toList]
    have hclosed := (hall.own c (List.mem_of_getElem? hc)).closed
    exact (hall.mirrors_of_getElem? hv' hc).congr (fun w _ => .refl h w) (hgrows.preserves hclosed)
  · refine hall.own_of_new rfl hgrows (Nat.lt_irrefl _) (by simp [newArray, Exists])
      (Slot.rank []) ?_ ?_
    · intro slot c hslot hc
      cases slot <;> cases hslot
      rwa [hread] at hc
    · intro s t hs ht _ hsame
      cases s <;> cases hs
      cases t <;> cases ht
      exact congrArg _ hsame

theorem copied_newMap {a : MapId} (hall : h.CopiedAll k (h.fields a).values cs) :
    h.Copied (k.newMap ((h.fields a).withValues cs)).2 (.map a)
      (k.newMap ((h.fields a).withValues cs)).1 := by
  have hgrows := grows_newMap k ((h.fields a).withValues cs)
  have hlength : (h.fields a).keys.length = cs.length := by
    rw [Dict.length_keys, hall.mirrors.length_eq]
  have hread (key : String) : (k.newMap ((h.fields a).withValues cs)).2.read?
      (.field k.maps.size key) = cs[(h.fields a).keys.idxOf key]? := by
    rw [read?, fields_newMap, Dict.get?_withValues hlength]
  refine ⟨hall.grows.trans hgrows, .map (fun key => ?_) fun key v c hv hc => ?_, ?_⟩
  · rw [fields_newMap, Dict.contains, Dict.contains, Dict.get?_withValues hlength,
      Dict.get?_eq_getElem?, Bool.eq_iff_iff, isSome_getElem?, isSome_getElem?, ← hlength,
      ← Dict.length_keys]
  · rw [hread] at hc
    rw [read?, Dict.get?_eq_getElem?] at hv
    have hclosed := (hall.own c (List.mem_of_getElem? hc)).closed
    exact (hall.mirrors_of_getElem? hv hc).congr (fun w _ => .refl h w) (hgrows.preserves hclosed)
  · refine hall.own_of_new rfl hgrows (Nat.lt_irrefl _) (by simp [newMap, Exists])
      (Slot.rank (h.fields a).keys) ?_ ?_
    · intro slot c hslot hc
      cases slot <;> cases hslot
      rwa [hread] at hc
    · intro s t hs ht hsome hsame
      cases s <;> cases hs
      cases t <;> cases ht
      rename_i key key'
      rw [hread, isSome_getElem?, ← hlength, List.idxOf_lt_length_iff] at hsome
      rw [List.idxOf_inj hsome |>.mp hsame]

end CopiedAll

/-! ### Copying -/

theorem copyTo_leaf (hleaf : v.isContainer = false) (hcode : ∀ id, v ≠ .code id) :
    copyTo n v h = (v, h) := by
  cases v <;> cases n <;> first | rfl | exact (hcode _ rfl).elim | cases hleaf

theorem copyTo_code (id : CodeId) : copyTo n (.code id) h = (.null, h) := by
  cases n <;> rfl

theorem exists_copied_leaf (hleaf : v.isContainer = false) (k : Heap) :
    ∃ r : Value × Heap, k.Copied r.2 v r.1 ∧ ∀ m, n ≤ m → copyTo m v k = r := by
  by_cases hcode : ∃ id, v = .code id
  · obtain ⟨id, rfl⟩ := hcode
    exact ⟨(.null, k), ⟨.refl k, .code id, .of_leaf rfl⟩, fun m _ => copyTo_code id⟩
  · have hcode' : ∀ id, v ≠ .code id := fun id heq => hcode ⟨id, heq⟩
    exact ⟨(v, k), ⟨.refl k, .same hleaf hcode', .of_leaf hleaf⟩,
      fun m _ => copyTo_leaf hleaf hcode'⟩

theorem mapM_cons_apply (f : Value → StateM Heap Value) :
    (v :: vs).mapM f h =
      ((f v h).1 :: (vs.mapM f (f v h).2).1, (vs.mapM f (f v h).2).2) := by
  rw [List.mapM_cons]
  rfl

theorem copyTo_array (id : ArrayId) : copyTo (n + 1) (.array id) h =
    ((h.elements id).toList.mapM (copyTo n) h).2.newArray
      ((h.elements id).toList.mapM (copyTo n) h).1.toArray :=
  rfl

theorem copyTo_map (id : MapId) : copyTo (n + 1) (.map id) h =
    ((h.fields id).values.mapM (copyTo n) h).2.newMap
      ((h.fields id).withValues ((h.fields id).values.mapM (copyTo n) h).1) :=
  rfl

/-- To copy several values one after the other. -/
theorem exists_copiedAll (hclosed : ∀ v ∈ vs, h.Closed v)
    (hcopy : ∀ v ∈ vs, ∀ k, h.Grows k →
      ∃ r : Value × Heap, k.Copied r.2 v r.1 ∧ ∀ m, n ≤ m → copyTo m v k = r)
    (hgrows : h.Grows k) :
    ∃ r : List Value × Heap, k.CopiedAll r.2 vs r.1 ∧ ∀ m, n ≤ m → vs.mapM (copyTo m) k = r := by
  induction vs generalizing k with
  | nil => exact ⟨([], k), .nil k, fun _ _ => rfl⟩
  | cons v vs ih =>
      simp only [List.forall_mem_cons] at hclosed hcopy
      obtain ⟨⟨c, l⟩, hhead, hheadEq⟩ := hcopy.1 k hgrows
      obtain ⟨⟨cs, l'⟩, htail, htailEq⟩ := ih hclosed.2 hcopy.2 (hgrows.trans hhead.grows)
      refine ⟨(c :: cs, l'), .cons (fun w hw x hx => ?_) hhead htail, fun m hm => ?_⟩
      · have hsame := hgrows.preserves (hclosed.2 w hw)
        exact hgrows.exist (hclosed.2 w hw x (hsame.nested hx))
      · rw [mapM_cons_apply, hheadEq m hm, htailEq m hm]

/-- A value that is not too deep is copied, whatever has been added to the heap before. To go
further inward than the value is deep makes the same copy. -/
theorem exists_copied (hfathoms : h.Fathoms n v) (hclosed : h.Closed v) (hgrows : h.Grows k) :
    ∃ r : Value × Heap, k.Copied r.2 v r.1 ∧ ∀ m, n ≤ m → copyTo m v k = r := by
  induction hfathoms generalizing k with
  | leaf hleaf => exact exists_copied_leaf hleaf k
  | @container n v hparts ih =>
      have hsame := hgrows.preserves hclosed
      have hpart (w : Value) (hw : h.Holds v w) (l : Heap) (hl : h.Grows l) :=
        ih w hw (hclosed.of_holds hw) hl
      cases v with
      | array id =>
          have helements : k.elements id = h.elements id := hsame _ .refl
          obtain ⟨⟨cs, l⟩, hall, heq⟩ := exists_copiedAll
            (fun w hw => hclosed.of_holds (holds_array_iff.mpr hw))
            (fun w hw => hpart w (holds_array_iff.mpr hw)) hgrows
          rw [← helements] at hall heq
          refine ⟨l.newArray cs.toArray, hall.copied_newArray, fun m hm => ?_⟩
          obtain ⟨m, rfl⟩ := Nat.exists_eq_add_of_le' (Nat.le_trans (Nat.le_add_left 1 n) hm)
          rw [copyTo_array, heq m (by omega)]
      | map id =>
          have hfields : k.fields id = h.fields id := hsame _ .refl
          obtain ⟨⟨cs, l⟩, hall, heq⟩ := exists_copiedAll
            (fun w hw => hclosed.of_holds (holds_map_iff.mpr hw))
            (fun w hw => hpart w (holds_map_iff.mpr hw)) hgrows
          rw [← hfields] at hall heq
          refine ⟨l.newMap ((k.fields id).withValues cs), hall.copied_newMap, fun m hm => ?_⟩
          obtain ⟨m, rfl⟩ := Nat.exists_eq_add_of_le' (Nat.le_trans (Nat.le_add_left 1 n) hm)
          rw [copyTo_map, heq m (by omega)]
      | _ => exact exists_copied_leaf rfl k

/-- A value without cycles is copied as a whole: the depth to which copies go cuts nothing off. -/
theorem copied_copy (hclosed : h.Closed v) (hacyclic : h.Acyclic v) :
    h.Copied (h.copy v).2 v (h.copy v).1 ∧
      ∀ depth, h.containers ≤ depth → copyTo depth v h = h.copy v := by
  obtain ⟨r, hcopied, heq⟩ :=
    exists_copied (fathoms_containers hclosed hacyclic) hclosed (.refl h)
  have hcopy : h.copy v = r := heq h.containers (Nat.le_refl _)
  rw [hcopy]
  exact ⟨hcopied, heq⟩

end Heap

end ScriptMachine
