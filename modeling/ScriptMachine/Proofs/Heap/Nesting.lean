import Mathlib.Data.List.Perm.Subperm
import Mathlib.Logic.Relation
import ScriptMachine.Heap.Inspect
import ScriptMachine.Proofs.Heap.Access

/-! Values inside containers. A value whose containers hold no container that they lie in is of
bounded depth, and everything that is made of it by going inward depends on the containers nested in
it only. -/

namespace ScriptMachine

def Value.isContainer : Value → Bool
  | .array _ | .map _ => true
  | _ => false

namespace Heap

variable {h k l : Heap} {v w x : Value} {slot : Slot} {path : List Slot} {n m : Nat}

/-! ### Nested values -/

/-- The value `w` lies in a slot of `v`. -/
def Holds (h : Heap) (v w : Value) : Prop :=
  ∃ slot : Slot, slot.container = v ∧ h.read? slot = some w

/-- The value `w` is `v` itself or lies in it, at any depth. -/
def Nested (h : Heap) : Value → Value → Prop :=
  Relation.ReflTransGen h.Holds

/-- A way from a value inward: slots, each of the container that lies in the one before. -/
inductive Leads (h : Heap) : Value → List Slot → Value → Prop where
  | here (v : Value) : h.Leads v [] v
  | inward {v w x : Value} {slot : Slot} {path : List Slot} : slot.container = v →
      h.read? slot = some w → h.Leads w path x → h.Leads v (slot :: path) x

/-- All containers nested in a value exist. -/
def Closed (h : Heap) (v : Value) : Prop :=
  ∀ w, h.Nested v w → h.Exists w

theorem Slot.isContainer_container (slot : Slot) : slot.container.isContainer := by
  cases slot <;> rfl

theorem Holds.isContainer (hw : h.Holds v w) : v.isContainer := by
  obtain ⟨slot, rfl, -⟩ := hw
  exact slot.isContainer_container

theorem holds_array_iff {id : ArrayId} : h.Holds (.array id) w ↔ w ∈ (h.elements id).toList := by
  rw [List.mem_iff_getElem?]
  constructor
  · rintro ⟨slot, hslot, hw⟩
    cases slot with
    | element other place =>
        cases hslot
        exact ⟨place, by simpa [read?] using hw⟩
    | field => cases hslot
  · rintro ⟨place, hw⟩
    exact ⟨.element id place, rfl, by simpa [read?] using hw⟩

theorem holds_map_iff {id : MapId} : h.Holds (.map id) w ↔ w ∈ (h.fields id).values := by
  have hentry : w ∈ (h.fields id).values ↔ ∃ key, (h.fields id).get? key = some w := by
    simp only [Dict.values, List.mem_map, Prod.exists, exists_eq_right, Dict.mem_entries_iff]
  rw [hentry]
  constructor
  · rintro ⟨slot, hslot, hw⟩
    cases slot with
    | element => cases hslot
    | field other key =>
        cases hslot
        exact ⟨key, hw⟩
  · rintro ⟨key, hw⟩
    exact ⟨.field id key, rfl, hw⟩

theorem Closed.of_holds (hclosed : h.Closed v) (hw : h.Holds v w) : h.Closed w :=
  fun _ hx => hclosed _ (.head hw hx)

theorem Leads.nested (hpath : h.Leads v path x) : h.Nested v x := by
  induction hpath with
  | here => exact .refl
  | inward hslot hread _ ih => exact .head ⟨_, hslot, hread⟩ ih

/-- Something lies in a value that is no container only if it is that value. -/
theorem Nested.eq_of_leaf (hv : v.isContainer = false) (hw : h.Nested v w) : w = v := by
  cases hw.cases_head with
  | inl hsame => exact hsame.symm
  | inr hinward =>
      obtain ⟨_, hholds, -⟩ := hinward
      rw [hholds.isContainer] at hv
      cases hv

/-! ### Depth -/

/-- No chain of containers nested in the value is longer than `n`. -/
inductive Fathoms (h : Heap) : Nat → Value → Prop where
  | leaf {n : Nat} {v : Value} : v.isContainer = false → h.Fathoms n v
  | container {n : Nat} {v : Value} : (∀ w, h.Holds v w → h.Fathoms n w) → h.Fathoms (n + 1) v

/-- Containers that are pairwise different and exist are not more than there are. -/
theorem length_le_containers {chain : List Value} (hnodup : chain.Nodup)
    (hexist : ∀ c ∈ chain, c.isContainer ∧ h.Exists c) : chain.length ≤ h.containers := by
  have hsubset : chain ⊆
      (List.range h.arrays.size).map .array ++ (List.range h.maps.size).map .map := by
    intro c hc
    obtain ⟨hcontainer, hc⟩ := hexist c hc
    cases c with
    | array id => exact List.mem_append_left _ (List.mem_map_of_mem (List.mem_range.mpr hc))
    | map id => exact List.mem_append_right _ (List.mem_map_of_mem (List.mem_range.mpr hc))
    | _ => cases hcontainer
  simpa [containers] using (hnodup.subperm hsubset).length_le

/-- No container nested in the value lies in itself. -/
def Acyclic (h : Heap) (v : Value) : Prop :=
  ∀ w, h.Nested v w → ¬ Relation.TransGen h.Holds w w

/-- The containers on the way to a value are different ones, so the fewer are left beside them, the
less deep is the value. -/
theorem fathoms_of_chain {chain : List Value} (hclosed : h.Closed v) (hacyclic : h.Acyclic v)
    (hnodup : chain.Nodup)
    (hchain : ∀ c ∈ chain, c.isContainer ∧ h.Exists c ∧ Relation.TransGen h.Holds c v)
    (hlength : chain.length + n = h.containers) : h.Fathoms n v := by
  have hnew : v ∉ chain := fun hmem => hacyclic v .refl (hchain v hmem).2.2
  have hnodup' : (v :: chain).Nodup := List.nodup_cons.mpr ⟨hnew, hnodup⟩
  induction n generalizing chain v with
  | zero =>
      refine .leaf (Bool.eq_false_iff.mpr fun hv => ?_)
      have hle := length_le_containers (h := h) hnodup' (by
        simp only [List.forall_mem_cons]
        exact ⟨⟨hv, hclosed v .refl⟩, fun c hc => ⟨(hchain c hc).1, (hchain c hc).2.1⟩⟩)
      rw [List.length_cons] at hle
      omega
  | succ n ih =>
      refine .container fun w hw => ?_
      have hchain' : ∀ c ∈ v :: chain,
          c.isContainer ∧ h.Exists c ∧ Relation.TransGen h.Holds c w := by
        simp only [List.forall_mem_cons]
        exact ⟨⟨hw.isContainer, hclosed v .refl, .single hw⟩,
          fun c hc => ⟨(hchain c hc).1, (hchain c hc).2.1, (hchain c hc).2.2.tail hw⟩⟩
      have hacyclic' : h.Acyclic w := fun x hx => hacyclic x (.head hw hx)
      have hnew' : w ∉ v :: chain := fun hmem => hacyclic' w .refl (hchain' w hmem).2.2
      exact ih (hclosed.of_holds hw) hacyclic' hnodup' hchain'
        (by rw [List.length_cons]; omega) hnew' (List.nodup_cons.mpr ⟨hnew', hnodup'⟩)

/-- A value without cycles is no deeper than there are containers. -/
theorem fathoms_containers (hclosed : h.Closed v) (hacyclic : h.Acyclic v) :
    h.Fathoms h.containers v :=
  fathoms_of_chain hclosed hacyclic .nil (by simp) (Nat.zero_add _)

/-! ### Heaps that agree on a value -/

theorem SameAt.symm (hsame : h.SameAt k w) : k.SameAt h w := by
  cases w with
  | array | map => exact Eq.symm hsame
  | _ => trivial

/-- Everything nested in a value has the same contents in `k` as in `h`. -/
def Preserves (h k : Heap) (v : Value) : Prop :=
  ∀ w, h.Nested v w → h.SameAt k w

theorem Grows.preserves (hgrows : h.Grows k) (hclosed : h.Closed v) : h.Preserves k v :=
  fun w hw => hgrows.sameAt (hclosed w hw)

namespace Preserves

theorem of_holds (hsame : h.Preserves k v) (hw : h.Holds v w) : h.Preserves k w :=
  fun _ hx => hsame _ (.head hw hx)

theorem read? (hsame : h.Preserves k v) (hslot : slot.container = v) :
    k.read? slot = h.read? slot := by
  subst hslot
  exact (hsame _ .refl).read?

theorem holds_iff (hsame : h.Preserves k v) : k.Holds v w ↔ h.Holds v w := by
  constructor
  · rintro ⟨slot, hslot, hread⟩
    exact ⟨slot, hslot, hsame.read? hslot ▸ hread⟩
  · rintro ⟨slot, hslot, hread⟩
    exact ⟨slot, hslot, (hsame.read? hslot).symm ▸ hread⟩

theorem leads (hsame : h.Preserves k v) (hpath : k.Leads v path x) : h.Leads v path x := by
  induction hpath with
  | here => exact .here _
  | inward hslot hread _ ih =>
      rw [hsame.read? hslot] at hread
      exact .inward hslot hread (ih (hsame.of_holds ⟨_, hslot, hread⟩))

theorem nested (hsame : h.Preserves k v) (hw : k.Nested v w) : h.Nested v w := by
  induction hw using Relation.ReflTransGen.head_induction_on with
  | refl => exact .refl
  | head hholds _ ih =>
      have hholds' := hsame.holds_iff.mp hholds
      exact .head hholds' (ih (hsame.of_holds hholds'))

theorem symm (hsame : h.Preserves k v) : k.Preserves h v :=
  fun w hw => (hsame w (hsame.nested hw)).symm

theorem trans (hk : h.Preserves k v) (hl : k.Preserves l v) : h.Preserves l v :=
  fun w hw => (hk w hw).trans (hl w (hk.symm.nested hw))

end Preserves

/-! ### Rendering -/

theorem inspectTo_leaf (label : CodeId → String) (hv : v.isContainer = false) :
    h.inspectTo label n v = v.leafText label := by
  cases v <;> cases n <;> first | rfl | cases hv

/-- The text of a value depends on what is nested in it, and not on how far one may go inward, if it
is far enough. -/
theorem inspectTo_congr (label : CodeId → String) (hfathoms : h.Fathoms n v)
    (hsame : h.Preserves k v) (hle : n ≤ m) :
    k.inspectTo label m v = h.inspectTo label n v := by
  induction hfathoms generalizing m with
  | leaf hv => rw [inspectTo_leaf label hv, inspectTo_leaf label hv]
  | @container n v _ ih =>
      obtain ⟨m, rfl⟩ := Nat.exists_eq_add_of_le' (Nat.le_trans (Nat.le_add_left 1 n) hle)
      have hpart (w : Value) (hw : h.Holds v w) :
          k.inspectTo label m w = h.inspectTo label n w :=
        ih w hw (hsame.of_holds hw) (by omega)
      cases v with
      | array id =>
          have helements : k.elements id = h.elements id := hsame _ .refl
          have htexts := List.map_congr_left fun w hw => hpart w (holds_array_iff.mpr hw)
          rw [inspectTo, inspectTo, helements, htexts]
      | map id =>
          have hfields : k.fields id = h.fields id := hsame _ .refl
          have htexts : (h.fields id).entries.map
                (fun e => e.1 ++ ": " ++ k.inspectTo label m e.2) =
              (h.fields id).entries.map fun e => e.1 ++ ": " ++ h.inspectTo label n e.2 := by
            refine List.map_congr_left fun e he => ?_
            rw [hpart e.2 (holds_map_iff.mpr (List.mem_map_of_mem he))]
          rw [inspectTo, inspectTo, hfields, htexts]
      | _ => rfl

/-- A text stays the same while nothing that is nested in the value changes. -/
theorem inspect_congr (label : CodeId → String) (hfathoms : h.Fathoms n v)
    (hbound : n ≤ h.containers) (hle : h.containers ≤ k.containers) (hsame : h.Preserves k v) :
    k.inspect label v = h.inspect label v := by
  have hself : h.Preserves h v := fun w _ => .refl h w
  rw [inspect, inspect, inspectTo_congr label hfathoms hsame (Nat.le_trans hbound hle),
    inspectTo_congr label hfathoms hself hbound]

end Heap

end ScriptMachine
