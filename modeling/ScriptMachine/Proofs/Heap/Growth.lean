import ScriptMachine.Operator.Apply

/-! What two heaps have in common. A new container leaves those that exist as they are. -/

namespace ScriptMachine

namespace Heap

/-- The containers that a value names exist. -/
def Exists (h : Heap) : Value → Prop
  | .array id => id < h.arrays.size
  | .map id => id < h.maps.size
  | _ => True

/-- A container has the same contents in `k` as in `h`. -/
def SameAt (h k : Heap) : Value → Prop
  | .array id => k.elements id = h.elements id
  | .map id => k.fields id = h.fields id
  | _ => True

theorem SameAt.refl (h : Heap) (w : Value) : h.SameAt h w := by
  cases w with
  | array | map => rfl
  | _ => trivial

theorem SameAt.trans {h k l : Heap} {w : Value} (hk : h.SameAt k w) (hl : k.SameAt l w) :
    h.SameAt l w := by
  cases w with
  | array | map => exact Eq.trans hl hk
  | _ => trivial

/-- The containers of `h` are those of `k`, which may have more. -/
structure Grows (h k : Heap) : Prop where
  arrays_le : h.arrays.size ≤ k.arrays.size
  maps_le : h.maps.size ≤ k.maps.size
  elements : ∀ id < h.arrays.size, k.elements id = h.elements id
  fields : ∀ id < h.maps.size, k.fields id = h.fields id

namespace Grows

variable {h k l : Heap} {w : Value}

theorem refl (h : Heap) : h.Grows h :=
  ⟨Nat.le_refl _, Nat.le_refl _, fun _ _ => rfl, fun _ _ => rfl⟩

theorem sameAt (hk : h.Grows k) (hexist : h.Exists w) : h.SameAt k w := by
  cases w with
  | array id => exact hk.elements id hexist
  | map id => exact hk.fields id hexist
  | _ => trivial

theorem exist (hk : h.Grows k) (hexist : h.Exists w) : k.Exists w := by
  cases w with
  | array => exact Nat.lt_of_lt_of_le hexist hk.arrays_le
  | map => exact Nat.lt_of_lt_of_le hexist hk.maps_le
  | _ => trivial

theorem trans (hk : h.Grows k) (hl : k.Grows l) : h.Grows l where
  arrays_le := Nat.le_trans hk.arrays_le hl.arrays_le
  maps_le := Nat.le_trans hk.maps_le hl.maps_le
  elements id hid :=
    (hl.elements id (Nat.lt_of_lt_of_le hid hk.arrays_le)).trans (hk.elements id hid)
  fields id hid := (hl.fields id (Nat.lt_of_lt_of_le hid hk.maps_le)).trans (hk.fields id hid)

theorem containers_le (hk : h.Grows k) : h.containers ≤ k.containers :=
  Nat.add_le_add hk.arrays_le hk.maps_le

end Grows

/-! ### New containers -/

theorem elements_newArray_eq (h : Heap) (xs : Array Value) (id : ArrayId) :
    (h.newArray xs).2.elements id = if id = h.arrays.size then xs else h.elements id := by
  simp only [newArray, elements, Array.getD_eq_getD_getElem?, Array.getElem?_push]
  split <;> rfl

theorem fields_newMap_eq (h : Heap) (d : Dict Value) (id : MapId) :
    (h.newMap d).2.fields id = if id = h.maps.size then d else h.fields id := by
  simp only [newMap, fields, Array.getD_eq_getD_getElem?, Array.getElem?_push]
  split <;> rfl

@[simp]
theorem elements_newArray (h : Heap) (xs : Array Value) :
    (h.newArray xs).2.elements h.arrays.size = xs := by
  rw [elements_newArray_eq, if_pos rfl]

@[simp]
theorem fields_newMap (h : Heap) (d : Dict Value) : (h.newMap d).2.fields h.maps.size = d := by
  rw [fields_newMap_eq, if_pos rfl]

theorem grows_newArray (h : Heap) (xs : Array Value) : h.Grows (h.newArray xs).2 where
  arrays_le := by simp [newArray]
  maps_le := Nat.le_refl _
  elements id hid := by rw [elements_newArray_eq, if_neg (Nat.ne_of_lt hid)]
  fields _ _ := rfl

theorem grows_newMap (h : Heap) (d : Dict Value) : h.Grows (h.newMap d).2 where
  arrays_le := Nat.le_refl _
  maps_le := by simp [newMap]
  elements _ _ := rfl
  fields id hid := by rw [fields_newMap_eq, if_neg (Nat.ne_of_lt hid)]

theorem grows_keep (h : Heap) : (c : Computed) → h.Grows (h.keep c).2
  | .value _ => .refl h
  | .array xs => grows_newArray h xs

end Heap

end ScriptMachine
