import ScriptMachine.Json.Basic

/-! Objects as records. What an object gives to a field does not depend on the order of its members,
nor on members that are no fields. -/

namespace ScriptMachine

namespace Json

/-! ### Members by name -/

/-- What an object gives to a name, in the order of its members. -/
def values (name : String) : Json → List Json
  | .object members =>
    members.filterMap fun m => if decode? m.1 = some name.toList then some m.2 else none
  | _ => []

/-- An object with names that can be read. -/
def Readable (j : Json) : Prop :=
  ∃ members, j = .object members ∧ ∀ m ∈ members, (decode? m.1).isSome

theorem readable_object {members : List (List Char × Json)}
    (h : members.all fun m => (decode? m.1).isSome) : (Json.object members).Readable :=
  ⟨members, rfl, List.all_eq_true.mp h⟩

/-- Members by the names that their spellings stand for. -/
def named (members : List (List Char × Json)) : Option (List (String × Json)) :=
  members.mapM fun m => do return (String.ofList (← decode? m.1), m.2)

theorem named_cons (key : List Char) (v : Json) (members : List (List Char × Json)) :
    named ((key, v) :: members) =
      (decode? key).bind fun cs => (named members).map ((String.ofList cs, v) :: ·) := by
  rw [named, List.mapM_cons, ← named]
  cases decode? key with
  | none => rfl
  | some cs => cases named members <;> rfl

theorem exists_named {members : List (List Char × Json)}
    (h : ∀ m ∈ members, (decode? m.1).isSome) :
    ∃ record, named members = some record := by
  induction members with
  | nil => exact ⟨[], rfl⟩
  | cons m members ih =>
      obtain ⟨cs, hcs⟩ := Option.isSome_iff_exists.mp (h m List.mem_cons_self)
      obtain ⟨record, hrecord⟩ := ih fun n hn => h n (List.mem_cons_of_mem m hn)
      exact ⟨(String.ofList cs, m.2) :: record, by rw [named_cons, hcs, hrecord]; rfl⟩

/-- What a record gives to a name. -/
def given (name : String) (record : List (String × Json)) : List Json :=
  record.filterMap fun r => if r.1 = name then some r.2 else none

theorem values_of_named {members : List (List Char × Json)} {record : List (String × Json)}
    (h : named members = some record) (name : String) :
    (Json.object members).values name = given name record := by
  induction members generalizing record with
  | nil =>
      cases h
      rfl
  | cons m members ih =>
      rw [named_cons] at h
      obtain ⟨cs, hcs, hrest⟩ := Option.bind_eq_some_iff.mp h
      obtain ⟨more, hmore, rfl⟩ := Option.map_eq_some_iff.mp hrest
      have hname : decode? m.1 = some name.toList ↔ String.ofList cs = name := by
        rw [hcs, Option.some.injEq]
        constructor
        · rintro rfl
          exact String.ofList_toList
        · rintro rfl
          exact String.toList_ofList.symm
      have hrest := ih hmore
      simp only [values, given] at hrest ⊢
      simp only [List.filterMap_cons, hname, hrest]

/-! ### Records -/

section

variable {names : List String} {name : String} {j v : Json} {record : List (String × Json)}

/-- The members of a record that have one of the names. -/
def known (names : List String) (record : List (String × Json)) : List (String × Json) :=
  record.filter fun r => names.contains r.1

theorem count_known (hname : name ∈ names) (record : List (String × Json)) :
    ((known names record).map (·.1)).count name = (given name record).length := by
  induction record with
  | nil => rfl
  | cons r record ih =>
      simp only [known, given, List.contains_eq_mem] at ih ⊢
      by_cases hr : r.1 = name
      · simp [hr, hname, ih]
      · by_cases hknown : r.1 ∈ names <;> simp [hr, hknown, ih]

theorem lookup_known (hname : name ∈ names) (record : List (String × Json)) :
    (known names record).lookup name = (given name record).head? := by
  induction record with
  | nil => rfl
  | cons r record ih =>
      obtain ⟨key, v⟩ := r
      simp only [known, given, List.contains_eq_mem] at ih ⊢
      by_cases hr : key = name
      · simp [hr, hname]
      · have hother : (name == key) = false := beq_eq_false_iff_ne.mpr (Ne.symm hr)
        by_cases hknown : key ∈ names <;> simp [hr, hknown, ih, List.lookup_cons, hother]

theorem record?_object {members : List (List Char × Json)} (hnamed : named members = some record) :
    (Json.object members).record? names =
      if ((known names record).map (·.1)).Nodup then some (known names record) else none := by
  change (named members).bind _ = _
  rw [hnamed]
  rfl

/-- No known name is given twice. -/
theorem nodup_known : ((known names record).map (·.1)).Nodup ↔
    ∀ name ∈ names, (given name record).length ≤ 1 := by
  rw [List.nodup_iff_count]
  constructor
  · intro h name hname
    rw [← count_known hname]
    exact h name
  · intro h name
    by_cases hname : name ∈ names
    · rw [count_known hname]
      exact h name hname
    · have hzero : ((known names record).map (·.1)).count name = 0 := by
        refine List.count_eq_zero.mpr fun hmem => hname ?_
        obtain ⟨r, hr, rfl⟩ := List.mem_map.mp hmem
        simpa using (List.mem_filter.mp hr).2
      rw [hzero]
      exact Nat.zero_le 1

/-- An object that gives no known name twice is a record of what it gives. -/
theorem exists_record? (names : List String) (hreadable : j.Readable)
    (honce : ∀ name ∈ names, (j.values name).length ≤ 1) :
    ∃ record, j.record? names = some record ∧
      ∀ name ∈ names, record.lookup name = (j.values name).head? := by
  obtain ⟨members, rfl, hmembers⟩ := hreadable
  obtain ⟨record, hnamed⟩ := exists_named hmembers
  simp only [values_of_named hnamed] at honce ⊢
  exact ⟨_, (record?_object hnamed).trans (if_pos (nodup_known.mpr honce)),
    fun name hname => lookup_known hname record⟩

/-- A record of an object has what the object gives, once. -/
theorem lookup_of_record? (h : j.record? names = some record) (hname : name ∈ names)
    (hv : v ∈ j.values name) : (j.values name).length ≤ 1 ∧ record.lookup name = some v := by
  cases j with
  | object members =>
      cases hnamed : named members with
      | none =>
          change (named members).bind _ = _ at h
          rw [hnamed] at h
          cases h
      | some all =>
          rw [record?_object hnamed] at h
          split at h <;> cases h
          rename_i hnodup
          have honce := nodup_known.mp hnodup name hname
          rw [values_of_named hnamed] at hv ⊢
          rw [lookup_known hname]
          obtain ⟨w, hw⟩ := List.length_eq_one_iff.mp
            (Nat.le_antisymm honce (List.length_pos_of_mem hv))
          simp only [hw, List.mem_singleton] at hv ⊢
          simp [hv]
  | _ => cases hv

/-- An object that gives a field twice is no record. -/
theorem record?_eq_none (hname : name ∈ names) (htwice : 2 ≤ (j.values name).length) :
    j.record? names = none := by
  cases hrecord : j.record? names with
  | none => rfl
  | some record =>
      obtain ⟨v, hv⟩ := List.exists_mem_of_length_pos (Nat.lt_of_lt_of_le Nat.zero_lt_two htwice)
      exact absurd (lookup_of_record? hrecord hname hv).1 (Nat.not_le.mpr htwice)

/-! ### Fields -/

/-- An object gives a field once, with a value that means what it should, or it leaves out a field
that has its default value. -/
def Gives (j : Json) (name : String) (Means : Json → Prop) (Default : Prop) : Prop :=
  (∃ v, j.values name = [v] ∧ Means v) ∨ j.values name = [] ∧ Default

variable {α : Type} {Means : Json → Prop} {Default : Prop} {default x : α} {read : Json → Option α}

theorem Gives.length_le (h : j.Gives name Means Default) : (j.values name).length ≤ 1 := by
  rcases h with ⟨v, hv, -⟩ | ⟨hnone, -⟩
  · simp [hv]
  · simp [hnone]

/-- A field has the value that is given for it. -/
theorem Gives.field_eq (h : j.Gives name Means Default)
    (hlookup : record.lookup name = (j.values name).head?) (hdefault : Default → x = default)
    (hread : ∀ v, Means v → read v = some x) : field record name default read = some x := by
  rcases h with ⟨v, hv, hmeans⟩ | ⟨hnone, hd⟩
  · rw [field, hlookup, hv]
    exact hread v hmeans
  · rw [field, hlookup, hnone, hdefault hd]
    rfl

end

end Json

end ScriptMachine
