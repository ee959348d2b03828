import Std.Data.ExtTreeMap.Lemmas

/-! Finite maps from text to data, listed in the order of their keys. Text is ordered by code
points. -/

namespace ScriptMachine

universe u

structure Dict (α : Type u) where
  tree : Std.ExtTreeMap String α

namespace Dict

variable {α : Type u}

def empty : Dict α :=
  ⟨∅⟩

instance : Inhabited (Dict α) :=
  ⟨empty⟩

def get? (d : Dict α) (key : String) : Option α :=
  d.tree[key]?

def contains (d : Dict α) (key : String) : Bool :=
  (d.get? key).isSome

/-- The entries in strictly increasing order of their keys. -/
def entries (d : Dict α) : List (String × α) :=
  d.tree.toList

def keys (d : Dict α) : List String :=
  d.entries.map (·.1)

def values (d : Dict α) : List α :=
  d.entries.map (·.2)

def size (d : Dict α) : Nat :=
  d.tree.size

/-- Puts an entry in; an entry with the same key gives way. -/
def insert (d : Dict α) (key : String) (value : α) : Dict α :=
  ⟨d.tree.insert key value⟩

def erase (d : Dict α) (key : String) : Dict α :=
  ⟨d.tree.erase key⟩

/-- Later entries for a key replace earlier ones. -/
def ofList (l : List (String × α)) : Dict α :=
  l.foldl (fun d e => d.insert e.1 e.2) empty

/-- Gives the keys new values in their order; keys for which no value is left are dropped. -/
def withValues (d : Dict α) (values : List α) : Dict α :=
  ofList (d.keys.zip values)

/-! ### Look-up -/

@[simp]
theorem get?_empty (k : String) : (empty : Dict α).get? k = none := by
  simp [get?, empty]

/-- An insertion changes the entry of its key and no other. -/
theorem get?_insert (d : Dict α) (key : String) (value : α) (k : String) :
    (d.insert key value).get? k = if k = key then some value else d.get? k := by
  simp only [get?, insert, Std.ExtTreeMap.getElem?_insert, Std.compare_eq_iff_eq]
  by_cases h : k = key
  · simp [h]
  · simp [h, Ne.symm h]

theorem get?_erase (d : Dict α) (key k : String) :
    (d.erase key).get? k = if k = key then none else d.get? k := by
  simp only [get?, erase, Std.ExtTreeMap.getElem?_erase, Std.compare_eq_iff_eq]
  by_cases h : k = key
  · simp [h]
  · simp [h, Ne.symm h]

/-- Of several entries for a key the last one counts. -/
theorem get?_ofList (l : List (String × α)) (k : String) :
    (ofList l).get? k = (l.reverse.find? (·.1 == k)).map (·.2) := by
  have hfold (d : Dict α) : (l.foldl (fun d e => d.insert e.1 e.2) d).get? k =
      ((l.reverse.find? (·.1 == k)).map (·.2)).or (d.get? k) := by
    induction l generalizing d with
    | nil => simp
    | cons e rest ih =>
        rw [List.foldl_cons, ih, get?_insert, List.reverse_cons, List.find?_append]
        cases rest.reverse.find? (·.1 == k) with
        | some found => simp
        | none =>
            by_cases h : k = e.1
            · simp [h]
            · simp [h, Ne.symm h]
  rw [ofList, hfold, get?_empty, Option.or_none]

/-! ### Entries -/

theorem mem_entries_iff {d : Dict α} {k : String} {v : α} :
    (k, v) ∈ d.entries ↔ d.get? k = some v :=
  Std.ExtTreeMap.mem_toList_iff_getElem?_eq_some

theorem sorted_entries (d : Dict α) : d.entries.Pairwise fun a b => a.1 < b.1 :=
  (Std.ExtTreeMap.ordered_keys_toList (t := d.tree)).imp fun h =>
    compareOfLessAndEq_eq_lt.mp h

/-- Maps are equal when they answer every look-up alike. -/
@[ext]
theorem ext {d e : Dict α} (h : ∀ k, d.get? k = e.get? k) : d = e := by
  obtain ⟨t⟩ := d
  obtain ⟨u⟩ := e
  exact congrArg mk (Std.ExtTreeMap.ext_getElem? fun {k} => h k)

end Dict

end ScriptMachine
