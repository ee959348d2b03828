/-! Stacks that know their height. -/

namespace ScriptMachine

universe u

/-- A stack, the topmost item first. The height is kept beside the items, so that it need not be
counted. -/
structure Stack (α : Type u) where
  toList : List α
  height : Nat
  height_eq : height = toList.length

namespace Stack

variable {α : Type u}

def empty : Stack α :=
  ⟨[], 0, rfl⟩

instance : Inhabited (Stack α) :=
  ⟨empty⟩

@[ext]
theorem ext {s t : Stack α} (h : s.toList = t.toList) : s = t := by
  obtain ⟨l, m, rfl⟩ := s
  obtain ⟨k, n, rfl⟩ := t
  cases h
  rfl

def push (s : Stack α) (x : α) : Stack α :=
  ⟨x :: s.toList, s.height + 1, by simp [s.height_eq]⟩

/-- The topmost item and the stack below it. -/
def pop? : Stack α → Option (α × Stack α)
  | ⟨[], _, _⟩ => none
  | ⟨x :: rest, height, h⟩ => some (x, ⟨rest, height - 1, by simp [h]⟩)

def top? (s : Stack α) : Option α :=
  s.toList.head?

/-- The stack without its `n` topmost items. -/
def drop (s : Stack α) (n : Nat) : Stack α :=
  ⟨s.toList.drop n, s.height - n, by simp [s.height_eq]⟩

/-- The `n` lowest items. -/
def lowest (s : Stack α) (n : Nat) : Stack α :=
  s.drop (s.height - n)

/-- Takes items off while they satisfy `p`. -/
def popWhile (s : Stack α) (p : α → Bool) : Stack α :=
  go s.toList s.height s.height_eq
where
  go : (l : List α) → (height : Nat) → height = l.length → Stack α
    | [], height, h => ⟨[], height, h⟩
    | x :: rest, height, h =>
      if p x then go rest (height - 1) (by simp [h]) else ⟨x :: rest, height, h⟩

/-- Puts items on top; the first of them comes to lie topmost. -/
def pushAll (s : Stack α) (xs : List α) : Stack α :=
  xs.foldr (fun x s => s.push x) s

/-! ### Items -/

@[simp]
theorem toList_empty : (empty : Stack α).toList = [] :=
  rfl

@[simp]
theorem toList_push (s : Stack α) (x : α) : (s.push x).toList = x :: s.toList :=
  rfl

@[simp]
theorem toList_drop (s : Stack α) (n : Nat) : (s.drop n).toList = s.toList.drop n :=
  rfl

@[simp]
theorem toList_popWhile (s : Stack α) (p : α → Bool) :
    (s.popWhile p).toList = s.toList.dropWhile p := by
  suffices h : ∀ (l : List α) (n : Nat) (e : n = l.length),
      (popWhile.go p l n e).toList = l.dropWhile p from h _ _ _
  intro l
  induction l with
  | nil => intros; rfl
  | cons x rest ih =>
      intro n e
      by_cases h : p x <;> simp [popWhile.go, List.dropWhile, h, ih]

@[simp]
theorem toList_pushAll (s : Stack α) (xs : List α) : (s.pushAll xs).toList = xs ++ s.toList := by
  induction xs with
  | nil => rfl
  | cons x xs ih => simpa [pushAll] using ih

@[simp]
theorem drop_zero (s : Stack α) : s.drop 0 = s :=
  rfl

@[simp]
theorem drop_push (s : Stack α) (x : α) : (s.push x).drop 1 = s :=
  rfl

theorem drop_drop (s : Stack α) (n k : Nat) : (s.drop n).drop k = s.drop (n + k) :=
  ext (by simp)

theorem eq_empty_or_push (s : Stack α) : s = empty ∨ ∃ x rest, s = push rest x := by
  obtain ⟨l, n, rfl⟩ := s
  cases l with
  | nil => exact .inl rfl
  | cons x rest => exact .inr ⟨x, ⟨rest, rest.length, rfl⟩, rfl⟩

@[simp]
theorem push_inj {s t : Stack α} {x y : α} : s.push x = t.push y ↔ s = t ∧ x = y := by
  constructor
  · intro h
    have hl := congrArg toList h
    simp only [toList_push, List.cons.injEq] at hl
    exact ⟨ext hl.2, hl.1⟩
  · rintro ⟨rfl, rfl⟩
    rfl

@[simp]
theorem empty_ne_push (s : Stack α) (x : α) : empty ≠ s.push x := by
  intro h
  simpa using congrArg toList h

@[simp]
theorem top?_empty : (empty : Stack α).top? = none :=
  rfl

@[simp]
theorem top?_push (s : Stack α) (x : α) : (s.push x).top? = some x :=
  rfl

@[simp]
theorem pop?_empty : (empty : Stack α).pop? = none :=
  rfl

@[simp]
theorem pop?_push (s : Stack α) (x : α) : (s.push x).pop? = some (x, s) :=
  rfl

theorem pop?_eq_none_iff {s : Stack α} : s.pop? = none ↔ s.toList = [] := by
  obtain ⟨l, n, h⟩ := s
  cases l <;> simp [pop?]

theorem pop?_eq_some_iff {s t : Stack α} {x : α} : s.pop? = some (x, t) ↔ s = t.push x := by
  obtain ⟨l, n, rfl⟩ := s
  cases l with
  | nil => simp [pop?, push]
  | cons y rest =>
      constructor
      · intro h
        obtain ⟨rfl, rfl⟩ := Prod.mk.inj (Option.some.inj h)
        rfl
      · intro h
        rw [h]
        exact pop?_push t x

@[simp]
theorem pushAll_nil (s : Stack α) : s.pushAll [] = s :=
  rfl

theorem pushAll_cons (s : Stack α) (x : α) (xs : List α) :
    s.pushAll (x :: xs) = (s.pushAll xs).push x :=
  rfl

theorem pushAll_append (s : Stack α) (xs ys : List α) :
    s.pushAll (xs ++ ys) = (s.pushAll ys).pushAll xs :=
  ext (by simp)

/-- Of two ways to build a stack, one passes through the start of the other. -/
theorem pushAll_eq_pushAll_push {s t : Stack α} {x : α} {xs ys : List α}
    (h : s.pushAll xs = (t.push x).pushAll ys) :
    (∃ zs, t = s.pushAll zs ∧ xs = ys ++ x :: zs) ∨
      ∃ zs, s = (t.push x).pushAll zs ∧ ys = xs ++ zs := by
  have hl := congrArg toList h
  rw [toList_pushAll, toList_pushAll, toList_push] at hl
  rcases List.append_eq_append_iff.mp hl with ⟨zs, rfl, hs⟩ | ⟨zs, rfl, ht⟩
  · exact .inr ⟨zs, ext (by simpa using hs), rfl⟩
  · cases zs with
    | nil => exact .inr ⟨[], ext (by simpa using ht.symm), by simp⟩
    | cons y zs =>
        obtain ⟨rfl, ht⟩ := List.cons.inj ht
        exact .inl ⟨zs, ext (by simpa using ht), rfl⟩

theorem push_pushAll_inj {s t : Stack α} {x y : α} {xs ys : List α}
    (h : (s.push x).pushAll xs = (t.push y).pushAll ys) (hheight : s.height = t.height) :
    s = t ∧ x = y ∧ xs = ys := by
  have hl := congrArg toList h
  rw [height_eq, height_eq] at hheight
  rw [toList_pushAll, toList_pushAll, toList_push, toList_push] at hl
  obtain ⟨rfl, hrest⟩ := List.append_inj' hl (by simp [hheight])
  obtain ⟨rfl, htail⟩ := List.cons.inj hrest
  exact ⟨ext htail, rfl, rfl⟩

theorem popWhile_pushAll {s : Stack α} {p : α → Bool} {xs : List α} (h : ∀ x ∈ xs, p x) :
    (s.pushAll xs).popWhile p = s.popWhile p :=
  ext (by simp [List.dropWhile_append_of_pos h])

theorem popWhile_push {s : Stack α} {p : α → Bool} {x : α} (h : ¬ p x) :
    (s.push x).popWhile p = s.push x :=
  ext (by simp [h])

theorem exists_eq_pushAll_popWhile (s : Stack α) (p : α → Bool) :
    ∃ xs, s = (s.popWhile p).pushAll xs ∧ ∀ x ∈ xs, p x := by
  refine ⟨s.toList.takeWhile p, ext ?_, fun x hx => ?_⟩
  · rw [toList_pushAll, toList_popWhile, List.takeWhile_append_dropWhile]
  · exact List.all_eq_true.mp List.all_takeWhile x hx

theorem not_of_popWhile_eq_push {s t : Stack α} {p : α → Bool} {x : α}
    (h : s.popWhile p = t.push x) : ¬ p x := by
  have hstop := List.head?_dropWhile_not p s.toList
  rw [← toList_popWhile, h] at hstop
  simpa using hstop

theorem suffix_of_eq_push {s t : Stack α} {x : α} (h : s = t.push x) : t.toList <:+ s.toList := by
  rw [h, toList_push]
  exact List.suffix_cons _ _

/-! ### Heights -/

@[simp]
theorem height_empty : (empty : Stack α).height = 0 :=
  rfl

@[simp]
theorem height_push (s : Stack α) (x : α) : (s.push x).height = s.height + 1 :=
  rfl

@[simp]
theorem height_drop (s : Stack α) (n : Nat) : (s.drop n).height = s.height - n :=
  rfl

@[simp]
theorem height_lowest (s : Stack α) (n : Nat) : (s.lowest n).height = min n s.height := by
  simp only [lowest, height_drop]
  omega

@[simp]
theorem height_pushAll (s : Stack α) (xs : List α) :
    (s.pushAll xs).height = xs.length + s.height := by
  simp [height_eq]

theorem height_popWhile_le (s : Stack α) (p : α → Bool) : (s.popWhile p).height ≤ s.height := by
  rw [height_eq, height_eq, toList_popWhile]
  exact (List.dropWhile_sublist p).length_le

/-! ### Stacks that start alike -/

theorem height_le_of_suffix {s t : Stack α} (h : s.toList <:+ t.toList) : s.height ≤ t.height := by
  rw [height_eq, height_eq]
  exact h.length_le

theorem suffix_pushAll (s : Stack α) (xs : List α) : s.toList <:+ (s.pushAll xs).toList := by
  rw [toList_pushAll]
  exact List.suffix_append _ _

/-- To take items off leaves the start of a stack alone if they lie above it. -/
theorem suffix_drop {s t : Stack α} {n : Nat} (h : s.toList <:+ t.toList)
    (hn : s.height + n ≤ t.height) : s.toList <:+ (t.drop n).toList := by
  rw [toList_drop]
  refine List.suffix_of_suffix_length_le h (List.drop_suffix n _) ?_
  rw [height_eq, height_eq] at hn
  rw [List.length_drop]
  omega

theorem suffix_lowest {s t : Stack α} {n : Nat} (h : s.toList <:+ t.toList) (hn : s.height ≤ n) :
    s.toList <:+ (t.lowest n).toList := by
  have hle := height_le_of_suffix h
  exact suffix_drop h (by omega)

theorem lowest_of_suffix {s t : Stack α} (h : s.toList <:+ t.toList) : t.lowest s.height = s := by
  have hle := height_le_of_suffix h
  have hlowest := suffix_lowest h (Nat.le_refl s.height)
  refine ext (hlowest.eq_of_length ?_).symm
  rw [← height_eq, ← height_eq, height_lowest]
  omega

end Stack

end ScriptMachine
