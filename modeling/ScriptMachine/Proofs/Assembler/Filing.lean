import ScriptMachine.Proofs.Assembler.Growth

/-! The tables of a block over any sequence of additions. Every addition is answered with a place,
and all places are answered in order. Items that count as the same share a place; any other item has
a place of its own. -/

namespace ScriptMachine

/-! ### Histories -/

/-- `t` is what additions have made of a table, and `records` tells what has been added and what the
answers were. An addition that fails leaves the table as it is. -/
inductive Filings {σ α : Type} (insert : σ → α → Except AssemblyError (Nat × σ)) (empty : σ) :
    List (α × Except AssemblyError Nat) → σ → Prop where
  | empty : Filings insert empty [] empty
  | filed {t u : σ} {records : List (α × Except AssemblyError Nat)} {x : α} {place : Nat} :
      Filings insert empty records t → insert t x = .ok (place, u) →
      Filings insert empty (records ++ [(x, .ok place)]) u
  | refused {t : σ} {records : List (α × Except AssemblyError Nat)} {x : α} {y : AssemblyError} :
      Filings insert empty records t → insert t x = .error y →
      Filings insert empty (records ++ [(x, .error y)]) t

/-- What a table with the given entries has to answer to an addition, and what the entries are then.
Only an item that is the same as itself may share a place. -/
inductive Files {α : Type} (same : α → α → Prop) (failure : AssemblyError) (entries : Array α)
    (x : α) : Except AssemblyError (Nat × Array α) → Prop where
  | present {place : Nat} : same x x → entries[place]? = some x →
      Files same failure entries x (.ok (place, entries))
  | added : ¬ (same x x ∧ x ∈ entries) → entries.size < tableLimit →
      Files same failure entries x (.ok (entries.size, entries.push x))
  | refused : ¬ (same x x ∧ x ∈ entries) → tableLimit ≤ entries.size →
      Files same failure entries x (.error failure)

/-- The order that a table keeps. -/
structure WellFiled {α : Type} (same : α → α → Prop) (records : List (α × Except AssemblyError Nat))
    (entries : Array α) : Prop where
  size_le : entries.size ≤ tableLimit
  /-- An item is at the place that its addition was answered with. -/
  kept : ∀ (x : α) (place : Nat), (x, .ok place) ∈ records → entries[place]? = some x
  /-- Two additions have the same answer exactly if their items are the same. -/
  places : records.Pairwise fun r s =>
    ∀ a b, r.2 = .ok a → s.2 = .ok b → (a = b ↔ same r.1 s.1)
  /-- The places that have been answered are those of the entries, without a gap. -/
  dense : ∀ place, place < entries.size ↔ ∃ x, (x, .ok place) ∈ records
  /-- An item that may share a place has only one. -/
  unique : ∀ (x : α) (a b : Nat), same x x → entries[a]? = some x → entries[b]? = some x → a = b

section

variable {α : Type} {same : α → α → Prop} {failure y : AssemblyError} {entries after : Array α}
  {records : List (α × Except AssemblyError Nat)} {x : α} {place : Nat}

/-- An addition fails exactly if there is no more room and the item has no place to share. -/
theorem Files.eq_error_iff {r : Except AssemblyError (Nat × Array α)}
    (h : Files same failure entries x r) (y : AssemblyError) : r = .error y ↔
      y = failure ∧ tableLimit ≤ entries.size ∧ ¬ (same x x ∧ x ∈ entries) := by
  cases h with
  | present hshared hx => simp [hshared, Array.mem_of_getElem? hx]
  | added hnew hroom => simp [Nat.not_le.mpr hroom]
  | refused hnew hfull => simp [hfull, hnew, eq_comm]

namespace WellFiled

theorem empty : WellFiled same [] (#[] : Array α) := by
  constructor <;> simp

theorem lt_size (h : WellFiled same records entries) (hx : (x, .ok place) ∈ records) :
    place < entries.size :=
  (Array.getElem?_eq_some_iff.mp (h.kept x place hx)).1

theorem refused (h : WellFiled same records entries) (x : α) (y : AssemblyError) :
    WellFiled same (records ++ [(x, .error y)]) entries where
  size_le := h.size_le
  kept := by simpa using h.kept
  places := by
    refine List.pairwise_append.mpr ⟨h.places, List.pairwise_singleton _ _, ?_⟩
    rintro r - s hs a b - hb
    cases List.mem_singleton.mp hs
    cases hb
  dense := by simpa using h.dense
  unique := h.unique

theorem present (hsame : ∀ x y, same x y ↔ same x x ∧ x = y) (h : WellFiled same records entries)
    (hshared : same x x) (hx : entries[place]? = some x) :
    WellFiled same (records ++ [(x, .ok place)]) entries where
  size_le := h.size_le
  kept z a hz := by
    rcases List.mem_append.mp hz with hold | hnew
    · exact h.kept z a hold
    · cases List.mem_singleton.mp hnew
      exact hx
  places := by
    refine List.pairwise_append.mpr ⟨h.places, List.pairwise_singleton _ _, ?_⟩
    rintro ⟨z, r⟩ hr s hs a b rfl hb
    cases List.mem_singleton.mp hs
    cases hb
    have hz : entries[a]? = some z := h.kept z a hr
    constructor
    · rintro rfl
      cases hz.symm.trans hx
      exact hshared
    · intro hzx
      obtain ⟨-, rfl⟩ := (hsame z x).mp hzx
      exact h.unique z a place hshared hz hx
  dense a := by
    have hinside : place < entries.size := (Array.getElem?_eq_some_iff.mp hx).1
    rw [h.dense a]
    constructor
    · rintro ⟨z, hz⟩
      exact ⟨z, List.mem_append_left _ hz⟩
    · rintro ⟨z, hz⟩
      rcases List.mem_append.mp hz with hold | hnew
      · exact ⟨z, hold⟩
      · cases List.mem_singleton.mp hnew
        exact (h.dense place).mp hinside
  unique := h.unique

theorem added (hsame : ∀ x y, same x y ↔ same x x ∧ x = y) (h : WellFiled same records entries)
    (hnew : ¬ (same x x ∧ x ∈ entries)) (hroom : entries.size < tableLimit) :
    WellFiled same (records ++ [(x, .ok entries.size)]) (entries.push x) where
  size_le := by
    rw [Array.size_push]
    exact hroom
  kept z a hz := by
    rcases List.mem_append.mp hz with hold | hlast
    · rw [Array.getElem?_push, if_neg (Nat.ne_of_lt (h.lt_size hold))]
      exact h.kept z a hold
    · cases List.mem_singleton.mp hlast
      simp
  places := by
    refine List.pairwise_append.mpr ⟨h.places, List.pairwise_singleton _ _, ?_⟩
    rintro ⟨z, r⟩ hr s hs a b rfl hb
    cases List.mem_singleton.mp hs
    cases hb
    refine iff_of_false (Nat.ne_of_lt (h.lt_size hr)) fun hzx => hnew ?_
    obtain ⟨hshared, rfl⟩ := (hsame z x).mp hzx
    exact ⟨hshared, Array.mem_of_getElem? (h.kept z a hr)⟩
  dense a := by
    rw [Array.size_push, Nat.lt_succ_iff_lt_or_eq, h.dense a]
    constructor
    · rintro (⟨z, hz⟩ | rfl)
      · exact ⟨z, List.mem_append_left _ hz⟩
      · exact ⟨x, by simp⟩
    · rintro ⟨z, hz⟩
      rcases List.mem_append.mp hz with hold | hlast
      · exact .inl ⟨z, hold⟩
      · cases List.mem_singleton.mp hlast
        exact .inr rfl
  unique z a b hshared ha hb := by
    rw [Array.getElem?_push] at ha hb
    split at ha <;> split at hb
    · omega
    · cases ha
      exact absurd ⟨hshared, Array.mem_of_getElem? hb⟩ hnew
    · cases hb
      exact absurd ⟨hshared, Array.mem_of_getElem? ha⟩ hnew
    · exact h.unique z a b hshared ha hb

end WellFiled

end

/-- A table whose additions are answered as they have to be keeps its order. `Sound` is what the
table relies on. -/
theorem wellFiled_of_filings {σ α : Type} {insert : σ → α → Except AssemblyError (Nat × σ)}
    {empty t : σ} {same : α → α → Prop} {failure : AssemblyError} {entries : σ → Array α}
    {records : List (α × Except AssemblyError Nat)} (Sound : σ → Prop)
    (hsame : ∀ x y, same x y ↔ same x x ∧ x = y) (hempty : entries empty = #[] ∧ Sound empty)
    (hfiles : ∀ t, Sound t → ∀ x, Files same failure (entries t) x
      ((insert t x).map fun r => (r.1, entries r.2)))
    (hsound : ∀ t, Sound t → ∀ x place u, insert t x = .ok (place, u) → Sound u)
    (h : Filings insert empty records t) : WellFiled same records (entries t) ∧ Sound t := by
  induction h with
  | empty => exact ⟨hempty.1 ▸ .empty, hempty.2⟩
  | @filed t u records x place _ hinsert ih =>
      obtain ⟨hfiled, ht⟩ := ih
      have hx := hfiles t ht x
      simp only [hinsert, Except.map] at hx
      refine ⟨?_, hsound t ht x place u hinsert⟩
      generalize entries u = after at hx ⊢
      cases hx with
      | present hshared hx => exact hfiled.present hsame hshared hx
      | added hnew hroom => exact hfiled.added hsame hnew hroom
  | refused _ hinsert ih => exact ⟨ih.1.refused _ _, ih.2⟩

/-- An addition that succeeds has found a place. -/
theorem map_place_eq_ok_iff {σ : Type} {found : Except AssemblyError Nat} {put : Nat → σ}
    {place : Nat} {u : σ} : (found.map fun place => (place, put place)) = .ok (place, u) ↔
      found = .ok place ∧ put place = u := by
  cases found with
  | error y => simp [Except.map]
  | ok found =>
      simp only [Except.map, Except.ok.injEq, Prod.mk.injEq]
      constructor <;> rintro ⟨rfl, h⟩ <;> exact ⟨rfl, h⟩

/-! ### Constants -/

/-- Two literals of one kind with the same value. Floats have the same value if their bits agree. -/
def Value.SameLiteral : Value → Value → Prop
  | .null, .null => True
  | .boolean a, .boolean b => a = b
  | .integer m, .integer n => m = n
  | .float x, .float y => x.bits = y.bits
  | .string s, .string t => s = t
  | _, _ => False

theorem Value.sameLiteral_self_iff (v : Value) : v.SameLiteral v ↔ v.isLiteral = true := by
  cases v <;> simp [SameLiteral, isLiteral]

/-- Two literals are the same exactly if they are equal. -/
theorem Value.sameLiteral_iff (v w : Value) : v.SameLiteral w ↔ v.SameLiteral v ∧ v = w := by
  constructor
  · intro h
    rw [SameLiteral.eq_def] at h
    split at h
    · exact ⟨trivial, rfl⟩
    · exact ⟨rfl, congrArg _ h⟩
    · exact ⟨rfl, congrArg _ h⟩
    · exact ⟨rfl, congrArg (fun bits => Value.float ⟨bits⟩) h⟩
    · exact ⟨rfl, congrArg _ h⟩
    · exact h.elim
  · rintro ⟨h, rfl⟩
    exact h

namespace ConstantPool

variable {p q : ConstantPool} {v : Value} {place : Nat}

/-- Every literal of the pool can be found. -/
def Complete (p : ConstantPool) : Prop :=
  ∀ (v : Value) (place : Nat), v.isLiteral = true → p.values[place]? = some v →
    p.places[v]? = some place

theorem complete_empty : ({} : ConstantPool).Complete := by
  simp [Complete]

/-- A literal that the pool cannot find is not in it. -/
theorem Complete.not_mem (hcomplete : p.Complete) (hnone : p.place? v = none) :
    ¬ (v.SameLiteral v ∧ v ∈ p.values) := by
  rintro ⟨hliteral, hmem⟩
  rw [Value.sameLiteral_self_iff] at hliteral
  obtain ⟨place, hplace⟩ := Array.getElem?_of_mem hmem
  rw [place?, if_pos hliteral, hcomplete v place hliteral hplace] at hnone
  cases hnone

theorem Sound.of_place? (hsound : p.Sound) (h : p.place? v = some place) :
    v.isLiteral = true ∧ p.values[place]? = some v := by
  rw [place?] at h
  split at h
  · rename_i hliteral
    exact ⟨hliteral, hsound v place h⟩
  · cases h

theorem Complete.push (hcomplete : p.Complete) (hnone : p.place? v = none) :
    (p.putAt v p.values.size).Complete := by
  intro w i hliteral hw
  simp only [putAt, if_neg (Nat.lt_irrefl _)] at hw ⊢
  rw [Array.getElem?_push] at hw
  split at hw
  · rename_i hlast
    cases hw
    simp [hliteral, hlast]
  · have hold := hcomplete w i hliteral hw
    have hother : v ≠ w := by
      rintro rfl
      rw [place?, if_pos hliteral, hold] at hnone
      cases hnone
    split
    · rwa [Std.HashMap.getElem?_insert, if_neg (by simpa using hother)]
    · exact hold

theorem insert_eq_ok_iff :
    p.insert v = .ok (place, q) ↔ p.placeFor v = .ok place ∧ p.putAt v place = q :=
  map_place_eq_ok_iff

/-- What a pool answers to a constant. -/
theorem files_insert (hsound : p.Sound) (hcomplete : p.Complete) (v : Value) :
    Files Value.SameLiteral (.tableFull "constant" tableLimit) p.values v
      ((p.insert v).map fun r => (r.1, r.2.values)) := by
  rw [insert, placeFor]
  cases hfound : p.place? v with
  | some place =>
      obtain ⟨hliteral, hv⟩ := hsound.of_place? hfound
      have hinside : place < p.values.size := (Array.getElem?_eq_some_iff.mp hv).1
      simp only [Except.map, putAt, if_pos hinside]
      exact .present ((Value.sameLiteral_self_iff v).mpr hliteral) hv
  | none =>
      have hnew := hcomplete.not_mem hfound
      simp only
      split
      · rename_i hfull
        exact .refused hnew hfull
      · rename_i hroom
        simp only [Except.map, putAt, if_neg (Nat.lt_irrefl _)]
        exact .added hnew (Nat.lt_of_not_le hroom)

/-- The pool keeps what it relies on. -/
theorem sound_of_insert (hsound : p.Sound) (hcomplete : p.Complete)
    (h : p.insert v = .ok (place, q)) : q.Sound ∧ q.Complete := by
  obtain ⟨hfor, rfl⟩ := insert_eq_ok_iff.mp h
  refine ⟨(hsound.putAt hfor).1, ?_⟩
  rw [placeFor] at hfor
  cases hfound : p.place? v with
  | some known =>
      obtain ⟨-, hv⟩ := hsound.of_place? hfound
      rw [hfound] at hfor
      cases hfor
      rw [putAt, if_pos (Array.getElem?_eq_some_iff.mp hv).1]
      exact hcomplete
  | none =>
      rw [hfound] at hfor
      simp only at hfor
      split at hfor <;> cases hfor
      exact hcomplete.push hfound

end ConstantPool

/-! ### Names -/

namespace NamePool

variable {p q : NamePool} {s : String} {place : Nat}

theorem getElem?_of_place? (h : p.place? s = some place) : p.entries[place]? = some s := by
  obtain ⟨table, ⟨names⟩⟩ := p
  obtain ⟨hinside, hname, -⟩ := List.idxOf?_eq_some_iff.mp (by simpa [place?] using h)
  simp [hinside, hname]

theorem insert_eq_ok_iff :
    p.insert s = .ok (place, q) ↔ p.placeFor s = .ok place ∧ p.putAt s place = q :=
  map_place_eq_ok_iff

theorem table_of_insert (h : p.insert s = .ok (place, q)) : q.table = p.table := by
  obtain ⟨-, rfl⟩ := insert_eq_ok_iff.mp h
  rw [putAt]
  split <;> rfl

/-- What a pool answers to a name. -/
theorem files_insert (p : NamePool) (s : String) :
    Files Eq (.tableFull p.table tableLimit) p.entries s
      ((p.insert s).map fun r => (r.1, r.2.entries)) := by
  rw [insert, placeFor]
  cases hfound : p.place? s with
  | some place =>
      have hs := getElem?_of_place? hfound
      have hinside : place < p.entries.size := (Array.getElem?_eq_some_iff.mp hs).1
      simp only [Except.map, putAt, if_pos hinside]
      exact .present rfl hs
  | none =>
      have hnew : ¬ (s = s ∧ s ∈ p.entries) := fun h =>
        Array.idxOf?_eq_none_iff.mp hfound h.2
      simp only
      split
      · rename_i hfull
        exact .refused hnew hfull
      · rename_i hroom
        simp only [Except.map, putAt, if_neg (Nat.lt_irrefl _)]
        exact .added hnew (Nat.lt_of_not_le hroom)

/-- The place of a name is the one that its additions were answered with. -/
theorem place?_eq_some_iff {records : List (String × Except AssemblyError Nat)}
    (hfiled : WellFiled Eq records p.entries) :
    p.place? s = some place ↔ (s, .ok place) ∈ records := by
  constructor
  · intro h
    have hs := getElem?_of_place? h
    obtain ⟨r, hr⟩ := (hfiled.dense place).mp (Array.getElem?_eq_some_iff.mp hs).1
    cases (hfiled.kept r place hr).symm.trans hs
    exact hr
  · intro h
    have hs := hfiled.kept s place h
    cases hfound : p.place? s with
    | none => exact absurd (Array.mem_of_getElem? hs) (Array.idxOf?_eq_none_iff.mp hfound)
    | some found => rw [hfiled.unique s found place rfl (getElem?_of_place? hfound) hs]

/-- A pool contains the names that have been added. -/
theorem contains_iff {records : List (String × Except AssemblyError Nat)}
    (hfiled : WellFiled Eq records p.entries) :
    p.contains s ↔ ∃ place, (s, .ok place) ∈ records := by
  simp only [contains, Option.isSome_iff_exists, place?_eq_some_iff hfiled]

end NamePool

/-! ### Longer histories -/

namespace Filings

theorem constant {records : List (Value × Except AssemblyError Nat)} {p : ConstantPool}
    (h : Filings ConstantPool.insert {} records p) (v : Value) (place : Nat)
    (hplace : p.placeFor v = .ok place) :
    Filings ConstantPool.insert {} (records ++ [(v, .ok place)]) (p.putAt v place) :=
  h.filed (ConstantPool.insert_eq_ok_iff.mpr ⟨hplace, rfl⟩)

theorem name {table : String} {records : List (String × Except AssemblyError Nat)}
    {p : NamePool} (h : Filings NamePool.insert { table } records p) (s : String) (place : Nat)
    (hplace : p.placeFor s = .ok place) :
    Filings NamePool.insert { table } (records ++ [(s, .ok place)]) (p.putAt s place) :=
  h.filed (NamePool.insert_eq_ok_iff.mpr ⟨hplace, rfl⟩)

end Filings

/-! ### Steps of assembly -/

/-- The outcome of a step that adds to one table of the assembler. -/
def Assembler.filed {σ : Type} (a : Assembler) (put : σ → Assembler) :
    Except AssemblyError (Nat × σ) → EStateM.Result AssemblyError Assembler Nat
  | .ok (place, t) => .ok place (put t)
  | .error y => .error y a

namespace Directive

theorem addConstant_eq_filed (a : Assembler) (v : Value) : Assembly.addConstant v a =
    a.filed (fun t => { a with constants := t }) (a.constants.insert v) := by
  rw [addConstant_eq, ConstantPool.insert]
  cases a.constants.placeFor v <;> rfl

theorem addName_eq_filed (a : Assembler) (s : String) : Assembly.addName s a =
    a.filed (fun t => { a with names := t }) (a.names.insert s) := by
  rw [addName_eq, NamePool.insert]
  cases a.names.placeFor s <;> rfl

theorem addLocal_eq_filed (a : Assembler) (s : String) : Assembly.addLocal s a =
    a.filed (fun t => { a with locals := t }) (a.locals.insert s) := by
  rw [addLocal_eq, NamePool.insert]
  cases a.locals.placeFor s <;> rfl

end Directive

/-! ### The law of the tables -/

/-- A table is in order, and answers an addition as it has to. An addition fails exactly if the
table is full and the item has no place to share. -/
structure Lawful {σ α : Type} (insert : σ → α → Except AssemblyError (Nat × σ))
    (entries : σ → Array α) (same : α → α → Prop) (failure : AssemblyError)
    (records : List (α × Except AssemblyError Nat)) (t : σ) : Prop where
  wellFiled : WellFiled same records (entries t)
  /-- The places that have been answered fit into a word. -/
  fits : ∀ (x : α) (place : Nat), (x, .ok place) ∈ records → (UInt16.ofNat place).toNat = place
  files : ∀ x, Files same failure (entries t) x ((insert t x).map fun r => (r.1, entries r.2))
  fails : ∀ (x : α) (y : AssemblyError), insert t x = .error y ↔
    y = failure ∧ (entries t).size = tableLimit ∧ ¬ (same x x ∧ x ∈ entries t)

theorem Lawful.of_wellFiled {σ α : Type} {insert : σ → α → Except AssemblyError (Nat × σ)}
    {entries : σ → Array α} {same : α → α → Prop} {failure : AssemblyError}
    {records : List (α × Except AssemblyError Nat)} {t : σ}
    (hfiled : WellFiled same records (entries t))
    (hfiles : ∀ x, Files same failure (entries t) x
      ((insert t x).map fun r => (r.1, entries r.2))) :
    Lawful insert entries same failure records t where
  wellFiled := hfiled
  fits x place hx := by
    have hinside := Nat.lt_of_lt_of_le (hfiled.lt_size hx) hfiled.size_le
    exact UInt16.toNat_ofNat_of_lt' hinside
  files := hfiles
  fails x y := by
    have hfull : (entries t).size = tableLimit ↔ tableLimit ≤ (entries t).size := by
      have := hfiled.size_le
      omega
    rw [hfull, ← (hfiles x).eq_error_iff y]
    cases insert t x <;> simp [Except.map]

/-- Both kinds of tables after any sequence of additions to empty ones: constants share a place if
they are literals of one kind with the same value, names if they are equal. A step of assembly adds
to the table that it is about, and leaves the assembler as it is if that fails. -/
theorem lawful_of_filings {constants : List (Value × Except AssemblyError Nat)} {p : ConstantPool}
    {names : List (String × Except AssemblyError Nat)} {table : String} {q : NamePool}
    (hconstants : Filings ConstantPool.insert {} constants p)
    (hnames : Filings NamePool.insert { table } names q) :
    Lawful ConstantPool.insert ConstantPool.values Value.SameLiteral
        (.tableFull "constant" tableLimit) constants p ∧
      Lawful NamePool.insert NamePool.entries Eq (.tableFull table tableLimit) names q ∧
      (∀ s, (∀ place, q.place? s = some place ↔ (s, .ok place) ∈ names) ∧
        (q.contains s ↔ ∃ place, (s, .ok place) ∈ names)) ∧
      ∀ a : Assembler,
        (∀ v, Assembly.addConstant v a =
          a.filed (fun t => { a with constants := t }) (a.constants.insert v)) ∧
        (∀ s, Assembly.addName s a =
          a.filed (fun t => { a with names := t }) (a.names.insert s)) ∧
        ∀ s, Assembly.addLocal s a =
          a.filed (fun t => { a with locals := t }) (a.locals.insert s) := by
  obtain ⟨hvalues, hsound, hcomplete⟩ := wellFiled_of_filings
    (fun p : ConstantPool => p.Sound ∧ p.Complete) Value.sameLiteral_iff
    ⟨rfl, ConstantPool.sound_empty, ConstantPool.complete_empty⟩
    (fun p hp v => ConstantPool.files_insert hp.1 hp.2 v)
    (fun p hp v place q h => ConstantPool.sound_of_insert hp.1 hp.2 h) hconstants
  obtain ⟨hentries, htable⟩ := wellFiled_of_filings (fun p : NamePool => p.table = table)
    (fun s r => by simp) ⟨rfl, rfl⟩ (fun p hp s => hp ▸ NamePool.files_insert p s)
    (fun p hp s place q h => NamePool.table_of_insert h ▸ hp) hnames
  refine ⟨.of_wellFiled hvalues (ConstantPool.files_insert hsound hcomplete),
    .of_wellFiled hentries (htable ▸ NamePool.files_insert q), fun s => ⟨fun place => ?_, ?_⟩,
    fun a => ⟨Directive.addConstant_eq_filed a, Directive.addName_eq_filed a,
      Directive.addLocal_eq_filed a⟩⟩
  · exact NamePool.place?_eq_some_iff hentries
  · exact NamePool.contains_iff hentries

/-- The two floats that are zero have a place each, and an array has as many as additions. -/
theorem lawful_zeros : ∃ p q,
    Filings ConstantPool.insert {} [(.float ⟨0⟩, .ok 0), (.float ⟨0x8000000000000000⟩, .ok 1),
      (.array 0, .ok 2), (.array 0, .ok 3), (.float ⟨0⟩, .ok 0)] p ∧
    Filings NamePool.insert { table := "name" } [("x", .ok 0), ("y", .ok 1), ("x", .ok 0)] q ∧
    Lawful ConstantPool.insert ConstantPool.values Value.SameLiteral
      (.tableFull "constant" tableLimit) [(.float ⟨0⟩, .ok 0),
        (.float ⟨0x8000000000000000⟩, .ok 1), (.array 0, .ok 2), (.array 0, .ok 3),
        (.float ⟨0⟩, .ok 0)] p ∧
    q.place? "y" = some 1 := by
  have hzero := Filings.empty.constant (.float ⟨0⟩) 0
    (by simp [ConstantPool.placeFor, ConstantPool.place?, tableLimit])
  have hnegative := hzero.constant (.float ⟨0x8000000000000000⟩) 1
    (by simp [ConstantPool.placeFor, ConstantPool.place?, ConstantPool.putAt, Value.isLiteral,
      tableLimit])
  have harray := hnegative.constant (.array 0) 2
    (by simp [ConstantPool.placeFor, ConstantPool.place?, ConstantPool.putAt, Value.isLiteral,
      tableLimit])
  have hagain := harray.constant (.array 0) 3
    (by simp [ConstantPool.placeFor, ConstantPool.place?, ConstantPool.putAt, Value.isLiteral,
      tableLimit])
  have hconstants := hagain.constant (.float ⟨0⟩) 0
    (by simp [ConstantPool.placeFor, ConstantPool.place?, ConstantPool.putAt, Value.isLiteral,
      Std.HashMap.getElem_insert])
  have hx := (Filings.empty : Filings NamePool.insert { table := "name" } [] _).name "x" 0
    (by simp [NamePool.placeFor, NamePool.place?, tableLimit])
  have hy := hx.name "y" 1
    (by simp [NamePool.placeFor, NamePool.place?, NamePool.putAt, tableLimit])
  have hnames := hy.name "x" 0
    (by simp [NamePool.placeFor, NamePool.place?, NamePool.putAt, List.idxOf?_cons])
  obtain ⟨hlawful, -, hplaces, -⟩ := lawful_of_filings hconstants hnames
  exact ⟨_, _, hconstants, hnames, hlawful, ((hplaces "y").1 1).mpr (by simp)⟩

end ScriptMachine
