import ScriptMachine.Json.Parse
import ScriptMachine.Json.Print

/-! The grammar of JSON, with blanks between any two tokens. Whatever spells a document is read as
this document. -/

namespace ScriptMachine

namespace Json

variable {t rest : List Char}

/-! ### Blanks -/

def Blank (t : List Char) : Prop :=
  ∀ c ∈ t, isBlank c = true

theorem blank_nil : Blank [] := by
  simp [Blank]

theorem skipBlanks_append {b : List Char} (hb : Blank b) (t : List Char) :
    skipBlanks (b ++ t) = skipBlanks t :=
  List.dropWhile_append_of_pos hb

theorem skipBlanks_cons {c : Char} (hc : isBlank c = false) (t : List Char) :
    skipBlanks (c :: t) = c :: t := by
  simp [skipBlanks, hc]

theorem skipBlanks_skipBlanks (t : List Char) : skipBlanks (skipBlanks t) = skipBlanks t := by
  induction t with
  | nil => rfl
  | cons c t ih =>
      by_cases hc : isBlank c
      · simpa [skipBlanks, hc] using ih
      · simp [skipBlanks, hc]

/-! ### Numbers -/

/-- At least one digit. -/
structure Digits (ds : List Char) : Prop where
  nonempty : ds ≠ []
  digits : ∀ d ∈ ds, d.isDigit = true

/-- A zero alone, or digits that do not start with zero. -/
inductive Whole : List Char → Prop where
  | zero : Whole ['0']
  | digits {d : Char} {ds : List Char} : d ≠ '0' → Digits (d :: ds) → Whole (d :: ds)

inductive Fraction : List Char → Prop where
  | absent : Fraction []
  | digits {ds : List Char} : Digits ds → Fraction ('.' :: ds)

inductive Exponent : List Char → Prop where
  | absent : Exponent []
  | digits {mark : Char} {sign ds : List Char} : mark = 'e' ∨ mark = 'E' →
      sign = [] ∨ sign = ['+'] ∨ sign = ['-'] → Digits ds → Exponent (mark :: sign ++ ds)

inductive Numeral : List Char → Prop where
  | parts {sign whole fraction exponent : List Char} : sign = [] ∨ sign = ['-'] → Whole whole →
      Fraction fraction → Exponent exponent → Numeral (sign ++ whole ++ fraction ++ exponent)

/-- The text does not go on with a number that stands before it. -/
def Stops (t : List Char) : Prop :=
  ∀ c ∈ t.head?, c.isDigit = false ∧ c ≠ '.' ∧ c ≠ 'e' ∧ c ≠ 'E'

theorem Stops.blank_append {b : List Char} (h : Stops t) (hb : Blank b) : Stops (b ++ t) := by
  cases b with
  | nil => exact h
  | cons c b =>
      intro d hd
      cases hd
      have hc := hb c List.mem_cons_self
      simp only [isBlank, Bool.or_eq_true, beq_iff_eq] at hc
      rcases hc with ((rfl | rfl) | rfl) | rfl <;> decide

theorem Digits.digits_append {ds : List Char} (h : Digits ds)
    (hrest : ∀ c ∈ rest.head?, c.isDigit = false) : Json.digits (ds ++ rest) = (ds, rest) := by
  rw [Json.digits, List.takeWhile_append_of_pos h.digits, List.dropWhile_append_of_pos h.digits]
  cases rest with
  | nil => simp
  | cons c rest => simp [hrest c rfl]

theorem Whole.all_digits (h : Whole t) : Digits t := by
  cases h with
  | zero => exact ⟨by simp, List.forall_mem_singleton.mpr rfl⟩
  | digits _ hds => exact hds

theorem Whole.whole?_append (h : Whole t) (hrest : ∀ c ∈ rest.head?, c.isDigit = false) :
    whole? (t ++ rest) = some (t, rest) := by
  rw [whole?, h.all_digits.digits_append hrest]
  cases h with
  | zero => rfl
  | digits hd _ => simp [hd]

theorem Fraction.fraction?_append (h : Fraction t)
    (hrest : ∀ c ∈ rest.head?, c.isDigit = false ∧ c ≠ '.') :
    fraction? (t ++ rest) = some (t, rest) := by
  cases h with
  | absent =>
      rw [List.nil_append, fraction?.eq_def]
      split
      · exact absurd rfl (hrest _ rfl).2
      · rfl
  | digits hds =>
      rw [List.cons_append, fraction?, hds.digits_append fun c hc => (hrest c hc).1]
      split
      · rename_i hnone
        cases hnone
        exact absurd rfl hds.nonempty
      · rename_i hsome
        cases hsome
        rfl

theorem Digits.exponentDigits?_append {mark ds : List Char} (h : Digits ds)
    (hrest : ∀ c ∈ rest.head?, c.isDigit = false) :
    exponentDigits? mark (ds ++ rest) = some (mark ++ ds, rest) := by
  rw [exponentDigits?, h.digits_append hrest]
  split
  · rename_i hnone
    cases hnone
    exact absurd rfl h.nonempty
  · rename_i hsome
    cases hsome
    rfl

theorem Exponent.exponent?_append (h : Exponent t)
    (hrest : ∀ c ∈ rest.head?, c.isDigit = false ∧ c ≠ 'e' ∧ c ≠ 'E') :
    exponent? (t ++ rest) = some (t, rest) := by
  cases h with
  | absent =>
      cases rest with
      | nil => rfl
      | cons c rest =>
          obtain ⟨-, hc⟩ := hrest c rfl
          simp [exponent?, hc]
  | @digits mark sign ds hmark hsign hds =>
      have hdigits (before : List Char) :
          exponentDigits? before (ds ++ rest) = some (before ++ ds, rest) :=
        hds.exponentDigits?_append fun c hc => (hrest c hc).1
      rcases hsign with rfl | rfl | rfl
      · obtain ⟨d, ds, rfl⟩ := List.exists_cons_of_ne_nil hds.nonempty
        have hd := hds.digits d List.mem_cons_self
        simp only [List.cons_append, List.nil_append, exponent?, if_pos hmark]
        split
        · rename_i heq
          cases heq
          cases hd
        · rename_i heq
          cases heq
          cases hd
        · exact hdigits [mark]
      · simp only [List.cons_append, List.nil_append, exponent?, if_pos hmark]
        exact hdigits [mark, '+']
      · simp only [List.cons_append, List.nil_append, exponent?, if_pos hmark]
        exact hdigits [mark, '-']

theorem Fraction.stops_append {fraction exponent : List Char} (hfraction : Fraction fraction)
    (hexponent : Exponent exponent) (hrest : Stops rest) :
    (∀ c ∈ (exponent ++ rest).head?, c.isDigit = false ∧ c ≠ '.') ∧
      ∀ c ∈ (fraction ++ (exponent ++ rest)).head?, c.isDigit = false := by
  have hexponent : ∀ c ∈ (exponent ++ rest).head?, c.isDigit = false ∧ c ≠ '.' := by
    cases hexponent with
    | absent => exact fun c hc => ⟨(hrest c hc).1, (hrest c hc).2.1⟩
    | digits hmark =>
        intro c hc
        cases hc
        rcases hmark with rfl | rfl <;> decide
  refine ⟨hexponent, ?_⟩
  cases hfraction with
  | absent => exact fun c hc => (hexponent c hc).1
  | digits =>
      intro c hc
      cases hc
      rfl

/-- A number ends where nothing more can belong to it. -/
theorem Numeral.number?_append (h : Numeral t) (hrest : Stops rest) :
    number? (t ++ rest) = some (t, rest) := by
  obtain ⟨hsign, hwhole, hfraction, hexponent⟩ := h
  rename_i sign whole fraction exponent
  obtain ⟨hpoint, hdigit⟩ := hfraction.stops_append hexponent hrest
  have hwhole' := hwhole.whole?_append hdigit
  have hfraction' := hfraction.fraction?_append hpoint
  have hexponent' := hexponent.exponent?_append fun c hc => ⟨(hrest c hc).1, (hrest c hc).2.2⟩
  rcases hsign with rfl | rfl
  · obtain ⟨d, ds, rfl⟩ := List.exists_cons_of_ne_nil hwhole.all_digits.nonempty
    have hd : d ≠ '-' := by
      rintro rfl
      exact absurd (hwhole.all_digits.digits '-' List.mem_cons_self) (by decide)
    rw [List.cons_append] at hwhole'
    simp [number?, hd, hwhole', hfraction', hexponent']
  · simp [number?, hwhole', hfraction', hexponent']

/-! ### Texts -/

/-- Characters that are no controls, and the known escapes. A quote or a backslash only stands
escaped. -/
inductive Spelling : List Char → Prop where
  | nil : Spelling []
  | plain {c : Char} {s : List Char} : 0x20 ≤ c.toNat → c ≠ '"' → c ≠ '\\' → Spelling s →
      Spelling (c :: s)
  | escape {c : Char} {s : List Char} : (unescape? c).isSome → Spelling s →
      Spelling ('\\' :: c :: s)
  | unit {a b c d : Char} {s : List Char} : (unit? a b c d).isSome → Spelling s →
      Spelling ('\\' :: 'u' :: a :: b :: c :: d :: s)

theorem Spelling.spelling?_append {s : List Char} (h : Spelling s) (rest : List Char) :
    spelling? (s ++ '"' :: rest) = some (s, rest) := by
  induction h with
  | nil => simp [spelling?]
  | plain hc _ hslash _ ih => simp [spelling?, ih, hc, hslash]
  | @escape c s hc _ ih =>
      have hu : c ≠ 'u' := by
        rintro rfl
        cases hc
      simp [spelling?, hu, hc, ih]
  | unit hunit _ ih => simp [spelling?, hunit, ih]

/-! ### Documents -/

/-- What a text may spell: a document, or what stands between the brackets of an array or the braces
of an object. -/
inductive Piece where
  | value (j : Json)
  | items (vs : List Json)
  | members (ms : List (List Char × Json))

/-- How pieces are spelled. Blanks may stand between any two tokens. -/
inductive Spells : Piece → List Char → Prop where
  | null : Spells (.value .null) "null".toList
  | bool (b : Bool) : Spells (.value (.bool b)) (if b then "true" else "false").toList
  | number {s : List Char} : Numeral s → Spells (.value (.number s)) s
  | text {s : List Char} : Spelling s → Spells (.value (.text s)) (quote s)
  | noItems {b : List Char} : Blank b → Spells (.value (.array [])) ('[' :: b ++ [']'])
  | array {vs : List Json} {t : List Char} :
      Spells (.items vs) t → Spells (.value (.array vs)) ('[' :: t ++ [']'])
  | noMembers {b : List Char} : Blank b → Spells (.value (.object [])) ('\x7b' :: b ++ ['\x7d'])
  | object {ms : List (List Char × Json)} {t : List Char} :
      Spells (.members ms) t → Spells (.value (.object ms)) ('\x7b' :: t ++ ['\x7d'])
  | item {b₁ b₂ t : List Char} {v : Json} : Blank b₁ → Spells (.value v) t → Blank b₂ →
      Spells (.items [v]) (b₁ ++ t ++ b₂)
  | itemAnd {b₁ b₂ t ts : List Char} {v : Json} {vs : List Json} : Blank b₁ →
      Spells (.value v) t → Blank b₂ → Spells (.items vs) ts →
      Spells (.items (v :: vs)) (b₁ ++ t ++ b₂ ++ ',' :: ts)
  | member {b₁ b₂ b₃ b₄ key t : List Char} {v : Json} : Blank b₁ → Spelling key → Blank b₂ →
      Blank b₃ → Spells (.value v) t → Blank b₄ →
      Spells (.members [(key, v)]) (b₁ ++ quote key ++ b₂ ++ ':' :: b₃ ++ t ++ b₄)
  | memberAnd {b₁ b₂ b₃ b₄ key t ts : List Char} {v : Json} {ms : List (List Char × Json)} :
      Blank b₁ → Spelling key → Blank b₂ → Blank b₃ → Spells (.value v) t → Blank b₄ →
      Spells (.members ms) ts →
      Spells (.members ((key, v) :: ms))
        (b₁ ++ quote key ++ b₂ ++ ':' :: b₃ ++ t ++ b₄ ++ ',' :: ts)

/-- How the reader has to take a piece. Twice the length bounds the nesting. -/
def Piece.Read (t : List Char) : Piece → Prop
  | .value j => ∀ bound rest, Stops rest → 2 * t.length ≤ bound →
      value? bound (t ++ rest) = some (j, rest)
  | .items vs => ∀ bound rest, 2 * t.length + 1 ≤ bound →
      items? bound (t ++ ']' :: rest) = some (vs, rest)
  | .members ms => ∀ bound rest, 2 * t.length + 1 ≤ bound →
      members? bound (t ++ '\x7d' :: rest) = some (ms, rest)

theorem value?_skipBlanks (bound : Nat) (t : List Char) :
    value? bound (skipBlanks t) = value? bound t := by
  cases bound <;> simp [value?, skipBlanks_skipBlanks]

theorem items?_skipBlanks (bound : Nat) (t : List Char) :
    items? bound (skipBlanks t) = items? bound t := by
  cases bound <;> simp [items?, value?_skipBlanks]

theorem members?_skipBlanks (bound : Nat) (t : List Char) :
    members? bound (skipBlanks t) = members? bound t := by
  cases bound <;> simp [members?, skipBlanks_skipBlanks]

theorem Numeral.head (h : Numeral t) : ∃ c s, t = c :: s ∧ (c = '-' ∨ c.isDigit = true) := by
  obtain ⟨rfl | rfl, hwhole, -, -⟩ := h
  · obtain ⟨d, ds, rfl⟩ := List.exists_cons_of_ne_nil hwhole.all_digits.nonempty
    exact ⟨d, _, rfl, .inr (hwhole.all_digits.digits d List.mem_cons_self)⟩
  · exact ⟨'-', _, rfl, .inl rfl⟩

theorem isBlank_eq_false {c : Char} (h : c = '-' ∨ c.isDigit = true) : isBlank c = false := by
  rw [isBlank, Bool.eq_false_iff]
  intro hblank
  simp only [Bool.or_eq_true, beq_iff_eq] at hblank
  rcases hblank with ((rfl | rfl) | rfl) | rfl <;> exact absurd h (by decide)

/-- A document starts with a character that is neither a blank nor the end of an array. -/
theorem Spells.head {j : Json} (h : Spells (.value j) t) :
    ∃ c s, t = c :: s ∧ isBlank c = false ∧ c ≠ ']' := by
  cases h with
  | number h =>
      obtain ⟨c, s, rfl, hc⟩ := h.head
      refine ⟨c, s, rfl, isBlank_eq_false hc, ?_⟩
      rintro rfl
      exact absurd hc (by decide)
  | bool b => cases b <;> exact ⟨_, _, rfl, by decide, by decide⟩
  | _ => exact ⟨_, _, rfl, by decide, by decide⟩

theorem value?_number {c : Char} {s : List Char} (h : c = '-' ∨ c.isDigit = true) (bound : Nat) :
    value? (bound + 1) (c :: s) = (number? (c :: s)).map fun r => (.number r.1, r.2) := by
  rw [value?, skipBlanks_cons (isBlank_eq_false h)]
  split <;> first | rfl | (rename_i heq; cases heq; exact absurd h (by decide))

/-- Between brackets the first item comes first, after blanks. -/
theorem Spells.items_head {vs : List Json} (h : Spells (.items vs) t) (rest : List Char) :
    ∃ c s, skipBlanks (t ++ rest) = c :: s ∧ c ≠ ']' := by
  cases h with
  | item hb₁ hv _ =>
      obtain ⟨c, s, rfl, hblank, hc⟩ := hv.head
      simp only [List.append_assoc, skipBlanks_append hb₁, List.cons_append]
      exact ⟨c, _, skipBlanks_cons hblank _, hc⟩
  | itemAnd hb₁ hv _ _ =>
      obtain ⟨c, s, rfl, hblank, hc⟩ := hv.head
      simp only [List.append_assoc, skipBlanks_append hb₁, List.cons_append]
      exact ⟨c, _, skipBlanks_cons hblank _, hc⟩

/-- Between braces the quote of the first name comes first, after blanks. -/
theorem Spells.members_head {ms : List (List Char × Json)} (h : Spells (.members ms) t)
    (rest : List Char) : ∃ s, skipBlanks (t ++ rest) = '"' :: s := by
  cases h with
  | member hb₁ =>
      simp only [quote, List.append_assoc, skipBlanks_append hb₁, List.cons_append]
      exact ⟨_, skipBlanks_cons (by decide) _⟩
  | memberAnd hb₁ =>
      simp only [quote, List.append_assoc, skipBlanks_append hb₁, List.cons_append]
      exact ⟨_, skipBlanks_cons (by decide) _⟩

theorem exists_bound {bound : Nat} (h : 2 * t.length ≤ bound) (ht : t ≠ []) :
    ∃ k, bound = k + 1 :=
  Nat.exists_eq_add_one.mpr (Nat.lt_of_lt_of_le (by have := List.length_pos_iff.mpr ht; omega) h)

theorem stops_cons {c : Char} (h : c.isDigit = false ∧ c ≠ '.' ∧ c ≠ 'e' ∧ c ≠ 'E')
    (t : List Char) : Stops (c :: t) := by
  rintro d hd
  cases hd
  exact h

/-- Whatever spells a piece is read as this piece. -/
theorem reads_of_spells {p : Piece} (h : Spells p t) : p.Read t := by
  induction h with
  | null =>
      intro bound rest _ hbound
      obtain ⟨bound, rfl⟩ := exists_bound hbound (by decide)
      simp [value?, skipBlanks, isBlank]
  | bool b =>
      intro bound rest _ hbound
      obtain ⟨bound, rfl⟩ := exists_bound hbound (by cases b <;> decide)
      cases b <;> simp [value?, skipBlanks, isBlank]
  | number hs =>
      intro bound rest hrest hbound
      obtain ⟨c, s, rfl, hc⟩ := hs.head
      obtain ⟨bound, rfl⟩ := exists_bound hbound (by simp)
      rw [List.cons_append, value?_number hc, ← List.cons_append, hs.number?_append hrest]
      rfl
  | text hs =>
      intro bound rest _ hbound
      obtain ⟨bound, rfl⟩ := exists_bound hbound (by simp [quote])
      simp [quote, value?, skipBlanks, isBlank, hs.spelling?_append]
  | noItems hb =>
      intro bound rest _ hbound
      obtain ⟨bound, rfl⟩ := exists_bound hbound (by simp)
      simp [value?, skipBlanks_cons, isBlank, skipBlanks_append hb]
  | @array vs t hitems ih =>
      intro bound rest _ hbound
      obtain ⟨bound, rfl⟩ := exists_bound hbound (by simp)
      obtain ⟨c, s, hs, hc⟩ := hitems.items_head (']' :: rest)
      have hread := ih bound rest (by simp at hbound; omega)
      rw [← items?_skipBlanks, hs] at hread
      simp [value?, skipBlanks_cons, isBlank, hs, hc, hread]
  | noMembers hb =>
      intro bound rest _ hbound
      obtain ⟨bound, rfl⟩ := exists_bound hbound (by simp)
      simp [value?, skipBlanks_cons, isBlank, skipBlanks_append hb]
  | @object ms t hmembers ih =>
      intro bound rest _ hbound
      obtain ⟨bound, rfl⟩ := exists_bound hbound (by simp)
      obtain ⟨s, hs⟩ := hmembers.members_head ('\x7d' :: rest)
      have hread := ih bound rest (by simp at hbound; omega)
      rw [← members?_skipBlanks, hs] at hread
      simp [value?, skipBlanks_cons, isBlank, hs, hread]
  | @item b₁ b₂ t v hb₁ _ hb₂ ih =>
      intro bound rest hbound
      obtain ⟨bound, rfl⟩ := Nat.exists_eq_add_one.mpr (Nat.lt_of_lt_of_le (by simp) hbound)
      have hstops : Stops (b₂ ++ ']' :: rest) := (stops_cons (by decide) rest).blank_append hb₂
      have hread := ih bound _ hstops (by simp at hbound; omega)
      rw [← value?_skipBlanks, ← skipBlanks_append hb₁, value?_skipBlanks] at hread
      simp [items?, hread, skipBlanks_append hb₂, skipBlanks_cons, isBlank]
  | @itemAnd b₁ b₂ t ts v vs hb₁ _ hb₂ _ ih ih' =>
      intro bound rest hbound
      obtain ⟨bound, rfl⟩ := Nat.exists_eq_add_one.mpr (Nat.lt_of_lt_of_le (by simp) hbound)
      have hstops : Stops (b₂ ++ ',' :: (ts ++ ']' :: rest)) :=
        (stops_cons (by decide) _).blank_append hb₂
      have hread := ih bound _ hstops (by simp at hbound; omega)
      have hmore := ih' bound rest (by simp at hbound; omega)
      rw [← value?_skipBlanks, ← skipBlanks_append hb₁, value?_skipBlanks] at hread
      simp [items?, hread, hmore, skipBlanks_append hb₂, skipBlanks_cons, isBlank]
  | @member b₁ b₂ b₃ b₄ key t v hb₁ hkey hb₂ hb₃ _ hb₄ ih =>
      intro bound rest hbound
      obtain ⟨bound, rfl⟩ := Nat.exists_eq_add_one.mpr (Nat.lt_of_lt_of_le (by simp) hbound)
      have hstops : Stops (b₄ ++ '\x7d' :: rest) := (stops_cons (by decide) rest).blank_append hb₄
      have hread := ih bound _ hstops (by simp at hbound; omega)
      rw [← value?_skipBlanks, ← skipBlanks_append hb₃, value?_skipBlanks] at hread
      simp [members?, quote, skipBlanks_append hb₁, skipBlanks_append hb₂, skipBlanks_append hb₄,
        skipBlanks_cons, isBlank, hkey.spelling?_append, hread]
  | @memberAnd b₁ b₂ b₃ b₄ key t ts v ms hb₁ hkey hb₂ hb₃ _ hb₄ _ ih ih' =>
      intro bound rest hbound
      obtain ⟨bound, rfl⟩ := Nat.exists_eq_add_one.mpr (Nat.lt_of_lt_of_le (by simp) hbound)
      have hstops : Stops (b₄ ++ ',' :: (ts ++ '\x7d' :: rest)) :=
        (stops_cons (by decide) _).blank_append hb₄
      have hread := ih bound _ hstops (by simp at hbound; omega)
      have hmore := ih' bound rest (by simp at hbound; omega)
      rw [← value?_skipBlanks, ← skipBlanks_append hb₃, value?_skipBlanks] at hread
      simp [members?, quote, skipBlanks_append hb₁, skipBlanks_append hb₂, skipBlanks_append hb₄,
        skipBlanks_cons, isBlank, hkey.spelling?_append, hread, hmore]

/-- A whole text spells a document, with nothing but blanks around it. -/
def SpelledBy (j : Json) (s : String) : Prop :=
  ∃ b t b', Blank b ∧ Spells (.value j) t ∧ Blank b' ∧ s = String.ofList (b ++ t ++ b')

/-- What spells a document is read as this document. -/
theorem parse?_of_spelledBy {j : Json} {s : String} (h : j.SpelledBy s) : parse? s = some j := by
  obtain ⟨b, t, b', hb, hspells, hb', rfl⟩ := h
  have hskip : skipBlanks b' = [] := by simpa [skipBlanks] using skipBlanks_append hb' []
  have hstops : Stops b' := by
    simpa using Stops.blank_append (t := []) (by simp [Stops]) hb'
  have hread := reads_of_spells hspells (2 * (b ++ t ++ b').length + 2) b' hstops
    (by simp; omega)
  rw [← value?_skipBlanks, ← skipBlanks_append hb, value?_skipBlanks] at hread
  rw [← List.append_assoc] at hread
  rw [parse?, String.length_ofList, String.toList_ofList, hread]
  simp [hskip]

end Json

end ScriptMachine
