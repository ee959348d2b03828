import ScriptMachine.Proofs.Json.Grammar

/-! Indented documents. What is written spells the document, so it is read back as the document. -/

namespace ScriptMachine

namespace Json

/-- The numbers and texts of a document are spelled as the grammar wants. -/
inductive WellSpelled : Json → Prop where
  | null : WellSpelled .null
  | bool (b : Bool) : WellSpelled (.bool b)
  | number {s : List Char} : Numeral s → WellSpelled (.number s)
  | text {s : List Char} : Spelling s → WellSpelled (.text s)
  | array {vs : List Json} : (∀ v ∈ vs, WellSpelled v) → WellSpelled (.array vs)
  | object {ms : List (List Char × Json)} : (∀ m ∈ ms, Spelling m.1) →
      (∀ m ∈ ms, WellSpelled m.2) → WellSpelled (.object ms)

/-! ### Items and members on lines of their own -/

theorem blank_newline (indent : Nat) : Blank (newline indent) := by
  intro c hc
  rcases List.mem_cons.mp hc with rfl | hc
  · rfl
  · rw [List.eq_of_mem_replicate hc]
    rfl

theorem spells_items {indent : Nat} {b b' : List Char} (hb : Blank b) (hb' : Blank b') (v : Json)
    (vs : List Json) (h : ∀ w ∈ v :: vs, Spells (.value w) (pretty indent w)) :
    Spells (.items (v :: vs))
      (b ++ separated (',' :: b) (prettyItems indent (v :: vs)) ++ b') := by
  induction vs generalizing v with
  | nil => exact .item hb (h v List.mem_cons_self) hb'
  | cons w vs ih =>
      have hmore := ih w fun x hx => h x (List.mem_cons_of_mem v hx)
      have hitem := Spells.itemAnd hb (h v List.mem_cons_self) blank_nil hmore
      simpa [prettyItems, separated] using hitem

theorem spells_members {indent : Nat} {b b' : List Char} (hb : Blank b) (hb' : Blank b')
    (m : List Char × Json) (ms : List (List Char × Json)) (hkeys : ∀ n ∈ m :: ms, Spelling n.1)
    (h : ∀ n ∈ m :: ms, Spells (.value n.2) (pretty indent n.2)) :
    Spells (.members (m :: ms))
      (b ++ separated (',' :: b) (prettyMembers indent (m :: ms)) ++ b') := by
  have hspace : Blank [' '] := by simp [Blank, isBlank]
  induction ms generalizing m with
  | nil =>
      have hmember := Spells.member hb (hkeys m List.mem_cons_self) blank_nil hspace
        (h m List.mem_cons_self) hb'
      simpa [prettyMembers, separated] using hmember
  | cons n ms ih =>
      have hmore := ih n (fun x hx => hkeys x (List.mem_cons_of_mem m hx))
        fun x hx => h x (List.mem_cons_of_mem m hx)
      have hmember := Spells.memberAnd hb (hkeys m List.mem_cons_self) blank_nil hspace
        (h m List.mem_cons_self) blank_nil hmore
      simpa [prettyMembers, separated] using hmember

/-- What is written spells the document. -/
theorem WellSpelled.spells_pretty {j : Json} (h : j.WellSpelled) (indent : Nat) :
    Spells (.value j) (pretty indent j) := by
  induction h generalizing indent with
  | null => exact .null
  | bool b => exact .bool b
  | number hs => exact .number hs
  | text hs => exact .text hs
  | @array vs _ ih =>
      cases vs with
      | nil => exact .noItems blank_nil
      | cons v vs =>
          have hitems := spells_items (blank_newline (indent + 2)) (blank_newline indent) v vs
            fun w hw => ih w hw (indent + 2)
          simpa [pretty, prettyItems, enclosed] using hitems.array
  | @object ms hkeys _ ih =>
      cases ms with
      | nil => exact .noMembers blank_nil
      | cons m ms =>
          have hmembers := spells_members (blank_newline (indent + 2)) (blank_newline indent) m ms
            hkeys fun n hn => ih n hn (indent + 2)
          simpa [pretty, prettyMembers, enclosed] using hmembers.object

theorem WellSpelled.spelledBy_pretty {j : Json} (h : j.WellSpelled) :
    j.SpelledBy (String.ofList (pretty 0 j)) :=
  ⟨[], pretty 0 j, [], blank_nil, h.spells_pretty 0, blank_nil, by simp⟩

/-! ### Numbers -/

theorem digits_toDigits (n : Nat) : Digits (Nat.toDigits 10 n) :=
  ⟨Nat.toDigits_ne_nil, fun _ hc => Nat.isDigit_of_mem_toDigits (by decide) (by decide) hc⟩

/-- A natural number is written without a leading zero. -/
theorem whole_toDigits (n : Nat) : Whole (Nat.toDigits 10 n) := by
  by_cases hzero : n = 0
  · subst hzero
    exact .zero
  · suffices h : ∃ d ds, Nat.toDigits 10 n = d :: ds ∧ d ≠ '0' by
      obtain ⟨d, ds, heq, hd⟩ := h
      rw [heq]
      exact .digits hd (heq ▸ digits_toDigits n)
    induction n using Nat.strongRecOn with
    | ind n ih =>
        by_cases hsmall : n < 10
        · have hdigit : ∀ k < 10, k ≠ 0 → k.digitChar ≠ '0' := by decide
          exact ⟨n.digitChar, [], Nat.toDigits_of_lt_base hsmall, hdigit n hsmall hzero⟩
        · obtain ⟨d, ds, heq, hd⟩ := ih (n / 10) (by omega) (by omega)
          rw [Nat.toDigits_of_base_le (by decide) (Nat.le_of_not_lt hsmall), heq]
          exact ⟨d, _, rfl, hd⟩

theorem numeral_toDigits (n : Nat) : Numeral (Nat.toDigits 10 n) := by
  simpa using Numeral.parts (.inl rfl) (whole_toDigits n) .absent .absent

theorem ofNat_eq (n : Nat) : ofNat n = .number (Nat.toDigits 10 n) := by
  simp [ofNat, toString, Nat.repr]

/-- A natural number is read back. -/
theorem nat?_ofNat (n : Nat) : (ofNat n).nat? = some n := by
  have hdigits : (Nat.toDigits 10 n).all Char.isDigit = true :=
    List.all_eq_true.mpr (digits_toDigits n).digits
  have hvalue := Nat.ofDigitChars_toDigits (b := 10) (n := n) (by decide) (by decide)
  simp only [ofNat_eq, nat?, if_pos hdigits]
  simpa [Nat.ofDigitChars, Nat.mul_comm] using hvalue

end Json

end ScriptMachine
