/-! Steps over a state, of which each may fail and keeps the state that it has come to, and results
of a list, of which the first error counts. -/

namespace ScriptMachine

variable {ε σ α β : Type}

/-! ### Sequences -/

theorem bind_eq_ok_iff {x : EStateM ε σ α} {g : α → EStateM ε σ β}
    {s t : σ} {b : β} :
    (x >>= g) s = .ok b t ↔ ∃ a r, x s = .ok a r ∧ g a r = .ok b t := by
  change EStateM.bind x g s = _ ↔ _
  rw [EStateM.bind]
  constructor
  · intro h
    cases hx : x s with
    | ok a r => exact ⟨a, r, rfl, by simpa [hx] using h⟩
    | error e r => simp [hx] at h
  · rintro ⟨a, r, hx, hg⟩
    simpa [hx] using hg

theorem bind_eq_error_iff {x : EStateM ε σ α} {g : α → EStateM ε σ β}
    {s t : σ} {e : ε} :
    (x >>= g) s = .error e t ↔
      x s = .error e t ∨ ∃ a r, x s = .ok a r ∧ g a r = .error e t := by
  change EStateM.bind x g s = _ ↔ _
  rw [EStateM.bind]
  constructor
  · intro h
    cases hx : x s with
    | ok a r => exact .inr ⟨a, r, rfl, by simpa [hx] using h⟩
    | error e' r => exact .inl (by simpa [hx] using h)
  · rintro (hx | ⟨a, r, hx, hg⟩)
    · simp [hx]
    · simpa [hx] using hg

theorem discard_eq (x : EStateM ε σ α) :
    Functor.discard x = x >>= fun _ => pure () := by
  simp [Functor.discard, map_const]

/-! ### Parts of the state -/

/-- Steps that leave a part of the state alone, whether they succeed or not. -/
structure Keeps {γ : Type} (part : σ → γ) (x : EStateM ε σ α) : Prop where
  ok {s t : σ} {v : α} : x s = .ok v t → part t = part s
  error {s t : σ} {e : ε} : x s = .error e t → part t = part s

namespace Keeps

variable {γ : Type} {part : σ → γ} {x : EStateM ε σ α} {g : α → EStateM ε σ β}

theorem pure (v : α) : Keeps part (Pure.pure v : EStateM ε σ α) :=
  ⟨fun h => by cases h; rfl, (by cases ·)⟩

theorem throw (e : ε) : Keeps part (throw e : EStateM ε σ α) :=
  ⟨(by cases ·), fun h => by cases h; rfl⟩

theorem modify {next : σ → σ} (h : ∀ s, part (next s) = part s) :
    Keeps part (modify next : EStateM ε σ Unit) :=
  ⟨fun hok => by cases hok; exact h _, (by cases ·)⟩

/-- What only looks at the state keeps all of it. -/
theorem look {g : σ → Except ε α} (h : ∀ s, x s = match g s with
    | .ok v => .ok v s
    | .error e => .error e s) : Keeps part x := by
  constructor
  · intro s t v hok
    rw [h] at hok
    split at hok <;> cases hok
    rfl
  · intro s t e herror
    rw [h] at herror
    split at herror <;> cases herror
    rfl

theorem bind (hx : Keeps part x) (hg : ∀ v, Keeps part (g v)) : Keeps part (x >>= g) := by
  constructor
  · intro s t w h
    obtain ⟨v, r, hfirst, hsecond⟩ := bind_eq_ok_iff.mp h
    rw [(hg v).ok hsecond, hx.ok hfirst]
  · intro s t e h
    rcases bind_eq_error_iff.mp h with hfirst | ⟨v, r, hfirst, hsecond⟩
    · exact hx.error hfirst
    · rw [(hg v).error hsecond, hx.ok hfirst]

theorem map (f : α → β) (hx : Keeps part x) : Keeps part (f <$> x) := by
  rw [map_eq_pure_bind]
  exact hx.bind fun _ => pure _

theorem discard (hx : Keeps part x) : Keeps part (Functor.discard x) := by
  rw [discard_eq]
  exact hx.bind fun _ => pure _

end Keeps

/-! ### Results of a list -/

section Results

variable {f : α → Except ε β} {l : List α} {e : ε}

theorem map_eq_error_iff {g : α → β} {x : Except ε α} :
    x.map g = .error e ↔ x = .error e := by
  cases x <;> simp [Except.map]

theorem exists_map_eq_ok_iff {g : α → β} {x : Except ε α} :
    (∃ v, x.map g = .ok v) ↔ ∃ v, x = .ok v := by
  cases x <;> simp [Except.map]

theorem mapM_cons_eq_error_iff {a : α} : (a :: l).mapM f = .error e ↔
    f a = .error e ∨ (∃ v, f a = .ok v) ∧ l.mapM f = .error e := by
  rw [List.mapM_cons]
  cases f a with
  | error e' => simp [bind, Except.bind]
  | ok v => cases l.mapM f <;> simp [bind, Except.bind, pure, Except.pure]

/-- The error is that of the first element with one. -/
theorem mapM_eq_error_iff : l.mapM f = .error e ↔
    ∃ front a rest, l = front ++ a :: rest ∧ (∀ c ∈ front, ∃ v, f c = .ok v) ∧ f a = .error e := by
  induction l with
  | nil => simp [pure, Except.pure]
  | cons a l ih =>
      rw [mapM_cons_eq_error_iff, ih]
      constructor
      · rintro (ha | ⟨hok, front, c, rest, rfl, hfront, hc⟩)
        · exact ⟨[], a, l, rfl, by simp, ha⟩
        · exact ⟨a :: front, c, rest, rfl, List.forall_mem_cons.mpr ⟨hok, hfront⟩, hc⟩
      · rintro ⟨_ | ⟨d, front⟩, c, rest, hl, hfront, hc⟩
        · cases hl
          exact .inl hc
        · cases hl
          rw [List.forall_mem_cons] at hfront
          exact .inr ⟨hfront.1, front, c, rest, rfl, hfront.2, hc⟩

theorem exists_mapM_eq_ok_iff : (∃ vs, l.mapM f = .ok vs) ↔ ∀ a ∈ l, ∃ v, f a = .ok v := by
  induction l with
  | nil => simp [pure, Except.pure]
  | cons a l ih =>
      rw [List.forall_mem_cons, ← ih, List.mapM_cons]
      cases f a with
      | error e => simp [bind, Except.bind]
      | ok v => cases l.mapM f <;> simp [bind, Except.bind, pure, Except.pure]

theorem mapM_congr {g : α → Except ε β} (h : ∀ a ∈ l, f a = g a) : l.mapM f = l.mapM g := by
  induction l with
  | nil => rfl
  | cons a l ih =>
      rw [List.forall_mem_cons] at h
      rw [List.mapM_cons, List.mapM_cons, h.1, ih h.2]

theorem exists_eq_map_ok {xs : List (Except ε α)} {P : α → Prop}
    (h : ∀ x ∈ xs, ∃ a, x = .ok a ∧ P a) : ∃ l : List α, xs = l.map .ok ∧ ∀ a ∈ l, P a := by
  induction xs with
  | nil => exact ⟨[], rfl, by simp⟩
  | cons x xs ih =>
      rw [List.forall_mem_cons] at h
      obtain ⟨⟨a, rfl, ha⟩, hrest⟩ := h
      obtain ⟨l, rfl, hl⟩ := ih hrest
      exact ⟨a :: l, rfl, List.forall_mem_cons.mpr ⟨ha, hl⟩⟩

end Results

end ScriptMachine
