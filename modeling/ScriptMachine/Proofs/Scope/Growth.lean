import ScriptMachine.Proofs.Scope.Resolution

/-! How scopes change while scripts run. Bindings come and go, and new scopes are opened, each
inside one that exists. The way outward from a scope stays what it was when the scope was made. -/

namespace ScriptMachine

namespace Scopes

variable {s t u : Scopes} {d e p outer : ScopeId} {name n : String} {b : Binding}

/-! ### Single changes -/

@[simp]
theorem size_bind (s : Scopes) (e : ScopeId) (name : String) (b : Binding) :
    (s.bind e name b).cells.size = s.cells.size := by
  simp [bind]

@[simp]
theorem size_unbind (s : Scopes) (e : ScopeId) (name : String) :
    (s.unbind e name).cells.size = s.cells.size := by
  simp [unbind]

@[simp]
theorem size_enclose (s : Scopes) (e : ScopeId) :
    (s.enclose e).2.cells.size = s.cells.size + 1 := by
  simp [enclose]

theorem parent_enclose (s : Scopes) (e d : ScopeId) :
    (s.enclose e).2.parent d = if d = s.cells.size then some e else s.parent d := by
  simp only [enclose, parent, scope, Array.getD_eq_getD_getElem?, Array.getElem?_push]
  split <;> rfl

/-- A new scope binds nothing. -/
theorem binding?_enclose (s : Scopes) (e d : ScopeId) (name : String) :
    (s.enclose e).2.binding? d name = s.binding? d name := by
  simp only [enclose, binding?, scope, Array.getD_eq_getD_getElem?, Array.getElem?_push]
  split
  · rename_i hnew
    subst hnew
    simp
  · rfl

/-- To bind a name changes no other binding, whether the scope exists or not. -/
theorem binding?_bind_of_ne (h : ¬(d = e ∧ n = name)) :
    (s.bind e name b).binding? d n = s.binding? d n := by
  simp only [binding?, bind, scope_modify]
  split
  · rename_i hsame
    obtain ⟨rfl, -⟩ := hsame
    rw [Dict.get?_insert, if_neg fun hname => h ⟨rfl, hname⟩]
  · rfl

theorem binding?_bind_or (s : Scopes) (e d : ScopeId) (name n : String) (b : Binding) :
    (s.bind e name b).binding? d n = some b ∨ (s.bind e name b).binding? d n = s.binding? d n := by
  by_cases hsame : d = e ∧ n = name
  · obtain ⟨rfl, rfl⟩ := hsame
    by_cases hd : d < s.cells.size
    · exact .inl (by rw [binding?_bind hd, if_pos ⟨rfl, rfl⟩])
    · exact .inr (by simp only [binding?, bind, scope_modify, hd, and_false, if_false])
  · exact .inr (binding?_bind_of_ne hsame)

/-- The scopes `t` are `s`, except for the bindings of `e`. -/
structure AgreesOff (s : Scopes) (e : ScopeId) (t : Scopes) : Prop where
  binding? : ∀ d ≠ e, ∀ name, t.binding? d name = s.binding? d name
  parent : ∀ d, t.parent d = s.parent d
  size : t.cells.size = s.cells.size

namespace AgreesOff

theorem refl (s : Scopes) (e : ScopeId) : s.AgreesOff e s :=
  ⟨fun _ _ _ => rfl, fun _ => rfl, rfl⟩

theorem trans (h : s.AgreesOff e t) (h' : t.AgreesOff e u) : s.AgreesOff e u where
  binding? d hd name := (h'.binding? d hd name).trans (h.binding? d hd name)
  parent d := (h'.parent d).trans (h.parent d)
  size := h'.size.trans h.size

theorem bind (s : Scopes) (e : ScopeId) (name : String) (b : Binding) :
    s.AgreesOff e (s.bind e name b) where
  binding? _ hd _ := binding?_bind_of_ne fun h => hd h.1
  parent d := s.parent_bind e d name b
  size := by simp

theorem unbind (s : Scopes) (e : ScopeId) (name : String) : s.AgreesOff e (s.unbind e name) where
  binding? d hd n := by rw [binding?_unbind, if_neg fun h => hd h.1]
  parent d := s.parent_unbind e d name
  size := by simp

end AgreesOff

/-! ### Ways outward -/

/-- Every scope lies inside one that exists, or in none. -/
def Closed (s : Scopes) : Prop :=
  ∀ e p, s.Inside e p → p < s.cells.size

theorem Closed.lt_of_reaches (hs : s.Closed) (he : e < s.cells.size) (h : s.Reaches e d) :
    d < s.cells.size := by
  induction h with
  | refl => exact he
  | tail _ hp _ => exact hs _ _ hp

/-- The scopes of `s` are still there in `t`, each inside the same scope as before. -/
structure Extends (s t : Scopes) : Prop where
  size_le : s.cells.size ≤ t.cells.size
  parent : ∀ e < s.cells.size, t.parent e = s.parent e

namespace Extends

theorem refl (s : Scopes) : s.Extends s :=
  ⟨Nat.le_refl _, fun _ _ => rfl⟩

theorem trans (h : s.Extends t) (h' : t.Extends u) : s.Extends u where
  size_le := h.size_le.trans h'.size_le
  parent e he := (h'.parent e (he.trans_le h.size_le)).trans (h.parent e he)

theorem of_agreesOff (h : s.AgreesOff e t) : s.Extends t :=
  ⟨h.size.ge, fun d _ => h.parent d⟩

theorem enclose (s : Scopes) (e : ScopeId) : s.Extends (s.enclose e).2 where
  size_le := by simp
  parent d hd := by rw [parent_enclose, if_neg hd.ne]

theorem inside_iff (h : s.Extends t) (he : e < s.cells.size) : t.Inside e p ↔ s.Inside e p := by
  rw [Inside, Inside, h.parent e he]

/-- The way outward from a scope never changes. -/
theorem reaches_iff (h : s.Extends t) (hs : s.Closed) (he : e < s.cells.size) :
    t.Reaches e d ↔ s.Reaches e d := by
  constructor
  · intro hreach
    induction hreach with
    | refl => exact .refl
    | tail _ hp ih => exact ih.tail ((h.inside_iff (hs.lt_of_reaches he ih)).mp hp)
  · intro hreach
    induction hreach with
    | refl => exact .refl
    | tail hway hp ih => exact ih.tail ((h.inside_iff (hs.lt_of_reaches he hway)).mpr hp)

/-- The way outward from a scope inside an old one. -/
theorem reaches_inside_iff (h : s.Extends t) (hs : s.Closed) (he : t.Inside e outer)
    (houter : outer < s.cells.size) : t.Reaches e d ↔ d = e ∨ s.Reaches outer d := by
  rw [Reaches, Relation.ReflTransGen.cases_head_iff, eq_comm (a := e)]
  refine or_congr_right ⟨?_, fun hd => ⟨outer, he, (h.reaches_iff hs houter).mpr hd⟩⟩
  rintro ⟨p, hp, hd⟩
  cases he.symm.trans hp
  exact (h.reaches_iff hs houter).mp hd

end Extends

/-! ### Growth -/

/-- The scopes of `s` are still there in `t`, and each new one lies inside one of them. -/
structure Spawns (s t : Scopes) : Prop extends s.Extends t where
  fresh : ∀ e, s.cells.size ≤ e → e < t.cells.size → ∃ p < s.cells.size, t.Inside e p

namespace Spawns

theorem of_agreesOff (h : s.AgreesOff e t) : s.Spawns t :=
  ⟨.of_agreesOff h, fun d hle hlt => by rw [h.size] at hlt; omega⟩

theorem enclose (he : e < s.cells.size) : s.Spawns (s.enclose e).2 := by
  refine ⟨.enclose s e, fun d hle hlt => ?_⟩
  rw [size_enclose] at hlt
  obtain rfl : d = s.cells.size := by omega
  exact ⟨e, he, by rw [Inside, parent_enclose, if_pos rfl]⟩

theorem agreesOff (h : s.Spawns t) (h' : t.AgreesOff e u) : s.Spawns u := by
  refine ⟨h.toExtends.trans (.of_agreesOff h'), fun d hle hlt => ?_⟩
  obtain ⟨p, hlt, hp⟩ := h.fresh d hle (h'.size ▸ hlt)
  exact ⟨p, hlt, by rwa [Inside, h'.parent]⟩

end Spawns

/-- The scopes of `s` are still there in `t`, and each new one lies inside an older one. -/
structure Grows (s t : Scopes) : Prop extends s.Extends t where
  fresh : ∀ e, s.cells.size ≤ e → e < t.cells.size → ∃ p < e, t.Inside e p

theorem Spawns.grows (h : s.Spawns t) : s.Grows t := by
  refine ⟨h.toExtends, fun e hle hlt => ?_⟩
  obtain ⟨p, hp, hinside⟩ := h.fresh e hle hlt
  exact ⟨p, hp.trans_le hle, hinside⟩

namespace Grows

theorem refl (s : Scopes) : s.Grows s :=
  (Spawns.of_agreesOff (.refl s 0)).grows

theorem trans (h : s.Grows t) (h' : t.Grows u) : s.Grows u := by
  refine ⟨h.toExtends.trans h'.toExtends, fun e hle hlt => ?_⟩
  by_cases he : e < t.cells.size
  · obtain ⟨p, hlt, hp⟩ := h.fresh e hle he
    exact ⟨p, hlt, (h'.inside_iff he).mpr hp⟩
  · exact h'.fresh e (Nat.le_of_not_lt he) hlt

theorem lt_of_inside (h : s.Grows t) (he : s.cells.size ≤ e) (hp : t.Inside e p) : p < e := by
  obtain ⟨q, hlt, hq⟩ := h.fresh e he (lt_size_of_inside hp)
  cases hq.symm.trans hp
  exact hlt

/-- Scopes that grow get no cycle. -/
theorem acyclic (h : s.Grows t) (hs : s.Acyclic) (hclosed : s.Closed) : t.Acyclic := by
  -- from an old scope only old scopes are reached, from a new one only older scopes
  have hold {e d : ScopeId} (he : e < s.cells.size) (hway : Relation.TransGen t.Inside e d) :
      Relation.TransGen s.Inside e d ∧ d < s.cells.size := by
    induction hway with
    | single hp =>
        have hp' := (h.inside_iff he).mp hp
        exact ⟨.single hp', hclosed _ _ hp'⟩
    | tail _ hp ih =>
        have hp' := (h.inside_iff ih.2).mp hp
        exact ⟨ih.1.tail hp', hclosed _ _ hp'⟩
  have hnew {e d : ScopeId} (he : s.cells.size ≤ e) (hway : Relation.TransGen t.Inside e d) :
      d < e := by
    induction hway with
    | single hp => exact h.lt_of_inside he hp
    | @tail c d _ hp ih =>
        by_cases hc : c < s.cells.size
        · exact (hclosed _ _ ((h.inside_iff hc).mp hp)).trans_le he
        · exact (h.lt_of_inside (Nat.le_of_not_lt hc) hp).trans ih
  intro e hcycle
  by_cases he : e < s.cells.size
  · exact hs e (hold he hcycle).1
  · exact Nat.lt_irrefl e (hnew (Nat.le_of_not_lt he) hcycle)

end Grows

end Scopes

end ScriptMachine
