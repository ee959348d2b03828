import Mathlib.Data.List.Chain
import Mathlib.Logic.Relation
import Mathlib.Order.OrderIsoNat
import ScriptMachine.Scope.Basic

/-! How names resolve. As long as no scope lies inside itself, every way outward comes to an end,
and all accessors find the same binding: the nearest one on that way. What they change is this
binding and nothing else. -/

namespace ScriptMachine

namespace Scopes

variable {s t : Scopes} {d d' e p : ScopeId} {name : String} {b b' : Binding}

/-! ### The way outward -/

/-- The scope `e` lies directly inside the scope `p`. -/
def Inside (s : Scopes) (e p : ScopeId) : Prop :=
  s.parent e = some p

/-- The scope `d` is `e` or lies somewhere around it. -/
def Reaches (s : Scopes) (e d : ScopeId) : Prop :=
  Relation.ReflTransGen s.Inside e d

/-- No scope lies inside itself. -/
def Acyclic (s : Scopes) : Prop :=
  ∀ e, ¬ Relation.TransGen s.Inside e e

theorem lt_size_of_inside (h : s.Inside e p) : e < s.cells.size := by
  by_contra hout
  simp [Inside, parent, scope, Array.getD_eq_getD_getElem?, hout] at h

theorem lt_size_of_binding? (h : s.binding? e name = some b) : e < s.cells.size := by
  by_contra hout
  simp [binding?, scope, Array.getD_eq_getD_getElem?, hout] at h

/-- Scopes that lie inside older ones. -/
theorem acyclic_of_lt (h : ∀ e p, s.Inside e p → p < e) : s.Acyclic := by
  have hdown {e d : ScopeId} (hway : Relation.TransGen s.Inside e d) : d < e := by
    induction hway with
    | single hp => exact h _ _ hp
    | tail _ hp ih => exact (h _ _ hp).trans ih
  exact fun e hcycle => (hdown hcycle).false

/-- A way outward that stays among the scopes that exist meets each of them at most once. -/
theorem Acyclic.length_le (hs : s.Acyclic) {l : List ScopeId} (hwalk : l.IsChain s.Inside)
    (hexist : ∀ e ∈ l, e < s.cells.size) : l.length ≤ s.cells.size := by
  have hapart : l.Pairwise (Relation.TransGen s.Inside) :=
    (hwalk.imp fun _ _ => Relation.TransGen.single).pairwise
  have hnodup : l.Nodup := by
    refine hapart.imp ?_
    rintro e _ h rfl
    exact hs e h
  have hsubset : l ⊆ List.range s.cells.size := fun e he => List.mem_range.mpr (hexist e he)
  simpa using (hnodup.subperm hsubset).length_le

/-- Every way outward comes to an end. -/
theorem Acyclic.wellFounded (hs : s.Acyclic) : WellFounded fun p e => s.Inside e p := by
  rw [wellFounded_iff_isEmpty_descending_chain]
  refine ⟨fun ⟨walk, hwalk⟩ => ?_⟩
  have hchain : ((List.range (s.cells.size + 1)).map walk).IsChain s.Inside := by
    rw [List.isChain_map]
    exact (List.isChain_range _ _).mpr fun i _ => hwalk i
  have hle := hs.length_le hchain fun e he => by
    obtain ⟨i, -, rfl⟩ := List.mem_map.mp he
    exact lt_size_of_inside (hwalk i)
  simp only [List.length_map, List.length_range] at hle
  omega

/-! ### The nearest binding -/

/-- On the way outward from `e`, the scope `d` is the first that binds the name, and it binds it to
`b`. -/
inductive Nearest (s : Scopes) (name : String) : ScopeId → ScopeId → Binding → Prop where
  | here {e : ScopeId} {b : Binding} : s.binding? e name = some b → Nearest s name e e b
  | outward {e p d : ScopeId} {b : Binding} : s.binding? e name = none → s.Inside e p →
      Nearest s name p d b → Nearest s name e d b

namespace Nearest

theorem binding? (h : s.Nearest name e d b) : s.binding? d name = some b := by
  induction h with
  | here hb => exact hb
  | outward _ _ _ ih => exact ih

theorem reaches (h : s.Nearest name e d b) : s.Reaches e d := by
  induction h with
  | here => exact .refl
  | outward _ hp _ ih => exact .head hp ih

/-- There is a nearest binding if any scope on the way outward binds the name. -/
theorem exists_of_reaches (h : s.Reaches e d) (hb : s.binding? d name = some b) :
    ∃ d' b', s.Nearest name e d' b' := by
  induction h using Relation.ReflTransGen.head_induction_on with
  | refl => exact ⟨d, b, .here hb⟩
  | @head e p hp _ ih =>
      cases he : s.binding? e name with
      | some b' => exact ⟨e, b', .here he⟩
      | none =>
          obtain ⟨d', b', h⟩ := ih
          exact ⟨d', b', .outward he hp h⟩

/-- The way to the nearest binding, along which the search finds it. -/
theorem exists_walk (h : s.Nearest name e d b) : ∃ l : List ScopeId, (e :: l).IsChain s.Inside ∧
    (∀ x ∈ e :: l, x < s.cells.size) ∧ s.resolveTo name (l.length + 1) e = some (d, b) := by
  induction h with
  | here hb => exact ⟨[], by simp, by simpa using lt_size_of_binding? hb, by simp [resolveTo, hb]⟩
  | @outward e p d b he hp _ ih =>
      obtain ⟨l, hwalk, hexist, hfound⟩ := ih
      refine ⟨p :: l, hwalk.cons_cons hp, ?_, ?_⟩
      · rw [List.forall_mem_cons]
        exact ⟨lt_size_of_inside hp, hexist⟩
      · rw [Inside] at hp
        rw [resolveTo, he, hp]
        exact hfound

/-- Elsewhere the scopes may differ: what counts are the bindings of the name on the way outward. -/
theorem congr (hparent : ∀ x, t.parent x = s.parent x)
    (hbinding : ∀ x, s.Reaches e x → t.binding? x name = s.binding? x name)
    (h : s.Nearest name e d b) : t.Nearest name e d b := by
  induction h with
  | @here e b hb => exact .here (by rw [hbinding e .refl, hb])
  | @outward e p d b he hp _ ih =>
      have hp' : t.Inside e p := by rw [Inside, hparent, hp]
      refine .outward (by rw [hbinding e .refl, he]) hp' (ih fun x hx => ?_)
      exact hbinding x (.head hp hx)

end Nearest

theorem inside_eq (hparent : ∀ x, t.parent x = s.parent x) : t.Inside = s.Inside := by
  funext e p
  rw [Inside, Inside, hparent]

theorem nearest_congr (hparent : ∀ x, t.parent x = s.parent x)
    (hbinding : ∀ x, s.Reaches e x → t.binding? x name = s.binding? x name) :
    t.Nearest name e d b ↔ s.Nearest name e d b := by
  refine ⟨Nearest.congr (fun x => (hparent x).symm) fun x hx => ?_, Nearest.congr hparent hbinding⟩
  rw [Reaches, inside_eq hparent] at hx
  exact (hbinding x hx).symm

/-! ### Resolution -/

/-- A longer search finds what a shorter one has found. -/
theorem resolveTo_add {bound : Nat} {r : ScopeId × Binding}
    (h : s.resolveTo name bound e = some r) (more : Nat) :
    s.resolveTo name (bound + more) e = some r := by
  induction bound generalizing e with
  | zero => cases h
  | succ bound ih =>
      rw [Nat.add_right_comm, resolveTo]
      rw [resolveTo] at h
      cases he : s.binding? e name with
      | some b =>
          rw [he] at h
          exact h
      | none =>
          rw [he] at h
          cases hp : s.parent e with
          | none =>
              rw [hp] at h
              cases h
          | some p =>
              rw [hp] at h
              exact ih h

/-- Scopes that do not lie around `e` make no difference to the search. -/
theorem resolveTo_congr (hway : ∀ d, s.Reaches e d →
    t.parent d = s.parent d ∧ t.binding? d name = s.binding? d name) (bound : Nat) :
    t.resolveTo name bound e = s.resolveTo name bound e := by
  induction bound generalizing e with
  | zero => rfl
  | succ bound ih =>
      obtain ⟨hparent, hbinding⟩ := hway e .refl
      rw [resolveTo, resolveTo, hparent, hbinding]
      cases s.binding? e name with
      | some b => rfl
      | none =>
          cases hp : s.parent e with
          | none => rfl
          | some p => exact ih fun d hd => hway d (.head hp hd)

theorem nearest_of_resolveTo {bound : Nat} (h : s.resolveTo name bound e = some (d, b)) :
    s.Nearest name e d b := by
  induction bound generalizing e with
  | zero => cases h
  | succ bound ih =>
      rw [resolveTo] at h
      cases he : s.binding? e name with
      | some b' =>
          rw [he] at h
          cases h
          exact .here he
      | none =>
          rw [he] at h
          cases hp : s.parent e with
          | none =>
              rw [hp] at h
              cases h
          | some p =>
              rw [hp] at h
              exact .outward he hp (ih h)

/-- The search stops at the nearest binding, and it is never cut short. -/
theorem resolve?_eq_some_iff (hs : s.Acyclic) :
    s.resolve? e name = some (d, b) ↔ s.Nearest name e d b := by
  refine ⟨nearest_of_resolveTo, fun h => ?_⟩
  obtain ⟨l, hwalk, hexist, hfound⟩ := h.exists_walk
  have hle := hs.length_le hwalk hexist
  rw [List.length_cons] at hle
  rw [resolve?, ← Nat.add_sub_cancel' hle]
  exact resolveTo_add hfound _

theorem resolve?_eq_none_iff (hs : s.Acyclic) :
    s.resolve? e name = none ↔ ∀ d, s.Reaches e d → s.binding? d name = none := by
  constructor
  · intro hnone d hd
    by_contra hbound
    obtain ⟨b, hb⟩ := Option.ne_none_iff_exists'.mp hbound
    obtain ⟨d', b', h⟩ := Nearest.exists_of_reaches hd hb
    rw [(resolve?_eq_some_iff hs).mpr h] at hnone
    cases hnone
  · intro hunbound
    by_contra hfound
    obtain ⟨⟨d, b⟩, hr⟩ := Option.ne_none_iff_exists'.mp hfound
    have h := (resolve?_eq_some_iff hs).mp hr
    have hb := h.binding?
    rw [hunbound d h.reaches] at hb
    cases hb

/-- A search is never cut short by the bound on its length. -/
theorem resolveTo_of_le (hs : s.Acyclic) {bound : Nat} (hbound : s.cells.size ≤ bound) :
    s.resolveTo name bound e = s.resolve? e name := by
  rw [← Nat.add_sub_cancel' hbound]
  cases hresolve : s.resolve? e name with
  | some r => exact resolveTo_add hresolve _
  | none =>
      by_contra hfound
      obtain ⟨r, hr⟩ := Option.ne_none_iff_exists'.mp hfound
      rw [(resolve?_eq_some_iff hs).mpr (nearest_of_resolveTo hr)] at hresolve
      cases hresolve

/-- Every search outward, for a lookup, an assignment or a removal, comes to an end by itself. -/
structure Terminates (s : Scopes) : Prop where
  wellFounded : WellFounded fun p e => s.Inside e p
  lookups : ∀ e name bound, s.cells.size ≤ bound → s.resolveTo name bound e = s.resolve? e name
  assignments : ∀ e name bound, s.cells.size ≤ bound →
    s.assignableTo name bound e = s.assignable e name
  removals : ∀ e name bound, s.cells.size ≤ bound → s.unsetTo name bound e = s.unset e name

theorem Acyclic.terminates (hs : s.Acyclic) : s.Terminates where
  wellFounded := hs.wellFounded
  lookups _ _ _ hbound := resolveTo_of_le hs hbound
  assignments _ _ _ hbound := by rw [assignableTo_eq, assignable_eq, resolveTo_of_le hs hbound]
  removals _ _ _ hbound := by rw [unsetTo_eq, unset_eq, resolveTo_of_le hs hbound]

/-! ### Changes of one binding -/

/-- The scopes `t` are `s`, except that `d` binds the name as given, or no longer. -/
structure Rebinds (s : Scopes) (d : ScopeId) (name : String) (b? : Option Binding)
    (t : Scopes) : Prop where
  binding? : ∀ x n, t.binding? x n = if x = d ∧ n = name then b? else s.binding? x n
  parent : ∀ x, t.parent x = s.parent x
  size : t.cells.size = s.cells.size

theorem rebinds_bind (h : d < s.cells.size) (name : String) (b : Binding) :
    s.Rebinds d name (some b) (s.bind d name b) where
  binding? x n := binding?_bind h x name n b
  parent x := s.parent_bind d x name b
  size := by simp [bind]

theorem rebinds_unbind (s : Scopes) (d : ScopeId) (name : String) :
    s.Rebinds d name none (s.unbind d name) where
  binding? x n := s.binding?_unbind d x name n
  parent x := s.parent_unbind d x name
  size := by simp [unbind]

/-- Once the nearest binding is removed, the nearest one outside of its scope shows. -/
theorem Rebinds.nearest_iff (hs : s.Acyclic) (ht : s.Rebinds d name none t)
    (h : s.Nearest name e d b) :
    t.Nearest name e d' b' ↔ ∃ p, s.Inside d p ∧ s.Nearest name p d' b' := by
  have hinside : t.Inside = s.Inside := inside_eq ht.parent
  induction h with
  | @here d b hb =>
      have hgone : t.binding? d name = none := by simp [ht.binding?]
      have houter {p : ScopeId} (hp : s.Inside d p) :
          t.Nearest name p d' b' ↔ s.Nearest name p d' b' := by
        refine nearest_congr ht.parent fun x hx => ?_
        have hne : x ≠ d := by
          rintro rfl
          exact hs x (.head' hp hx)
        simp [ht.binding?, hne]
      constructor
      · intro h
        cases h with
        | here hb' =>
            rw [hgone] at hb'
            cases hb'
        | @outward _ p _ _ _ hp h =>
            rw [hinside] at hp
            exact ⟨p, hp, (houter hp).mp h⟩
      · rintro ⟨p, hp, h⟩
        exact .outward hgone (hinside ▸ hp) ((houter hp).mpr h)
  | @outward e p d b he hp h ih =>
      have he' : t.binding? e name = none := by
        rw [ht.binding?]
        split
        · rfl
        · exact he
      refine .trans ⟨fun h => ?_, .outward he' (hinside ▸ hp)⟩ (ih ht)
      cases h with
      | here hb' =>
          rw [he'] at hb'
          cases hb'
      | @outward _ p' _ _ _ hp' h =>
          rw [hinside, Inside, hp] at hp'
          cases hp'
          exact h

/-! ### Accessors -/

/-- What the accessors do with a name that resolves to the binding `b` of the scope `d`. -/
structure Answers (s : Scopes) (e : ScopeId) (name : String) (d : ScopeId) (b : Binding) :
    Prop where
  get : s.get e name = .ok b.value
  isConst : s.isConst e name = b.readonly
  set : b.readonly = false → ∀ v, ∃ t, s.set e name v = .ok t ∧
    s.Rebinds d name (some { b with value := v }) t
  refuses : b.readonly = true → ∀ v, s.set e name v = .error (.constantViolation name)
  unset : ∃ t, s.unset e name = (some b.value, t) ∧ s.Rebinds d name none t ∧
    ∀ d' b', t.Nearest name e d' b' ↔ ∃ p, s.Inside d p ∧ s.Nearest name p d' b'

/-- What they do with a name that no scope on the way outward binds. -/
structure Lacks (s : Scopes) (e : ScopeId) (name : String) : Prop where
  get : s.get e name = .error (.notDefined name)
  isConst : s.isConst e name = false
  set : ∀ v, s.set e name v = .error (.notDefined name)
  unset : s.unset e name = (none, s)

/-- What the accessors of one scope do. They answer what the scope itself binds the name to, whatever
lies around it, and change no other binding. -/
structure Local (s : Scopes) (e : ScopeId) (name : String) : Prop where
  create : s.binding? e name = none → ∀ v, ∃ t, s.create e name v = .ok t ∧
    s.Rebinds e name (some ⟨v, false⟩) t
  createConst : s.binding? e name = none → ∀ v, ∃ t, s.createConst e name v = .ok t ∧
    s.Rebinds e name (some ⟨v, true⟩) t
  occupied : s.binding? e name ≠ none → ∀ v, s.create e name v = .error (.alreadyDefined name) ∧
    s.createConst e name v = .error (.alreadyDefined name)
  setForce : ∀ v readonly, s.Rebinds e name (some ⟨v, readonly⟩) (s.setForce e name v readonly)
  unsetLocal : (s.unsetLocal e name).1 = (s.binding? e name).map (·.value) ∧
    s.Rebinds e name none (s.unsetLocal e name).2
  bound : ∀ b, s.binding? e name = some b → s.getLocal? e name = some b.value ∧
    s.isConstLocal e name = b.readonly ∧ s.containsLocal e name = true
  unbound : s.binding? e name = none → s.getLocal? e name = none ∧
    s.isConstLocal e name = false ∧ s.containsLocal e name = false
  looks : ∀ t : Scopes, t.binding? e name = s.binding? e name →
    t.getLocal? e name = s.getLocal? e name ∧ t.isConstLocal e name = s.isConstLocal e name ∧
      t.containsLocal e name = s.containsLocal e name

theorem answers_of_nearest (hs : s.Acyclic) (h : s.Nearest name e d b) :
    s.Answers e name d b := by
  have hresolve := (resolve?_eq_some_iff hs).mpr h
  have hd := lt_size_of_binding? h.binding?
  refine ⟨?_, ?_, fun hwritable v => ?_, fun hreadonly v => ?_, ?_⟩
  · rw [get, hresolve]
  · rw [isConst, hresolve, Option.any_some]
  · refine ⟨_, ?_, rebinds_bind hd name _⟩
    simp [set, assignable_eq, hresolve, hwritable, Except.map]
  · simp [set, assignable_eq, hresolve, hreadonly, Except.map]
  · refine ⟨s.unbind d name, by rw [unset_eq, hresolve], s.rebinds_unbind d name, fun d' b' => ?_⟩
    exact (s.rebinds_unbind d name).nearest_iff hs h

theorem lacks_of_unbound (hs : s.Acyclic)
    (h : ∀ d, s.Reaches e d → s.binding? d name = none) : s.Lacks e name := by
  have hresolve := (resolve?_eq_none_iff hs).mpr h
  refine ⟨?_, ?_, fun v => ?_, ?_⟩
  · rw [get, hresolve]
  · rw [isConst, hresolve, Option.any_none]
  · simp [set, assignable_eq, hresolve, Except.map]
  · rw [unset_eq, hresolve]

theorem local_of_lt (he : e < s.cells.size) (name : String) : s.Local e name := by
  have hdeclare (b : Binding) (h : s.binding? e name = none) :
      s.declare e name b = .ok (s.bind e name b) := by
    simp [declare, vacant, containsLocal, h, Except.map]
  refine ⟨fun h v => ⟨_, hdeclare _ h, rebinds_bind he name _⟩,
    fun h v => ⟨_, hdeclare _ h, rebinds_bind he name _⟩, fun h v => ?_,
    fun v readonly => rebinds_bind he name _, ⟨rfl, s.rebinds_unbind e name⟩, fun b h => ?_,
    fun h => ?_, fun t ht => ?_⟩
  · have hsome := Option.isSome_iff_ne_none.mpr h
    simp [create, createConst, declare, vacant, containsLocal, hsome, Except.map]
  · simp [getLocal?, isConstLocal, containsLocal, h]
  · simp [getLocal?, isConstLocal, containsLocal, h]
  · simp only [getLocal?, isConstLocal, containsLocal, ht, and_self]

/-- All accessors agree on what a name stands for. If a scope on the way outward binds it, they
read, assign and remove the nearest binding; if none does, they report that, and change nothing.
The accessors of one scope do not look further than this scope. -/
theorem resolves_alike (hs : s.Acyclic) (he : e < s.cells.size) (name : String) :
    ((∃ d b, s.Nearest name e d b) ∨ ∀ d, s.Reaches e d → s.binding? d name = none) ∧
      (∀ d b, s.Nearest name e d b → s.Answers e name d b) ∧
      ((∀ d, s.Reaches e d → s.binding? d name = none) → s.Lacks e name) ∧ s.Local e name := by
  refine ⟨?_, fun d b => answers_of_nearest hs, lacks_of_unbound hs, local_of_lt he name⟩
  rw [← resolve?_eq_none_iff hs]
  cases hresolve : s.resolve? e name with
  | none => exact .inr rfl
  | some r => exact .inl ⟨r.1, r.2, (resolve?_eq_some_iff hs).mp hresolve⟩

/-- A read-only name that is shadowed by a writable one. -/
theorem resolves_alike_shadowed :
    let outer : Scope := { bindings := Dict.empty.insert "x" ⟨.boolean true, true⟩ }
    let inner : Scope := { bindings := Dict.empty.insert "x" ⟨.null, false⟩, parent := some 0 }
    let s : Scopes := ⟨#[outer, inner]⟩
    s.get 1 "x" = .ok .null ∧ s.isConstLocal 1 "x" = false ∧
      ∃ t, s.unset 1 "x" = (some .null, t) ∧ t.Nearest "x" 1 0 ⟨.boolean true, true⟩ := by
  intro outer inner s
  have hparent (e : ScopeId) : s.parent e = if e = 1 then some 0 else none := by
    match e with
    | 0 | 1 | _ + 2 => rfl
  have hs : s.Acyclic := acyclic_of_lt fun e p hp => by
    rw [Inside, hparent] at hp
    grind
  have hown : s.binding? 1 "x" = some ⟨.null, false⟩ := by
    simp [s, inner, binding?, scope, Dict.get?_insert]
  have hinner : s.Nearest "x" 1 1 ⟨.null, false⟩ := .here hown
  obtain ⟨-, hanswers, -, hlocal⟩ := resolves_alike (e := 1) hs (by decide) "x"
  obtain ⟨t, hunset, -, hnearest⟩ := (hanswers 1 _ hinner).unset
  refine ⟨(hanswers 1 _ hinner).get, (hlocal.bound _ hown).2.1, t, hunset,
    (hnearest 0 _).mpr ⟨0, rfl, .here ?_⟩⟩
  simp [s, outer, binding?, scope, Dict.get?_insert]

end Scopes

end ScriptMachine
