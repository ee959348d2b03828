import ScriptMachine.Proofs.Dict
import ScriptMachine.Proofs.Scope.Mutation
import ScriptMachine.Scope.Dump

/-! Scopes as text. A dump is laid out scope by scope along the way outward, and it depends on what
the scopes on this way bind and on nothing else. -/

namespace ScriptMachine

namespace Scopes

variable {s t : Scopes} {d e p : ScopeId} {l r : List ScopeId} {name : String}
  {inspect inspect' : Value → String} {indent : Nat}

/-! ### The way outward -/

/-- The scope `e`, the scope around it, and so on to one that lies in no other. -/
inductive WayOut (s : Scopes) : ScopeId → List ScopeId → Prop where
  | outermost {e : ScopeId} : e < s.cells.size → s.parent e = none → WayOut s e [e]
  | inside {e p : ScopeId} {l : List ScopeId} : s.Inside e p → WayOut s p l → WayOut s e (e :: l)

namespace WayOut

theorem lt_size (h : s.WayOut e l) : ∀ d ∈ l, d < s.cells.size := by
  induction h with
  | outermost he => simpa using he
  | inside hp _ ih => exact List.forall_mem_cons.mpr ⟨lt_size_of_inside hp, ih⟩

theorem unique (h : s.WayOut e l) (h' : s.WayOut e r) : l = r := by
  induction h generalizing r with
  | outermost _ hnone =>
      cases h' with
      | outermost => rfl
      | inside hp =>
          rw [Inside, hnone] at hp
          cases hp
  | inside hp _ ih =>
      cases h' with
      | outermost _ hnone =>
          rw [Inside, hnone] at hp
          cases hp
      | inside hp' hway =>
          cases hp.symm.trans hp'
          rw [ih hway]

/-- From each scope on the way the rest of the way leads outward. -/
theorem exists_suffix (h : s.WayOut e l) (hd : d ∈ l) : ∃ r, s.WayOut d r ∧ r.length ≤ l.length := by
  induction h with
  | outermost he hnone =>
      obtain rfl := List.mem_singleton.mp hd
      exact ⟨_, .outermost he hnone, Nat.le_refl _⟩
  | @inside e p l hp hway ih =>
      rcases List.mem_cons.mp hd with rfl | hd
      · exact ⟨_, .inside hp hway, Nat.le_refl _⟩
      · obtain ⟨r, hr, hle⟩ := ih hd
        exact ⟨r, hr, hle.trans (by simp)⟩

theorem nodup (h : s.WayOut e l) : l.Nodup := by
  induction h with
  | outermost => simp
  | @inside e p l hp hway ih =>
      refine List.nodup_cons.mpr ⟨fun hmem => ?_, ih⟩
      obtain ⟨r, hr, hle⟩ := hway.exists_suffix hmem
      rw [hr.unique (.inside hp hway), List.length_cons] at hle
      omega

/-- The bound on the length of a way cuts nothing off. -/
theorem length_le (h : s.WayOut e l) : l.length ≤ s.cells.size := by
  have hsubset : l ⊆ List.range s.cells.size := fun d hd => List.mem_range.mpr (h.lt_size d hd)
  simpa using (h.nodup.subperm hsubset).length_le

theorem length_pos (h : s.WayOut e l) : 0 < l.length := by
  cases h <;> simp

/-- Only an outermost scope is alone on its way. -/
theorem length_eq_one_iff (h : s.WayOut e l) : l.length = 1 ↔ s.parent e = none := by
  cases h with
  | outermost _ hnone => simp [hnone]
  | inside hp hway =>
      rw [Inside] at hp
      cases hway <;> simp [hp]

theorem congr (h : s.WayOut e l) (hsize : t.cells.size = s.cells.size)
    (hparent : ∀ d, t.parent d = s.parent d) : t.WayOut e l := by
  induction h with
  | @outermost e he hnone => exact .outermost (hsize ▸ he) ((hparent e).trans hnone)
  | @inside e p l hp _ ih => exact .inside ((hparent e).trans hp) ih

/-- The way is what the search for a name goes through. -/
theorem chain_eq (h : s.WayOut e l) : s.chain e = l := by
  have hchainTo {bound : Nat} (hbound : l.length ≤ bound) : s.chainTo bound e = l := by
    induction h generalizing bound with
    | @outermost e _ hnone =>
        obtain ⟨bound, rfl⟩ := Nat.exists_eq_add_of_le' hbound
        rw [List.length_singleton, chainTo, hnone]
        rfl
    | @inside e p l hp _ ih =>
        obtain ⟨bound, rfl⟩ := Nat.exists_eq_add_of_le' hbound
        rw [Inside] at hp
        rw [List.length_cons, ← Nat.add_assoc, chainTo, hp]
        exact congrArg (e :: ·) (ih (Nat.le_add_left _ _))
  exact hchainTo h.length_le

end WayOut

/-- As long as no scope lies inside itself, there is a way outward from every scope. -/
theorem Acyclic.exists_wayOut (hs : s.Acyclic) (hclosed : s.Closed) (he : e < s.cells.size) :
    ∃ l, s.WayOut e l := by
  induction e using hs.wellFounded.induction with
  | _ e ih =>
      cases hp : s.parent e with
      | none => exact ⟨_, .outermost he hp⟩
      | some p =>
          obtain ⟨l, hl⟩ := ih p hp (hclosed e p hp)
          exact ⟨_, .inside hp hl⟩

/-! ### One scope -/

/-- The names that a scope binds, in their order. -/
def names (s : Scopes) (d : ScopeId) : List String :=
  (s.scope d).bindings.keys

theorem sorted_names (s : Scopes) (d : ScopeId) : (s.names d).Pairwise (· < ·) :=
  Dict.sorted_keys _

theorem mem_names_iff : name ∈ s.names d ↔ (s.binding? d name).isSome :=
  Dict.mem_keys_iff

/-- The line for a binding. -/
def bindingLine (inspect : Value → String) (indent : Nat) (name : String) (b : Binding) : String :=
  Text.blanks indent ++ name ++ " = " ++ inspect b.value ++
    (if b.readonly then " (const)" else "") ++ "\n"

/-- A line for each name that the scope binds. -/
def lines (s : Scopes) (inspect : Value → String) (indent : Nat) (d : ScopeId) : String :=
  String.join ((s.names d).map fun name =>
    (s.binding? d name).elim "" (bindingLine inspect indent name))

theorem dumpLocal_eq (s : Scopes) (inspect : Value → String) (indent : Nat) (d : ScopeId) :
    dumpLocal inspect (Text.blanks indent) (s.scope d) = s.lines inspect indent d := by
  rw [dumpLocal, lines, names, Dict.keys, List.map_map]
  refine congrArg String.join (List.map_congr_left fun e he => ?_)
  have hbound : s.binding? d e.1 = some e.2 := Dict.mem_entries_iff.mp he
  simp only [Function.comp_apply, hbound, Option.elim_some]
  rfl

/-! ### The layout of a dump -/

theorem toList_blanks (indent : Nat) : (Text.blanks indent).toList = List.replicate indent ' ' := by
  rw [Text.blanks, String.pushn_eq_repeat_push]
  induction indent with
  | zero => rfl
  | succ indent ih => rw [Nat.repeat, String.toList_push, ih, List.replicate_succ']

/-- What stands above the lines of the scope at a place of a way with `total` scopes. -/
def heading (indent total place : Nat) : String :=
  if place = 0 then ""
  else Text.blanks (indent + 2 * (place - 1)) ++
    (if place + 1 = total then "Global" else "Parent") ++ ":\n"

/-- The part of a dump that shows the scope at a place. -/
def passage (s : Scopes) (inspect : Value → String) (indent total place : Nat) (d : ScopeId) :
    String :=
  heading indent total place ++ s.lines inspect (indent + 2 * place) d

/-- To dump a scope means to show it and then to dump the scopes around it, by the places that they
have on the whole way. -/
theorem dumpTo_eq (h : s.WayOut e l) {bound place total : Nat} (hbound : l.length ≤ bound)
    (htotal : place + l.length = total) :
    heading indent total place ++ s.dumpTo inspect bound e (indent + 2 * place) =
      String.join ((l.zipIdx place).map fun x => s.passage inspect indent total x.2 x.1) := by
  induction h generalizing bound place with
  | @outermost e _ hnone =>
      obtain ⟨bound, rfl⟩ := Nat.exists_eq_add_of_le' hbound
      rw [List.length_singleton, dumpTo, hnone, dumpLocal_eq]
      simp [passage]
  | @inside e p l hp hway ih =>
      obtain ⟨bound, rfl⟩ := Nat.exists_eq_add_of_le' hbound
      rw [List.length_cons] at htotal
      have hlast : (place + 1 + 1 = total) ↔ s.parent p = none := by
        rw [← hway.length_eq_one_iff]
        omega
      -- the scope inside writes the heading of the one around it
      have hheading : heading indent total (place + 1) = Text.blanks (indent + 2 * place) ++
          (if (s.parent p).isSome then "Parent" else "Global") ++ ":\n" := by
        rw [heading, if_neg (by omega), Nat.add_sub_cancel]
        cases hparent : s.parent p <;> simp [hlast, hparent]
      have houter := @ih (bound + l.length) (place + 1) (by omega) (by omega)
      rw [hheading] at houter
      rw [Inside] at hp
      rw [List.length_cons, ← Nat.add_assoc, dumpTo, hp, dumpLocal_eq, List.zipIdx_cons,
        List.map_cons, String.join_cons, ← houter, passage]
      simp only [String.append_assoc]
      rfl

/-- A dump goes outward scope by scope. The blanks grow by two with each, and every scope but the
first has a heading, which says of the last one, and of no other, that it is the global one. -/
theorem dump_eq (h : s.WayOut e l) : s.dump inspect e indent =
    String.join (l.zipIdx.map fun x => s.passage inspect indent l.length x.2 x.1) := by
  rw [← dumpTo_eq h h.length_le (Nat.zero_add _)]
  simp [heading, dump]

/-- The line for programmers names what the scope binds and tells whether it lies in another. -/
theorem debug_eq (h : s.WayOut e l) : s.debug e =
    "Environment \x7b names: [" ++ ", ".intercalate ((s.names e).map Text.quoted) ++
      "], has_parent: " ++ (if 1 < l.length then "true" else "false") ++ " \x7d" := by
  have hparent : (s.parent e).isSome ↔ 1 < l.length := by
    have hpos := h.length_pos
    rw [← Option.ne_none_iff_isSome, ne_eq, ← h.length_eq_one_iff]
    omega
  have hflag : (if (s.parent e).isSome then "true" else "false") =
      if 1 < l.length then "true" else "false" := if_congr hparent rfl rfl
  unfold debug names Text.join
  rw [hflag]

/-- What is shown of a scope with this way outward: the dump goes along the way, and each scope on
it lists the names that it binds once, in their order. The line for programmers lists those of the
scope itself. -/
structure LaidOut (s : Scopes) (e : ScopeId) (l : List ScopeId) : Prop where
  chain : s.chain e = l
  dump : ∀ inspect indent, s.dump inspect e indent =
    String.join (l.zipIdx.map fun x => s.passage inspect indent l.length x.2 x.1)
  blanks : ∀ indent, (Text.blanks indent).toList = List.replicate indent ' '
  debug : s.debug e = "Environment \x7b names: [" ++
    ", ".intercalate ((s.names e).map Text.quoted) ++
      "], has_parent: " ++ (if 1 < l.length then "true" else "false") ++ " \x7d"
  sorted : ∀ d, (s.names d).Pairwise (· < ·)
  mem_names : ∀ d name, name ∈ s.names d ↔ (s.binding? d name).isSome

theorem WayOut.laidOut (h : s.WayOut e l) : s.LaidOut e l where
  chain := h.chain_eq
  dump _ _ := dump_eq h
  blanks := toList_blanks
  debug := debug_eq h
  sorted := s.sorted_names
  mem_names _ _ := mem_names_iff

/-! ### Scopes that bind alike -/

/-- The scope `d` of `s` and the scope `p` of `t` bind the same names, the same of them read-only,
to values with the same text. -/
def BindsAlike (inspect inspect' : Value → String) (s t : Scopes) (d p : ScopeId) : Prop :=
  ∀ name, Option.Rel (fun b c : Binding =>
    b.readonly = c.readonly ∧ inspect b.value = inspect' c.value) (s.binding? d name)
      (t.binding? p name)

theorem BindsAlike.isSome_eq (h : BindsAlike inspect inspect' s t d p) (name : String) :
    (s.binding? d name).isSome = (t.binding? p name).isSome := by
  have hname := h name
  generalize s.binding? d name = b?, t.binding? p name = c? at hname ⊢
  cases hname <;> rfl

theorem BindsAlike.names_eq (h : BindsAlike inspect inspect' s t d p) : s.names d = t.names p :=
  Dict.keys_congr h.isSome_eq

theorem BindsAlike.lines_eq (h : BindsAlike inspect inspect' s t d p) (indent : Nat) :
    s.lines inspect indent d = t.lines inspect' indent p := by
  rw [lines, lines, h.names_eq]
  refine congrArg String.join (List.map_congr_left fun name _ => ?_)
  have hname := h name
  generalize s.binding? d name = b?, t.binding? p name = c? at hname ⊢
  cases hname with
  | none => rfl
  | some hbinding =>
      rw [Option.elim_some, Option.elim_some, bindingLine, bindingLine, hbinding.1, hbinding.2]

section

variable (h : s.WayOut e l) (h' : t.WayOut p r)
  (hends : List.Forall₂ (BindsAlike inspect inspect' s t) l r)
include h h' hends

/-- Scopes that bind alike along their ways outward are dumped alike. -/
theorem dump_congr : s.dump inspect e indent = t.dump inspect' p indent := by
  have hlength : l.length = r.length := hends.length_eq
  rw [dump_eq h, dump_eq h', hlength]
  refine congrArg String.join (List.ext_getElem (by simpa using hlength) fun i hi hi' => ?_)
  rw [List.length_map, List.length_zipIdx] at hi hi'
  have hscope : BindsAlike inspect inspect' s t l[i] r[i] := hends.get hi hi'
  rw [List.getElem_map, List.getElem_map, List.getElem_zipIdx, List.getElem_zipIdx, passage,
    passage, hscope.lines_eq]

theorem debug_congr : s.debug e = t.debug p := by
  have hfirst : BindsAlike inspect inspect' s t e p := by
    cases h <;> cases h' <;> exact (List.forall₂_cons.mp hends).1
  rw [debug_eq h, debug_eq h', hends.length_eq, hfirst.names_eq]

end

/-- The way outward stays the same under mutations. -/
theorem WayOut.mutateAll (h : s.WayOut e l) (mutations : List Mutation) :
    (s.mutateAll mutations).WayOut e l :=
  h.congr (s.mutateAll_keeps mutations).1 (s.mutateAll_keeps mutations).2

end Scopes

end ScriptMachine
