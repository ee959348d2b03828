import ScriptMachine.Proofs.Heap.Copy

/-! A copy and what it was made of, from then on. Nothing that is stored into one of the two shows
in the other. -/

namespace ScriptMachine

namespace Heap

variable {h k l : Heap} {v w : Value} {P Q : Value → Prop}

/-! ### Changes -/

/-- What becomes of a heap by new containers and by stores into containers that satisfy `P`. -/
inductive Changes (P : Value → Prop) (h : Heap) : Heap → Prop where
  | none : Changes P h h
  | newArray {k : Heap} (xs : Array Value) : Changes P h k → Changes P h (k.newArray xs).2
  | newMap {k : Heap} (d : Dict Value) : Changes P h k → Changes P h (k.newMap d).2
  | storeIndex {k l : Heap} {target key value : Value} : Changes P h k → P target →
      k.storeIndex target key value = .ok l → Changes P h l
  | storeAttribute {k l : Heap} {target value : Value} {name : String} : Changes P h k →
      P target → k.storeAttribute target name value = .ok l → Changes P h l

namespace Changes

/-- A container keeps its contents as long as nothing is stored into it. -/
theorem sameAt (hchanges : h.Changes P k) (hexist : h.Exists w) (hspared : ¬ P w) :
    k.Exists w ∧ h.SameAt k w := by
  have hwrite {k : Heap} (hk : k.Exists w ∧ h.SameAt k w) (value : Value) {slot : Slot}
      (htarget : P slot.container) :
      (k.write value slot).Exists w ∧ h.SameAt (k.write value slot) w := by
    refine ⟨exists_write_iff.mpr hk.1, hk.2.trans (sameAt_write value ?_)⟩
    rintro rfl
    exact hspared htarget
  induction hchanges with
  | none => exact ⟨hexist, .refl h w⟩
  | @newArray k xs _ ih =>
      have hgrows := grows_newArray k xs
      exact ⟨hgrows.exist ih.1, ih.2.trans (hgrows.sameAt ih.1)⟩
  | @newMap k d _ ih =>
      have hgrows := grows_newMap k d
      exact ⟨hgrows.exist ih.1, ih.2.trans (hgrows.sameAt ih.1)⟩
  | storeIndex _ htarget hstore ih =>
      obtain ⟨-, slot, hnames, rfl⟩ := storeIndex_eq_ok_iff.mp hstore
      exact hwrite ih _ (hnames.container_eq ▸ htarget)
  | storeAttribute _ htarget hstore ih =>
      obtain ⟨-, id, rfl, rfl⟩ := storeAttribute_eq_ok_iff.mp hstore
      exact hwrite ih _ htarget

/-- No change takes a container away. -/
theorem containers_le (hchanges : h.Changes P k) : h.containers ≤ k.containers := by
  have hwrite (k : Heap) (value : Value) (slot : Slot) :
      (k.write value slot).containers = k.containers := by
    cases slot <;> simp [containers, write, setElement, setField]
  induction hchanges with
  | none => exact Nat.le_refl _
  | newArray xs _ ih => exact Nat.le_trans ih (grows_newArray _ xs).containers_le
  | newMap d _ ih => exact Nat.le_trans ih (grows_newMap _ d).containers_le
  | storeIndex _ _ hstore ih =>
      obtain ⟨-, slot, -, rfl⟩ := storeIndex_eq_ok_iff.mp hstore
      rwa [hwrite]
  | storeAttribute _ _ hstore ih =>
      obtain ⟨-, id, -, rfl⟩ := storeAttribute_eq_ok_iff.mp hstore
      rwa [hwrite]

/-- A value keeps all that is nested in it as long as nothing is stored there. -/
theorem preserves (hchanges : h.Changes P k) (hclosed : h.Closed v)
    (hspared : ∀ w, w.isContainer → h.Nested v w → ¬ P w) : h.Preserves k v := by
  intro w hw
  by_cases hcontainer : w.isContainer
  · exact (hchanges.sameAt (hclosed w hw) (hspared w hcontainer hw)).2
  · cases w with
    | array | map => exact absurd rfl hcontainer
    | _ => trivial

end Changes

/-! ### Independence -/

/-- To copy a value in which no container lies in itself comes to an end by itself, keeps all
containers that exist and makes a value of the same shape. The containers of the copy are new, and
each is in one place of it only. Whatever is then stored into containers that existed before, the
text of the copy stays the same; whatever is stored into containers that did not, such as those of
the copy, the text of the value does. -/
theorem copy_independent (h : Heap) (v : Value) (label : CodeId → String)
    (hclosed : h.Closed v) (hacyclic : h.Acyclic v) :
    ∃ c k, h.copy v = (c, k) ∧ (∀ depth, h.containers ≤ depth → copyTo depth v h = (c, k)) ∧
      h.Grows k ∧ h.Mirrors k v c ∧
      (∀ w, w.isContainer → k.Nested c w → k.Exists w ∧ ¬ h.Exists w) ∧
      (∀ p q w, w.isContainer → k.Leads c p w → k.Leads c q w → p = q) ∧
      (∀ l, k.Changes h.Exists l → l.inspect label c = k.inspect label c) ∧
      (∀ l, k.Changes (¬ h.Exists ·) l → l.inspect label v = h.inspect label v) := by
  obtain ⟨hcopied, hends⟩ := copied_copy hclosed hacyclic
  have hfathoms := fathoms_containers hclosed hacyclic
  refine ⟨_, _, rfl, hends, hcopied.grows, hcopied.mirrors, hcopied.own.fresh,
    hcopied.own.single, fun l hl => ?_, fun l hl => ?_⟩
  · refine inspect_congr label (hcopied.mirrors.fathoms hfathoms) hcopied.grows.containers_le
      hl.containers_le (hl.preserves hcopied.own.closed fun w hw hnested => ?_)
    exact (hcopied.own.fresh w hw hnested).2
  · have hsame := hcopied.grows.preserves hclosed
    have hexist (w : Value) (hw : (h.copy v).2.Nested v w) : h.Exists w :=
      hclosed w (hsame.nested hw)
    refine inspect_congr label hfathoms (Nat.le_refl _)
      (Nat.le_trans hcopied.grows.containers_le hl.containers_le)
      (hsame.trans (hl.preserves (fun w hw => hcopied.grows.exist (hexist w hw)) ?_))
    exact fun w _ hw hnew => hnew (hexist w hw)

/-- An array that lies twice in another one is copied twice. -/
theorem copy_independent_shared :
    let h : Heap := { arrays := #[#[.code 0], #[.array 0, .array 0]] }
    h.Closed (.array 1) ∧ h.Acyclic (.array 1) ∧
      ∃ k, h.copy (.array 1) = (.array 4, k) ∧ h.Grows k ∧ h.Mirrors k (.array 1) (.array 4) ∧
        ∀ l, k.Changes (¬ h.Exists ·) l →
          l.inspect (fun _ => "f") (.array 1) = "[[<codeblock f>], [<codeblock f>]]" := by
  intro h
  have hholds {v w : Value} (hw : h.Holds v w) :
      v = .array 0 ∧ w = .code 0 ∨ v = .array 1 ∧ w = .array 0 := by
    obtain ⟨slot, rfl, hread⟩ := hw
    cases slot with
    | field id key => simp [read?, fields, h, Dict.get?_empty] at hread
    | element id place =>
        rcases id with _ | _ | id
        · rcases place with _ | place
          · exact .inl ⟨rfl, (Option.some.inj hread).symm⟩
          · cases hread
        · rcases place with _ | _ | place
          · exact .inr ⟨rfl, (Option.some.inj hread).symm⟩
          · exact .inr ⟨rfl, (Option.some.inj hread).symm⟩
          · cases hread
        · cases hread
  have hbelow {v w : Value} (hw : Relation.TransGen h.Holds v w) :
      v = .array 0 ∧ w = .code 0 ∨ v = .array 1 ∧ (w = .array 0 ∨ w = .code 0) := by
    induction hw with
    | single hw => exact (hholds hw).imp_right (And.imp_right .inl)
    | tail _ hw ih =>
        rcases hholds hw with ⟨rfl, rfl⟩ | ⟨rfl, rfl⟩
        · rcases ih with ⟨-, hcode⟩ | ⟨hv, -⟩
          · cases hcode
          · exact .inr ⟨hv, .inr rfl⟩
        · rcases ih with ⟨-, hcode⟩ | ⟨-, harray | hcode⟩
          · cases hcode
          · cases harray
          · cases hcode
  have hclosed (w : Value) (hw : h.Nested (.array 1) w) : h.Exists w := by
    rcases hw.cases_tail with rfl | ⟨v, -, hw⟩
    · exact (by decide : 1 < 2)
    · rcases hholds hw with ⟨-, rfl⟩ | ⟨-, rfl⟩
      · trivial
      · exact (by decide : 0 < 2)
  have hacyclic (w : Value) (_ : h.Nested (.array 1) w) : ¬ Relation.TransGen h.Holds w w := by
    intro hw
    rcases hbelow hw with ⟨rfl, hcode⟩ | ⟨rfl, harray | hcode⟩
    · cases hcode
    · cases harray
    · cases hcode
  obtain ⟨c, k, hcopy, -, hgrows, hmirrors, -, -, -, hvalue⟩ :=
    copy_independent h (.array 1) (fun _ => "f") hclosed hacyclic
  have hc : c = .array 4 := (congrArg Prod.fst hcopy).symm
  subst hc
  exact ⟨hclosed, hacyclic, k, hcopy, hgrows, hmirrors, hvalue⟩

end Heap

end ScriptMachine
