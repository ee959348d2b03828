import Mathlib.Data.List.Perm.Subperm
import Mathlib.Logic.Relation
import ScriptMachine.Proofs.Code.Legible

/-! Listings of blocks with blocks within them. A block is gone through before the blocks among its
constants, and these one after the other, so that the first fault of all is told. -/

namespace ScriptMachine

namespace Store

variable {s : Store} {b c : CodeBlock} {y : Fault} {id : CodeId} {indent n m : Nat}

/-! ### Nested blocks -/

/-- A block that is among the constants of another one. -/
def Embeds (s : Store) (b c : CodeBlock) : Prop :=
  ∃ id, Value.code id ∈ b.constants.toList ∧ s.block id = c

/-- The blocks among the constants of a block exist, and so on inward, which comes to an end. -/
inductive FinitelyNested (s : Store) : CodeBlock → Prop where
  | intro {b : CodeBlock} : (∀ id, Value.code id ∈ b.constants.toList → id < s.blocks.size) →
      (∀ id, Value.code id ∈ b.constants.toList → s.FinitelyNested (s.block id)) →
      s.FinitelyNested b

/-- A block is legible, and so is every block within it. -/
def Legible (s : Store) (b : CodeBlock) : Prop :=
  ∀ c, Relation.ReflTransGen s.Embeds b c → c.Legible

/-- The first fault of a block and the blocks within it: the first one of its own or, if it has
none, that of the first block among its constants in which there is one. -/
inductive FirstFault (s : Store) : CodeBlock → Fault → Prop where
  | own {b : CodeBlock} {y : Fault} : b.FirstFault y → FirstFault s b y
  | nested {b : CodeBlock} {front rest : List Value} {id : CodeId} {y : Fault} : b.Legible →
      b.constants.toList = front ++ .code id :: rest →
      (∀ other, Value.code other ∈ front → s.Legible (s.block other)) →
      FirstFault s (s.block id) y → FirstFault s b y

theorem legible_iff : s.Legible b ↔
    b.Legible ∧ ∀ id, Value.code id ∈ b.constants.toList → s.Legible (s.block id) := by
  constructor
  · intro h
    exact ⟨h b .refl, fun id hid c hc => h c (.head ⟨id, hid, rfl⟩ hc)⟩
  · rintro ⟨hown, hnested⟩ c hc
    rcases hc.cases_head with rfl | ⟨_, ⟨id, hid, rfl⟩, hc⟩
    · exact hown
    · exact hnested id hid c hc

/-! ### Depth -/

/-- No chain of blocks within a block is longer than `n`. -/
inductive Fathoms (s : Store) : Nat → CodeBlock → Prop where
  | flat {n : Nat} {b : CodeBlock} : (∀ id, Value.code id ∉ b.constants.toList) → s.Fathoms n b
  | nested {n : Nat} {b : CodeBlock} :
      (∀ id, Value.code id ∈ b.constants.toList → s.Fathoms n (s.block id)) → s.Fathoms (n + 1) b

/-- A block does not lie within itself. -/
theorem FinitelyNested.not_within (h : s.FinitelyNested b) :
    ¬ Relation.TransGen s.Embeds b b := by
  induction h with
  | @intro b _ _ ih =>
      intro hcycle
      obtain ⟨_, ⟨id, hid, rfl⟩, hback⟩ := Relation.TransGen.head'_iff.mp hcycle
      exact ih id hid (.tail' hback ⟨id, hid, rfl⟩)

/-- The blocks on the way to a block are different ones, so the fewer are left beside them, the
fewer lie within it one in the other. -/
theorem fathoms_of_chain {chain : List CodeId} (hnested : s.FinitelyNested b) (hnodup : chain.Nodup)
    (hchain : ∀ id ∈ chain, id < s.blocks.size ∧ Relation.ReflTransGen s.Embeds (s.block id) b)
    (hlength : chain.length + n = s.blocks.size) : s.Fathoms n b := by
  induction hnested generalizing chain n with
  | @intro b hexist hinner ih =>
      -- the way to a block within goes through one more block, and through none twice
      have hdeeper (id) (hid : Value.code id ∈ b.constants.toList) :
          (id :: chain).Nodup ∧ ∀ other ∈ id :: chain, other < s.blocks.size ∧
            Relation.ReflTransGen s.Embeds (s.block other) (s.block id) := by
        refine ⟨List.nodup_cons.mpr ⟨fun hmem => ?_, hnodup⟩, List.forall_mem_cons.mpr ⟨?_, ?_⟩⟩
        · exact (hinner id hid).not_within (.tail' (hchain id hmem).2 ⟨id, hid, rfl⟩)
        · exact ⟨hexist id hid, .refl⟩
        · exact fun other hother =>
            ⟨(hchain other hother).1, (hchain other hother).2.tail ⟨id, hid, rfl⟩⟩
      cases n with
      | zero =>
          refine .flat fun id hid => ?_
          obtain ⟨hnodup', hchain'⟩ := hdeeper id hid
          have hsubset : id :: chain ⊆ List.range s.blocks.size :=
            fun other hother => List.mem_range.mpr (hchain' other hother).1
          have hle := (hnodup'.subperm hsubset).length_le
          rw [List.length_cons, List.length_range] at hle
          omega
      | succ n =>
          refine .nested fun id hid => ?_
          obtain ⟨hnodup', hchain'⟩ := hdeeper id hid
          exact ih id hid hnodup' hchain' (by rw [List.length_cons]; omega)

/-- Blocks within a block are nested no deeper than there are blocks. -/
theorem FinitelyNested.fathoms (h : s.FinitelyNested b) : s.Fathoms s.blocks.size b :=
  fathoms_of_chain h .nil (by simp) (Nat.zero_add _)

/-! ### Listings -/

/-- The block that a constant stands for. -/
def nested? (s : Store) : Value → Option CodeBlock
  | .code id => some (s.block id)
  | _ => none

theorem nested?_eq_some_iff {v : Value} :
    s.nested? v = some c ↔ ∃ id, v = .code id ∧ s.block id = c := by
  cases v <;> simp [nested?]

theorem nestedBlocks_eq (s : Store) (b : CodeBlock) :
    s.nestedBlocks b = b.constants.toList.filterMap s.nested? :=
  rfl

theorem mem_filterMap_nested? {vs : List Value} :
    c ∈ vs.filterMap s.nested? ↔ ∃ id, Value.code id ∈ vs ∧ s.block id = c := by
  simp only [List.mem_filterMap, nested?_eq_some_iff]
  constructor
  · rintro ⟨_, hid, id, rfl, hc⟩
    exact ⟨id, hid, hc⟩
  · rintro ⟨id, hid, hc⟩
    exact ⟨_, hid, id, rfl, hc⟩

theorem listingTo_succ (s : Store) (n indent : Nat) (b : CodeBlock) :
    s.listingTo (n + 1) indent b = (do
      let own ← s.ownListing indent b
      ((s.nestedBlocks b).mapM fun inner =>
        (s.listingTo n (indent + 2) inner).map ("\n" ++ ·)).map (own ++ String.join ·)) := by
  rw [listingTo]
  simp only [bind_pure_comp]
  rfl

/-- To list a block means to list it by itself and then each block among its constants. -/
theorem exists_listingTo_succ_eq_ok_iff : (∃ text, s.listingTo (n + 1) indent b = .ok text) ↔
    b.Legible ∧ ∀ id, Value.code id ∈ b.constants.toList →
      ∃ text, s.listingTo n (indent + 2) (s.block id) = .ok text := by
  have hinner : (∀ c ∈ s.nestedBlocks b, ∃ text, s.listingTo n (indent + 2) c = .ok text) ↔
      ∀ id, Value.code id ∈ b.constants.toList →
        ∃ text, s.listingTo n (indent + 2) (s.block id) = .ok text := by
    simp only [nestedBlocks_eq, mem_filterMap_nested?]
    exact ⟨fun h id hid => h _ ⟨id, hid, rfl⟩, fun h _ ⟨id, hid, hc⟩ => hc ▸ h id hid⟩
  rw [listingTo_succ, ← @exists_ownListing_eq_ok_iff s b indent, ← hinner]
  cases s.ownListing indent b with
  | error y => simp [bind, Except.bind]
  | ok own =>
      simp only [bind, Except.bind, exists_map_eq_ok_iff, exists_mapM_eq_ok_iff]
      simp

theorem listingTo_succ_eq_error_iff : s.listingTo (n + 1) indent b = .error y ↔
    b.FirstFault y ∨ b.Legible ∧ ∃ front id rest,
      b.constants.toList = front ++ .code id :: rest ∧
      (∀ other, Value.code other ∈ front →
        ∃ text, s.listingTo n (indent + 2) (s.block other) = .ok text) ∧
      s.listingTo n (indent + 2) (s.block id) = .error y := by
  rw [listingTo_succ, ← @ownListing_eq_error_iff s b y indent,
    ← @exists_ownListing_eq_ok_iff s b indent]
  cases s.ownListing indent b with
  | error y' => simp [bind, Except.bind]
  | ok own =>
      simp only [bind, Except.bind, map_eq_error_iff, mapM_eq_error_iff, exists_map_eq_ok_iff]
      simp only [reduceCtorEq, Except.ok.injEq, exists_eq', true_and, false_or]
      rw [nestedBlocks_eq]
      constructor
      · rintro ⟨front, c, rest, hsplit, hfront, hc⟩
        obtain ⟨before, tail, hconstants, rfl, htail⟩ := List.filterMap_eq_append_iff.mp hsplit
        obtain ⟨skipped, v, after, rfl, hskipped, hv, -⟩ := List.filterMap_eq_cons_iff.mp htail
        obtain ⟨id, rfl, rfl⟩ := nested?_eq_some_iff.mp hv
        refine ⟨before ++ skipped, id, after, by rw [hconstants, List.append_assoc], ?_, hc⟩
        intro other hother
        rcases List.mem_append.mp hother with hother | hother
        · exact hfront _ (mem_filterMap_nested?.mpr ⟨other, hother, rfl⟩)
        · cases hskipped _ hother
      · rintro ⟨front, id, rest, hconstants, hfront, hid⟩
        refine ⟨front.filterMap s.nested?, s.block id, rest.filterMap s.nested?, ?_, ?_, hid⟩
        · have hnested : s.nested? (.code id) = some (s.block id) := rfl
          rw [hconstants, List.filterMap_append, List.filterMap_cons_some hnested]
        · intro c hc
          obtain ⟨other, hother, rfl⟩ := mem_filterMap_nested?.mp hc
          exact hfront other hother

/-- A block without blocks within it is listed by itself. -/
theorem listingTo_flat (h : ∀ id, Value.code id ∉ b.constants.toList) :
    s.listingTo n indent b = s.ownListing indent b := by
  have hnone : s.nestedBlocks b = [] := by
    rw [nestedBlocks_eq, List.filterMap_eq_nil_iff]
    intro v hv
    cases v with
    | code id => exact absurd hv (h id)
    | _ => rfl
  cases n with
  | zero => rfl
  | succ n =>
      rw [listingTo_succ, hnone]
      cases s.ownListing indent b <;>
        simp [bind, Except.bind, Except.map, pure, Except.pure, String.join]

/-- A listing does not depend on how far one may go inward, if it is far enough. -/
theorem listingTo_congr (h : s.Fathoms n b) (hle : n ≤ m) :
    s.listingTo m indent b = s.listingTo n indent b := by
  induction h generalizing m indent with
  | flat hnone => rw [listingTo_flat hnone, listingTo_flat hnone]
  | @nested n b _ ih =>
      obtain ⟨m, rfl⟩ := Nat.exists_eq_add_of_le' (Nat.le_trans (Nat.le_add_left 1 n) hle)
      have hinner : ∀ c ∈ s.nestedBlocks b,
          (s.listingTo m (indent + 2) c).map ("\n" ++ ·) =
            (s.listingTo n (indent + 2) c).map ("\n" ++ ·) := by
        intro c hc
        rw [nestedBlocks_eq, mem_filterMap_nested?] at hc
        obtain ⟨id, hid, rfl⟩ := hc
        rw [ih id hid (by omega)]
      rw [listingTo_succ, listingTo_succ, mapM_congr hinner]

/-- A listing that goes inward far enough succeeds exactly for legible blocks. -/
theorem exists_listingTo_eq_ok_iff (h : s.Fathoms n b) :
    (∃ text, s.listingTo n indent b = .ok text) ↔ s.Legible b := by
  rw [legible_iff]
  induction h generalizing indent with
  | flat hnone =>
      rw [listingTo_flat hnone, exists_ownListing_eq_ok_iff]
      exact ⟨fun hown => ⟨hown, fun id hid => absurd hid (hnone id)⟩, And.left⟩
  | nested _ ih =>
      rw [exists_listingTo_succ_eq_ok_iff]
      exact and_congr_right fun _ => forall₂_congr fun id hid =>
        (ih id hid).trans legible_iff.symm

/-- Otherwise it fails with the first fault. -/
theorem listingTo_eq_error_iff (h : s.Fathoms n b) :
    s.listingTo n indent b = .error y ↔ s.FirstFault b y := by
  induction h generalizing indent with
  | flat hnone =>
      rw [listingTo_flat hnone, ownListing_eq_error_iff]
      constructor
      · exact .own
      · intro hfault
        cases hfault with
        | own hown => exact hown
        | @nested _ _ _ id _ _ hsplit => exact absurd (by simp [hsplit]) (hnone id)
  | nested hinner ih =>
      rw [listingTo_succ_eq_error_iff]
      constructor
      · rintro (hown | ⟨hlegible, front, id, rest, hsplit, hfront, hid⟩)
        · exact .own hown
        · refine .nested hlegible hsplit (fun other hother => ?_)
            ((ih id (by simp [hsplit])).mp hid)
          exact (exists_listingTo_eq_ok_iff (hinner other (by simp [hsplit, hother]))).mp
            (hfront other hother)
      · intro hfault
        cases hfault with
        | own hown => exact .inl hown
        | @nested _ front rest id _ hlegible hsplit hfront hid =>
            refine .inr ⟨hlegible, front, id, rest, hsplit, fun other hother => ?_,
              (ih id (by simp [hsplit])).mpr hid⟩
            exact (exists_listingTo_eq_ok_iff (hinner other (by simp [hsplit, hother]))).mpr
              (hfront other hother)

/-- Blocks that hold together are listed. -/
theorem exists_listing_of_coherent (hnested : s.FinitelyNested b) (hown : b.Coherent)
    (hblocks : ∀ id, (s.block id).Coherent) : ∃ text, s.listing b = .ok text := by
  refine (exists_listingTo_eq_ok_iff hnested.fathoms).mpr fun c hc => ?_
  rcases hc.cases_tail with rfl | ⟨_, -, id, -, rfl⟩
  · exact hown.legible
  · exact (hblocks id).legible

end Store

end ScriptMachine
