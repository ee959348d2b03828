import ScriptMachine.Prelude
import ScriptMachine.Proofs.Heap.Independence

/-! Texts and arrays as sequences. Length, index access and concatenation agree on what the items
of a sequence are: the code points of a text, each as a text of its own, and the elements of an
array. -/

namespace ScriptMachine

namespace Heap

variable {h k : Heap} {x y z : Value} {xs ys : List Value} {i : Int64}

/-! ### Items -/

/-- The items of a sequence, in order. -/
inductive Items (h : Heap) : Value → List Value → Prop where
  | text (s : String) : h.Items (.string s) (s.toList.map fun c => .string (.singleton c))
  | array (id : ArrayId) : h.Items (.array id) (h.elements id).toList

/-- The native length function answers this number. -/
def HasLength (h : Heap) (v : Value) (n : Nat) : Prop :=
  ∀ e s, s.heap = h → Prelude.length.run e [v] s = .ok (.integer (Int64.ofNat n)) s

theorem Items.hasLength (hx : h.Items x xs) : h.HasLength x xs.length := by
  rintro e s rfl
  cases hx with
  | text s => rw [List.length_map, String.length_toList]; rfl
  | array id => rw [Array.length_toList]; rfl

/-- An index reads the item at its place. -/
theorem Items.loadIndex {n : Nat} (hx : h.Items x xs) (hi : i.toInt = n) (hn : n < xs.length) :
    h.loadIndex x (.integer i) = .ok xs[n] := by
  have hplace {length : Nat} (hlength : n < length) : position i length = .ok n :=
    position_eq_ok_iff.mpr ⟨by omega, by omega, by omega⟩
  cases hx with
  | text s =>
      rw [List.length_map] at hn
      rw [Heap.loadIndex, hplace (String.length_toList ▸ hn), List.getElem_map]
      simp [bind, Except.bind, pure, Except.pure, List.getElem?_eq_getElem hn]
  | array id =>
      rw [Array.length_toList] at hn
      rw [Heap.loadIndex, hplace hn, Array.getElem_toList]
      simp [bind, Except.bind, pure, Except.pure, hn]

/-- An index that is negative or too large reads nothing. -/
theorem Items.loadIndex_outside (hx : h.Items x xs) (hi : i.toInt < 0 ∨ xs.length ≤ i.toInt) :
    h.loadIndex x (.integer i) = .error (Misuse.outOfBounds i xs.length).interrupt := by
  have hplace : position i xs.length = .error (Misuse.outOfBounds i xs.length).interrupt :=
    if_neg (by omega)
  cases hx with
  | text s =>
      rw [List.length_map, String.length_toList] at hplace ⊢
      rw [Heap.loadIndex, hplace]
      rfl
  | array id =>
      rw [Array.length_toList] at hplace ⊢
      rw [Heap.loadIndex, hplace]
      rfl

/-! ### Concatenation -/

/-- The sequence `z` of `k` reads as the `m` items of `x` and then the `n` items of `y` in `h`. -/
structure Joins (h k : Heap) (x y z : Value) (m n : Nat) : Prop where
  length_left : h.HasLength x m
  length_right : h.HasLength y n
  length : k.HasLength z (m + n)
  left : ∀ i : Int64, 0 ≤ i.toInt → i.toInt < m → ∃ v,
    h.loadIndex x (.integer i) = .ok v ∧ k.loadIndex z (.integer i) = .ok v
  right : ∀ i : Int64, m ≤ i.toInt → i.toInt < m + n → ∃ v,
    h.loadIndex y (.integer (i - Int64.ofNat m)) = .ok v ∧ k.loadIndex z (.integer i) = .ok v
  outside : ∀ i : Int64, i.toInt < 0 ∨ m + n ≤ i.toInt →
    k.loadIndex z (.integer i) = .error (Misuse.outOfBounds i (m + n)).interrupt

/-- Indices from `m` on stay 64-bit numbers when `m` is taken off. -/
theorem toInt_sub_ofNat {m : Nat} (hi : m ≤ i.toInt) :
    (i - Int64.ofNat m).toInt = i.toInt - m := by
  have hlow := i.toInt_lt
  have hm : (Int64.ofNat m).toInt = m := Int64.toInt_ofNat_of_lt (by omega)
  rw [Int64.toInt_sub, hm]
  exact Int.bmod_eq_of_le (by omega) (by omega)

theorem Items.joins (hx : h.Items x xs) (hy : h.Items y ys) (hz : k.Items z (xs ++ ys)) :
    h.Joins k x y z xs.length ys.length where
  length_left := hx.hasLength
  length_right := hy.hasLength
  length := List.length_append ▸ hz.hasLength
  left i hnonneg hlt := by
    have hplace : i.toInt = i.toInt.toNat := by omega
    have hn : i.toInt.toNat < xs.length := by omega
    refine ⟨xs[i.toInt.toNat], hx.loadIndex hplace hn, ?_⟩
    rw [hz.loadIndex hplace (by rw [List.length_append]; omega), List.getElem_append_left hn]
  right i hle hlt := by
    obtain ⟨n, hn⟩ : ∃ n : Nat, i.toInt = (xs.length + n : Nat) :=
      ⟨i.toInt.toNat - xs.length, by omega⟩
    have hplace : (i - Int64.ofNat xs.length).toInt = n := by
      rw [toInt_sub_ofNat hle, hn]
      omega
    have hbelow : n < ys.length := by omega
    refine ⟨ys[n], hy.loadIndex hplace hbelow, ?_⟩
    rw [hz.loadIndex hn (by rw [List.length_append]; omega),
      List.getElem_append_right (Nat.le_add_right _ _)]
    simp
  outside i hi := by
    rw [← List.length_append]
    refine hz.loadIndex_outside (hi.imp_right fun hle => ?_)
    rw [List.length_append]
    exact_mod_cast hle

/-- Two texts or two arrays are joined to a sequence of the items of both. -/
theorem apply_add_items (hkind : x.kind = y.kind) (hsequence : x.kind = .string ∨ x.kind = .array) :
    ∃ z k xs ys, BinaryOp.add.apply x y h = .ok (z, k) ∧ h.Grows k ∧
      h.Items x xs ∧ h.Items y ys ∧ k.Items z (xs ++ ys) := by
  cases x <;> cases y <;> cases hkind
  case string.string s t =>
    refine ⟨.string (s ++ t), h, _, _, rfl, .refl h, .text s, .text t, ?_⟩
    rw [← List.map_append, ← String.toList_append]
    exact .text _
  case array.array a b =>
    have helements := h.elements_newArray (h.elements a ++ h.elements b)
    refine ⟨_, (h.newArray _).2, _, _, rfl, h.grows_newArray _, .array a, .array b, ?_⟩
    have hitems := Items.array (h := (h.newArray (h.elements a ++ h.elements b)).2) h.arrays.size
    rwa [helements, Array.toList_append] at hitems
  all_goals rcases hsequence with hstring | harray <;> contradiction

/-- A text is made up of its code points. -/
theorem join_singletons (s : String) : String.join (s.toList.map .singleton) = s := by
  refine String.toList_inj.mp ?_
  simp [String.toList_join, List.flatMap_map]

/-- The array `c` of `k` is a new one with the very elements of `a` and `b`. Later stores into it do
not show in these two, nor do stores into them show in it. -/
structure JoinsApart (h k : Heap) (a b c : ArrayId) : Prop where
  elements : k.elements c = h.elements a ++ h.elements b
  fresh : ¬ h.Exists (.array c)
  parts : ∀ l, k.Changes (· = .array c) l →
    l.elements a = h.elements a ∧ l.elements b = h.elements b
  whole : ∀ l, k.Changes (fun w => w = .array a ∨ w = .array b) l → l.elements c = k.elements c

theorem joinsApart_newArray {a b : ArrayId} (ha : a < h.arrays.size) (hb : b < h.arrays.size) :
    h.JoinsApart (h.newArray (h.elements a ++ h.elements b)).2 a b h.arrays.size := by
  have hgrows := h.grows_newArray (h.elements a ++ h.elements b)
  have hfresh : ¬ h.Exists (.array h.arrays.size) := Nat.lt_irrefl _
  have hother {id : ArrayId} (hid : id < h.arrays.size) :
      ¬ Value.array id = .array h.arrays.size := by
    rintro hsame
    cases hsame
    exact hfresh hid
  refine ⟨h.elements_newArray _, hfresh, fun l hl => ?_, fun l hl => ?_⟩
  · have hspared {id : ArrayId} (hid : id < h.arrays.size) : l.elements id = h.elements id :=
      Eq.trans (hl.sameAt (hgrows.exist (w := .array id) hid) (hother hid)).2
        (hgrows.elements id hid)
    exact ⟨hspared ha, hspared hb⟩
  · refine (hl.sameAt (w := .array h.arrays.size) ?_ ?_).2
    · simp [Exists, newArray]
    · rintro (hsame | hsame)
      · exact hother ha hsame.symm
      · exact hother hb hsame.symm

/-- Concatenation, length and index access agree. The sum of two texts or of two arrays has as many
items as both together and reads as the first followed by the second; any other index raises an
exception. The length of a text is its number of code points, an index reads one of them, and
together they make up the text. The sum of two arrays is a new array with the very elements of
both: stores into it leave the two arrays as they are, and stores into them leave the sum. -/
theorem add_joins (h : Heap) :
    (∀ x y : Value, x.kind = y.kind → x.kind = .string ∨ x.kind = .array →
      ∃ z k m n, BinaryOp.add.apply x y h = .ok (z, k) ∧ h.Grows k ∧ h.Joins k x y z m n) ∧
    (∀ s : String, h.HasLength (.string s) s.toList.length ∧
      (∀ (i : Int64) (n : Nat) (hn : n < s.toList.length), i.toInt = n →
        h.loadIndex (.string s) (.integer i) = .ok (.string (.singleton s.toList[n]))) ∧
          String.join (s.toList.map .singleton) = s) ∧
    ∀ a < h.arrays.size, ∀ b < h.arrays.size, ∃ c k,
      BinaryOp.add.apply (.array a) (.array b) h = .ok (.array c, k) ∧ h.JoinsApart k a b c := by
  refine ⟨fun x y hkind hsequence => ?_, fun s => ⟨?_, fun i n hn hi => ?_, join_singletons s⟩,
    fun a ha b hb => ⟨_, _, rfl, joinsApart_newArray ha hb⟩⟩
  · obtain ⟨z, k, xs, ys, hok, hgrows, hx, hy, hz⟩ := apply_add_items (h := h) hkind hsequence
    exact ⟨z, k, xs.length, ys.length, hok, hgrows, hx.joins hy hz⟩
  · have hlength := (Items.text (h := h) s).hasLength
    rwa [List.length_map] at hlength
  · rw [(Items.text (h := h) s).loadIndex hi (by rwa [List.length_map]), List.getElem_map]

/-- An array joined to itself reads twice as its elements, and keeps them when the sum is stored
into. -/
theorem add_joins_same :
    let h : Heap := { arrays := #[#[.string "é"]] }
    ∃ k, BinaryOp.add.apply (.array 0) (.array 0) h = .ok (.array 1, k) ∧
      k.elements 1 = #[.string "é", .string "é"] ∧
        ∀ l, k.Changes (· = .array 1) l → l.elements 0 = #[.string "é"] := by
  intro h
  obtain ⟨c, k, hok, hjoins⟩ := (add_joins h).2.2 0 (by decide) 0 (by decide)
  cases hok
  exact ⟨_, rfl, hjoins.elements, fun l hl => (hjoins.parts l hl).1⟩

end Heap

end ScriptMachine
