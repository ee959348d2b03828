import Mathlib.Data.Int.Bitwise
import Mathlib.Data.Int.ModEq
import ScriptMachine.Proofs.Operator.Faultless

/-! Integer operators against exact arithmetic. An operator that takes its operands answers the one
64-bit number that agrees with the exact result modulo 2 ^ 64. -/

namespace ScriptMachine

/-! ### Bits in two's complement -/

/-- A number is determined by its bits. -/
theorem eq_of_testBit_eq {m n : Int} (h : ∀ k, m.testBit k = n.testBit k) : m = n := by
  -- beyond the digits of a number all bits are those of its sign
  have hfar (i j : Nat) : i.testBit (i + j) = false :=
    Nat.testBit_lt_two_pow (Nat.lt_of_le_of_lt (Nat.le_add_right i j) Nat.lt_two_pow_self)
  have hsigns (i j : Nat) : ¬ ∀ k, i.testBit k = !j.testBit k := by
    intro hbits
    have hbit := hbits (i + j)
    rw [hfar, Nat.add_comm, hfar] at hbit
    cases hbit
  cases m with
  | ofNat i =>
      cases n with
      | ofNat j => exact congrArg Int.ofNat (Nat.eq_of_testBit_eq h)
      | negSucc j => exact absurd h (hsigns i j)
  | negSucc i =>
      cases n with
      | ofNat j => exact absurd (fun k => (h k).symm) (hsigns j i)
      | negSucc j =>
          exact congrArg Int.negSucc (Nat.eq_of_testBit_eq fun k => Bool.not_inj (h k))

/-- Beyond its width the bits of a word are those of its sign. -/
theorem testBit_toInt {w : Nat} (x : BitVec w) (k : Nat) :
    x.toInt.testBit k = if k < w then x.getLsbD k else x.msb := by
  cases hsign : x.msb with
  | false =>
      rw [BitVec.toInt_eq_toNat_of_msb hsign]
      change x.toNat.testBit k = _
      rw [BitVec.testBit_toNat]
      split
      · rfl
      · exact BitVec.getLsbD_of_ge _ _ (by omega)
  | true =>
      have hvalue : x.toInt = Int.negSucc (~~~x).toNat := by
        have hlt := x.isLt
        rw [BitVec.toInt_eq_msb_cond, hsign, if_pos rfl, BitVec.toNat_not]
        omega
      rw [hvalue]
      change (!(~~~x).toNat.testBit k) = _
      rw [BitVec.testBit_toNat, BitVec.getLsbD_not]
      split <;> simp [*]

theorem toInt_and {w : Nat} (x y : BitVec w) : (x &&& y).toInt = x.toInt.land y.toInt := by
  refine eq_of_testBit_eq fun k => ?_
  rw [Int.testBit_land, testBit_toInt, testBit_toInt, testBit_toInt]
  split <;> simp

theorem toInt_or {w : Nat} (x y : BitVec w) : (x ||| y).toInt = x.toInt.lor y.toInt := by
  refine eq_of_testBit_eq fun k => ?_
  rw [Int.testBit_lor, testBit_toInt, testBit_toInt, testBit_toInt]
  split <;> simp

theorem toInt_xor {w : Nat} (x y : BitVec w) : (x ^^^ y).toInt = x.toInt.xor y.toInt := by
  refine eq_of_testBit_eq fun k => ?_
  rw [Int.testBit_lxor, testBit_toInt, testBit_toInt, testBit_toInt]
  split <;> simp

theorem toInt_andNot {w : Nat} (hw : 0 < w) (x y : BitVec w) :
    (x &&& ~~~y).toInt = x.toInt.ldiff y.toInt := by
  refine eq_of_testBit_eq fun k => ?_
  rw [Int.testBit_ldiff, testBit_toInt, testBit_toInt, testBit_toInt]
  split <;> simp [*]

/-! ### 64-bit numbers -/

/-- A 64-bit number is the only one that agrees with it modulo 2 ^ 64. -/
theorem modEq_toInt_iff {r s : Int64} : s.toInt ≡ r.toInt [ZMOD 2 ^ 64] ↔ s = r := by
  refine ⟨fun h => ?_, fun h => h ▸ .rfl⟩
  have hr := r.le_toInt
  have hr' := r.toInt_lt
  have hs := s.le_toInt
  have hs' := s.toInt_lt
  rw [Int.ModEq] at h
  exact Int64.toInt_inj.mp (by omega)

theorem bmod_modEq (x : Int) : x.bmod (2 ^ 64) ≡ x [ZMOD 2 ^ 64] :=
  Int.bmod_emod

/-- A distance below the width is not reduced. -/
theorem toNat_smod_width {b : Int64} (hb : 0 ≤ b.toInt) (hlt : b.toInt < 64) :
    (b.toBitVec.smod 64).toNat = b.toInt.toNat := by
  have hwidth : BitVec.toInt (64 : BitVec 64) = 64 := by decide
  have hvalue : (b.toBitVec.smod 64).toInt = b.toInt := by
    rw [BitVec.toInt_smod, hwidth, Int.fmod_eq_emod_of_nonneg _ (by decide)]
    exact Int.emod_eq_of_lt hb hlt
  have hcond := BitVec.toInt_eq_toNat_cond (b.toBitVec.smod 64)
  have hbound := (b.toBitVec.smod 64).isLt
  split at hcond <;> omega

theorem toInt_shiftLeft_modEq {a b : Int64} (hb : 0 ≤ b.toInt) (hlt : b.toInt < 64) :
    (a <<< b).toInt ≡ a.toInt * 2 ^ b.toInt.toNat [ZMOD 2 ^ 64] := by
  rw [← Int64.toInt_toBitVec, Int64.toBitVec_shiftLeft, BitVec.shiftLeft_eq',
    toNat_smod_width hb hlt, BitVec.toInt_shiftLeft, Nat.shiftLeft_eq, Nat.cast_mul, Nat.cast_pow]
  refine (bmod_modEq _).trans (Int.ModEq.mul_right _ ?_)
  rw [← Int64.toInt_toBitVec, BitVec.toInt_eq_toNat_bmod]
  exact (bmod_modEq _).symm

theorem toInt_shiftRight {a b : Int64} (hb : 0 ≤ b.toInt) (hlt : b.toInt < 64) :
    (a >>> b).toInt = a.toInt / 2 ^ b.toInt.toNat := by
  rw [← Int64.toInt_toBitVec, Int64.toBitVec_shiftRight, BitVec.sshiftRight_eq',
    toNat_smod_width hb hlt, BitVec.toInt_sshiftRight, Int.shiftRight_eq_div_pow, Nat.cast_pow]
  rfl

namespace BinaryOp

/-! ### Exact results -/

/-- The result on exact integers. Division rounds toward zero and a shift to the right downward;
bits are those of two's complement. -/
def exact (op : BinaryOp) (a b : Int) : Int :=
  match op with
  | .add => a + b
  | .sub => a - b
  | .mul => a * b
  | .div => a.tdiv b
  | .mod => a.tmod b
  | .shl => a * 2 ^ b.toNat
  | .shr => a / 2 ^ b.toNat
  | .bitAnd => a.land b
  | .bitOr => a.lor b
  | .bitXor => a.xor b
  | .andNot => a.ldiff b
  | .and | .or => 0

/-- The operator takes integers, with this one on the right. -/
def Admits (op : BinaryOp) (b : Int) : Prop :=
  match op with
  | .div | .mod => b ≠ 0
  | .shl | .shr => 0 ≤ b
  | .and | .or => False
  | _ => True

/-- The exact result may be no 64-bit number. -/
def Wraps (op : BinaryOp) (a b : Int64) : Prop :=
  match op with
  | .add | .sub | .mul | .shl => True
  | .div => a = .minValue ∧ b = -1
  | _ => False

variable {op : BinaryOp} {a b : Int64}

/-! ### Shifts -/

theorem shiftAmount_eq_ok (hb : 0 ≤ b.toInt) :
    shiftAmount b = .ok (if b.toInt < 64 then some b else none) := by
  have hsign : ¬ b < 0 := by
    rw [Int64.lt_iff_toInt_lt]
    exact Int.not_lt.mpr hb
  have hwidth : b < 64 ↔ b.toInt < 64 := Int64.lt_iff_toInt_lt
  rw [shiftAmount, if_neg hsign]
  simp only [hwidth]

/-- A power of two beyond the width is a multiple of 2 ^ 64. -/
theorem shiftLeft_spec (a : Int64) (hb : 0 ≤ b.toInt) :
    ∃ r, shiftLeft a b = .ok r ∧ r.toInt ≡ a.toInt * 2 ^ b.toInt.toNat [ZMOD 2 ^ 64] := by
  rw [shiftLeft, shiftAmount_eq_ok hb]
  by_cases hlt : b.toInt < 64
  · rw [if_pos hlt]
    exact ⟨a <<< b, rfl, toInt_shiftLeft_modEq hb hlt⟩
  · rw [if_neg hlt]
    refine ⟨0, rfl, Int.ModEq.symm (Int.modEq_zero_iff_dvd.mpr (Dvd.dvd.mul_left ?_ _))⟩
    exact pow_dvd_pow 2 (by omega)

/-- A number divided by a power of two beyond the width is its sign. -/
theorem shiftRight_spec (a : Int64) (hb : 0 ≤ b.toInt) :
    ∃ r, shiftRight a b = .ok r ∧ r.toInt = a.toInt / 2 ^ b.toInt.toNat := by
  rw [shiftRight, shiftAmount_eq_ok hb]
  by_cases hlt : b.toInt < 64
  · rw [if_pos hlt]
    exact ⟨a >>> b, rfl, toInt_shiftRight hb hlt⟩
  rw [if_neg hlt]
  have hpower : (2 : Int) ^ 64 ≤ 2 ^ b.toInt.toNat := by
    exact_mod_cast Nat.pow_le_pow_right (n := 2) (by decide) (by omega : 64 ≤ b.toInt.toNat)
  have hlow := a.le_toInt
  have hhigh := a.toInt_lt
  have hsign : a < 0 ↔ a.toInt < 0 := Int64.lt_iff_toInt_lt
  refine ⟨if a < 0 then -1 else 0, rfl, ?_⟩
  by_cases h : a < 0
  · rw [if_pos h]
    have hneg := hsign.mp h
    have hquotient : a.toInt / 2 ^ b.toInt.toNat = -1 :=
      (Int.ediv_emod_unique (r := a.toInt + 2 ^ b.toInt.toNat) (by omega)).mpr
        ⟨by omega, by omega, by omega⟩ |>.1
    exact hquotient.symm
  · rw [if_neg h]
    exact (Int.ediv_eq_zero_of_lt (Int.not_lt.mp (hsign.not.mp h)) (by omega)).symm

/-! ### Results of the operators -/

/-- An operator that takes its operands answers what agrees with the exact result, and the exact
result itself unless that may be too large. -/
theorem onIntegers_of_admits (hop : op.Admits b.toInt) : ∃ r, op.onIntegers a b = .ok r ∧
    r.toInt ≡ op.exact a.toInt b.toInt [ZMOD 2 ^ 64] ∧
      (¬ op.Wraps a b → r.toInt = op.exact a.toInt b.toInt) := by
  -- an exact result agrees with itself
  have hexact {r : Int64} {x : Int} (h : r.toInt = x) :
      r.toInt ≡ x [ZMOD 2 ^ 64] ∧ (¬ op.Wraps a b → r.toInt = x) :=
    ⟨h ▸ .rfl, fun _ => h⟩
  cases op with
  | add => exact ⟨a + b, rfl, Int64.toInt_add a b ▸ bmod_modEq _, fun h => absurd trivial h⟩
  | sub => exact ⟨a - b, rfl, Int64.toInt_sub a b ▸ bmod_modEq _, fun h => absurd trivial h⟩
  | mul => exact ⟨a * b, rfl, Int64.toInt_mul a b ▸ bmod_modEq _, fun h => absurd trivial h⟩
  | div =>
      refine ⟨a / b, if_neg fun h => hop (congrArg Int64.toInt h),
        Int64.toInt_div a b ▸ bmod_modEq _, fun h => ?_⟩
      by_cases ha : a = .minValue
      · exact Int64.toInt_div_of_ne_right a b fun hb => h ⟨ha, hb⟩
      · exact Int64.toInt_div_of_ne_left a b ha
  | mod =>
      exact ⟨a % b, if_neg fun h => hop (congrArg Int64.toInt h), hexact (Int64.toInt_mod a b)⟩
  | shl =>
      obtain ⟨r, hr, hmod⟩ := shiftLeft_spec a hop
      exact ⟨r, hr, hmod, fun h => absurd trivial h⟩
  | shr =>
      obtain ⟨r, hr, hvalue⟩ := shiftRight_spec a hop
      exact ⟨r, hr, hexact hvalue⟩
  | bitAnd => exact ⟨a &&& b, rfl, hexact (toInt_and a.toBitVec b.toBitVec)⟩
  | bitOr => exact ⟨a ||| b, rfl, hexact (toInt_or a.toBitVec b.toBitVec)⟩
  | bitXor => exact ⟨a ^^^ b, rfl, hexact (toInt_xor a.toBitVec b.toBitVec)⟩
  | andNot =>
      exact ⟨a &&& ~~~b, rfl, hexact (toInt_andNot (by decide) a.toBitVec b.toBitVec)⟩
  | and | or => exact hop.elim

/-- An operator that does not take its operands faults if it divides, and raises an exception
otherwise. -/
theorem onIntegers_of_not_admits (hop : ¬ op.Admits b.toInt) :
    (op = .div ∨ op = .mod) ∧ op.onIntegers a b = .error (.fault .divisionByZero) ∨
      (op ≠ .div ∧ op ≠ .mod) ∧
        ∃ e : Exception, op.onIntegers a b = .error (.raised e) ∧ e.inFlight := by
  have hshift (hsign : ¬ 0 ≤ b.toInt) : shiftAmount b = .error Misuse.negativeShift.interrupt := by
    refine if_pos (Int64.lt_iff_toInt_lt.mpr ?_)
    exact Int.not_le.mp hsign
  have hzero (hdivisor : ¬ b.toInt ≠ 0) : b = 0 :=
    Int64.toInt_inj.mp (not_ne_iff.mp hdivisor)
  cases op with
  | div => exact .inl ⟨.inl rfl, if_pos (hzero hop)⟩
  | mod => exact .inl ⟨.inr rfl, if_pos (hzero hop)⟩
  | shl =>
      refine .inr ⟨by decide, .thrown Misuse.negativeShift.message, ?_, rfl⟩
      rw [onIntegers, shiftLeft, hshift hop]
      rfl
  | shr =>
      refine .inr ⟨by decide, .thrown Misuse.negativeShift.message, ?_, rfl⟩
      rw [onIntegers, shiftRight, hshift hop]
      rfl
  | and | or => exact .inr ⟨by decide, _, rfl, rfl⟩
  | _ => exact absurd trivial hop

/-- Quotient and remainder belong together. -/
theorem div_mod_spec (hb : b.toInt ≠ 0) :
    (a / b).toInt * b.toInt + (a % b).toInt ≡ a.toInt [ZMOD 2 ^ 64] ∧
      (a % b).toInt.natAbs < b.toInt.natAbs ∧
        ((a % b).toInt ≠ 0 → (a % b).toInt.sign = a.toInt.sign) := by
  rw [Int64.toInt_div, Int64.toInt_mod]
  refine ⟨?_, ?_, fun hr => ?_⟩
  · calc (a.toInt.tdiv b.toInt).bmod (2 ^ 64) * b.toInt + a.toInt.tmod b.toInt
        ≡ a.toInt.tdiv b.toInt * b.toInt + a.toInt.tmod b.toInt [ZMOD 2 ^ 64] :=
          ((bmod_modEq _).mul_right _).add_right _
      _ = a.toInt := Int.tdiv_mul_add_tmod _ _
  · rw [Int.natAbs_tmod]
    exact Nat.mod_lt _ (Int.natAbs_pos.mpr hb)
  · rw [Int.sign_tmod, if_neg fun hdvd => hr (Int.dvd_iff_tmod_eq_zero.mp hdvd)]

theorem compute_integer (h : Heap) : op.compute (.integer a) (.integer b) h =
    (op.onIntegers a b).map fun n => .value (.integer n) :=
  rfl

/-- Integer arithmetic. An operator that takes its operands answers the only 64-bit number that
agrees with the exact result modulo 2 ^ 64; the exact result itself except for sums, differences,
products, shifts to the left, and the least number divided by -1. Quotient and remainder make up
the dividend. Division by zero is a fault, and what else is not taken is an exception. -/
theorem compute_integers (a b : Int64) (h : Heap) :
    (∀ op : BinaryOp, op.Admits b.toInt → ∃ r : Int64,
      op.compute (.integer a) (.integer b) h = .ok (.value (.integer r)) ∧
        (∀ s : Int64, s.toInt ≡ op.exact a.toInt b.toInt [ZMOD 2 ^ 64] ↔ s = r) ∧
          (¬ op.Wraps a b → r.toInt = op.exact a.toInt b.toInt)) ∧
    (∀ q r : Int64, BinaryOp.div.compute (.integer a) (.integer b) h = .ok (.value (.integer q)) →
      BinaryOp.mod.compute (.integer a) (.integer b) h = .ok (.value (.integer r)) →
        q.toInt * b.toInt + r.toInt ≡ a.toInt [ZMOD 2 ^ 64] ∧
          r.toInt.natAbs < b.toInt.natAbs ∧ (r.toInt ≠ 0 → r.toInt.sign = a.toInt.sign)) ∧
    ∀ op : BinaryOp, ¬ op.Admits b.toInt →
      (op = .div ∨ op = .mod) ∧
          op.compute (.integer a) (.integer b) h = .error (.fault .divisionByZero) ∨
        (op ≠ .div ∧ op ≠ .mod) ∧ ∃ e : Exception,
          op.compute (.integer a) (.integer b) h = .error (.raised e) ∧ e.inFlight := by
  refine ⟨fun op hop => ?_, fun q r hq hr => ?_, fun op hop => ?_⟩
  · obtain ⟨r, hr, hmod, hexact⟩ := onIntegers_of_admits (a := a) hop
    refine ⟨r, ?_, fun s => ⟨fun hs => ?_, fun hs => hs ▸ hmod⟩, hexact⟩
    · rw [compute_integer, hr]
      rfl
    · exact modEq_toInt_iff.mp (hs.trans hmod.symm)
  · have hb : b ≠ 0 := by
      rintro rfl
      cases hq
    simp only [compute_integer, onIntegers, if_neg hb] at hq hr
    cases hq
    cases hr
    exact div_mod_spec fun hzero => hb (Int64.toInt_inj.mp hzero)
  · rw [compute_integer]
    rcases onIntegers_of_not_admits (a := a) hop with
      ⟨hdivides, herror⟩ | ⟨hother, e, herror, hflight⟩
    · exact .inl ⟨hdivides, by rw [herror]; rfl⟩
    · exact .inr ⟨hother, e, by rw [herror]; rfl, hflight⟩

/-- The least number divided by -1 is itself. -/
theorem compute_integers_minValue :
    BinaryOp.div.compute (.integer .minValue) (.integer (-1)) {} =
      .ok (.value (.integer .minValue)) := by
  have hdivisor : BinaryOp.div.Admits (-1 : Int64).toInt := (by decide : (-1 : Int64).toInt ≠ 0)
  obtain ⟨r, hr, hunique, -⟩ := (compute_integers .minValue (-1) {}).1 .div hdivisor
  rw [hr, (hunique .minValue).mp (by decide)]

end BinaryOp

end ScriptMachine
