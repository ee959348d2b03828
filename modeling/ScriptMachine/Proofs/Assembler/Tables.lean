import Std.Data.HashMap.Lemmas
import ScriptMachine.Assembler.Basic

/-! The tables of a block in the making. What is added to a table is found at the place that is
answered, and stays there. -/

namespace ScriptMachine

namespace ConstantPool

/-- Literals are where the pool says. -/
def Sound (p : ConstantPool) : Prop :=
  ∀ (v : Value) (place : Nat), p.places[v]? = some place → p.values[place]? = some v

variable {p : ConstantPool} {v w : Value} {place i : Nat}

theorem sound_empty : ({} : ConstantPool).Sound := by
  intro v place h
  simp at h

theorem getElem?_putAt (h : p.values[i]? = some w) (v : Value) (place : Nat) :
    (p.putAt v place).values[i]? = some w := by
  rw [putAt]
  split
  · exact h
  · obtain ⟨hi, -⟩ := Array.getElem?_eq_some_iff.mp h
    rw [Array.getElem?_push_lt hi, ← Array.getElem?_eq_getElem hi, h]

/-- A constant is at its place, and the pool stays sound. -/
theorem Sound.putAt (hp : p.Sound) (h : p.placeFor v = .ok place) :
    (p.putAt v place).Sound ∧ (p.putAt v place).values[place]? = some v := by
  rw [placeFor] at h
  split at h
  · rename_i found hfound
    cases h
    have hvalue : p.values[place]? = some v := by
      rw [place?] at hfound
      split at hfound
      · exact hp v place hfound
      · cases hfound
    have hsame : p.putAt v place = p := by
      rw [ConstantPool.putAt, if_pos (Array.getElem?_eq_some_iff.mp hvalue).1]
    rw [hsame]
    exact ⟨hp, hvalue⟩
  · split at h
    · cases h
    · cases h
      rw [ConstantPool.putAt, if_neg (Nat.lt_irrefl _)]
      refine ⟨fun w place hw => ?_, by simp⟩
      have hold (hplace : p.places[w]? = some place) :
          (p.values.push v)[place]? = some w := by
        have hvalue := hp w place hplace
        rw [Array.getElem?_push, hvalue, if_neg]
        exact (Nat.ne_of_lt (Array.getElem?_eq_some_iff.mp hvalue).1)
      simp only at hw
      split at hw
      · rw [Std.HashMap.getElem?_insert] at hw
        split at hw
        · rename_i hsame
          cases hw
          obtain rfl := eq_of_beq hsame
          simp
        · exact hold hw
      · exact hold hw

end ConstantPool

namespace NamePool

variable {p : NamePool} {s r : String} {place i : Nat}

theorem getElem?_putAt (h : p.entries[i]? = some r) (s : String) (place : Nat) :
    (p.putAt s place).entries[i]? = some r := by
  rw [putAt]
  split
  · exact h
  · obtain ⟨hi, -⟩ := Array.getElem?_eq_some_iff.mp h
    rw [Array.getElem?_push_lt hi, ← Array.getElem?_eq_getElem hi, h]

/-- A name is at its place. -/
theorem getElem?_putAt_placeFor (h : p.placeFor s = .ok place) :
    (p.putAt s place).entries[place]? = some s := by
  rw [placeFor] at h
  split at h
  · rename_i found hfound
    cases h
    obtain ⟨table, ⟨names⟩⟩ := p
    obtain ⟨hinside, hname, -⟩ := List.idxOf?_eq_some_iff.mp (by simpa [place?] using hfound)
    simp [putAt, hinside, hname]
  · split at h
    · cases h
    · cases h
      rw [putAt, if_neg (Nat.lt_irrefl _)]
      simp

end NamePool

end ScriptMachine
