import Mathlib.Algebra.GroupWithZero.Nat
import Mathlib.Data.Nat.Bitwise

/-! The lowest set bit of a word. -/
namespace Starshard.Bits

variable {w : Nat}

/-- Below its lowest set bit a word is zero. -/
theorem toNat_mod_ctz (m : BitVec w) (h : m ≠ 0#w) :
    m.toNat % 2 ^ (m.ctz.toNat + 1) = 2 ^ m.ctz.toNat := by
  apply Nat.eq_of_testBit_eq
  intro i
  rw [Nat.testBit_mod_two_pow, Nat.testBit_two_pow]
  obtain hlt | rfl | hgt := Nat.lt_trichotomy i m.ctz.toNat
  · have hz : m.toNat.testBit i = false := BitVec.getLsbD_false_of_lt_ctz hlt
    have hne : m.ctz.toNat ≠ i := by omega
    simp [hz, hne]
  · have ho : m.toNat.testBit m.ctz.toNat = true := BitVec.getLsbD_true_ctz_of_ne_zero h
    rw [ho]
    simp
  · have hne : m.ctz.toNat ≠ i := by omega
    have hni : ¬ i < m.ctz.toNat + 1 := by omega
    simp only [hne, hni, decide_false, Bool.false_and]

/-- `m &= m - 1` clears the lowest set bit and no other. -/
theorem getLsbD_clear (m : BitVec w) (h : m ≠ 0#w) (j : Nat) :
    (m &&& (m - 1)).getLsbD j = (m.getLsbD j && decide (j ≠ m.ctz.toNat)) := by
  let t := m.ctz.toNat
  let q := m.toNat / 2 ^ (t + 1)
  have hpos : 0 < 2 ^ t := Nat.two_pow_pos t
  have hlt : 2 ^ t < 2 ^ (t + 1) := Nat.pow_lt_pow_right (by decide) (by omega)
  have hm : m.toNat = 2 ^ (t + 1) * q + 2 ^ t := by
    have h0 := Nat.div_add_mod m.toNat (2 ^ (t + 1))
    rw [toNat_mod_ctz m h] at h0
    exact h0.symm
  have hone : (1 : BitVec w).toNat = 1 % 2 ^ w := BitVec.toNat_ofNat 1 w
  have hw : 1 < 2 ^ w ∨ w = 0 := by
    cases w with
    | zero => exact .inr rfl
    | succ n => exact .inl (Nat.one_lt_two_pow (by omega))
  have hb : m.toNat < 2 ^ w := m.isLt
  have hw1 : 1 < 2 ^ w := by
    refine hw.resolve_right fun h0 => ?_
    subst h0
    exact h (BitVec.of_length_zero)
  have hsub : (m - 1).toNat = 2 ^ (t + 1) * q + (2 ^ t - 1) := by
    rw [BitVec.toNat_sub_of_le (by rw [BitVec.le_def, hone, Nat.mod_eq_of_lt hw1]; omega), hone,
      Nat.mod_eq_of_lt hw1]
    omega
  have hand : (m &&& (m - 1)).getLsbD j = (m.toNat.testBit j && (m - 1).toNat.testBit j) := by
    rw [BitVec.getLsbD_and]
    rfl
  have hbit : m.getLsbD j = m.toNat.testBit j := rfl
  rw [hand, hbit, hsub, hm, Nat.testBit_two_pow_mul_add _ hlt,
    Nat.testBit_two_pow_mul_add _ (by omega)]
  by_cases hj : j < t + 1
  · rw [if_pos hj, if_pos hj, Nat.testBit_two_pow, Nat.testBit_two_pow_sub_one]
    by_cases he : t = j
    · subst he
      simp
      omega
    · simp [he]
  · rw [if_neg hj, if_neg hj]
    have hne : j ≠ t := by omega
    simp [hne, t]

theorem clear_lt (m : BitVec w) (h : m ≠ 0#w) : (m &&& (m - 1)).toNat < m.toNat := by
  have hle : (m &&& (m - 1)).toNat ≤ m.toNat := by
    rw [BitVec.toNat_and]
    exact Nat.and_le_left
  refine lt_of_le_of_ne hle fun he => ?_
  have hc := getLsbD_clear m h m.ctz.toNat
  rw [BitVec.eq_of_toNat_eq he, BitVec.getLsbD_true_ctz_of_ne_zero h] at hc
  simp at hc

end Starshard.Bits
