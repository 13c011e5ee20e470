import Mathlib

/-! Arithmetic of machine words of any width: a disjunction read back without
one of its parts, and rounding to a power of two in wrapping arithmetic.
`alignUp` is the usual `(x + a - 1) & ~(a - 1)`; the bound that keeps the sum
below the word size is exactly the bound that keeps the result above `x`. -/

namespace MemoryMappingModule.WordArithmetic

variable {w : ℕ}

theorem or_sub_left (a b : BitVec w) : (a ||| b) - a = b &&& ~~~a := by
  have disjoint : a &&& (b &&& ~~~a) = 0#w := by
    ext i hi
    cases ha : a[i] <;> simp [ha]
  have split : a ||| b = a ||| (b &&& ~~~a) := by
    ext i hi
    cases ha : a[i] <;> simp [ha]
  rw [split, ← BitVec.add_eq_or_of_and_eq_zero _ _ disjoint, BitVec.add_comm,
    BitVec.add_sub_cancel]

theorem and_not_eq_sub (x m : BitVec w) : x &&& ~~~m = x - (x &&& m) := by
  have split : x = x &&& m ||| x &&& ~~~m := by
    ext i hi
    cases hm : m[i] <;> simp [hm]
  have masked : x &&& ~~~m &&& ~~~(x &&& m) = x &&& ~~~m := by
    ext i hi
    cases hm : m[i] <;> simp [hm]
  calc
    x &&& ~~~m = x &&& ~~~m &&& ~~~(x &&& m) := masked.symm
    _ = (x &&& m ||| x &&& ~~~m) - (x &&& m) := (or_sub_left _ _).symm
    _ = x - (x &&& m) := by rw [← split]

def lowMask (w k : ℕ) : BitVec w := BitVec.ofNat w (2 ^ k - 1)

@[simp] theorem getLsbD_lowMask (w k i : ℕ) :
    (lowMask w k).getLsbD i = (decide (i < w) && decide (i < k)) := by
  rw [lowMask, BitVec.getLsbD_ofNat, Nat.testBit_two_pow_sub_one]

theorem and_lowMask_toNat (x : BitVec w) {k : ℕ} (hk : k ≤ w) :
    (x &&& lowMask w k).toNat = x.toNat % 2 ^ k := by
  have hpow : 2 ^ k ≤ 2 ^ w := Nat.pow_le_pow_right (by decide) hk
  have hpos : 0 < 2 ^ k := Nat.two_pow_pos k
  rw [BitVec.toNat_and, lowMask, BitVec.toNat_ofNat, Nat.mod_eq_of_lt (by omega),
    Nat.and_two_pow_sub_one_eq_mod]

theorem shiftLeft_and_lowMask (x : BitVec w) {k n : ℕ} (hkn : k ≤ n) :
    (x <<< n) &&& lowMask w k = 0#w := by
  apply BitVec.eq_of_getLsbD_eq
  intro i hi
  simp only [BitVec.getLsbD_and, BitVec.getLsbD_shiftLeft, getLsbD_lowMask, BitVec.getLsbD_zero]
  grind

section PowerOfTwo

variable {a : BitVec w} {k : ℕ}

theorem sub_one_toNat (ha : a.toNat = 2 ^ k) : (a - 1#w).toNat = 2 ^ k - 1 := by
  have hk : 1 ≤ 2 ^ k := Nat.one_le_two_pow
  have hlt := a.isLt
  have one : (1#w).toNat = 1 := by
    rw [BitVec.toNat_ofNat]
    exact Nat.mod_eq_of_lt (by omega)
  rw [BitVec.toNat_sub_of_le (BitVec.le_def.mpr (by omega)), one, ha]

theorem and_sub_one_toNat (x : BitVec w) (ha : a.toNat = 2 ^ k) :
    (x &&& (a - 1#w)).toNat = x.toNat % 2 ^ k := by
  rw [BitVec.toNat_and, sub_one_toNat ha, Nat.and_two_pow_sub_one_eq_mod]

/-- `x & ~(a - 1)` -/
def alignDown (x a : BitVec w) : BitVec w := x &&& ~~~(a - 1#w)

/-- `(x + a - 1) & ~(a - 1)` -/
def alignUp (x a : BitVec w) : BitVec w := (x + a - 1#w) &&& ~~~(a - 1#w)

theorem alignDown_toNat (x : BitVec w) (ha : a.toNat = 2 ^ k) :
    (alignDown x a).toNat = x.toNat - x.toNat % 2 ^ k := by
  have hle : x.toNat % 2 ^ k ≤ x.toNat := Nat.mod_le _ _
  rw [alignDown, and_not_eq_sub, BitVec.toNat_sub_of_le, and_sub_one_toNat x ha]
  rw [BitVec.le_def, and_sub_one_toNat x ha]
  exact hle

theorem add_sub_one_toNat (x : BitVec w) (ha : a.toNat = 2 ^ k) :
    (x + a - 1#w).toNat = (x.toNat + (2 ^ k - 1)) % 2 ^ w := by
  have assoc : x + a - 1#w = x + (a - 1#w) := by
    rw [BitVec.sub_eq_add_neg, BitVec.add_assoc, ← BitVec.sub_eq_add_neg]
  rw [assoc, BitVec.toNat_add, sub_one_toNat ha]

theorem alignUp_eq_alignDown (x a : BitVec w) : alignUp x a = alignDown (x + a - 1#w) a := rfl

theorem alignUp_toNat_of_lt (x : BitVec w) (ha : a.toNat = 2 ^ k)
    (fits : x.toNat + (2 ^ k - 1) < 2 ^ w) :
    (alignUp x a).toNat =
      x.toNat + (2 ^ k - 1) - (x.toNat + (2 ^ k - 1)) % 2 ^ k := by
  rw [alignUp_eq_alignDown, alignDown_toNat _ ha, add_sub_one_toNat x ha,
    Nat.mod_eq_of_lt fits]

theorem alignUp_of_wraps (x : BitVec w) (ha : a.toNat = 2 ^ k)
    (wraps : 2 ^ w ≤ x.toNat + (2 ^ k - 1)) : alignUp x a = 0#w := by
  have hx := x.isLt
  have hk : 0 < 2 ^ k := Nat.two_pow_pos k
  have hlt : 2 ^ k < 2 ^ w := ha ▸ a.isLt
  have rest : (x.toNat + (2 ^ k - 1)) % 2 ^ w = x.toNat + (2 ^ k - 1) - 2 ^ w := by
    rw [Nat.mod_eq_sub_mod wraps]
    exact Nat.mod_eq_of_lt (by omega)
  apply BitVec.eq_of_toNat_eq
  rw [alignUp_eq_alignDown, alignDown_toNat _ ha, add_sub_one_toNat x ha, rest,
    Nat.mod_eq_of_lt (by omega)]
  simp

/-- Rounding up gives at least the argument exactly when the sum does not wrap. -/
theorem le_alignUp_iff (x : BitVec w) (ha : a.toNat = 2 ^ k) :
    x ≤ alignUp x a ↔ x.toNat + (2 ^ k - 1) < 2 ^ w := by
  have hk : 0 < 2 ^ k := Nat.two_pow_pos k
  constructor
  · intro hle
    by_contra wraps
    have hx := x.isLt
    have hlt : 2 ^ k < 2 ^ w := ha ▸ a.isLt
    rw [alignUp_of_wraps x ha (by omega), BitVec.le_def] at hle
    simp only [BitVec.toNat_ofNat, Nat.zero_mod] at hle
    omega
  · intro fits
    have hmod := Nat.mod_lt (x.toNat + (2 ^ k - 1)) hk
    rw [BitVec.le_def, alignUp_toNat_of_lt x ha fits]
    omega

theorem alignUp_le_of_dvd (x : BitVec w) (ha : a.toNat = 2 ^ k) {bound : ℕ}
    (hb : 2 ^ k ∣ bound) (hle : x.toNat ≤ bound) (fits : x.toNat + (2 ^ k - 1) < 2 ^ w) :
    (alignUp x a).toNat ≤ bound := by
  have hk : 0 < 2 ^ k := Nat.two_pow_pos k
  rw [alignUp_toNat_of_lt x ha fits]
  obtain ⟨q, rfl⟩ := hb
  have hdiv : (x.toNat + (2 ^ k - 1)) / 2 ^ k ≤ q := by
    rw [Nat.div_le_iff_le_mul hk, Nat.mul_comm q]
    omega
  have hsplit := Nat.div_add_mod (x.toNat + (2 ^ k - 1)) (2 ^ k)
  have hmul := Nat.mul_le_mul_left (2 ^ k) hdiv
  omega

theorem dvd_alignUp_toNat (x : BitVec w) (ha : a.toNat = 2 ^ k)
    (fits : x.toNat + (2 ^ k - 1) < 2 ^ w) : 2 ^ k ∣ (alignUp x a).toNat := by
  rw [alignUp_toNat_of_lt x ha fits]
  exact Nat.dvd_sub_mod _

theorem dvd_alignDown_toNat (x : BitVec w) (ha : a.toNat = 2 ^ k) :
    2 ^ k ∣ (alignDown x a).toNat := by
  rw [alignDown_toNat x ha]
  exact Nat.dvd_sub_mod _

/-- Rounding up and rounding down are adjoint as long as rounding up does not wrap. -/
theorem alignUp_le_iff (x y : BitVec w) (ha : a.toNat = 2 ^ k)
    (fits : x.toNat + (2 ^ k - 1) < 2 ^ w) : alignUp x a ≤ y ↔ x ≤ alignDown y a := by
  have hmod := Nat.mod_le y.toNat (2 ^ k)
  simp only [BitVec.le_def]
  constructor
  · intro hle
    obtain ⟨q, hq⟩ := dvd_alignUp_toNat x ha fits
    have hx := BitVec.le_def.mp ((le_alignUp_iff x ha).mpr fits)
    have hdiv : q ≤ y.toNat / 2 ^ k := by
      rw [Nat.le_div_iff_mul_le (Nat.two_pow_pos k), Nat.mul_comm]
      omega
    have hmul := Nat.mul_le_mul_left (2 ^ k) hdiv
    have hsplit := Nat.div_add_mod y.toNat (2 ^ k)
    rw [alignDown_toNat y ha]
    omega
  · intro hle
    have hup := alignUp_le_of_dvd x ha (dvd_alignDown_toNat y ha) hle fits
    rw [alignDown_toNat y ha] at hup
    omega

theorem alignDown_fits (x : BitVec w) (ha : a.toNat = 2 ^ k) :
    (alignDown x a).toNat + (2 ^ k - 1) < 2 ^ w := by
  have hlt : 2 ^ k < 2 ^ w := ha ▸ a.isLt
  have hk := Nat.pow_lt_pow_iff_right (a := 2) (by decide) |>.mp hlt
  have hsum : 2 ^ k ∣ 2 ^ w := Nat.pow_dvd_pow 2 hk.le
  obtain ⟨q, hq⟩ := dvd_alignDown_toNat x ha
  obtain ⟨m, hm⟩ := hsum
  have hbound := (alignDown x a).isLt
  have hqm : q < m := by
    rw [hq, hm] at hbound
    exact Nat.lt_of_mul_lt_mul_left hbound
  have hnext := Nat.mul_le_mul_left (2 ^ k) hqm
  have hpos := Nat.two_pow_pos k
  rw [Nat.mul_succ] at hnext
  omega

end PowerOfTwo

end MemoryMappingModule.WordArithmetic
