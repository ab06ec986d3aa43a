import Mathlib.Data.BitVec
import Mathlib.Tactic.Ring

/-!
# Numbers in two halves

A number of `2 * w` bits in two registers of `w` bits each: sums carry by an unsigned comparison,
shifts move the high bits of the low half into the high half.
-/

namespace OdinSon.Lib

variable {w : ℕ}

/-- The number in two halves. -/
def halves (lo hi : BitVec w) : ℕ := lo.toNat + 2 ^ w * hi.toNat

theorem halves_lt (lo hi : BitVec w) : halves lo hi < 2 ^ (2 * w) := by
  have hhi : hi.toNat + 1 ≤ 2 ^ w := hi.isLt
  calc lo.toNat + 2 ^ w * hi.toNat < 2 ^ w + 2 ^ w * hi.toNat := Nat.add_lt_add_right lo.isLt _
    _ = 2 ^ w * (hi.toNat + 1) := by ring
    _ ≤ 2 ^ w * 2 ^ w := Nat.mul_le_mul_left _ hhi
    _ = 2 ^ (2 * w) := by rw [two_mul, pow_add]

theorem halves_zero (lo : BitVec w) : halves lo 0 = lo.toNat := by
  rw [halves, show (0 : BitVec w).toNat = 0 from rfl, mul_zero, add_zero]

theorem halves_ofNat {n : ℕ} (h : n < 2 ^ (2 * w)) :
    halves (BitVec.ofNat w (n % 2 ^ w)) (BitVec.ofNat w (n / 2 ^ w)) = n := by
  have hhi : n / 2 ^ w < 2 ^ w := by
    rw [Nat.div_lt_iff_lt_mul (Nat.two_pow_pos _), ← pow_add, ← two_mul]
    exact h
  rw [halves, BitVec.toNat_ofNat, BitVec.toNat_ofNat, Nat.mod_mod, Nat.mod_eq_of_lt hhi]
  exact Nat.mod_add_div n (2 ^ w)

/-- The sum of the low halves carries when it is below one of them. -/
theorem toNat_add_carry (x y : BitVec w) :
    x.toNat + y.toNat = (x + y).toNat + 2 ^ w * (if (x + y).ult x then 1 else 0) := by
  have hx := x.isLt
  have hy := y.isLt
  rw [BitVec.ult, BitVec.toNat_add]
  by_cases hcarry : x.toNat + y.toNat < 2 ^ w
  · rw [Nat.mod_eq_of_lt hcarry, if_neg (by simp), mul_zero, add_zero]
  · rw [Nat.mod_eq_sub_mod (not_lt.1 hcarry), Nat.mod_eq_of_lt (by omega),
      if_pos (decide_eq_true (by omega)), mul_one]
    omega

/-- Addition half by half. -/
theorem halves_add (al ah bl bh : BitVec w) :
    halves (al + bl) (ah + bh + BitVec.ofNat w (if (al + bl).ult al then 1 else 0)) =
      (halves al ah + halves bl bh) % 2 ^ (2 * w) := by
  have hlow := toNat_add_carry al bl
  generalize (if (al + bl).ult al then 1 else 0) = carry at hlow ⊢
  have hhigh : (ah + bh + BitVec.ofNat w carry).toNat =
      (ah.toNat + bh.toNat + carry) % 2 ^ w := by
    rw [BitVec.toNat_add, BitVec.toNat_add, BitVec.toNat_ofNat, ← Nat.add_mod]
  have hsum : halves al ah + halves bl bh =
      (al + bl).toNat + 2 ^ w * (ah.toNat + bh.toNat + carry) := by
    rw [halves, halves]
    calc al.toNat + 2 ^ w * ah.toNat + (bl.toNat + 2 ^ w * bh.toNat)
        = (al.toNat + bl.toNat) + 2 ^ w * (ah.toNat + bh.toNat) := by ring
      _ = (al + bl).toNat + 2 ^ w * carry + 2 ^ w * (ah.toNat + bh.toNat) := by rw [hlow]
      _ = (al + bl).toNat + 2 ^ w * (ah.toNat + bh.toNat + carry) := by ring
  rw [hsum, halves, hhigh, two_mul, pow_add, Nat.mod_mul, Nat.add_mul_mod_self_left,
    Nat.mod_eq_of_lt (al + bl).isLt, Nat.add_mul_div_left _ _ (Nat.two_pow_pos w),
    Nat.div_eq_of_lt (al + bl).isLt, Nat.zero_add]

/-- A shift half by half. -/
theorem halves_shiftLeft (lo hi : BitVec w) {k : ℕ} (hk : k ≤ w) :
    halves (lo <<< k) (hi <<< k ||| lo >>> (w - k)) = halves lo hi * 2 ^ k % 2 ^ (2 * w) := by
  have hpow : 2 ^ w = 2 ^ (w - k) * 2 ^ k := by rw [← pow_add, Nat.sub_add_cancel hk]
  -- what is shifted out of the low half fits below what is left in the high half
  have hout : lo.toNat / 2 ^ (w - k) < 2 ^ k := by
    rw [Nat.div_lt_iff_lt_mul (Nat.two_pow_pos _), mul_comm, ← hpow]
    exact lo.isLt
  have hshift (x : BitVec w) : (x <<< k).toNat = 2 ^ k * (x.toNat % 2 ^ (w - k)) := by
    rw [BitVec.toNat_shiftLeft, Nat.shiftLeft_eq, hpow, Nat.mul_mod_mul_right, mul_comm]
  have hor : (hi <<< k ||| lo >>> (w - k)).toNat =
      2 ^ k * (hi.toNat % 2 ^ (w - k)) + lo.toNat / 2 ^ (w - k) := by
    rw [BitVec.toNat_or, hshift, BitVec.toNat_ushiftRight, Nat.shiftRight_eq_div_pow,
      Nat.two_pow_add_eq_or_of_lt hout]
  have hlo := Nat.mod_add_div lo.toNat (2 ^ (w - k))
  have hhi := Nat.mod_add_div hi.toNat (2 ^ (w - k))
  have hsum : halves lo hi * 2 ^ k =
      (halves (lo <<< k) (hi <<< k ||| lo >>> (w - k))) +
        2 ^ (2 * w) * (hi.toNat / 2 ^ (w - k)) := by
    rw [halves, halves, hshift, hor, two_mul, pow_add]
    nth_rewrite 1 [← hlo, ← hhi]
    rw [hpow]
    ring
  rw [hsum, Nat.add_mul_mod_self_left, Nat.mod_eq_of_lt (halves_lt _ _)]

/-- The sign in all the bits of the high half. -/
theorem halves_signExtend (hw : 0 < w) (x : BitVec w) :
    halves x (x.sshiftRight (w - 1)) = (x.signExtend (2 * w)).toNat := by
  have hsign : x.sshiftRight (w - 1) = if x.msb then BitVec.allOnes w else 0 := by
    apply BitVec.eq_of_getLsbD_eq
    intro i hi
    rw [BitVec.getLsbD_sshiftRight]
    by_cases hzero : i = 0
    · subst hzero
      cases hmsb : x.msb <;> simp_all [BitVec.msb_eq_getLsbD_last, hw.ne']
    · cases hmsb : x.msb <;> simp [hi, show ¬ w - 1 + i < w by omega]
  have hle : 2 ^ w ≤ 2 ^ (2 * w) := Nat.pow_le_pow_right (by decide) (by omega)
  rw [BitVec.toNat_signExtend, halves, hsign, BitVec.toNat_setWidth,
    Nat.mod_eq_of_lt (x.isLt.trans_le hle)]
  split_ifs
  · rw [BitVec.toNat_allOnes, Nat.mul_sub, mul_one, ← pow_add, two_mul]
  · rfl

end OdinSon.Lib
