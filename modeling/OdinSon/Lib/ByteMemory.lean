import Mathlib.Data.BitVec
import Mathlib.Tactic.Ring

/-!
# Numbers in a memory of bytes

A memory gives each of the `2 ^ 64` addresses a byte, and numbers lie in it with the low byte first.
Writing or reading a number in parts that follow each other is writing or reading it at once
(`storeBytes_add`, `loadBytes_add`).
-/

namespace OdinSon.Lib

variable (m : BitVec 64 → BitVec 8) (a : BitVec 64)

/-- The memory after the low `n` bytes of `v` are written from `a` on. -/
def storeBytes (n v : ℕ) : BitVec 64 → BitVec 8 :=
  fun x => if (x - a).toNat < n then BitVec.ofNat 8 (v / 256 ^ (x - a).toNat) else m x

/-- The number in the `n` bytes from `a` on. -/
@[grind =] def loadBytes : ℕ → ℕ
  | 0 => 0
  | n + 1 => loadBytes n + 256 ^ n * (m (a + BitVec.ofNat 64 n)).toNat

variable {m a}

theorem loadBytes_lt (n : ℕ) : loadBytes m a n < 256 ^ n := by
  induction n with
  | zero => exact Nat.one_pos
  | succ n ih =>
    have hbyte : (m (a + BitVec.ofNat 64 n)).toNat ≤ 255 := Nat.le_of_lt_succ (m _).isLt
    have hmul := Nat.mul_le_mul_left (256 ^ n) hbyte
    rw [loadBytes, pow_succ]
    omega

/-- A number is read in two parts. -/
theorem loadBytes_add (i n : ℕ) : loadBytes m a (i + n) =
    loadBytes m a i + 256 ^ i * loadBytes m (a + BitVec.ofNat 64 i) n := by
  induction n with
  | zero => rw [loadBytes, mul_zero, add_zero, add_zero]
  | succ n ih =>
    have haddress : a + BitVec.ofNat 64 i + BitVec.ofNat 64 n = a + BitVec.ofNat 64 (i + n) := by
      rw [BitVec.add_assoc, BitVec.ofNat_add]
    rw [← add_assoc, loadBytes, ih, loadBytes, haddress, pow_add]
    ring

theorem toNat_offset {i : ℕ} (hi : i < 2 ^ 64) : (a + BitVec.ofNat 64 i - a).toNat = i := by
  rw [BitVec.add_comm, BitVec.add_sub_cancel, BitVec.toNat_ofNat]
  exact Nat.mod_eq_of_lt hi

/-- Outside of the bytes that are written the memory is as it was. -/
theorem storeBytes_of_not_lt {n v : ℕ} {x : BitVec 64} (h : ¬ (x - a).toNat < n) :
    storeBytes m a n v x = m x :=
  if_neg h

theorem storeBytes_zero (v : ℕ) : storeBytes m a 0 v = m :=
  funext fun _ => if_neg (Nat.not_lt_zero _)

theorem ofNat_mod_pow_div {n i v : ℕ} (hi : i < n) :
    BitVec.ofNat 8 (v % 256 ^ n / 256 ^ i) = BitVec.ofNat 8 (v / 256 ^ i) := by
  obtain ⟨k, rfl⟩ := Nat.exists_eq_add_of_lt hi
  have hmod : v % 256 ^ (i + k + 1) / 256 ^ i = v / 256 ^ i % 256 ^ (k + 1) := by
    rw [add_assoc, pow_add, Nat.mod_mul_right_div_self]
  apply BitVec.eq_of_toNat_eq
  rw [BitVec.toNat_ofNat, BitVec.toNat_ofNat, hmod]
  exact Nat.mod_mod_of_dvd _ (Dvd.intro_left (256 ^ k) (pow_succ 256 k).symm)

/-- Only the bytes that are written matter. -/
theorem storeBytes_mod (n v : ℕ) : storeBytes m a n (v % 256 ^ n) = storeBytes m a n v := by
  funext x
  rw [storeBytes, storeBytes]
  split_ifs with hx
  · exact ofNat_mod_pow_div hx
  · rfl

/-- A number is written in two parts. -/
theorem storeBytes_add {i n : ℕ} (h : i + n ≤ 2 ^ 64) (v : ℕ) :
    storeBytes (storeBytes m a i v) (a + BitVec.ofNat 64 i) n (v / 256 ^ i) =
      storeBytes m a (i + n) v := by
  funext x
  have hsub : x - (a + BitVec.ofNat 64 i) = x - a - BitVec.ofNat 64 i := by
    rw [BitVec.sub_eq_add_neg, BitVec.neg_add, BitVec.sub_eq_add_neg, BitVec.sub_eq_add_neg,
      BitVec.sub_eq_add_neg, BitVec.add_assoc]
  have hlt := (x - a).isLt
  rw [storeBytes, storeBytes, storeBytes, hsub, BitVec.toNat_sub, BitVec.toNat_ofNat]
  generalize (x - a).toNat = k at hlt ⊢
  by_cases hk : k < i
  · rw [if_neg (by omega), if_pos hk, if_pos (by omega)]
  · by_cases hkn : k < i + n
    · have hoffset : (2 ^ 64 - i % 2 ^ 64 + k) % 2 ^ 64 = k - i := by omega
      rw [hoffset, if_pos (by omega), if_pos hkn, Nat.div_div_eq_div_mul, ← pow_add,
        Nat.add_sub_cancel' (not_lt.1 hk)]
    · rw [if_neg (by omega), if_neg hk, if_neg hkn]

/-- What is read is what was written, as far as it is in the bytes. -/
theorem loadBytes_storeBytes {n : ℕ} (h : n ≤ 2 ^ 64) (v : ℕ) :
    loadBytes (storeBytes m a n v) a n = v % 256 ^ n := by
  have hprefix : ∀ k ≤ n, loadBytes (storeBytes m a n v) a k = v % 256 ^ k := by
    intro k
    induction k with
    | zero => intro _; rw [pow_zero, Nat.mod_one, loadBytes]
    | succ k ih =>
      intro hk
      have hbyte : storeBytes m a n v (a + BitVec.ofNat 64 k) = BitVec.ofNat 8 (v / 256 ^ k) := by
        rw [storeBytes, toNat_offset (by omega), if_pos (by omega)]
      rw [loadBytes, ih (by omega), hbyte, BitVec.toNat_ofNat, pow_succ 256 k, Nat.mod_mul]
  exact hprefix n le_rfl

end OdinSon.Lib
