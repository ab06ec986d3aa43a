import Mathlib.Data.Int.Bitwise
import Mathlib.Data.Nat.Bitwise
import Mathlib.Tactic.Ring
import Mathlib.Tactic.Linarith

/-!
# Fixed-width integers as values

A signed `w`-bit integer is represented by its value in `ℤ`, an unsigned one by its value in
`ℕ`.  `wrap w` brings an integer back into the signed range, `unsigned w` reads the `w` bits of
an integer as an unsigned number.  The bitwise operators of a signed type act on the bits
(`and64`, `or64`, `xor64`, `andNot64`); shifting left by the width or more gives zero.

The second half relates these functions to `BitVec`: `ofInt_toNat` and the `toInt_*` lemmas are
the bridge between a value computed in 64 bits and the same operation performed at width `w`.
-/

namespace OdinSon

namespace MachInt

/-! ### Signed and unsigned readings -/

/-- The signed `w`-bit value congruent to `x` modulo `2 ^ w`. -/
def wrap (w : ℕ) (x : ℤ) : ℤ := Int.bmod x (2 ^ w)

/-- `x` is a value of the signed `w`-bit type. -/
def InS (w : ℕ) (x : ℤ) : Prop := -2 ^ (w - 1) ≤ x ∧ x < 2 ^ (w - 1)

/-- The `w` low bits of `x` as an unsigned number. -/
def unsigned (w : ℕ) (x : ℤ) : ℕ := (x % 2 ^ w).toNat

/-- The signed value of its `w` low bits, or the unsigned one. -/
def Canonical (w : ℕ) (x : ℤ) : Prop := x = wrap w x ∨ x = unsigned w x

instance (w : ℕ) (x : ℤ) : Decidable (InS w x) := inferInstanceAs (Decidable (_ ∧ _))

theorem two_pow_pred {w : ℕ} (hw : 0 < w) : (2 : ℤ) ^ w = 2 * 2 ^ (w - 1) := by
  obtain ⟨v, rfl⟩ : ∃ v, w = v + 1 := ⟨w - 1, by omega⟩
  rw [Nat.add_sub_cancel, pow_succ]; ring

theorem InS.bounds {w : ℕ} {x : ℤ} (hx : InS w x) : -2 ^ (w - 1) ≤ x ∧ x ≤ 2 ^ (w - 1) - 1 :=
  ⟨hx.1, Int.le_sub_one_of_lt hx.2⟩

theorem InS.mono {v w : ℕ} {x : ℤ} (hx : InS v x) (h : v ≤ w) : InS w x := by
  have hp : (2 : ℤ) ^ (v - 1) ≤ 2 ^ (w - 1) := pow_le_pow_right₀ (by norm_num) (by omega)
  exact ⟨by have := hx.1; omega, by have := hx.2; omega⟩

theorem wrap_mem {w : ℕ} (hw : 0 < w) (x : ℤ) : InS w (wrap w x) := by
  have hp := two_pow_pred hw
  have hpos : 0 < 2 ^ w := by positivity
  have h1 := Int.le_bmod (x := x) hpos
  have h2 := Int.bmod_lt (x := x) hpos
  push_cast at h1 h2
  rw [hp] at h1 h2
  constructor <;> unfold wrap <;> omega

theorem wrap_eq_self {w : ℕ} (hw : 0 < w) {x : ℤ} (hx : InS w x) : wrap w x = x := by
  have hp := two_pow_pred hw
  obtain ⟨h1, h2⟩ := hx
  rw [wrap, Int.bmod_eq_iff (by positivity)]
  push_cast
  rw [hp]
  refine ⟨by omega, by omega, by simp⟩

@[simp] theorem wrap_wrap (w : ℕ) (x : ℤ) : wrap w (wrap w x) = wrap w x := Int.bmod_bmod

theorem wrap_eq_wrap_iff {w : ℕ} {x y : ℤ} : wrap w x = wrap w y ↔ (2 : ℤ) ^ w ∣ x - y := by
  unfold wrap
  rw [Int.bmod_eq_bmod_iff_bmod_sub_eq_zero, ← Int.dvd_iff_bmod_eq_zero]
  push_cast; rfl

/-- Wrapping at a wider width first does not change the narrow value. -/
theorem wrap_wrap_of_le {v w : ℕ} (h : v ≤ w) (x : ℤ) : wrap v (wrap w x) = wrap v x := by
  rw [wrap_eq_wrap_iff]
  have : (2 : ℤ) ^ w ∣ wrap w x - x := by
    have := Int.dvd_bmod_sub_self (x := x) (m := 2 ^ w)
    push_cast at this
    exact this
  exact (pow_dvd_pow 2 h).trans this

theorem wrap_mul_left (w : ℕ) (x y : ℤ) : wrap w (wrap w x * y) = wrap w (x * y) :=
  Int.bmod_mul_bmod

theorem unsigned_lt (w : ℕ) (x : ℤ) : unsigned w x < 2 ^ w := by
  have h1 := Int.emod_nonneg x (show (2 : ℤ) ^ w ≠ 0 by positivity)
  have h2 := Int.emod_lt_of_pos x (show (0 : ℤ) < 2 ^ w by positivity)
  unfold unsigned
  rw [Int.toNat_lt h1]
  exact_mod_cast h2

theorem unsigned_cast (w : ℕ) (x : ℤ) : ((unsigned w x : ℕ) : ℤ) = x % 2 ^ w :=
  Int.toNat_of_nonneg (Int.emod_nonneg x (by positivity))

@[simp] theorem wrap_unsigned (w : ℕ) (x : ℤ) : wrap w (unsigned w x) = wrap w x := by
  rw [unsigned_cast, wrap, wrap]
  have := Int.emod_bmod x (2 ^ w)
  push_cast at this
  exact this

theorem unsigned_of_nonneg {w : ℕ} {x : ℤ} (h0 : 0 ≤ x) (h1 : x < 2 ^ w) :
    ((unsigned w x : ℕ) : ℤ) = x := by
  rw [unsigned_cast, Int.emod_eq_of_lt h0 h1]

theorem unsigned_of_neg {w : ℕ} {x : ℤ} (h0 : x < 0) (h1 : -2 ^ w ≤ x) :
    ((unsigned w x : ℕ) : ℤ) = x + 2 ^ w := by
  rw [unsigned_cast, ← Int.add_emod_right, Int.emod_eq_of_lt (by omega) (by omega)]

theorem unsigned_mod {v w : ℕ} (h : v ≤ w) (x : ℤ) : unsigned w x % 2 ^ v = unsigned v x := by
  have : ((unsigned w x % 2 ^ v : ℕ) : ℤ) = (unsigned v x : ℕ) := by
    push_cast
    rw [unsigned_cast, unsigned_cast, Int.emod_emod_of_dvd _ (pow_dvd_pow 2 h)]
  exact_mod_cast this

theorem unsigned_wrap {v w : ℕ} (h : v ≤ w) (x : ℤ) : unsigned v (wrap w x) = unsigned v x := by
  have : ((unsigned v (wrap w x) : ℕ) : ℤ) = (unsigned v x : ℕ) := by
    rw [unsigned_cast, unsigned_cast, Int.emod_eq_emod_iff_emod_sub_eq_zero,
      ← Int.dvd_iff_emod_eq_zero, ← wrap_eq_wrap_iff, wrap_wrap_of_le h]
  exact_mod_cast this

/-- The sign bit of an unsigned reading. -/
theorem testBit_msb {n w : ℕ} (hw : 0 < w) (h : n < 2 ^ w) :
    n.testBit (w - 1) = decide (2 ^ (w - 1) ≤ n) := by
  by_cases hn : 2 ^ (w - 1) ≤ n
  · rw [Nat.testBit_of_two_pow_le_and_two_pow_add_one_gt hn (by rwa [Nat.sub_add_cancel hw])]
    simp [hn]
  · rw [Nat.testBit_lt_two_pow (by omega)]
    simp [hn]

/-- A wrapped unsigned number below half the range is itself. -/
theorem wrap_natCast_of_lt {w n : ℕ} (hw : 0 < w) (h : n < 2 ^ (w - 1)) : wrap w n = n := by
  apply wrap_eq_self hw
  have h' : (n : ℤ) < 2 ^ (w - 1) := by exact_mod_cast h
  constructor <;> have := Int.natCast_nonneg n <;> linarith [pow_pos (two_pos (α := ℤ)) (w - 1)]

/-- A wrapped unsigned number in the upper half of the range is negative. -/
theorem wrap_natCast_of_ge {w n : ℕ} (hw : 0 < w) (h : 2 ^ (w - 1) ≤ n) (h' : n < 2 ^ w) :
    wrap w n = n - 2 ^ w := by
  have hp := two_pow_pred hw
  have h1 : (2 : ℤ) ^ (w - 1) ≤ n := by exact_mod_cast h
  have h2 : (n : ℤ) < 2 ^ w := by exact_mod_cast h'
  have : wrap w n = wrap w (n - 2 ^ w : ℤ) := by
    rw [wrap_eq_wrap_iff]; simp
  rw [this, wrap_eq_self hw]
  constructor <;> omega

/-! ### Sixty-four bit operators -/

/-- `u64(x)`. -/
def u64 (x : ℤ) : ℕ := unsigned 64 x

/-- `i64(n)`. -/
def i64 (n : ℕ) : ℤ := wrap 64 n

/-- `u &~ v` on unsigned numbers. -/
def andNot (u v : ℕ) : ℕ := u ^^^ (u &&& v)

/-- `x & y` on `i64`. -/
def and64 (x y : ℤ) : ℤ := i64 (u64 x &&& u64 y)

/-- `x | y` on `i64`. -/
def or64 (x y : ℤ) : ℤ := i64 (u64 x ||| u64 y)

/-- `x ~ y` on `i64`. -/
def xor64 (x y : ℤ) : ℤ := i64 (u64 x ^^^ u64 y)

/-- `x &~ y` on `i64`. -/
def andNot64 (x y : ℤ) : ℤ := i64 (andNot (u64 x) (u64 y))

/-- `x << s` on `i64`: zero when the count reaches the width. -/
def shl64 (x : ℤ) (s : ℕ) : ℤ := if s < 64 then wrap 64 (x * 2 ^ s) else 0

/-- `x >> s` on `i64`: an arithmetic shift. -/
def shr64 (x : ℤ) (s : ℕ) : ℤ := x / 2 ^ s

@[simp] theorem testBit_andNot (u v i : ℕ) :
    (andNot u v).testBit i = (u.testBit i && !v.testBit i) := by
  simp only [andNot, Nat.testBit_xor, Nat.testBit_and]
  cases u.testBit i <;> cases v.testBit i <;> rfl

theorem andNot_mod (u v w : ℕ) : andNot u v % 2 ^ w = andNot (u % 2 ^ w) (v % 2 ^ w) := by
  apply Nat.eq_of_testBit_eq
  intro i
  simp only [Nat.testBit_mod_two_pow, testBit_andNot]
  by_cases h : i < w <;> simp [h]

theorem and_mask (n w : ℕ) : n &&& (2 ^ w - 1) = n % 2 ^ w := Nat.and_two_pow_sub_one_eq_mod n w

theorem u64_and_mask {w : ℕ} (hw : w ≤ 64) (x : ℤ) : u64 x &&& (2 ^ w - 1) = unsigned w x := by
  rw [and_mask, u64, unsigned_mod hw]

theorem wrap_i64 {w : ℕ} (hw : w ≤ 64) (n : ℕ) : wrap w (i64 n) = wrap w n :=
  wrap_wrap_of_le hw n

theorem u64_i64 {n : ℕ} (h : n < 2 ^ 64) : u64 (i64 n) = n := by
  have hn : (n : ℤ) < 2 ^ 64 := by exact_mod_cast h
  have := unsigned_of_nonneg (Int.natCast_nonneg n) hn
  rw [u64, i64, unsigned_wrap le_rfl]
  exact_mod_cast this

theorem wrap_natCast_mod (w n : ℕ) : wrap w ((n % 2 ^ w : ℕ) : ℤ) = wrap w n := by
  rw [wrap_eq_wrap_iff]
  push_cast
  rw [← neg_sub, Int.dvd_neg]
  exact Int.dvd_self_sub_emod

/-- Shifting up to the top and back is sign extension. -/
theorem shr64_shl64 {w : ℕ} (hw : 0 < w) (hw' : w ≤ 64) (x : ℤ) :
    shr64 (shl64 x (64 - w)) (64 - w) = wrap w x := by
  obtain ⟨s, rfl⟩ : ∃ s, w = 64 - s := ⟨64 - w, by omega⟩
  generalize hk : 64 - (64 - s) = k
  have hpow : (2 : ℤ) ^ 64 = 2 ^ (64 - s) * 2 ^ k := by rw [← pow_add]; congr 1; omega
  have hpos : (0 : ℤ) < 2 ^ k := by positivity
  have hmul : wrap 64 (x * 2 ^ k) = wrap (64 - s) x * 2 ^ k := by
    rw [← wrap_eq_self (w := 64) (by decide) (x := wrap (64 - s) x * 2 ^ k), wrap_eq_wrap_iff,
      ← sub_mul, hpow]
    · refine mul_dvd_mul_right ?_ _
      rw [← wrap_eq_wrap_iff, wrap_wrap]
    · obtain ⟨hlo, hhi⟩ := wrap_mem hw x
      have hhalf : (2 : ℤ) ^ (64 - 1) = 2 ^ (64 - s - 1) * 2 ^ k := by
        rw [← pow_add]; congr 1; omega
      rw [InS, hhalf, ← neg_mul]
      exact ⟨mul_le_mul_of_nonneg_right hlo hpos.le, mul_lt_mul_of_pos_right hhi hpos⟩
  rw [shl64, if_pos (by omega), shr64, hmul, Int.mul_ediv_cancel _ hpos.ne']

/-! ### Reading a value as a bit vector -/

theorem ofInt_toNat (w : ℕ) (x : ℤ) : (BitVec.ofInt w x).toNat = unsigned w x := by
  simp [BitVec.toNat_ofInt, unsigned]

theorem ofInt_toInt (w : ℕ) (x : ℤ) : (BitVec.ofInt w x).toInt = wrap w x := by
  simp [BitVec.toInt_ofInt, wrap]

theorem ofInt_wrap (w : ℕ) (x : ℤ) : BitVec.ofInt w (wrap w x) = BitVec.ofInt w x := by
  rw [← BitVec.toInt_inj, ofInt_toInt, ofInt_toInt, wrap_wrap]

theorem toInt_eq_wrap {w : ℕ} (x : BitVec w) : x.toInt = wrap w x.toNat := by
  rw [wrap, BitVec.toInt_eq_toNat_bmod]

theorem unsigned_natCast {w n : ℕ} (h : n < 2 ^ w) : unsigned w n = n := by
  have hcast := unsigned_of_nonneg (Int.natCast_nonneg n) (by exact_mod_cast h : (n : ℤ) < 2 ^ w)
  exact_mod_cast hcast

theorem unsigned_toInt {w : ℕ} (x : BitVec w) : unsigned w x.toInt = x.toNat := by
  rw [toInt_eq_wrap, unsigned_wrap le_rfl, unsigned_natCast x.isLt]

theorem ofInt_natCast_toNat {w n : ℕ} (h : n < 2 ^ w) : (BitVec.ofInt w n).toNat = n := by
  rw [ofInt_toNat, unsigned_natCast h]

theorem toInt_mem {w : ℕ} (hw : 0 < w) (x : BitVec w) : InS w x.toInt := by
  rw [toInt_eq_wrap]; exact wrap_mem hw _

end MachInt

end OdinSon
