import Mathlib.Data.Int.Log
import Mathlib.Data.Rat.Floor
import Mathlib.Tactic.FieldSimp
import Mathlib.Tactic.Linarith
import Mathlib.Tactic.LinearCombination
import Mathlib.Tactic.NormNum
import Mathlib.Tactic.Ring

/-!
# Rounding to a binary format

A number of a binary floating-point format is an integer times a power of two, the integer having at
most `prec` bits and the exponent a lower end.  `Format.nearest` rounds a rational number to the
nearest of them, and to the even one of two that are equally near; the upper end of the exponents
is left to whoever rounds.

* `Format.nearest_nearest` : rounding to a wide format first does not change what the narrow one
  gives, where the number is not so close to the middle between two narrow ones that it rounds to
  it.
* `Format.Wider.nearest_add`, `nearest_mul`, `nearest_div` : sums, products and quotients of two
  numbers of the narrow format are not, if the wide one has more than twice its bits.
-/

namespace OdinSon.Lib

/-! ### The nearest integer -/

/-- The nearest integer, or the even one of two that are equally near. -/
def roundEven (q : ℚ) : ℤ :=
  if q - ⌊q⌋ < 1 / 2 ∨ q - ⌊q⌋ = 1 / 2 ∧ Even ⌊q⌋ then ⌊q⌋ else ⌊q⌋ + 1

section RoundEven

variable {q : ℚ} {k : ℤ}

theorem roundEven_intCast (k : ℤ) : roundEven k = k := by
  rw [roundEven, Int.floor_intCast, if_pos (.inl (by norm_num))]

theorem le_roundEven (h : (k : ℚ) ≤ q) : k ≤ roundEven q := by
  have hf := Int.le_floor.2 h
  unfold roundEven
  split_ifs <;> omega

theorem roundEven_le (h : q ≤ k) : roundEven q ≤ k := by
  rcases h.lt_or_eq with h | rfl
  · have hf := Int.floor_lt.2 h
    unfold roundEven
    split_ifs <;> omega
  · exact (roundEven_intCast k).le

theorem abs_roundEven_sub_le (q : ℚ) : |(roundEven q : ℚ) - q| ≤ 1 / 2 := by
  have h1 := Int.floor_le q
  have h2 := Int.lt_floor_add_one q
  unfold roundEven
  split_ifs with h
  · rw [abs_le]
    rcases h with h | ⟨h, -⟩ <;> constructor <;> linarith
  · have h3 : 1 / 2 ≤ q - ⌊q⌋ := not_lt.1 fun h' => h (.inl h')
    push_cast
    rw [abs_le]
    constructor <;> linarith

/-- The integer that is nearer than any other. -/
theorem roundEven_eq (h : |q - k| < 1 / 2) : roundEven q = k := by
  have hr := abs_roundEven_sub_le q
  have h' : |((roundEven q - k : ℤ) : ℚ)| < 1 := by
    push_cast
    have := abs_add_le ((roundEven q : ℚ) - q) (q - k)
    rw [sub_add_sub_cancel] at this
    linarith
  have h1 : |roundEven q - k| < 1 := by exact_mod_cast h'
  have := Int.abs_lt_one_iff.1 h1
  omega

theorem roundEven_of_half (h : q - ⌊q⌋ = 1 / 2) :
    roundEven q = if Even ⌊q⌋ then ⌊q⌋ else ⌊q⌋ + 1 := by
  simp only [roundEven, h, lt_irrefl, false_or, true_and]

theorem roundEven_neg (q : ℚ) : roundEven (-q) = -roundEven q := by
  by_cases hhalf : q - ⌊q⌋ = 1 / 2
  · -- the two neighbours change their places
    have hq : q = ⌊q⌋ + 1 / 2 := by linarith
    have hneg : ⌊-q⌋ = -⌊q⌋ - 1 := by
      rw [Int.floor_eq_iff]
      push_cast
      constructor <;> linarith
    have hfrac : -q - ⌊-q⌋ = 1 / 2 := by
      rw [hneg]
      push_cast
      linarith
    have heven : Even (-⌊q⌋ - 1) ↔ ¬Even ⌊q⌋ := by
      rw [Int.even_sub_one, even_neg]
    rw [roundEven_of_half hfrac, roundEven_of_half hhalf, hneg]
    by_cases he : Even ⌊q⌋
    · rw [if_neg (mt heven.1 (not_not.2 he)), if_pos he]
      ring
    · rw [if_pos (heven.2 he), if_neg he]
      ring
  · have hnear : |q - roundEven q| < 1 / 2 := by
      have h1 := Int.floor_le q
      have h2 := Int.lt_floor_add_one q
      unfold roundEven
      split_ifs with h
      · have h3 : q - ⌊q⌋ < 1 / 2 := h.resolve_right fun h' => hhalf h'.1
        rw [abs_lt]
        constructor <;> linarith
      · have h3 : 1 / 2 < q - ⌊q⌋ :=
          lt_of_le_of_ne (not_lt.1 fun h' => h (.inl h')) fun h' => hhalf h'.symm
        push_cast
        rw [abs_lt]
        constructor <;> linarith
    refine roundEven_eq ?_
    push_cast
    rwa [sub_neg_eq_add, neg_add_eq_sub, abs_sub_comm]

/-- Rounding to a finer grid first makes no difference, where the number does not come to lie in the
middle between two integers. -/
theorem roundEven_roundEven {t : ℚ} {d : ℕ} (hd : 1 ≤ d)
    (h : ∀ n : ℤ, |t - (n + 1 / 2)| ≤ 1 / 2 ^ (d + 1) → t = n + 1 / 2) :
    roundEven ((roundEven (t * 2 ^ d) : ℚ) / 2 ^ d) = roundEven t := by
  have hpos : (0 : ℚ) < 2 ^ d := by positivity
  have hs : |(roundEven (t * 2 ^ d) : ℚ) / 2 ^ d - t| ≤ 1 / 2 ^ (d + 1) := by
    have hr := abs_roundEven_sub_le (t * 2 ^ d)
    rw [show (roundEven (t * 2 ^ d) : ℚ) / 2 ^ d - t =
      ((roundEven (t * 2 ^ d) : ℚ) - t * 2 ^ d) / 2 ^ d by field_simp, abs_div, abs_of_pos hpos,
      div_le_iff₀ hpos]
    calc _ ≤ 1 / 2 := hr
      _ = 1 / 2 ^ (d + 1) * 2 ^ d := by rw [pow_succ]; field_simp
  by_cases hmid : t = ⌊t⌋ + 1 / 2
  · -- the middle is on the finer grid
    obtain ⟨c, rfl⟩ : ∃ c, d = c + 1 := ⟨d - 1, by omega⟩
    have hint : t * 2 ^ (c + 1) = ((2 * ⌊t⌋ + 1) * 2 ^ c : ℤ) := by
      push_cast
      calc t * 2 ^ (c + 1) = (⌊t⌋ + 1 / 2) * 2 ^ (c + 1) := by rw [← hmid]
        _ = (2 * ⌊t⌋ + 1) * 2 ^ c := by rw [pow_succ]; ring
    rw [hint, roundEven_intCast, ← hint, mul_div_cancel_right₀ _ hpos.ne']
  · have hfar := mt (h ⌊t⌋) hmid
    rw [not_le] at hfar
    have h1 := Int.floor_le t
    have h2 := Int.lt_floor_add_one t
    have hlow : (⌊t⌋ : ℚ) ≤ (roundEven (t * 2 ^ d) : ℚ) / 2 ^ d := by
      have := le_roundEven (q := t * 2 ^ d) (k := ⌊t⌋ * 2 ^ d) (by push_cast; gcongr)
      rw [le_div_iff₀ hpos]
      exact_mod_cast this
    have hhigh : (roundEven (t * 2 ^ d) : ℚ) / 2 ^ d ≤ ⌊t⌋ + 1 := by
      have := roundEven_le (q := t * 2 ^ d) (k := (⌊t⌋ + 1) * 2 ^ d) (by push_cast; gcongr)
      rw [div_le_iff₀ hpos]
      exact_mod_cast this
    rw [abs_le] at hs
    rcases lt_or_ge t (⌊t⌋ + 1 / 2) with hlt | hge
    · rw [abs_of_neg (by linarith)] at hfar
      rw [roundEven_eq (k := ⌊t⌋) (by rw [abs_lt]; constructor <;> linarith),
        roundEven_eq (k := ⌊t⌋) (by rw [abs_lt]; constructor <;> linarith)]
    · have hgt : (⌊t⌋ : ℚ) + 1 / 2 < t := lt_of_le_of_ne hge fun h' => hmid h'.symm
      rw [abs_of_pos (by linarith)] at hfar
      rw [roundEven_eq (k := ⌊t⌋ + 1) (by push_cast; rw [abs_lt]; constructor <;> linarith),
        roundEven_eq (k := ⌊t⌋ + 1) (by push_cast; rw [abs_lt]; constructor <;> linarith)]

theorem le_abs_roundEven {n : ℕ} (h : (n : ℚ) ≤ |q|) : (n : ℤ) ≤ |roundEven q| := by
  rcases le_abs.1 h with h | h
  · exact (le_roundEven (by exact_mod_cast h)).trans (le_abs_self _)
  · have := le_roundEven (q := -q) (k := n) (by exact_mod_cast h)
    rw [roundEven_neg] at this
    exact this.trans (neg_le_abs _)

theorem abs_roundEven_le {n : ℕ} (h : |q| ≤ n) : |roundEven q| ≤ n := by
  have h1 := (le_abs_self q).trans h
  have h2 := (neg_le_abs q).trans h
  refine abs_le.2 ⟨le_roundEven ?_, roundEven_le (by exact_mod_cast h1)⟩
  push_cast
  linarith

end RoundEven

/-! ### Formats -/

/-- A binary format. -/
structure Format where
  /-- The number of bits behind the first. -/
  frac : ℕ
  /-- The least exponent of the last bit. -/
  ulpMin : ℤ
  /-- Numbers are below `2 ^ emax`. -/
  emax : ℤ
  deriving DecidableEq, Repr

def binary32 : Format := ⟨23, -149, 128⟩

def binary64 : Format := ⟨52, -1074, 1024⟩

namespace Format

/-- The exponent of the last bit of the numbers as large as `q`. -/
def ulpExp (fmt : Format) (q : ℚ) : ℤ := max (Int.log 2 |q| - fmt.frac) fmt.ulpMin

/-- The nearest number of the format, however large. -/
def nearest (fmt : Format) (q : ℚ) : ℚ :=
  roundEven (q / 2 ^ fmt.ulpExp q) * 2 ^ fmt.ulpExp q

end Format

section Log

variable {q : ℚ} {k : ℤ}

theorem two_zpow_pos (k : ℤ) : (0 : ℚ) < 2 ^ k := zpow_pos two_pos k

theorem two_zpow_le {j k : ℤ} (h : j ≤ k) : (2 : ℚ) ^ j ≤ 2 ^ k := zpow_le_zpow_right₀ one_le_two h

theorem two_zpow_add (j k : ℤ) : (2 : ℚ) ^ (j + k) = 2 ^ j * 2 ^ k := zpow_add₀ two_ne_zero j k

theorem two_zpow_succ (k : ℤ) : (2 : ℚ) ^ (k + 1) = 2 * 2 ^ k := by
  rw [two_zpow_add, zpow_one, mul_comm]

theorem le_log_iff (hq : q ≠ 0) : k ≤ Int.log 2 |q| ↔ (2 : ℚ) ^ k ≤ |q| := by
  rw [← Int.zpow_le_iff_le_log one_lt_two (abs_pos.2 hq)]
  norm_num

theorem log_lt_iff (hq : q ≠ 0) : Int.log 2 |q| < k ↔ |q| < 2 ^ k := by
  rw [← Int.lt_zpow_iff_log_lt one_lt_two (abs_pos.2 hq)]
  norm_num

theorem two_zpow_log_le (hq : q ≠ 0) : (2 : ℚ) ^ Int.log 2 |q| ≤ |q| := (le_log_iff hq).1 le_rfl

theorem lt_two_zpow_log (hq : q ≠ 0) : |q| < 2 ^ (Int.log 2 |q| + 1) :=
  (log_lt_iff hq).1 (Int.lt_succ _)

end Log

namespace Format

variable {fmt wide : Format} {q : ℚ}

theorem ulpMin_le_ulpExp (fmt : Format) (q : ℚ) : fmt.ulpMin ≤ fmt.ulpExp q := le_max_right _ _

theorem nearest_neg (q : ℚ) : fmt.nearest (-q) = -fmt.nearest q := by
  rw [nearest, nearest, ulpExp, abs_neg, ← ulpExp, neg_div, roundEven_neg]
  push_cast
  ring

/-- What is on the grid of the format is not changed. -/
theorem nearest_of_grid (h : ∃ m : ℤ, q = m * 2 ^ fmt.ulpExp q) : fmt.nearest q = q := by
  obtain ⟨m, hm⟩ := h
  have hdiv : q / 2 ^ fmt.ulpExp q = m := by
    rw [div_eq_iff (two_zpow_pos _).ne']
    exact hm
  rw [nearest, hdiv, roundEven_intCast]
  exact hm.symm

@[simp] theorem nearest_zero : fmt.nearest 0 = 0 := nearest_of_grid ⟨0, by simp⟩

/-- An integer of few bits times a power of two. -/
theorem nearest_intCast_mul {m : ℤ} {e : ℤ} (hm : |(m : ℚ)| < 2 ^ ((fmt.frac : ℤ) + 1))
    (he : fmt.ulpMin ≤ e) : fmt.nearest (m * 2 ^ e) = m * 2 ^ e := by
  refine nearest_of_grid ?_
  rcases eq_or_ne m 0 with rfl | hm0
  · exact ⟨0, by simp⟩
  have hq : (m * 2 ^ e : ℚ) ≠ 0 := mul_ne_zero (by exact_mod_cast hm0) (two_zpow_pos e).ne'
  have hlog : Int.log 2 |(m * 2 ^ e : ℚ)| < fmt.frac + 1 + e := by
    rw [log_lt_iff hq, abs_mul, abs_of_pos (two_zpow_pos e), two_zpow_add]
    exact mul_lt_mul_of_pos_right hm (two_zpow_pos e)
  have hle : fmt.ulpExp (m * 2 ^ e) ≤ e := max_le (by omega) he
  obtain ⟨d, hd⟩ := Int.eq_ofNat_of_zero_le (sub_nonneg.2 hle)
  refine ⟨m * 2 ^ d, ?_⟩
  have he' : e = d + fmt.ulpExp (m * 2 ^ e) := by omega
  push_cast
  rw [mul_assoc, ← zpow_natCast, ← two_zpow_add, ← he']

theorem log_le_ulpExp (fmt : Format) (q : ℚ) : Int.log 2 |q| ≤ fmt.ulpExp q + fmt.frac := by
  have h := le_max_left (Int.log 2 |q| - fmt.frac) fmt.ulpMin
  rw [← ulpExp] at h
  omega

theorem abs_lt_two_zpow (fmt : Format) (hq : q ≠ 0) : |q| < 2 ^ (fmt.frac + 1 + fmt.ulpExp q) := by
  have hlog := log_le_ulpExp fmt q
  exact (lt_two_zpow_log hq).trans_le (two_zpow_le (by omega))

/-- A number of the format in its own notation. -/
theorem exists_eq_of_nearest (hq : q ≠ 0) (h : fmt.nearest q = q) : ∃ m : ℤ,
    q = m * 2 ^ fmt.ulpExp q ∧ |(m : ℚ)| < 2 ^ ((fmt.frac : ℤ) + 1) ∧
      (fmt.ulpMin < fmt.ulpExp q → (2 : ℚ) ^ (fmt.frac : ℤ) ≤ |(m : ℚ)|) := by
  refine ⟨roundEven (q / 2 ^ fmt.ulpExp q), h.symm, ?_⟩
  generalize hm : roundEven (q / 2 ^ fmt.ulpExp q) = m
  have hqm : q = m * 2 ^ fmt.ulpExp q := by
    rw [← hm]
    exact h.symm
  have hpos := two_zpow_pos (fmt.ulpExp q)
  have habs : |q| = |(m : ℚ)| * 2 ^ fmt.ulpExp q := by
    rw [← abs_of_pos hpos, ← abs_mul, ← hqm]
  constructor
  · refine lt_of_mul_lt_mul_right ?_ hpos.le
    rw [← habs, ← two_zpow_add]
    exact abs_lt_two_zpow fmt hq
  · intro hlt
    have hexp : fmt.ulpExp q = Int.log 2 |q| - fmt.frac := by
      unfold ulpExp at hlt ⊢
      omega
    refine le_of_mul_le_mul_right ?_ hpos
    rw [← habs, ← two_zpow_add]
    exact (two_zpow_le (by omega)).trans (two_zpow_log_le hq)

/-! ### Rounding twice -/

theorem abs_nearest (q : ℚ) : |fmt.nearest q| =
    |(roundEven (q / 2 ^ fmt.ulpExp q) : ℚ)| * 2 ^ fmt.ulpExp q := by
  rw [nearest, abs_mul, abs_of_pos (two_zpow_pos _)]

theorem abs_div_two_zpow (q : ℚ) (k : ℤ) : |q / 2 ^ k| = |q| / 2 ^ k := by
  rw [abs_div, abs_of_pos (two_zpow_pos k)]

/-- Rounding does not go over a power of two. -/
theorem abs_nearest_le {k : ℤ} (hk : fmt.ulpMin ≤ k) (h : |q| < 2 ^ k) :
    |fmt.nearest q| ≤ 2 ^ k := by
  rcases eq_or_ne q 0 with rfl | hq
  · rw [nearest_zero, abs_zero]
    exact (two_zpow_pos k).le
  have hlog := (log_lt_iff hq).2 h
  have hexp : fmt.ulpExp q ≤ k := max_le (by omega) hk
  obtain ⟨j, hj⟩ := Int.eq_ofNat_of_zero_le (sub_nonneg.2 hexp)
  have hpow : (2 : ℚ) ^ k = (2 ^ j : ℕ) * 2 ^ fmt.ulpExp q := by
    rw [show k = j + fmt.ulpExp q by omega, two_zpow_add, zpow_natCast]
    norm_cast
  have hround := abs_roundEven_le (q := q / 2 ^ fmt.ulpExp q) (n := 2 ^ j) (by
    rw [abs_div_two_zpow, div_le_iff₀ (two_zpow_pos _), ← hpow]
    exact h.le)
  rw [abs_nearest, hpow]
  exact mul_le_mul_of_nonneg_right (by exact_mod_cast hround) (two_zpow_pos _).le

/-- A number that is not too small stays between its powers of two. -/
theorem le_abs_nearest (hq : q ≠ 0) (hn : fmt.ulpMin ≤ Int.log 2 |q| - fmt.frac) :
    (2 : ℚ) ^ Int.log 2 |q| ≤ |fmt.nearest q| := by
  have hexp : fmt.ulpExp q = Int.log 2 |q| - fmt.frac := max_eq_left hn
  have hpow : (2 : ℚ) ^ Int.log 2 |q| = (2 ^ fmt.frac : ℕ) * 2 ^ fmt.ulpExp q := by
    rw [show Int.log 2 |q| = fmt.frac + fmt.ulpExp q by omega, two_zpow_add, zpow_natCast]
    norm_cast
  have hround := le_abs_roundEven (q := q / 2 ^ fmt.ulpExp q) (n := 2 ^ fmt.frac) (by
    rw [abs_div_two_zpow, le_div_iff₀ (two_zpow_pos _), ← hpow]
    exact two_zpow_log_le hq)
  rw [abs_nearest, hpow]
  exact mul_le_mul_of_nonneg_right (by exact_mod_cast hround) (two_zpow_pos _).le

theorem nearest_of_abs_eq {k : ℤ} (hk : fmt.ulpMin ≤ k) (h : |q| = 2 ^ k) : fmt.nearest q = q := by
  have hone : |((1 : ℤ) : ℚ)| < 2 ^ ((fmt.frac : ℤ) + 1) := by
    rw [Int.cast_one, abs_one, ← zpow_zero (2 : ℚ)]
    exact zpow_lt_zpow_right₀ one_lt_two (by omega)
  have hpow := nearest_intCast_mul hone hk
  rw [Int.cast_one, one_mul] at hpow
  rcases eq_or_eq_neg_of_abs_eq h with rfl | rfl
  · exact hpow
  · rw [nearest_neg, hpow]

/-- Rounding twice to one format. -/
theorem nearest_self (q : ℚ) : fmt.nearest (fmt.nearest q) = fmt.nearest q := by
  rcases eq_or_ne q 0 with rfl | hq
  · rw [nearest_zero, nearest_zero]
  have hpos := two_zpow_pos (fmt.ulpExp q)
  have hlog : Int.log 2 |q| - fmt.frac ≤ fmt.ulpExp q := le_max_left _ _
  have hround := abs_roundEven_le (q := q / 2 ^ fmt.ulpExp q) (n := 2 ^ (fmt.frac + 1)) (by
    rw [abs_div_two_zpow, div_le_iff₀ hpos]
    push_cast
    rw [← zpow_natCast, ← two_zpow_add]
    exact (lt_two_zpow_log hq).le.trans (two_zpow_le (by push_cast; omega)))
  rcases hround.lt_or_eq with hlt | heq
  · refine nearest_intCast_mul ?_ (fmt.ulpMin_le_ulpExp q)
    exact_mod_cast hlt
  · refine nearest_of_abs_eq (k := fmt.frac + 1 + fmt.ulpExp q) ?_ ?_
    · have := fmt.ulpMin_le_ulpExp q
      omega
    · rw [abs_nearest, two_zpow_add]
      congr 1
      exact_mod_cast heq

/-- The smallest number of the format. -/
theorem two_zpow_ulpMin_le (hq : q ≠ 0) (h : fmt.nearest q = q) : (2 : ℚ) ^ fmt.ulpMin ≤ |q| := by
  obtain ⟨m, hm, -⟩ := exists_eq_of_nearest hq h
  have hm0 : m ≠ 0 := by
    rintro rfl
    exact hq (by rw [hm, Int.cast_zero, zero_mul])
  have h1 : (1 : ℚ) ≤ |(m : ℚ)| := by exact_mod_cast Int.one_le_abs hm0
  calc (2 : ℚ) ^ fmt.ulpMin ≤ 2 ^ fmt.ulpExp q := two_zpow_le (fmt.ulpMin_le_ulpExp q)
    _ ≤ |(m : ℚ)| * 2 ^ fmt.ulpExp q := le_mul_of_one_le_left (two_zpow_pos _).le h1
    _ = |q| := by rw [← abs_of_pos (two_zpow_pos (fmt.ulpExp q)), ← abs_mul, ← hm]

/-- Rounding to a wide format first makes no difference where the number does not round to the
middle between two of the narrow format. -/
theorem nearest_nearest (hq : q ≠ 0) (hn : wide.ulpMin ≤ Int.log 2 |q| - wide.frac)
    (hu : wide.ulpExp q < fmt.ulpExp q)
    (h : ∀ n : ℤ, |q - (n + 1 / 2) * 2 ^ fmt.ulpExp q| ≤ 2 ^ (wide.ulpExp q - 1) →
      q = (n + 1 / 2) * 2 ^ fmt.ulpExp q) :
    fmt.nearest (wide.nearest q) = fmt.nearest q := by
  have hlow := le_abs_nearest hq hn
  have hhigh : |wide.nearest q| ≤ 2 ^ (Int.log 2 |q| + 1) :=
    abs_nearest_le (by omega) (lt_two_zpow_log hq)
  obtain ⟨d, hd⟩ := Int.eq_ofNat_of_zero_le (sub_nonneg.2 hu.le)
  have hpos := two_zpow_pos (fmt.ulpExp q)
  have hpow : (2 : ℚ) ^ fmt.ulpExp q = 2 ^ wide.ulpExp q * 2 ^ d := by
    rw [← zpow_natCast, ← two_zpow_add]
    congr 1
    omega
  have hround := roundEven_roundEven (t := q / 2 ^ fmt.ulpExp q) (d := d) (by omega) fun n hle => by
    rw [div_eq_iff hpos.ne']
    refine h n ?_
    calc |q - (n + 1 / 2) * 2 ^ fmt.ulpExp q|
        = |q / 2 ^ fmt.ulpExp q - (n + 1 / 2)| * 2 ^ fmt.ulpExp q := by
          rw [← abs_of_pos hpos, ← abs_mul, abs_of_pos hpos, sub_mul, div_mul_cancel₀ _ hpos.ne']
      _ ≤ 1 / 2 ^ (d + 1) * 2 ^ fmt.ulpExp q := mul_le_mul_of_nonneg_right hle hpos.le
      _ = 2 ^ (wide.ulpExp q - 1) := by
          rw [hpow, zpow_sub_one₀ two_ne_zero, pow_succ]
          field_simp
  -- what the wide format gives, in units of the narrow one
  have hwide : wide.nearest q =
      (roundEven (q / 2 ^ fmt.ulpExp q * 2 ^ d) : ℚ) / 2 ^ d * 2 ^ fmt.ulpExp q := by
    have hscale : q / 2 ^ fmt.ulpExp q * 2 ^ d = q / 2 ^ wide.ulpExp q := by
      rw [hpow]
      field_simp
    rw [nearest, hscale, hpow]
    field_simp
  have hnear : fmt.nearest q = roundEven (wide.nearest q / 2 ^ fmt.ulpExp q) *
      2 ^ fmt.ulpExp q := by
    rw [hwide, mul_div_cancel_right₀ _ hpos.ne', hround]
    rfl
  by_cases hexp : fmt.ulpExp (wide.nearest q) = fmt.ulpExp q
  · rw [hnear, nearest, hexp]
  · -- the number has been rounded up to the next power of two
    have hne : wide.nearest q ≠ 0 := fun h0 => by
      rw [h0, abs_zero] at hlow
      exact absurd (two_zpow_pos _) (not_lt.2 hlow)
    have htop : |wide.nearest q| = 2 ^ (Int.log 2 |q| + 1) := by
      refine le_antisymm hhigh (not_lt.1 fun hlt => hexp ?_)
      have hlog : Int.log 2 |wide.nearest q| = Int.log 2 |q| :=
        le_antisymm (Int.lt_add_one_iff.1 ((log_lt_iff hne).2 hlt)) ((le_log_iff hne).2 hlow)
      rw [ulpExp, hlog, ← ulpExp]
    have hlog : Int.log 2 |wide.nearest q| ≤ Int.log 2 |q| + 1 :=
      Int.lt_add_one_iff.1 ((log_lt_iff hne).2
        (hhigh.trans_lt (zpow_lt_zpow_right₀ one_lt_two (by omega))))
    have hmin : fmt.ulpMin ≤ Int.log 2 |q| + 1 - fmt.frac ∧
        fmt.ulpExp q ≤ Int.log 2 |q| + 1 - fmt.frac := by
      unfold ulpExp at hexp ⊢
      omega
    rw [nearest_of_abs_eq (by omega) htop, hnear]
    obtain ⟨j, hj⟩ := Int.eq_ofNat_of_zero_le (sub_nonneg.2 hmin.2)
    have hint : ∃ m : ℤ, wide.nearest q / 2 ^ fmt.ulpExp q = m := by
      have hk : (2 : ℚ) ^ (Int.log 2 |q| + 1) / 2 ^ fmt.ulpExp q = (2 ^ (j + fmt.frac) : ℤ) := by
        rw [div_eq_iff hpos.ne']
        push_cast
        rw [← zpow_natCast, ← two_zpow_add]
        congr 1
        push_cast
        omega
      rcases eq_or_eq_neg_of_abs_eq htop with he | he
      · exact ⟨_, by rw [he, hk]⟩
      · exact ⟨-2 ^ (j + fmt.frac), by rw [he, neg_div, hk]; push_cast; rfl⟩
    obtain ⟨m, hm⟩ := hint
    rw [hm, roundEven_intCast, ← hm, div_mul_cancel₀ _ hpos.ne']

/-! ### Operations on numbers of the narrow format -/

/-- The format has so many more bits than the other one, and such exponents, that no operation on
two numbers of the narrow one needs more. -/
structure Wider (fmt wide : Format) : Prop where
  frac : 2 * fmt.frac + 4 ≤ wide.frac
  emax_nonneg : 0 ≤ fmt.emax
  ulpMin : fmt.ulpMin ≤ fmt.emax
  product : wide.ulpMin ≤ 2 * fmt.ulpMin
  quotient : wide.ulpMin + wide.frac ≤ fmt.ulpMin - fmt.emax
  emax : 2 * fmt.emax + 1 < wide.emax ∧ fmt.emax - fmt.ulpMin + 1 < wide.emax

theorem wider_binary : Wider binary32 binary64 := by
  constructor <;> decide

section Wider

variable {x y : ℚ}

/-- The wide format has the numbers of the narrow one. -/
theorem Wider.nearest_self (h : Wider fmt wide) (hx : fmt.nearest x = x) : wide.nearest x = x := by
  rcases eq_or_ne x 0 with rfl | h0
  · exact nearest_zero
  obtain ⟨m, hm, hlt, -⟩ := exists_eq_of_nearest h0 hx
  have := h.frac
  have := h.quotient
  have := h.emax_nonneg
  have := fmt.ulpMin_le_ulpExp x
  rw [hm]
  exact nearest_intCast_mul (hlt.trans_le (two_zpow_le (by omega))) (by omega)

/-- A sum, of two numbers that are not too far from each other. -/
theorem Wider.nearest_add_of_near (h : Wider fmt wide) {m n e : ℤ} {g : ℕ}
    (hm : |(m : ℚ)| < 2 ^ ((fmt.frac : ℤ) + 1)) (hn : |(n : ℚ)| < 2 ^ ((fmt.frac : ℤ) + 1))
    (he : fmt.ulpMin ≤ e) (hg : fmt.frac + 1 + g ≤ wide.frac) :
    wide.nearest (m * 2 ^ (e + g) + n * 2 ^ e) = m * 2 ^ (e + g) + n * 2 ^ e := by
  have hfrac := h.frac
  have := h.quotient
  have := h.emax_nonneg
  have hsum : (m * 2 ^ (e + g) + n * 2 ^ e : ℚ) = (m * 2 ^ g + n : ℤ) * 2 ^ e := by
    rw [two_zpow_add, zpow_natCast]
    push_cast
    ring
  rw [hsum]
  refine nearest_intCast_mul ?_ (by omega)
  push_cast
  calc |(m * 2 ^ g + n : ℚ)| ≤ |(m : ℚ)| * 2 ^ g + |(n : ℚ)| := by
        refine (abs_add_le _ _).trans (le_of_eq ?_)
        rw [abs_mul, abs_of_pos (by positivity : (0 : ℚ) < 2 ^ g)]
    _ < 2 ^ ((fmt.frac : ℤ) + 1) * 2 ^ g + 2 ^ ((fmt.frac : ℤ) + 1) :=
        add_lt_add_of_le_of_lt (mul_le_mul_of_nonneg_right hm.le (by positivity)) hn
    _ = 2 ^ ((fmt.frac : ℤ) + 1 + g) + 2 ^ ((fmt.frac : ℤ) + 1) := by
        rw [two_zpow_add _ (g : ℤ), zpow_natCast]
    _ ≤ 2 ^ (wide.frac : ℤ) + 2 ^ (wide.frac : ℤ) :=
        add_le_add (two_zpow_le (by omega)) (two_zpow_le (by omega))
    _ = 2 ^ ((wide.frac : ℤ) + 1) := by
        rw [two_zpow_succ]
        ring

/-- A multiple of a power of two is not below it. -/
theorem two_zpow_le_abs_mul {k : ℤ} (hk : k ≠ 0) (e : ℤ) : (2 : ℚ) ^ e ≤ |(k : ℚ) * 2 ^ e| := by
  have hone : (1 : ℚ) ≤ |(k : ℚ)| := by exact_mod_cast Int.one_le_abs hk
  rw [abs_mul, abs_of_pos (two_zpow_pos e)]
  exact le_mul_of_one_le_left (two_zpow_pos e).le hone

/-- A sum with a far smaller number is half as large at least. -/
theorem le_abs_add_of_far {m e : ℤ} (hx : x = m * 2 ^ e)
    (hm : (2 : ℚ) ^ (fmt.frac : ℤ) ≤ |(m : ℚ)|) (hy : |y| < 2 ^ (e - 3)) :
    (2 : ℚ) ^ (fmt.frac + e - 1) ≤ |x + y| := by
  have hpos := two_zpow_pos e
  have hbig : (2 : ℚ) ^ (fmt.frac + e) ≤ |x| := by
    rw [hx, abs_mul, abs_of_pos hpos, two_zpow_add]
    exact mul_le_mul_of_nonneg_right hm hpos.le
  have htwice : (2 : ℚ) ^ (fmt.frac + e) = 2 * 2 ^ (fmt.frac + e - 1) := by
    rw [← two_zpow_succ, sub_add_cancel]
  have hsmall : (2 : ℚ) ^ (e - 3) ≤ 2 ^ (fmt.frac + e - 1) := two_zpow_le (by omega)
  have hsub := abs_sub_abs_le_abs_sub x (-y)
  rw [abs_neg, sub_neg_eq_add] at hsub
  linarith

/-- A sum with a smaller number does not get to the next power of two. -/
theorem abs_add_lt_of_far {m e : ℤ} (hx : x = m * 2 ^ e)
    (hm : |(m : ℚ)| < 2 ^ ((fmt.frac : ℤ) + 1)) (hy : |y| < 2 ^ e) :
    |x + y| < 2 ^ (fmt.frac + 1 + e) := by
  have hpos := two_zpow_pos e
  have hint : |(m : ℚ)| + 1 ≤ 2 ^ ((fmt.frac : ℤ) + 1) := by
    have hlt : |m| < 2 ^ (fmt.frac + 1) := by exact_mod_cast hm
    exact_mod_cast Int.add_one_le_iff.2 hlt
  calc |x + y| ≤ |x| + |y| := abs_add_le _ _
    _ < |(m : ℚ)| * 2 ^ e + 2 ^ e := by
        rw [hx, abs_mul, abs_of_pos hpos]
        linarith
    _ = (|(m : ℚ)| + 1) * 2 ^ e := by ring
    _ ≤ 2 ^ ((fmt.frac : ℤ) + 1) * 2 ^ e := mul_le_mul_of_nonneg_right hint hpos.le
    _ = 2 ^ (fmt.frac + 1 + e) := (two_zpow_add _ _).symm

/-- A sum with a number that is far smaller: it is nowhere near the middle between two numbers. -/
theorem Wider.nearest_add_of_far (h : Wider fmt wide) {m e : ℤ} (he : fmt.ulpMin < e)
    (hx : x = m * 2 ^ e) (hm : |(m : ℚ)| < 2 ^ ((fmt.frac : ℤ) + 1))
    (hm' : (2 : ℚ) ^ (fmt.frac : ℤ) ≤ |(m : ℚ)|) (hy : |y| < 2 ^ (e - 3)) :
    fmt.nearest (wide.nearest (x + y)) = fmt.nearest (x + y) := by
  have hfrac := h.frac
  have hquot := h.quotient
  have hemax := h.emax_nonneg
  -- the sum is about as large as the first number
  have hlow := le_abs_add_of_far hx hm' hy
  have hhigh := abs_add_lt_of_far hx hm (hy.trans_le (two_zpow_le (by omega)))
  have hne : x + y ≠ 0 := fun h0 => by
    rw [h0, abs_zero] at hlow
    exact absurd (two_zpow_pos _) (not_lt.2 hlow)
  have hlog := (le_log_iff hne).2 hlow
  have hlog' := (log_lt_iff hne).2 hhigh
  have hv : wide.ulpExp (x + y) = Int.log 2 |x + y| - wide.frac := max_eq_left (by omega)
  have hu : e - 1 ≤ fmt.ulpExp (x + y) ∧ fmt.ulpExp (x + y) ≤ e := by
    unfold ulpExp
    omega
  refine nearest_nearest hne (by omega) (by omega) fun n hn => ?_
  -- the middle is at least half a unit away from `x`
  obtain ⟨j, hj⟩ := Int.eq_ofNat_of_zero_le (show 0 ≤ e - fmt.ulpExp (x + y) by omega)
  have hodd : m * 2 ^ (j + 1) - (2 * n + 1) ≠ 0 := by
    rw [pow_succ, ← mul_assoc]
    omega
  have hmid : x - (n + 1 / 2) * 2 ^ fmt.ulpExp (x + y) =
      ((m * 2 ^ (j + 1) - (2 * n + 1) : ℤ) : ℚ) * 2 ^ (fmt.ulpExp (x + y) - 1) := by
    have hxu : x = m * (2 ^ j * 2 ^ fmt.ulpExp (x + y)) := by
      rw [← zpow_natCast, ← two_zpow_add, show (j : ℤ) + fmt.ulpExp (x + y) = e by omega]
      exact hx
    rw [zpow_sub_one₀ two_ne_zero, pow_succ]
    push_cast
    linear_combination hxu
  have hfar : (2 : ℚ) ^ (e - 2) ≤ |x - (n + 1 / 2) * 2 ^ fmt.ulpExp (x + y)| := by
    rw [hmid]
    exact (two_zpow_le (by omega)).trans (two_zpow_le_abs_mul hodd _)
  have hnear : |x - (n + 1 / 2) * 2 ^ fmt.ulpExp (x + y)| < 2 ^ (e - 2) := by
    have h1 := abs_sub_abs_le_abs_sub (x - (n + 1 / 2) * 2 ^ fmt.ulpExp (x + y)) (-y)
    rw [abs_neg, sub_neg_eq_add, sub_add_eq_add_sub] at h1
    have h2 : (2 : ℚ) ^ (wide.ulpExp (x + y) - 1) ≤ 2 ^ (e - 3) := two_zpow_le (by omega)
    have h3 : (2 : ℚ) ^ (e - 2) = 2 * 2 ^ (e - 3) := by
      rw [← two_zpow_succ]
      congr 1
      ring
    linarith
  exact absurd hfar (not_le.2 hnear)

/-- **Sums** of two numbers of the narrow format. -/
theorem Wider.nearest_add (h : Wider fmt wide) (hx : fmt.nearest x = x) (hy : fmt.nearest y = y) :
    fmt.nearest (wide.nearest (x + y)) = fmt.nearest (x + y) := by
  rcases eq_or_ne x 0 with rfl | hx0
  · rw [zero_add, h.nearest_self hy]
  rcases eq_or_ne y 0 with rfl | hy0
  · rw [add_zero, h.nearest_self hx]
  wlog hle : fmt.ulpExp y ≤ fmt.ulpExp x generalizing x y
  · rw [add_comm]
    exact this hy hx hy0 hx0 (not_le.1 hle).le
  obtain ⟨m, hm, hmlt, hmge⟩ := exists_eq_of_nearest hx0 hx
  obtain ⟨n, hn, hnlt, -⟩ := exists_eq_of_nearest hy0 hy
  have hmin := fmt.ulpMin_le_ulpExp y
  have hfrac := h.frac
  obtain ⟨g, hg⟩ := Int.eq_ofNat_of_zero_le (sub_nonneg.2 hle)
  have hexp : fmt.ulpExp x = fmt.ulpExp y + g := by omega
  by_cases hnear : fmt.frac + 1 + g ≤ wide.frac
  · have hsum := h.nearest_add_of_near hmlt hnlt hmin hnear
    rw [← hexp, ← hm, ← hn] at hsum
    rw [hsum]
  · refine h.nearest_add_of_far (by omega) hm hmlt (hmge (by omega)) ?_
    exact (abs_lt_two_zpow fmt hy0).trans_le (two_zpow_le (by omega))

/-- **Products** are numbers of the wide format. -/
theorem Wider.nearest_mul (h : Wider fmt wide) (hx : fmt.nearest x = x) (hy : fmt.nearest y = y) :
    wide.nearest (x * y) = x * y := by
  rcases eq_or_ne x 0 with rfl | hx0
  · rw [zero_mul, nearest_zero]
  rcases eq_or_ne y 0 with rfl | hy0
  · rw [mul_zero, nearest_zero]
  obtain ⟨m, hm, hmlt, -⟩ := exists_eq_of_nearest hx0 hx
  obtain ⟨n, hn, hnlt, -⟩ := exists_eq_of_nearest hy0 hy
  have := fmt.ulpMin_le_ulpExp x
  have := fmt.ulpMin_le_ulpExp y
  have := h.product
  have := h.frac
  have hmul : x * y = ((m * n : ℤ) : ℚ) * 2 ^ (fmt.ulpExp x + fmt.ulpExp y) := by
    rw [two_zpow_add]
    push_cast
    calc x * y = (m * 2 ^ fmt.ulpExp x) * (n * 2 ^ fmt.ulpExp y) := by rw [← hm, ← hn]
      _ = _ := by ring
  rw [hmul]
  refine nearest_intCast_mul ?_ (by omega)
  push_cast
  rw [abs_mul]
  calc |(m : ℚ)| * |(n : ℚ)| < 2 ^ ((fmt.frac : ℤ) + 1) * 2 ^ ((fmt.frac : ℤ) + 1) :=
        mul_lt_mul'' hmlt hnlt (abs_nonneg _) (abs_nonneg _)
    _ = 2 ^ ((fmt.frac : ℤ) + 1 + (fmt.frac + 1)) := (two_zpow_add _ _).symm
    _ ≤ 2 ^ ((wide.frac : ℤ) + 1) := two_zpow_le (by omega)

/-- How far the dividend is from the product, where the quotient is near a number. -/
theorem abs_sub_mul_le (hx : x ≠ 0) (hy : y ≠ 0) {c : ℚ} {k : ℤ}
    (h : |x / y - c| ≤ 2 ^ (Int.log 2 |x / y| + k)) : |x - c * y| ≤ |x| * 2 ^ k := by
  have hscale : x - c * y = (x / y - c) * y := by rw [sub_mul, div_mul_cancel₀ _ hy]
  have hlog := two_zpow_log_le (div_ne_zero hx hy)
  rw [hscale, abs_mul]
  calc _ ≤ 2 ^ (Int.log 2 |x / y| + k) * |y| := mul_le_mul_of_nonneg_right h (abs_nonneg y)
    _ = 2 ^ Int.log 2 |x / y| * |y| * 2 ^ k := by
        rw [two_zpow_add]
        ring
    _ ≤ |x / y| * |y| * 2 ^ k :=
        mul_le_mul_of_nonneg_right (mul_le_mul_of_nonneg_right hlog (abs_nonneg y))
          (two_zpow_pos _).le
    _ = |x| * 2 ^ k := by rw [← abs_mul, div_mul_cancel₀ _ hy]

/-- A quotient that is not in the middle between two numbers of the narrow format is not near it:
the dividend and the product of the middle with the divisor differ by an integer times a power of
two that is not small against the dividend. -/
theorem Wider.div_eq_of_near (h : Wider fmt wide) (hx0 : x ≠ 0) (hy0 : y ≠ 0)
    (hx : fmt.nearest x = x) (hy : fmt.nearest y = y)
    (hv : wide.ulpExp (x / y) = Int.log 2 |x / y| - wide.frac) {n : ℤ}
    (hn : |x / y - (n + 1 / 2) * 2 ^ fmt.ulpExp (x / y)| ≤ 2 ^ (wide.ulpExp (x / y) - 1)) :
    x / y = (n + 1 / 2) * 2 ^ fmt.ulpExp (x / y) := by
  obtain ⟨a, ha, -, -⟩ := exists_eq_of_nearest hx0 hx
  obtain ⟨b, hb, -, -⟩ := exists_eq_of_nearest hy0 hy
  have hfrac := h.frac
  have hq0 : x / y ≠ 0 := div_ne_zero hx0 hy0
  have hlog := log_le_ulpExp fmt (x / y)
  generalize fmt.ulpExp (x / y) = u at *
  -- the difference, and how small it has to be
  have hsmall : |x - (n + 1 / 2) * 2 ^ u * y| ≤ |x| * 2 ^ (-(wide.frac : ℤ) - 1) := by
    refine abs_sub_mul_le hx0 hy0 (hn.trans_eq ?_)
    congr 1
    omega
  have hxa := abs_lt_two_zpow fmt hx0
  have hyb := abs_lt_two_zpow fmt hy0
  have hxq : |x| < 2 ^ (u + fmt.frac + 1 + (fmt.frac + 1 + fmt.ulpExp y)) := by
    rw [two_zpow_add]
    calc |x| = |x / y| * |y| := by rw [← abs_mul, div_mul_cancel₀ _ hy0]
      _ < 2 ^ (u + fmt.frac + 1) * 2 ^ (fmt.frac + 1 + fmt.ulpExp y) := by
          refine mul_lt_mul'' ?_ hyb (abs_nonneg _) (abs_nonneg _)
          exact (lt_two_zpow_log hq0).trans_le (two_zpow_le (by omega))
  by_contra hne
  have hdiff : x - (n + 1 / 2) * 2 ^ u * y ≠ 0 := fun h0 =>
    hne ((div_eq_iff hy0).2 (sub_eq_zero.1 h0))
  -- the difference as an integer times the smaller of the two powers
  generalize hE : min (fmt.ulpExp x) (u - 1 + fmt.ulpExp y) = E
  obtain ⟨i, hi⟩ := Int.eq_ofNat_of_zero_le (show 0 ≤ fmt.ulpExp x - E by omega)
  obtain ⟨j, hj⟩ := Int.eq_ofNat_of_zero_le (show 0 ≤ u - 1 + fmt.ulpExp y - E by omega)
  have hint : x - (n + 1 / 2) * 2 ^ u * y =
      ((a * 2 ^ i - (2 * n + 1) * b * 2 ^ j : ℤ) : ℚ) * 2 ^ E := by
    have h1 : (2 : ℚ) ^ fmt.ulpExp x = 2 ^ i * 2 ^ E := by
      rw [← zpow_natCast, ← two_zpow_add]
      congr 1
      omega
    have h2 : (2 : ℚ) ^ u * 2 ^ fmt.ulpExp y = 2 * (2 ^ j * 2 ^ E) := by
      rw [← zpow_natCast, ← two_zpow_add, ← two_zpow_add, ← two_zpow_succ]
      congr 1
      omega
    push_cast
    calc x - (n + 1 / 2) * 2 ^ u * y
        = a * 2 ^ fmt.ulpExp x - (n + 1 / 2) * 2 ^ u * (b * 2 ^ fmt.ulpExp y) := by
          rw [← ha, ← hb]
      _ = a * 2 ^ fmt.ulpExp x - (n + 1 / 2) * b * (2 ^ u * 2 ^ fmt.ulpExp y) := by ring
      _ = _ := by
          rw [h1, h2]
          ring
  have hlow : (2 : ℚ) ^ E ≤ |x - (n + 1 / 2) * 2 ^ u * y| := by
    rw [hint]
    refine two_zpow_le_abs_mul (fun h0 => hdiff ?_) E
    rw [hint, h0, Int.cast_zero, zero_mul]
  have hupper (k : ℤ) (hk : |x| < 2 ^ k) (hle : k - wide.frac - 1 ≤ E) : False := by
    have h1 : |x| * 2 ^ (-(wide.frac : ℤ) - 1) < 2 ^ E :=
      calc _ < (2 : ℚ) ^ k * 2 ^ (-(wide.frac : ℤ) - 1) :=
            mul_lt_mul_of_pos_right hk (two_zpow_pos _)
        _ = 2 ^ (k + (-(wide.frac : ℤ) - 1)) := (two_zpow_add _ _).symm
        _ ≤ 2 ^ E := two_zpow_le (by omega)
    exact absurd (hlow.trans hsmall) (not_le.2 h1)
  rcases min_choice (fmt.ulpExp x) (u - 1 + fmt.ulpExp y) with hmin | hmin
  · exact hupper _ hxa (by omega)
  · exact hupper _ hxq (by omega)

/-- **Quotients** of two numbers of the narrow format. -/
theorem Wider.nearest_div (h : Wider fmt wide) (hx : fmt.nearest x = x) (hy : fmt.nearest y = y)
    (hlt : |y| < 2 ^ fmt.emax) :
    fmt.nearest (wide.nearest (x / y)) = fmt.nearest (x / y) := by
  rcases eq_or_ne x 0 with rfl | hx0
  · rw [zero_div, nearest_zero]
  rcases eq_or_ne y 0 with rfl | hy0
  · rw [div_zero, nearest_zero]
  have hq0 : x / y ≠ 0 := div_ne_zero hx0 hy0
  have hlog : fmt.ulpMin - fmt.emax ≤ Int.log 2 |x / y| := by
    rw [le_log_iff hq0, abs_div, le_div_iff₀ (abs_pos.2 hy0)]
    calc (2 : ℚ) ^ (fmt.ulpMin - fmt.emax) * |y| ≤ 2 ^ (fmt.ulpMin - fmt.emax) * 2 ^ fmt.emax :=
          mul_le_mul_of_nonneg_left hlt.le (two_zpow_pos _).le
      _ = 2 ^ fmt.ulpMin := by rw [← two_zpow_add, sub_add_cancel]
      _ ≤ |x| := two_zpow_ulpMin_le hx0 hx
  have hfrac := h.frac
  have hquot := h.quotient
  have hu := le_max_left (Int.log 2 |x / y| - fmt.frac) fmt.ulpMin
  rw [← ulpExp] at hu
  have hv : wide.ulpExp (x / y) = Int.log 2 |x / y| - wide.frac := max_eq_left (by omega)
  exact nearest_nearest hq0 (by omega) (by omega) fun n hn => h.div_eq_of_near hx0 hy0 hx hy hv hn

end Wider

end Format

end OdinSon.Lib
