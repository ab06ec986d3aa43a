import OdinSon.Lib.Rounding

/-!
# Floating-point numbers

The numbers of IEEE 754 as values: rational numbers, two infinities and the number that is none.
The two zeros are one number here; only the sign of a quotient by zero tells them apart.

`Format.cast` converts to a format, `Format.arith` is an operation in it.  An operation on numbers
of a narrow format may be done in a wide one and its result converted (`Wider.cast_arith`).
-/

namespace OdinSon.Lib

/-- A floating-point number. -/
inductive FloatNum where
  | fin (q : ℚ)
  | inf (neg : Bool)
  | nan
  deriving DecidableEq, Repr

/-- The operations that are rounded. -/
inductive Arith where
  | add | sub | mul | div
  deriving DecidableEq, Repr

def Arith.exact (op : Arith) (a b : ℚ) : ℚ :=
  match op with
  | add => a + b
  | sub => a - b
  | mul => a * b
  | div => a / b

namespace FloatNum

protected def neg : FloatNum → FloatNum
  | fin q => fin (-q)
  | inf neg => inf !neg
  | nan => nan

/-- The operations with infinite operands, and quotients by zero. -/
def special (op : Arith) : FloatNum → FloatNum → FloatNum
  | inf m, inf n =>
    match op with
    | .add => if m = n then inf m else nan
    | .sub => if m = n then nan else inf m
    | .mul => inf (m != n)
    | .div => nan
  | inf m, fin b =>
    match op with
    | .add | .sub => inf m
    | .mul => if b = 0 then nan else inf (m != decide (b < 0))
    | .div => inf (m != decide (b < 0))
  | fin a, inf n =>
    match op with
    | .add => inf n
    | .sub => inf !n
    | .mul => if a = 0 then nan else inf (n != decide (a < 0))
    | .div => fin 0
  | fin a, fin _ => if a = 0 then nan else inf (a < 0)
  | _, _ => nan

/-- `==`: nothing equals the number that is none. -/
protected def beq (x y : FloatNum) : Bool := x ≠ nan ∧ x = y

/-- `<`. -/
protected def lt : FloatNum → FloatNum → Bool
  | fin a, fin b => a < b
  | inf m, inf n => m && !n
  | inf m, fin _ => m
  | fin _, inf n => !n
  | _, _ => false

/-- `<=`. -/
protected def le (x y : FloatNum) : Bool := x.lt y || x.beq y

/-- The integer that is left when the fraction is cut off. -/
def trunc : FloatNum → Option ℤ
  | fin q => some (if 0 ≤ q then ⌊q⌋ else ⌈q⌉)
  | _ => none

end FloatNum

namespace Format

/-- The nearest number of the format, an infinity if it is too large. -/
def round (fmt : Format) (q : ℚ) : FloatNum :=
  if 2 ^ fmt.emax ≤ |fmt.nearest q| then .inf (fmt.nearest q < 0) else .fin (fmt.nearest q)

/-- A number in the format. -/
def cast (fmt : Format) : FloatNum → FloatNum
  | .fin q => fmt.round q
  | x => x

/-- An operation in the format. -/
def arith (fmt : Format) (op : Arith) (x y : FloatNum) : FloatNum :=
  match x, y with
  | .fin a, .fin b => if op = .div ∧ b = 0 then .special op x y else fmt.round (op.exact a b)
  | x, y => .special op x y

variable {fmt wide : Format}

theorem round_eq_fin_iff {q r : ℚ} :
    fmt.round q = .fin r ↔ fmt.nearest q = r ∧ |r| < 2 ^ fmt.emax := by
  unfold round
  split_ifs with h
  · constructor
    · intro he
      cases he
    · rintro ⟨rfl, hlt⟩
      exact absurd h (not_le.2 hlt)
  · simp only [FloatNum.fin.injEq]
    refine ⟨?_, And.left⟩
    rintro rfl
    exact ⟨rfl, not_le.1 h⟩

@[simp] theorem cast_round (q : ℚ) : fmt.cast (fmt.round q) = fmt.round q := by
  cases hr : fmt.round q with
  | fin r =>
    obtain ⟨rfl, hlt⟩ := round_eq_fin_iff.1 hr
    exact round_eq_fin_iff.2 ⟨nearest_self q, hlt⟩
  | inf neg => rfl
  | nan => rfl

@[simp] theorem cast_cast (x : FloatNum) : fmt.cast (fmt.cast x) = fmt.cast x := by
  cases x with
  | fin q => exact cast_round q
  | inf neg => rfl
  | nan => rfl

theorem cast_special (op : Arith) (x y : FloatNum) :
    fmt.cast (.special op x y) = .special op x y := by
  have hzero : fmt.cast (.fin 0) = .fin 0 :=
    round_eq_fin_iff.2 ⟨nearest_zero, by rw [abs_zero]; exact two_zpow_pos _⟩
  unfold FloatNum.special
  split <;> (try split) <;> (try split_ifs) <;> first | rfl | exact hzero

/-- What an operation gives is a number of the format. -/
@[simp] theorem cast_arith_self (op : Arith) (x y : FloatNum) :
    fmt.cast (fmt.arith op x y) = fmt.arith op x y := by
  unfold arith
  split
  · split_ifs
    · exact cast_special op _ _
    · exact cast_round _
  · exact cast_special op _ _

theorem cast_neg (x : FloatNum) : fmt.cast x.neg = (fmt.cast x).neg := by
  cases x with
  | fin q =>
    simp only [FloatNum.neg, cast, round, nearest_neg, abs_neg]
    split_ifs with h
    · have hne : fmt.nearest q ≠ 0 := fun h0 => by
        rw [h0, abs_zero] at h
        exact absurd (two_zpow_pos _) (not_lt.2 h)
      have hsign : decide (-fmt.nearest q < 0) = !decide (fmt.nearest q < 0) := by
        rw [← decide_not]
        exact decide_eq_decide.2 ⟨fun h' => not_lt.2 (neg_neg_iff_pos.1 h').le, fun h' =>
          neg_neg_iff_pos.2 (lt_of_le_of_ne (not_lt.1 h') hne.symm)⟩
      exact congrArg FloatNum.inf hsign
    · rfl
  | inf neg => rfl
  | nan => rfl

/-! ### A narrow format in a wide one -/

theorem cast_fin_eq {q : ℚ} (h : fmt.cast (.fin q) = .fin q) :
    fmt.nearest q = q ∧ |q| < 2 ^ fmt.emax := round_eq_fin_iff.1 h

/-- The wide format has the numbers of the narrow one. -/
theorem Wider.cast_self (h : Wider fmt wide) {x : FloatNum} (hx : fmt.cast x = x) :
    wide.cast x = x := by
  cases x with
  | fin q =>
    obtain ⟨hq, hlt⟩ := cast_fin_eq hx
    have := h.emax_nonneg
    have := h.emax
    exact round_eq_fin_iff.2 ⟨h.nearest_self hq, hlt.trans_le (two_zpow_le (by omega))⟩
  | inf neg => rfl
  | nan => rfl

/-- Rounding in the wide format first, of a number that is not too large for it. -/
theorem cast_round_of_nearest {q : ℚ} {k : ℤ} (h : fmt.nearest (wide.nearest q) = fmt.nearest q)
    (hq : |q| < 2 ^ k) (hmin : wide.ulpMin ≤ k) (hmax : k < wide.emax) :
    fmt.cast (wide.round q) = fmt.round q := by
  have hlt : |wide.nearest q| < 2 ^ wide.emax :=
    (abs_nearest_le hmin hq).trans_lt (zpow_lt_zpow_right₀ one_lt_two hmax)
  rw [round_eq_fin_iff.2 ⟨rfl, hlt⟩, cast, round, round, h]

/-- An operation on numbers, not a quotient by zero. -/
theorem Wider.cast_round_exact (h : Wider fmt wide) (op : Arith) {a b : ℚ}
    (ha : fmt.cast (.fin a) = .fin a) (hb : fmt.cast (.fin b) = .fin b)
    (hop : ¬(op = .div ∧ b = 0)) :
    fmt.cast (wide.round (op.exact a b)) = fmt.round (op.exact a b) := by
  obtain ⟨hna, hlta⟩ := cast_fin_eq ha
  obtain ⟨hnb, hltb⟩ := cast_fin_eq hb
  obtain ⟨hmax, hmax'⟩ := h.emax
  have hquot := h.quotient
  have hemax := h.emax_nonneg
  have hmin := h.ulpMin
  have hsum : |a| + |b| < 2 ^ (fmt.emax + 1) := by
    rw [two_zpow_succ]
    linarith
  cases op with
  | add =>
    exact cast_round_of_nearest (h.nearest_add hna hnb) ((abs_add_le a b).trans_lt hsum) (by omega)
      (by omega)
  | sub =>
    have hnb' : fmt.nearest (-b) = -b := by rw [nearest_neg, hnb]
    have hadd := h.nearest_add hna hnb'
    rw [← sub_eq_add_neg] at hadd
    exact cast_round_of_nearest hadd ((abs_sub a b).trans_lt hsum) (by omega) (by omega)
  | mul =>
    have hmul : |a * b| < 2 ^ (fmt.emax + fmt.emax) := by
      rw [abs_mul, two_zpow_add]
      exact mul_lt_mul'' hlta hltb (abs_nonneg a) (abs_nonneg b)
    exact cast_round_of_nearest (congrArg fmt.nearest (h.nearest_mul hna hnb)) hmul (by omega)
      (by omega)
  | div =>
    have hb0 : b ≠ 0 := fun h0 => hop ⟨rfl, h0⟩
    have hdiv : |a / b| < 2 ^ (fmt.emax - fmt.ulpMin) := by
      rw [abs_div, div_lt_iff₀ (abs_pos.2 hb0)]
      calc |a| < 2 ^ fmt.emax := hlta
        _ = 2 ^ (fmt.emax - fmt.ulpMin) * 2 ^ fmt.ulpMin := by
            rw [← two_zpow_add, sub_add_cancel]
        _ ≤ 2 ^ (fmt.emax - fmt.ulpMin) * |b| :=
            mul_le_mul_of_nonneg_left (two_zpow_ulpMin_le hb0 hnb) (two_zpow_pos _).le
    exact cast_round_of_nearest (h.nearest_div hna hnb hltb) hdiv (by omega) (by omega)

/-- **An operation in a narrow format** is the one in a wide format and a conversion. -/
theorem Wider.cast_arith (h : Wider fmt wide) (op : Arith) {x y : FloatNum} (hx : fmt.cast x = x)
    (hy : fmt.cast y = y) : fmt.cast (wide.arith op x y) = fmt.arith op x y := by
  have hspecial : fmt.cast (.special op x y) = .special op x y := cast_special op x y
  cases x with
  | fin a =>
    cases y with
    | fin b =>
      unfold arith
      dsimp only
      split_ifs with hop
      · exact hspecial
      · exact h.cast_round_exact op hx hy hop
    | inf n => exact hspecial
    | nan => exact hspecial
  | inf m => exact hspecial
  | nan => exact hspecial

end Format

end OdinSon.Lib
