import OdinSon.Bac.Lattice

/-!
# Folding binary operators on constants

`sext` and the integer part of `fold_bin_op` (`bac/ssa/peep.odin`), next to `machine`, the meaning
of the operators on `w`-bit registers.  Operands and results are signed values; a comparison
gives `0` or `1`.  A shift count is any integer: read as an unsigned number, a negative count is
at least the width, whatever type it has.

`FoldWidth` says when folding gives the machine result.
-/

namespace OdinSon

open MachInt

/-- `sext`: sign extend the low bits of `oper`. -/
def sext (oper : ℤ) (ty : Datatype) : ℤ :=
  let bitSize := ty.bits
  let mask := shl64 (-1) bitSize
  if and64 oper (shl64 1 (bitSize - 1)) = 0 then andNot64 oper mask else or64 oper mask

/-- `i64(c)` for a condition. -/
def boolToInt (c : Bool) : ℤ := if c then 1 else 0

/-- `fold_bin_op` at an integer datatype. -/
def foldBinOp (lhs : ℤ) (op : BinOp) (rhs : ℤ) (opTy : Datatype) : ℤ :=
  let lhs := match op with
    | .div | .rem | .shr | .shl | .le | .lt | .gt | .ge => sext lhs opTy
    | _ => lhs
  let rhs := match op with
    | .div | .rem | .le | .lt | .gt | .ge => sext rhs opTy
    | _ => rhs
  match op with
  | .add => wrap 64 (lhs + rhs)
  | .sub => wrap 64 (lhs - rhs)
  | .mul => wrap 64 (lhs * rhs)
  | .div => if rhs = 0 then 0 else wrap 64 (lhs.tdiv rhs)
  | .rem => if rhs = 0 then 0 else wrap 64 (lhs.tmod rhs)
  | .and => and64 lhs rhs
  | .or => or64 lhs rhs
  | .xor => xor64 lhs rhs
  | .andNot => andNot64 lhs rhs
  | .shl => if opTy.bits ≤ u64 rhs then 0 else sext (shl64 lhs (u64 rhs)) opTy
  | .shr => shr64 (sext lhs opTy) (min (u64 rhs) (opTy.bits - 1))
  | .eq => boolToInt (lhs = rhs)
  | .ne => boolToInt (lhs ≠ rhs)
  | .le => boolToInt (lhs ≤ rhs)
  | .lt => boolToInt (lhs < rhs)
  | .gt => boolToInt (lhs > rhs)
  | .ge => boolToInt (lhs ≥ rhs)
  | .uLt => boolToInt (u64 lhs < u64 rhs)
  | .uGt => boolToInt (u64 lhs > u64 rhs)
  | .uLe => boolToInt (u64 lhs ≤ u64 rhs)
  | .uGe => boolToInt (u64 lhs ≥ u64 rhs)
  | .uDiv => if rhs = 0 then 0 else i64 (u64 lhs / u64 rhs)
  | .uRem => if rhs = 0 then 0 else i64 (u64 lhs % u64 rhs)
  | .uShr => if opTy.bits ≤ u64 rhs then 0 else i64 (u64 lhs >>> u64 rhs)

/-- The operator on `w`-bit registers; `none` where the machine traps. -/
@[grind =] def machine (op : BinOp) (w : ℕ) (a b : ℤ) : Option ℤ :=
  let x := BitVec.ofInt w a
  let y := BitVec.ofInt w b
  match op with
  | .add => some (x + y).toInt
  | .sub => some (x - y).toInt
  | .mul => some (x * y).toInt
  | .and => some (x &&& y).toInt
  | .or => some (x ||| y).toInt
  | .xor => some (x ^^^ y).toInt
  | .andNot => some (x &&& ~~~y).toInt
  | .div => if y = 0 ∨ x = BitVec.intMin w ∧ y = -1 then none else some (x.sdiv y).toInt
  | .rem => if y = 0 then none else some (x.srem y).toInt
  | .uDiv => if y = 0 then none else some (x / y).toInt
  | .uRem => if y = 0 then none else some (x % y).toInt
  | .shl => some (if 0 ≤ b ∧ b < w then (x <<< b.toNat).toInt else 0)
  | .shr => some (x.sshiftRight (if 0 ≤ b ∧ b < w then b.toNat else w - 1)).toInt
  | .uShr => some (if 0 ≤ b ∧ b < w then (x >>> b.toNat).toInt else 0)
  | .eq => some (boolToInt (x = y))
  | .ne => some (boolToInt (x ≠ y))
  | .le => some (boolToInt (x.sle y))
  | .lt => some (boolToInt (x.slt y))
  | .gt => some (boolToInt (y.slt x))
  | .ge => some (boolToInt (y.sle x))
  | .uLt => some (boolToInt (x.ult y))
  | .uLe => some (boolToInt (x.ule y))
  | .uGt => some (boolToInt (y.ult x))
  | .uGe => some (boolToInt (y.ule x))

/-! ### Sign extension is wrapping -/

theorem u64_shl_neg_one {w : ℕ} (hw : w < 64) :
    u64 (shl64 (-1) w) = 2 ^ w * (2 ^ (64 - w) - 1) := by
  have hp : (2 : ℤ) ^ w ≤ 2 ^ 63 := pow_le_pow_right₀ (by norm_num) (by omega)
  have hp' : (0 : ℤ) < 2 ^ w := by positivity
  have hn : 2 ^ w ≤ 2 ^ 64 := Nat.pow_le_pow_right (by norm_num) hw.le
  have h : ((u64 (shl64 (-1) w) : ℕ) : ℤ) = -1 * 2 ^ w + 2 ^ 64 := by
    rw [shl64, if_pos hw, wrap_eq_self (by norm_num) ⟨by omega, by omega⟩, u64,
      unsigned_of_neg (by omega) (by omega)]
  have h' : u64 (shl64 (-1) w) = 2 ^ 64 - 2 ^ w := by
    zify [hn]; rw [h]; ring
  rw [h', Nat.mul_sub, mul_one, ← pow_add, Nat.add_sub_cancel' hw.le]

theorem and_two_pow_eq_zero {n k : ℕ} : n &&& 2 ^ k = 0 ↔ n.testBit k = false := by
  rw [Nat.and_two_pow]
  cases n.testBit k <;> simp

theorem and64_two_pow_eq_zero {w : ℕ} (hw : 0 < w) (hw' : w ≤ 64) (x : ℤ) :
    and64 x (shl64 1 (w - 1)) = 0 ↔ (u64 x).testBit (w - 1) = false := by
  have h : u64 (shl64 1 (w - 1)) = 2 ^ (w - 1) := by
    have hlt : (2 : ℤ) ^ (w - 1) < 2 ^ 64 := pow_lt_pow_right₀ (by norm_num) (by omega)
    have : ((unsigned 64 (2 ^ (w - 1)) : ℕ) : ℤ) = 2 ^ (w - 1) :=
      unsigned_of_nonneg (by positivity) hlt
    rw [shl64, if_pos (by omega), u64, one_mul, unsigned_wrap le_rfl]
    exact_mod_cast this
  rw [and64, h, ← and_two_pow_eq_zero]
  constructor
  · intro h0
    have hlt : u64 x &&& 2 ^ (w - 1) < 2 ^ 64 := Nat.and_lt_two_pow _
      (Nat.pow_lt_pow_right (by norm_num) (by omega))
    have hd : (2 : ℤ) ^ 64 ∣ ((u64 x &&& 2 ^ (w - 1) : ℕ) : ℤ) := by
      have := (wrap_eq_wrap_iff (w := 64) (x := (u64 x &&& 2 ^ (w - 1) : ℕ)) (y := 0)).1
        (by rw [← i64, h0]; rfl)
      simpa using this
    have hd' : 2 ^ 64 ∣ u64 x &&& 2 ^ (w - 1) := by exact_mod_cast hd
    exact Nat.eq_zero_of_dvd_of_lt hd' hlt
  · intro h0; rw [h0]; rfl

theorem andNot_high {u w : ℕ} (hu : u < 2 ^ 64) :
    andNot u (2 ^ w * (2 ^ (64 - w) - 1)) = u % 2 ^ w := by
  apply Nat.eq_of_testBit_eq
  intro i
  rw [testBit_andNot, Nat.testBit_two_pow_mul, Nat.testBit_two_pow_sub_one,
    Nat.testBit_mod_two_pow]
  by_cases hi : i < 64
  · by_cases hw : i < w
    · simp [hw]
    · simp [hw, show w ≤ i by omega, show i - w < 64 - w by omega]
  · rw [Nat.testBit_eq_false_of_lt (hu.trans_le (Nat.pow_le_pow_right (by norm_num) (by omega)))]
    simp

theorem or_high {u w : ℕ} (hu : u < 2 ^ 64) :
    u ||| 2 ^ w * (2 ^ (64 - w) - 1) = 2 ^ w * (2 ^ (64 - w) - 1) + u % 2 ^ w := by
  rw [Nat.two_pow_add_eq_or_of_lt (Nat.mod_lt _ (by positivity))]
  apply Nat.eq_of_testBit_eq
  intro i
  rw [Nat.testBit_or, Nat.testBit_or, Nat.testBit_two_pow_mul, Nat.testBit_two_pow_sub_one,
    Nat.testBit_mod_two_pow]
  by_cases hi : i < 64
  · by_cases hw : i < w
    · simp [hw, show ¬ w ≤ i by omega]
    · simp [hw, show w ≤ i by omega, show i - w < 64 - w by omega]
  · rw [Nat.testBit_eq_false_of_lt (hu.trans_le (Nat.pow_le_pow_right (by norm_num) (by omega)))]
    simp [show ¬ i - w < 64 - w by omega]

/-- `sext` is the signed value of the low bits. -/
theorem sext_eq_wrap {ty : Datatype} (h : ty.isInt = true) (x : ℤ) :
    sext x ty = wrap ty.bits x := by
  have hw := Datatype.bits_pos h
  have hw' := Datatype.bits_le h
  have hu : u64 x < 2 ^ 64 := unsigned_lt 64 x
  have hmod : u64 x % 2 ^ ty.bits = unsigned ty.bits x := unsigned_mod hw' x
  have hlt := unsigned_lt ty.bits x
  have hbit : and64 x (shl64 1 (ty.bits - 1)) = 0 ↔ ¬ 2 ^ (ty.bits - 1) ≤ unsigned ty.bits x := by
    rw [and64_two_pow_eq_zero hw hw', ← decide_eq_false_iff_not, ← testBit_msb hw hlt, ← hmod,
      Nat.testBit_mod_two_pow]
    simp [hw]
  rw [← wrap_unsigned]
  rcases hw'.eq_or_lt with h64 | h64
  · have hi : i64 (u64 x) = wrap ty.bits (unsigned ty.bits x) := by rw [i64, u64, h64]
    rw [sext, h64, show shl64 (-1) 64 = 0 from rfl, andNot64, or64, show u64 0 = 0 from rfl, ← h64]
    simpa [andNot] using hi
  · simp only [sext, hbit, andNot64, or64, u64_shl_neg_one h64, andNot_high hu, or_high hu, hmod]
    split_ifs with hs
    · have hp : 2 ^ ty.bits * (2 ^ (64 - ty.bits) - 1) + 2 ^ ty.bits = 2 ^ 64 := by
        have : 0 < 2 ^ (64 - ty.bits) := by positivity
        rw [← Nat.mul_succ, Nat.succ_eq_add_one, Nat.sub_add_cancel this, ← pow_add,
          Nat.add_sub_cancel' hw']
      have hp' : 2 ^ ty.bits ≤ 2 ^ 63 := Nat.pow_le_pow_right (by norm_num) (by omega)
      rw [i64, wrap_natCast_of_ge (by norm_num) (by omega) (by omega),
        wrap_natCast_of_ge hw (by omega) hlt]
      zify at hp
      push_cast
      linarith
    · have h63 : unsigned ty.bits x < 2 ^ (64 - 1) :=
        hlt.trans_le (Nat.pow_le_pow_right (by norm_num) (by omega))
      rw [i64, wrap_natCast_of_lt (by norm_num) h63, wrap_natCast_of_lt hw (by omega)]

/-! ### The machine operators on values -/

theorem machine_add (w : ℕ) (x y : ℤ) : machine .add w x y = some (wrap w (x + y)) := by
  simp [machine, wrap]

theorem machine_sub (w : ℕ) (x y : ℤ) : machine .sub w x y = some (wrap w (x - y)) := by
  simp [machine, wrap]

theorem machine_mul (w : ℕ) (x y : ℤ) : machine .mul w x y = some (wrap w (x * y)) := by
  simp [machine, wrap]

theorem machine_and (w : ℕ) (x y : ℤ) :
    machine .and w x y = some (wrap w (unsigned w x &&& unsigned w y : ℕ)) := by
  simp only [machine, toInt_eq_wrap, BitVec.toNat_and, ofInt_toNat]

theorem machine_or (w : ℕ) (x y : ℤ) :
    machine .or w x y = some (wrap w (unsigned w x ||| unsigned w y : ℕ)) := by
  simp only [machine, toInt_eq_wrap, BitVec.toNat_or, ofInt_toNat]

theorem machine_xor (w : ℕ) (x y : ℤ) :
    machine .xor w x y = some (wrap w (unsigned w x ^^^ unsigned w y : ℕ)) := by
  simp only [machine, toInt_eq_wrap, BitVec.toNat_xor, ofInt_toNat]

theorem toNat_and_not {w : ℕ} (x y : BitVec w) : (x &&& ~~~y).toNat = andNot x.toNat y.toNat := by
  apply Nat.eq_of_testBit_eq
  intro i
  rw [BitVec.testBit_toNat, testBit_andNot, BitVec.testBit_toNat, BitVec.testBit_toNat]
  by_cases hi : i < w
  · simp [hi]
  · simp [BitVec.getLsbD_of_ge x i (by omega)]

theorem machine_andNot (w : ℕ) (x y : ℤ) :
    machine .andNot w x y = some (wrap w (andNot (unsigned w x) (unsigned w y) : ℕ)) := by
  simp only [machine, toInt_eq_wrap, toNat_and_not, ofInt_toNat]

theorem machine_shl (w : ℕ) (x y : ℤ) :
    machine .shl w x y = some (if 0 ≤ y ∧ y < w then wrap w (x * 2 ^ y.toNat) else 0) := by
  have : ((BitVec.ofInt w x) <<< y.toNat).toInt = wrap w (x * 2 ^ y.toNat) := by
    rw [BitVec.toInt_shiftLeft, ofInt_toNat, Nat.shiftLeft_eq, ← wrap, Nat.cast_mul,
      ← wrap_mul_left, wrap_unsigned, wrap_mul_left]
    push_cast; rfl
  simp only [machine, this]

theorem machine_uShr (w : ℕ) (x y : ℤ) :
    machine .uShr w x y =
      some (if 0 ≤ y ∧ y < w then wrap w (unsigned w x / 2 ^ y.toNat : ℕ) else 0) := by
  simp only [machine, toInt_eq_wrap, BitVec.toNat_ushiftRight, ofInt_toNat, Nat.shiftRight_eq_div_pow]

section InRange

variable {w : ℕ} (hw : 0 < w) {x y : ℤ} (hx : InS w x) (hy : InS w y)

include hw hx

theorem ofInt_toInt_self : (BitVec.ofInt w x).toInt = x := by
  rw [ofInt_toInt, wrap_eq_self hw hx]

theorem machine_shr :
    machine .shr w x y = some (x / 2 ^ (if 0 ≤ y ∧ y < w then y.toNat else w - 1)) := by
  simp only [machine, BitVec.toInt_sshiftRight, ofInt_toInt_self hw hx, Int.shiftRight_eq_div_pow]
  push_cast; rfl

include hy

theorem ofInt_eq_iff : BitVec.ofInt w x = BitVec.ofInt w y ↔ x = y := by
  rw [← BitVec.toInt_inj, ofInt_toInt_self hw hx, ofInt_toInt_self hw hy]

omit hx in
theorem ofInt_eq_zero_iff : BitVec.ofInt w y = 0 ↔ y = 0 := by
  have h0 : InS w 0 := ⟨by simp, by positivity⟩
  rw [← ofInt_eq_iff hw hy h0]
  rfl

theorem machine_eq : machine .eq w x y = some (boolToInt (x = y)) := by
  simp only [machine, ofInt_eq_iff hw hx hy]

theorem machine_ne : machine .ne w x y = some (boolToInt (x ≠ y)) := by
  simp only [machine, ne_eq, ofInt_eq_iff hw hx hy]

theorem machine_lt : machine .lt w x y = some (boolToInt (x < y)) := by
  simp only [machine, BitVec.slt_eq_decide, ofInt_toInt_self hw hx, ofInt_toInt_self hw hy]

theorem machine_le : machine .le w x y = some (boolToInt (x ≤ y)) := by
  simp only [machine, BitVec.sle_eq_decide, ofInt_toInt_self hw hx, ofInt_toInt_self hw hy]

theorem machine_gt : machine .gt w x y = some (boolToInt (x > y)) := by
  simp only [machine, BitVec.slt_eq_decide, ofInt_toInt_self hw hx, ofInt_toInt_self hw hy, gt_iff_lt]

theorem machine_ge : machine .ge w x y = some (boolToInt (x ≥ y)) := by
  simp only [machine, BitVec.sle_eq_decide, ofInt_toInt_self hw hx, ofInt_toInt_self hw hy, ge_iff_le]

theorem machine_div :
    machine .div w x y =
      if y = 0 ∨ x = -2 ^ (w - 1) ∧ y = -1 then none else some (x.tdiv y) := by
  have hp : (0 : ℤ) < 2 ^ (w - 1) := by positivity
  have hmin : BitVec.ofInt w x = BitVec.intMin w ↔ x = -2 ^ (w - 1) := by
    rw [← BitVec.toInt_inj, ofInt_toInt_self hw hx, BitVec.toInt_intMin_of_pos hw]
  have hone : BitVec.ofInt w y = -1 ↔ y = -1 := by
    rw [← ofInt_eq_iff hw hy (y := -1) ⟨by omega, by omega⟩, BitVec.ofInt_neg]
    rfl
  simp only [machine, ofInt_eq_zero_iff hw hy, hmin, hone]
  split_ifs with h
  · rfl
  · rw [BitVec.toInt_sdiv_of_ne_or_ne, ofInt_toInt_self hw hx, ofInt_toInt_self hw hy]
    rw [← not_and_or, hmin]
    exact fun hc => h (.inr ⟨hc.1, hone.1 hc.2⟩)

theorem machine_rem : machine .rem w x y = if y = 0 then none else some (x.tmod y) := by
  simp only [machine, ofInt_eq_zero_iff hw hy, BitVec.toInt_srem, ofInt_toInt_self hw hx,
    ofInt_toInt_self hw hy]

omit hx in
theorem machine_uDiv :
    machine .uDiv w x y =
      if y = 0 then none else some (wrap w (unsigned w x / unsigned w y : ℕ)) := by
  simp only [machine, ofInt_eq_zero_iff hw hy, toInt_eq_wrap, BitVec.toNat_udiv, ofInt_toNat]

omit hx in
theorem machine_uRem :
    machine .uRem w x y =
      if y = 0 then none else some (wrap w (unsigned w x % unsigned w y : ℕ)) := by
  simp only [machine, ofInt_eq_zero_iff hw hy, toInt_eq_wrap, BitVec.toNat_umod, ofInt_toNat]

end InRange

theorem machine_uLt (w : ℕ) (x y : ℤ) :
    machine .uLt w x y = some (boolToInt (unsigned w x < unsigned w y)) := by
  simp only [machine, BitVec.ult_eq_decide, ofInt_toNat]

theorem machine_uLe (w : ℕ) (x y : ℤ) :
    machine .uLe w x y = some (boolToInt (unsigned w x ≤ unsigned w y)) := by
  simp only [machine, BitVec.ule_eq_decide, ofInt_toNat]

theorem machine_uGt (w : ℕ) (x y : ℤ) :
    machine .uGt w x y = some (boolToInt (unsigned w x > unsigned w y)) := by
  simp only [machine, BitVec.ult_eq_decide, ofInt_toNat, gt_iff_lt]

theorem machine_uGe (w : ℕ) (x y : ℤ) :
    machine .uGe w x y = some (boolToInt (unsigned w x ≥ unsigned w y)) := by
  simp only [machine, BitVec.ule_eq_decide, ofInt_toNat, ge_iff_le]

end OdinSon
