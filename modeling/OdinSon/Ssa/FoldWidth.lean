import OdinSon.Ssa.FoldBinOp

/-!
# Folding constants in any form

A constant of width `w` is kept in an `i64`, and nothing makes its upper bits uniform: `fold_bin_op`
leaves those of a sum as they are.  `machineOn` is the operator on the low `w` bits of both operands,
a shift count being an unsigned number.  Some operators look at the low bits only and fold to it from
any form of their operands (`foldBinOp_agrees`); the others compare, divide or shift all 64 bits,
which is the same for zero extended operands (`foldBinOp_agrees_of_unsigned`), and not in general
(`foldBinOp_formDependent`).
-/

namespace OdinSon

open MachInt

namespace BinOp

/-- The low bits of the result come from the low bits of the operands, or both are sign extended
first. -/
def readsLowBits : BinOp → Bool
  | add | sub | mul | and | or | xor | andNot | div | rem | le | lt | gt | ge => true
  | _ => false

end BinOp

/-- The operator of a `w`-bit machine on the low bits of the operands; `none` where it traps. -/
def machineOn (op : BinOp) (w : ℕ) (a b : ℤ) : Option ℤ :=
  machine op w a (if op.isShift then (unsigned w b : ℤ) else b)

/-- The result of a comparison is `0` or `1`, other results count modulo `2 ^ w`. -/
def Agrees (op : BinOp) (w : ℕ) (x y : ℤ) : Prop :=
  if op.isComparison then x = y else wrap w x = wrap w y

instance (w : ℕ) (x : ℤ) : Decidable (InS w x) :=
  inferInstanceAs (Decidable (-2 ^ (w - 1) ≤ x ∧ x < 2 ^ (w - 1)))

instance (op : BinOp) (w : ℕ) (x y : ℤ) : Decidable (Agrees op w x y) :=
  inferInstanceAs (Decidable (if op.isComparison then x = y else wrap w x = wrap w y))

/-- Folding gives the machine's result, from every form of the operands. -/
def FoldsByWidth (op : BinOp) (ty : Datatype) : Prop :=
  ∀ a a' b b', InS 64 a → InS 64 a' → InS 64 b → InS 64 b' →
    wrap ty.bits a = wrap ty.bits a' → wrap ty.bits b = wrap ty.bits b' →
    ∀ r, machineOn op ty.bits a b = some r →
      Agrees op ty.bits (foldBinOp a op b ty) r ∧
        Agrees op ty.bits (foldBinOp a' op b' ty) (foldBinOp a op b ty)

theorem Agrees.symm {op : BinOp} {w : ℕ} {x y : ℤ} (h : Agrees op w x y) : Agrees op w y x := by
  unfold Agrees at h ⊢
  split_ifs at h ⊢ <;> exact Eq.symm h

theorem Agrees.trans {op : BinOp} {w : ℕ} {x y z : ℤ} (h₁ : Agrees op w x y)
    (h₂ : Agrees op w y z) : Agrees op w x z := by
  unfold Agrees at h₁ h₂ ⊢
  split_ifs at h₁ h₂ ⊢ <;> exact Eq.trans h₁ h₂

/-! ### The machine looks at the low bits -/

theorem machineOn_of_not_shift {op : BinOp} (hop : op.isShift = false) (w : ℕ) (a b : ℤ) :
    machineOn op w a b = machine op w a b := by
  rw [machineOn, hop, if_neg Bool.false_ne_true]

theorem machineOn_of_shift {op : BinOp} (hop : op.isShift = true) (w : ℕ) (a b : ℤ) :
    machineOn op w a b = machine op w a (unsigned w b) := by
  rw [machineOn, hop, if_pos rfl]

theorem unsigned_congr {w : ℕ} {x y : ℤ} (h : wrap w x = wrap w y) : unsigned w x = unsigned w y := by
  rw [← unsigned_wrap le_rfl x, h, unsigned_wrap le_rfl]

theorem machine_wrap_left (op : BinOp) (w : ℕ) (a b : ℤ) :
    machine op w (wrap w a) b = machine op w a b := by
  simp only [machine, ofInt_wrap]

theorem machine_wrap_right {op : BinOp} (hop : op.isShift = false) (w : ℕ) (a b : ℤ) :
    machine op w a (wrap w b) = machine op w a b := by
  cases op <;> first | exact absurd hop (by decide) | simp only [machine, ofInt_wrap]

theorem machineOn_congr {op : BinOp} {w : ℕ} {a a' b b' : ℤ} (ha : wrap w a = wrap w a')
    (hb : wrap w b = wrap w b') : machineOn op w a b = machineOn op w a' b' := by
  cases hop : op.isShift with
  | true =>
    rw [machineOn_of_shift hop, machineOn_of_shift hop, ← machine_wrap_left op w a, ha,
      machine_wrap_left, unsigned_congr hb]
  | false =>
    rw [machineOn_of_not_shift hop, machineOn_of_not_shift hop, ← machine_wrap_left op w a, ha,
      machine_wrap_left, ← machine_wrap_right hop w a' b, hb, machine_wrap_right hop]

/-! ### Operators that look at the low bits -/

section Fold

variable {ty : Datatype} (h : ty.isInt = true)

include h

theorem wrap_i64_bitwise {f : ℕ → ℕ → ℕ}
    (hf : ∀ x y, f x y % 2 ^ ty.bits = f (x % 2 ^ ty.bits) (y % 2 ^ ty.bits)) (a b : ℤ) :
    wrap ty.bits (i64 (f (u64 a) (u64 b))) =
      wrap ty.bits (f (unsigned ty.bits a) (unsigned ty.bits b) : ℕ) := by
  have hle := Datatype.bits_le h
  rw [wrap_i64 hle, ← wrap_natCast_mod, hf, u64, u64, unsigned_mod hle, unsigned_mod hle]

/-- **Operators that look at the low bits fold as the machine computes**, from any form. -/
theorem foldBinOp_agrees {op : BinOp} (hop : op.readsLowBits = true) {a b r : ℤ}
    (hr : machineOn op ty.bits a b = some r) : Agrees op ty.bits (foldBinOp a op b ty) r := by
  have hpos := Datatype.bits_pos h
  have hle := Datatype.bits_le h
  have hwa := wrap_mem hpos a
  have hwb := wrap_mem hpos b
  have hshift : op.isShift = false := by
    cases op <;> first | rfl | exact absurd hop (by decide)
  rw [machineOn_of_not_shift hshift] at hr
  -- the signed operators on the sign extended operands
  have hr' : machine op ty.bits (wrap ty.bits a) (wrap ty.bits b) = some r := by
    rw [machine_wrap_left, machine_wrap_right hshift, hr]
  cases op with
  | add =>
    rw [machine_add] at hr
    rw [← Option.some.inj hr, foldBinOp]
    simp only [Agrees, BinOp.isComparison, Bool.false_eq_true, if_false, wrap_wrap,
      wrap_wrap_of_le hle]
  | sub =>
    rw [machine_sub] at hr
    rw [← Option.some.inj hr, foldBinOp]
    simp only [Agrees, BinOp.isComparison, Bool.false_eq_true, if_false, wrap_wrap,
      wrap_wrap_of_le hle]
  | mul =>
    rw [machine_mul] at hr
    rw [← Option.some.inj hr, foldBinOp]
    simp only [Agrees, BinOp.isComparison, Bool.false_eq_true, if_false, wrap_wrap,
      wrap_wrap_of_le hle]
  | and =>
    rw [machine_and] at hr
    rw [← Option.some.inj hr, foldBinOp]
    simp only [Agrees, BinOp.isComparison, Bool.false_eq_true, if_false, wrap_wrap, and64]
    exact wrap_i64_bitwise h (fun x y => Nat.and_mod_two_pow) a b
  | or =>
    rw [machine_or] at hr
    rw [← Option.some.inj hr, foldBinOp]
    simp only [Agrees, BinOp.isComparison, Bool.false_eq_true, if_false, wrap_wrap, or64]
    exact wrap_i64_bitwise h (fun x y => Nat.or_mod_two_pow) a b
  | xor =>
    rw [machine_xor] at hr
    rw [← Option.some.inj hr, foldBinOp]
    simp only [Agrees, BinOp.isComparison, Bool.false_eq_true, if_false, wrap_wrap, xor64]
    exact wrap_i64_bitwise h (fun x y => Nat.xor_mod_two_pow) a b
  | andNot =>
    rw [machine_andNot] at hr
    rw [← Option.some.inj hr, foldBinOp]
    simp only [Agrees, BinOp.isComparison, Bool.false_eq_true, if_false, wrap_wrap, andNot64]
    exact wrap_i64_bitwise h (fun x y => andNot_mod x y _) a b
  | div =>
    rw [machine_div hpos hwa hwb] at hr'
    split at hr'
    · cases hr'
    · rename_i hne
      simp only [foldBinOp, sext_eq_wrap h, if_neg fun hc => hne (.inl hc), Agrees,
        BinOp.isComparison, Bool.false_eq_true, if_false, wrap_wrap_of_le hle, Option.some.inj hr']
  | rem =>
    rw [machine_rem hpos hwa hwb] at hr'
    split at hr'
    · cases hr'
    · rename_i hne
      simp only [foldBinOp, sext_eq_wrap h, if_neg hne, Agrees, BinOp.isComparison,
        Bool.false_eq_true, if_false, wrap_wrap_of_le hle, Option.some.inj hr']
  | le =>
    rw [machine_le hpos hwa hwb] at hr'
    simp only [foldBinOp, sext_eq_wrap h, Agrees, BinOp.isComparison, if_true, Option.some.inj hr']
  | lt =>
    rw [machine_lt hpos hwa hwb] at hr'
    simp only [foldBinOp, sext_eq_wrap h, Agrees, BinOp.isComparison, if_true, Option.some.inj hr']
  | gt =>
    rw [machine_gt hpos hwa hwb] at hr'
    simp only [foldBinOp, sext_eq_wrap h, Agrees, BinOp.isComparison, if_true, Option.some.inj hr']
  | ge =>
    rw [machine_ge hpos hwa hwb] at hr'
    simp only [foldBinOp, sext_eq_wrap h, Agrees, BinOp.isComparison, if_true, Option.some.inj hr']
  | _ => exact absurd hop (by decide)

/-! ### Operators that look at all bits -/

omit h in
theorem u64_inj {a b : ℤ} (ha : InS 64 a) (hb : InS 64 b) : u64 a = u64 b ↔ a = b := by
  refine ⟨fun hu => ?_, fun hab => hab ▸ rfl⟩
  rw [← wrap_eq_self (by norm_num) ha, ← wrap_eq_self (by norm_num) hb, ← wrap_unsigned,
    ← wrap_unsigned 64 b]
  exact congrArg (fun n : ℕ => wrap 64 n) hu

omit h in
theorem wrap_inj_iff {a b : ℤ} : wrap ty.bits a = wrap ty.bits b ↔
    unsigned ty.bits a = unsigned ty.bits b := by
  refine ⟨unsigned_congr, fun hu => ?_⟩
  rw [← wrap_unsigned, hu, wrap_unsigned]

/-- The machine compares and divides the unsigned low bits. -/
theorem machine_on_unsigned {a b : ℤ} :
    (machine .eq ty.bits a b = some (boolToInt (unsigned ty.bits a = unsigned ty.bits b))) ∧
      (machine .ne ty.bits a b = some (boolToInt (unsigned ty.bits a ≠ unsigned ty.bits b))) ∧
      (machine .uDiv ty.bits a b = if unsigned ty.bits b = 0 then none else
        some (wrap ty.bits (unsigned ty.bits a / unsigned ty.bits b : ℕ))) ∧
      (machine .uRem ty.bits a b = if unsigned ty.bits b = 0 then none else
        some (wrap ty.bits (unsigned ty.bits a % unsigned ty.bits b : ℕ))) := by
  have hpos := Datatype.bits_pos h
  have hwa := wrap_mem hpos a
  have hwb := wrap_mem hpos b
  have hzero : wrap ty.bits b = 0 ↔ unsigned ty.bits b = 0 := by
    have h0 : wrap ty.bits 0 = 0 := wrap_eq_self hpos ⟨by simp, by positivity⟩
    have hu : unsigned ty.bits 0 = 0 := by simp [unsigned]
    rw [← hu, ← wrap_inj_iff, h0]
  have hm (op : BinOp) (hop : op.isShift = false) :
      machine op ty.bits a b = machine op ty.bits (wrap ty.bits a) (wrap ty.bits b) := by
    rw [machine_wrap_left, machine_wrap_right hop]
  refine ⟨?_, ?_, ?_, ?_⟩
  · rw [hm .eq rfl, machine_eq hpos hwa hwb]
    simp only [wrap_inj_iff]
  · rw [hm .ne rfl, machine_ne hpos hwa hwb]
    simp only [ne_eq, wrap_inj_iff]
  · rw [hm .uDiv rfl, machine_uDiv hpos hwb]
    simp only [hzero, unsigned_wrap le_rfl]
  · rw [hm .uRem rfl, machine_uRem hpos hwb]
    simp only [hzero, unsigned_wrap le_rfl]

/-- **Zero extended operands fold as the machine computes.** -/
theorem foldBinOp_agrees_of_unsigned {op : BinOp} {a b r : ℤ} (ha : InS 64 a) (hb : InS 64 b)
    (hua : u64 a = unsigned ty.bits a) (hub : u64 b = unsigned ty.bits b)
    (hr : machineOn op ty.bits a b = some r) : Agrees op ty.bits (foldBinOp a op b ty) r := by
  have hpos := Datatype.bits_pos h
  have hle := Datatype.bits_le h
  -- operators that read the low bits only agree without the two equations
  by_cases hlow : op.readsLowBits = true
  · exact foldBinOp_agrees h hlow hr
  have hb0 : b = 0 ↔ unsigned ty.bits b = 0 := by
    rw [← hub, ← u64_inj hb (b := 0) ⟨by norm_num, by norm_num⟩]
    rfl
  have hcount : (0 ≤ (unsigned ty.bits b : ℤ) ∧ (unsigned ty.bits b : ℤ) < ty.bits) ↔
      ¬ty.bits ≤ unsigned ty.bits b := by omega
  have hon := machine_on_unsigned (a := a) (b := b) h
  cases op with
  | eq =>
    rw [machineOn_of_not_shift rfl, hon.1] at hr
    simp only [foldBinOp, Agrees, BinOp.isComparison, if_true, ← Option.some.inj hr, ← hua, ← hub,
      u64_inj ha hb]
  | ne =>
    rw [machineOn_of_not_shift rfl, hon.2.1] at hr
    simp only [foldBinOp, Agrees, BinOp.isComparison, if_true, ← Option.some.inj hr, ← hua, ← hub,
      ne_eq, u64_inj ha hb]
  | uLt =>
    rw [machineOn_of_not_shift rfl, machine_uLt] at hr
    simp only [foldBinOp, Agrees, BinOp.isComparison, if_true, ← Option.some.inj hr, hua, hub]
  | uLe =>
    rw [machineOn_of_not_shift rfl, machine_uLe] at hr
    simp only [foldBinOp, Agrees, BinOp.isComparison, if_true, ← Option.some.inj hr, hua, hub]
  | uGt =>
    rw [machineOn_of_not_shift rfl, machine_uGt] at hr
    simp only [foldBinOp, Agrees, BinOp.isComparison, if_true, ← Option.some.inj hr, hua, hub]
  | uGe =>
    rw [machineOn_of_not_shift rfl, machine_uGe] at hr
    simp only [foldBinOp, Agrees, BinOp.isComparison, if_true, ← Option.some.inj hr, hua, hub]
  | uDiv =>
    rw [machineOn_of_not_shift rfl, hon.2.2.1] at hr
    split at hr
    · cases hr
    · rename_i hne
      simp only [foldBinOp, hb0, if_neg hne, Agrees, BinOp.isComparison, Bool.false_eq_true,
        if_false, hua, hub, wrap_i64 hle, ← Option.some.inj hr, wrap_wrap]
  | uRem =>
    rw [machineOn_of_not_shift rfl, hon.2.2.2] at hr
    split at hr
    · cases hr
    · rename_i hne
      simp only [foldBinOp, hb0, if_neg hne, Agrees, BinOp.isComparison, Bool.false_eq_true,
        if_false, hua, hub, wrap_i64 hle, ← Option.some.inj hr, wrap_wrap]
  | shl =>
    rw [machineOn_of_shift rfl, machine_shl] at hr
    -- a count below the width is below 64 too
    have hshl (hlt : ¬ty.bits ≤ unsigned ty.bits b) :
        sext (shl64 (sext a ty) (unsigned ty.bits b)) ty =
          wrap ty.bits (a * 2 ^ unsigned ty.bits b) := by
      have h64 : unsigned ty.bits b < 64 := (not_le.1 hlt).trans_le hle
      rw [sext_eq_wrap h, sext_eq_wrap h, shl64, if_pos h64, wrap_wrap_of_le hle, wrap_mul_left]
    simp only [foldBinOp, hub, Agrees, BinOp.isComparison, Bool.false_eq_true, if_false,
      ← Option.some.inj hr, hcount, Int.toNat_natCast]
    by_cases hlt : ty.bits ≤ unsigned ty.bits b
    · rw [if_pos hlt, if_neg (not_not.2 hlt)]
    · rw [if_neg hlt, if_pos hlt, hshl hlt]
  | shr =>
    rw [machineOn_of_shift rfl, ← machine_wrap_left, machine_shr hpos (wrap_mem hpos a)] at hr
    -- a large count leaves copies of the sign, as a shift by one less than the width
    have hmin : min (unsigned ty.bits b) (ty.bits - 1) =
        if ¬ty.bits ≤ unsigned ty.bits b then unsigned ty.bits b else ty.bits - 1 := by
      split <;> omega
    simp only [foldBinOp, hub, Agrees, BinOp.isComparison, Bool.false_eq_true, if_false,
      ← Option.some.inj hr, hcount, Int.toNat_natCast, sext_eq_wrap h, wrap_wrap, shr64, hmin]
  | uShr =>
    rw [machineOn_of_shift rfl, machine_uShr] at hr
    simp only [foldBinOp, hua, hub, Agrees, BinOp.isComparison, Bool.false_eq_true, if_false,
      ← Option.some.inj hr, hcount, Int.toNat_natCast]
    by_cases hlt : ty.bits ≤ unsigned ty.bits b
    · rw [if_pos hlt, if_neg (not_not.2 hlt)]
    · rw [if_neg hlt, if_pos hlt, wrap_i64 hle, wrap_wrap, Nat.shiftRight_eq_div_pow]
  | _ => exact absurd rfl hlow

omit h in
/-- Operands with upper bits that an operator does not fold to the machine's result, which comes
last. -/
def upperBits (op : BinOp) (ty : Datatype) : ℤ × ℤ × ℤ :=
  match op with
  | .uLt => (0, 2 ^ ty.bits, 0)
  | .uGe => (0, 2 ^ ty.bits, 1)
  | .uGt | .ne => (2 ^ ty.bits, 0, 0)
  | .uDiv => (2 ^ ty.bits, 2, 0)
  | .uRem => (2 ^ ty.bits, 3, 0)
  | .uShr => (2 ^ ty.bits, 1, 0)
  | .shl => (1, 2 ^ ty.bits, 1)
  | .shr => (-2, 2 ^ ty.bits, -2)
  | _ => (2 ^ ty.bits, 0, 1)

/-- The other operators take the upper bits of a narrow operand for part of it. -/
theorem foldBinOp_formDependent {op : BinOp} (hop : op.readsLowBits = false) (hty : ty ≠ .i64) :
    machineOn op ty.bits (upperBits op ty).1 (upperBits op ty).2.1 = some (upperBits op ty).2.2 ∧
      InS 64 (upperBits op ty).1 ∧ InS 64 (upperBits op ty).2.1 ∧
      ¬Agrees op ty.bits (foldBinOp (upperBits op ty).1 op (upperBits op ty).2.1 ty)
        (upperBits op ty).2.2 := by
  cases ty with
  | i8 => cases op <;> first | exact absurd hop (by decide) | decide
  | i16 => cases op <;> first | exact absurd hop (by decide) | decide
  | i32 => cases op <;> first | exact absurd hop (by decide) | decide
  | i64 => exact absurd rfl hty
  | _ => exact absurd h (by decide)

/-- **Exactly which operators fold by width**: those that look at the low bits only, and all of them on
64 bits.  On zero extended operands every operator folds as the machine computes. -/
theorem foldBinOp_foldsByWidth_iff (op : BinOp) :
    (FoldsByWidth op ty ↔ ty = .i64 ∨ op.readsLowBits = true) ∧
      ∀ a b r, InS 64 a → InS 64 b → u64 a = unsigned ty.bits a → u64 b = unsigned ty.bits b →
        machineOn op ty.bits a b = some r → Agrees op ty.bits (foldBinOp a op b ty) r := by
  refine ⟨⟨fun hall => ?_, fun hcond => ?_⟩, fun a b r ha hb hua hub hr =>
    foldBinOp_agrees_of_unsigned h ha hb hua hub hr⟩
  · by_contra hc
    rw [not_or, Bool.not_eq_true] at hc
    obtain ⟨hr, ha, hb, hno⟩ := foldBinOp_formDependent h hc.2 hc.1
    exact hno (hall _ _ _ _ ha ha hb hb rfl rfl _ hr).1
  · have hfold (a b : ℤ) (ha : InS 64 a) (hb : InS 64 b) (r : ℤ)
        (hr : machineOn op ty.bits a b = some r) : Agrees op ty.bits (foldBinOp a op b ty) r := by
      obtain rfl | hlow := hcond
      · exact foldBinOp_agrees_of_unsigned h ha hb rfl rfl hr
      · exact foldBinOp_agrees h hlow hr
    intro a a' b b' ha ha' hb hb' haa hbb r hr
    have h₁ := hfold a b ha hb r hr
    have h₂ := hfold a' b' ha' hb' r (machineOn_congr haa hbb ▸ hr)
    exact ⟨h₁, h₂.trans h₁.symm⟩

end Fold

/-- Bytes are added by width, and `200` is shifted as the machine does. -/
theorem foldBinOp_foldsByWidth_byte :
    FoldsByWidth .add .i8 ∧ Agrees .uShr 8 (foldBinOp 200 .uShr 3 .i8) 25 :=
  ⟨(foldBinOp_foldsByWidth_iff rfl .add).1.2 (.inr rfl),
    (foldBinOp_foldsByWidth_iff (h := (rfl : Datatype.i8.isInt = true)) .uShr).2 200 3 25 (by decide) (by decide) rfl rfl
      (by decide)⟩

/-- Two bytes `100` and `100`, the first from a sum of `200` and `156`, are not the same. -/
theorem foldBinOp_not_foldsByWidth : ¬FoldsByWidth .eq .i8 := by
  intro hall
  have h := (hall 356 100 100 100 (by decide) (by decide) (by decide)
    (by decide) (by decide) (by decide) 1 (by decide)).1
  exact absurd h (by decide)

end OdinSon
