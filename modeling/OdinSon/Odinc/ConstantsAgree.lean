import OdinSon.Odinc.Constants
import OdinSon.Ssa.FoldWidth
import Mathlib.Data.Int.ModEq

/-!
# The checker's literals and the code's values, of integer types

A literal agrees with a value when its low bits are those of the value (`Agree`); it is the value
itself when nothing overflowed on the way to it.  Most operators keep agreement.  Those that look
at the whole literal need the value itself.
-/

namespace OdinSon.Odinc

open MachInt

section Types

variable {p : Prim}

theorem Prim.bits_pos (p : Prim) (h : p.isInteger = true) : 0 < p.bits := by
  cases p <;> first | decide | exact absurd h (by decide)

theorem Prim.bits_le (p : Prim) (h : p.isInteger = true) : p.bits ≤ 64 := by
  cases p <;> first | decide | exact absurd h (by decide)

theorem Prim.isFloat_of_isInteger (h : p.isInteger = true) : p.isFloat = false := by
  cases p <;> first | rfl | exact absurd h (by decide)

theorem Prim.isUnsigned_eq (h : p.isInteger = true) : p.isUnsigned = !p.isSigned := by
  cases p <;> first | rfl | exact absurd h (by decide)

end Types

namespace Constants

section Value

variable {p : Prim}

@[simp] theorem wrap_value (x : ℤ) : wrap p.bits (p.value x) = wrap p.bits x := by
  unfold Prim.value
  split_ifs
  · exact wrap_wrap _ _
  · exact wrap_unsigned _ _

theorem value_congr {x y : ℤ} (h : wrap p.bits x = wrap p.bits y) : p.value x = p.value y := by
  rw [Prim.value, Prim.value, h, unsigned_congr h]

@[simp] theorem value_value (x : ℤ) : p.value (p.value x) = p.value x := value_congr (wrap_value x)

@[simp] theorem value_wrap (x : ℤ) : p.value (wrap p.bits x) = p.value x :=
  value_congr (wrap_wrap _ _)

theorem value_u64 (h : p.isInteger = true) (x : ℤ) : p.value (u64 x) = p.value x :=
  value_congr (by
    rw [u64, ← wrap_wrap_of_le (p.bits_le h), wrap_unsigned, wrap_wrap_of_le (p.bits_le h)])

/-- The values of a signed type. -/
theorem value_mem (h : p.isInteger = true) (hs : p.isSigned = true) {v : ℤ} (hv : p.value v = v) :
    InS p.bits v := by
  rw [← hv, Prim.value, if_pos hs]
  exact wrap_mem (p.bits_pos h) v

theorem value_of_mem (h : p.isInteger = true) (hs : p.isSigned = true) {v : ℤ} (hv : InS p.bits v) :
    p.value v = v := by
  rw [Prim.value, if_pos hs, wrap_eq_self (p.bits_pos h) hv]

/-- The values of an unsigned type. -/
theorem unsigned_of_value (hs : p.isSigned = false) {v : ℤ} (hv : p.value v = v) :
    (unsigned p.bits v : ℤ) = v := by
  rw [Prim.value, hs, if_neg Bool.false_ne_true] at hv
  exact hv

theorem i64_u64 (h : p.isInteger = true) (hs : p.isSigned = true) {v : ℤ} (hv : p.value v = v) :
    i64 (u64 v) = v := by
  rw [i64, u64, wrap_unsigned]
  exact wrap_eq_self (by decide) ((value_mem h hs hv).mono (p.bits_le h))

theorem u64_of_unsigned (h : p.isInteger = true) (hs : p.isSigned = false) {v : ℤ}
    (hv : p.value v = v) : u64 v = unsigned p.bits v := by
  have hu := unsigned_of_value hs hv
  have hlt : unsigned p.bits v < 2 ^ 64 :=
    (unsigned_lt _ _).trans_le (Nat.pow_le_pow_right (by decide) (p.bits_le h))
  have hu64 : ((u64 v : ℕ) : ℤ) = v :=
    unsigned_of_nonneg (hu ▸ Int.natCast_nonneg _) (hu ▸ by exact_mod_cast hlt)
  exact_mod_cast hu64.trans hu.symm

/-- Values are known by their bits. -/
theorem value_inj {x y : ℤ} (hx : p.value x = x) (hy : p.value y = y)
    (h : BitVec.ofInt p.bits x = BitVec.ofInt p.bits y) : x = y := by
  rw [← hx, ← hy]
  refine value_congr ?_
  rw [← ofInt_toInt, h, ofInt_toInt]

end Value

/-! ### Agreement -/

/-- The literal has the value's low bits. -/
structure Agree (p : Prim) (n : ℕ) (v : ℤ) : Prop where
  lt : n < 2 ^ 64
  value : p.value n = v

section Agree

variable {p : Prim} {n : ℕ} {v : ℤ}

theorem Agree.self (h : Agree p n v) : p.value v = v := by rw [← h.value, value_value]

theorem Agree.wrap (h : Agree p n v) : wrap p.bits n = wrap p.bits v := by
  rw [← h.value, wrap_value]

theorem Agree.ofInt (h : Agree p n v) : BitVec.ofInt p.bits v = BitVec.ofNat p.bits n := by
  rw [← BitVec.ofInt_natCast, ← ofInt_wrap, ← h.wrap, ofInt_wrap]

/-- The value itself. -/
theorem agree_u64 (hp : p.isInteger = true) (hv : p.value v = v) : Agree p (u64 v) v :=
  ⟨unsigned_lt 64 v, by rw [value_u64 hp, hv]⟩

/-- In 64 bits, agreement is equality. -/
theorem Agree.eq_of_bits (h : Agree p n v) (hp : p.bits = 64) : n = u64 v := by
  have hwrap := h.wrap
  rw [hp] at hwrap
  rw [u64, ← unsigned_congr hwrap]
  exact (u64_i64 h.lt).symm.trans (unsigned_wrap le_rfl _)

end Agree

/-! ### Operators that look at low bits -/

section Binary

variable {p : Prim} {l r : ℕ} {a b : ℤ}

theorem wrap_eq_iff_modEq {w : ℕ} {x y : ℤ} : wrap w x = wrap w y ↔ x ≡ y [ZMOD 2 ^ w] := by
  rw [wrap_eq_wrap_iff, Int.modEq_comm, Int.modEq_iff_dvd]

/-- Sums, differences and products. -/
theorem agree_arith {f : ℤ → ℤ → ℤ}
    (hf : ∀ {m x x' y y' : ℤ}, x ≡ x' [ZMOD m] → y ≡ y' [ZMOD m] → f x y ≡ f x' y' [ZMOD m])
    (hp : p.isInteger = true) (hl : Agree p l a) (hr : Agree p r b) :
    Agree p (u64 (f l r)) (p.value (wrap p.bits (f a b))) ∧
      (l = u64 a → r = u64 b → p.value (f a b) = f a b →
        u64 (f l r) = u64 (p.value (wrap p.bits (f a b)))) := by
  refine ⟨⟨unsigned_lt 64 _, ?_⟩, fun hla hrb hfits => ?_⟩
  · rw [value_u64 hp, value_wrap]
    exact value_congr (wrap_eq_iff_modEq.2 (hf (wrap_eq_iff_modEq.1 hl.wrap)
      (wrap_eq_iff_modEq.1 hr.wrap)))
  · rw [value_wrap, hfits, hla, hrb]
    have hmod (x : ℤ) : (u64 x : ℤ) ≡ x [ZMOD 2 ^ 64] := wrap_eq_iff_modEq.1 (wrap_unsigned 64 x)
    exact unsigned_congr (wrap_eq_iff_modEq.2 (hf (hmod a) (hmod b)))

/-! A literal that is the value itself has the bits of the register, extended by the type. -/

theorem u64_toInt {w : ℕ} (x : BitVec w) : u64 x.toInt = (x.signExtend 64).toNat := by
  rw [u64, ← ofInt_toNat]
  rfl

theorem value_toInt_signed (hp : p.isInteger = true) (hs : p.isSigned = true) (x : BitVec p.bits) :
    u64 (p.value x.toInt) = (x.signExtend 64).toNat := by
  rw [value_of_mem hp hs (toInt_mem (p.bits_pos hp) x), u64_toInt]

theorem value_toInt_unsigned (hp : p.isInteger = true) (hs : p.isSigned = false)
    (x : BitVec p.bits) : u64 (p.value x.toInt) = x.toNat := by
  rw [u64_of_unsigned hp hs (value_value _), ← unsigned_wrap le_rfl, wrap_value,
    unsigned_wrap le_rfl, ← ofInt_toNat, BitVec.ofInt_toInt]

theorem value_ofInt (ha : p.value a = a) : p.value (BitVec.ofInt p.bits a).toInt = a := by
  rw [ofInt_toInt, value_wrap, ha]

/-- An operator on bits, on literals and on registers. -/
structure Bitwise (f : ℕ → ℕ → ℕ) (g : ∀ w : ℕ, BitVec w → BitVec w → BitVec w) : Prop where
  toNat : ∀ {w : ℕ} (x y : BitVec w), (g w x y).toNat = f x.toNat y.toNat
  signExtend : ∀ {w : ℕ} (x y : BitVec w), 0 < w →
    (g w x y).signExtend 64 = g 64 (x.signExtend 64) (y.signExtend 64)
  ofNat : ∀ {w : ℕ} (m n : ℕ), BitVec.ofNat w (f m n) = g w (BitVec.ofNat w m) (BitVec.ofNat w n)

theorem bitwise_and : Bitwise (· &&& ·) fun _ x y => x &&& y where
  toNat x y := BitVec.toNat_and x y
  signExtend _ _ _ := BitVec.signExtend_and
  ofNat _ _ := BitVec.ofNat_and

theorem bitwise_or : Bitwise (· ||| ·) fun _ x y => x ||| y where
  toNat x y := BitVec.toNat_or x y
  signExtend _ _ _ := BitVec.signExtend_or
  ofNat _ _ := BitVec.ofNat_or

theorem bitwise_xor : Bitwise (· ^^^ ·) fun _ x y => x ^^^ y where
  toNat x y := BitVec.toNat_xor x y
  signExtend _ _ _ := BitVec.signExtend_xor
  ofNat _ _ := BitVec.ofNat_xor

theorem bitwise_andNot : Bitwise andNot fun _ x y => x &&& ~~~y where
  toNat x y := toNat_and_not x y
  signExtend x y h := by rw [BitVec.signExtend_and, BitVec.signExtend_not h]
  ofNat m n := by
    refine BitVec.eq_of_toNat_eq ?_
    rw [toNat_and_not, BitVec.toNat_ofNat, BitVec.toNat_ofNat, BitVec.toNat_ofNat, andNot_mod]

theorem agree_bitwise {f : ℕ → ℕ → ℕ} {g : ∀ w : ℕ, BitVec w → BitVec w → BitVec w}
    (hf : Bitwise f g) (hp : p.isInteger = true) (hl : Agree p l a) (hr : Agree p r b) :
    Agree p (f l r) (p.value (g p.bits (BitVec.ofInt p.bits a) (BitVec.ofInt p.bits b)).toInt) ∧
      (l = u64 a → r = u64 b → f l r =
        u64 (p.value (g p.bits (BitVec.ofInt p.bits a) (BitVec.ofInt p.bits b)).toInt)) := by
  refine ⟨⟨?_, ?_⟩, fun hla hrb => ?_⟩
  · have h64 := (g 64 (BitVec.ofNat 64 l) (BitVec.ofNat 64 r)).isLt
    rw [hf.toNat, BitVec.toNat_ofNat, BitVec.toNat_ofNat, Nat.mod_eq_of_lt hl.lt,
      Nat.mod_eq_of_lt hr.lt] at h64
    exact h64
  · refine value_congr ?_
    rw [hl.ofInt, hr.ofInt, ← hf.ofNat, ← BitVec.ofInt_natCast, ofInt_toInt, wrap_wrap]
  · rw [hla, hrb]
    -- the literals are the extended registers
    cases hs : p.isSigned with
    | true =>
      have hext {v : ℤ} (hv : p.value v = v) :
          u64 v = ((BitVec.ofInt p.bits v).signExtend 64).toNat := by
        rw [← value_toInt_signed hp hs, value_ofInt hv]
      rw [value_toInt_signed hp hs, hf.signExtend _ _ (p.bits_pos hp), hf.toNat, ← hext hl.self,
        ← hext hr.self]
    | false =>
      have hext {v : ℤ} (hv : p.value v = v) : u64 v = (BitVec.ofInt p.bits v).toNat := by
        rw [← value_toInt_unsigned hp hs, value_ofInt hv]
      rw [value_toInt_unsigned hp hs, hf.toNat, ← hext hl.self, ← hext hr.self]

/-! ### Operators that look at the whole literal -/

/-- What the machine computes for a signed type is one of its values. -/
theorem value_machine {kind : BinOp} {x : ℤ} (hp : p.isInteger = true) (hs : p.isSigned = true)
    (hkind : kind = .div ∨ kind = .rem) (hx : machine kind p.bits a b = some x) :
    p.value x = x := by
  refine value_of_mem hp hs ?_
  obtain rfl | rfl := hkind
  · simp only [machine] at hx
    split_ifs at hx
    rw [← Option.some.inj hx]
    exact toInt_mem (p.bits_pos hp) _
  · simp only [machine] at hx
    split_ifs at hx
    rw [← Option.some.inj hx]
    exact toInt_mem (p.bits_pos hp) _

/-- Division, of values. -/
theorem agree_divide {op : BinTok} (hop : op = .quo ∨ op = .mod) {kind : BinOp} {n : ℕ} {x : ℤ}
    (hp : p.isInteger = true) (ha : p.value a = a) (hb : p.value b = b)
    (hkind : op.toBinop p = some kind) (hx : machine kind p.bits a b = some x)
    (hn : constantDivide op p (u64 a) (u64 b) = some n) : n = u64 (p.value x) := by
  have hpos := p.bits_pos hp
  unfold constantDivide at hn
  cases hs : p.isSigned with
  | true =>
    have hu : p.isUnsigned = false := by rw [p.isUnsigned_eq hp, hs]; rfl
    have hma := value_mem hp hs ha
    have hmb := value_mem hp hs hb
    simp only [hs, if_true, i64_u64 hp hs ha, i64_u64 hp hs hb] at hn
    obtain rfl | rfl := hop
    · obtain rfl : kind = .div := by simpa [BinTok.toBinop, hu] using hkind.symm
      rw [value_machine hp hs (.inl rfl) hx]
      rw [machine_div hpos hma hmb] at hx
      simp only [if_true] at hn
      split_ifs at hx hn
      rw [← Option.some.inj hn, ← Option.some.inj hx]
    · obtain rfl : kind = .rem := by simpa [BinTok.toBinop, hu] using hkind.symm
      rw [value_machine hp hs (.inr rfl) hx]
      rw [machine_rem hpos hma hmb] at hx
      have hneg (y : ℤ) : y.tmod (-1) = 0 := by rw [Int.tmod_neg, Int.tmod_one]
      simp only [reduceCtorEq, false_and, if_false] at hn
      split_ifs at hx hn with h0 hx0 hmin
      · rw [← Option.some.inj hn, ← Option.some.inj hx, hmin.2, hneg]
        rfl
      · rw [← Option.some.inj hn, ← Option.some.inj hx]
  | false =>
    have hu : p.isUnsigned = true := by rw [p.isUnsigned_eq hp, hs]; rfl
    have hua := u64_of_unsigned hp hs ha
    have hub := u64_of_unsigned hp hs hb
    simp only [hs, Bool.false_eq_true, if_false] at hn
    rw [hua, hub] at hn
    obtain rfl | rfl := hop
    · obtain rfl : kind = .uDiv := by simpa [BinTok.toBinop, hu] using hkind.symm
      simp only [machine] at hx
      simp only [if_true] at hn
      split_ifs at hx hn
      rw [← Option.some.inj hx, value_toInt_unsigned hp hs, BitVec.toNat_udiv, ofInt_toNat,
        ofInt_toNat, Option.some.inj hn]
    · obtain rfl : kind = .uRem := by simpa [BinTok.toBinop, hu] using hkind.symm
      simp only [machine] at hx
      simp only [reduceCtorEq, if_false] at hn
      split_ifs at hx hn
      rw [← Option.some.inj hx, value_toInt_unsigned hp hs, BitVec.toNat_umod, ofInt_toNat,
        ofInt_toNat, Option.some.inj hn]

theorem boolToInt_eq {c : Bool} {x : ℤ} (h : some (boolToInt c) = some x) : x = c.toNat := by
  rw [← Option.some.inj h]
  cases c <;> rfl

/-- Comparisons, of values. -/
theorem agree_compare {op : BinTok} (hop : op.isComparison = true) {kind : BinOp} {x : ℤ}
    (hp : p.isInteger = true) (ha : p.value a = a) (hb : p.value b = b)
    (hkind : op.toBinop p = some kind) (hx : machine kind p.bits a b = some x) :
    x = if p.isUnsigned then (constantCompare (u64 a) (u64 b) op).toNat
      else (constantCompare (i64 (u64 a)) (i64 (u64 b)) op).toNat := by
  have hpos := p.bits_pos hp
  have hbits : BitVec.ofInt p.bits a = BitVec.ofInt p.bits b ↔ a = b :=
    ⟨value_inj ha hb, fun h => by rw [h]⟩
  cases hs : p.isSigned with
  | true =>
    have hu : p.isUnsigned = false := by rw [p.isUnsigned_eq hp, hs]; rfl
    have hma := value_mem hp hs ha
    have hmb := value_mem hp hs hb
    rw [hu, if_neg Bool.false_ne_true, i64_u64 hp hs ha, i64_u64 hp hs hb]
    cases op <;> first | exact absurd hop (by decide) | skip
    all_goals
      simp only [BinTok.toBinop, hu, Bool.false_eq_true, if_false, Option.some.injEq] at hkind
      subst hkind
    case eq => rw [machine_eq hpos hma hmb] at hx; exact boolToInt_eq hx
    case ne => rw [machine_ne hpos hma hmb] at hx; exact boolToInt_eq hx
    case lt => rw [machine_lt hpos hma hmb] at hx; exact boolToInt_eq hx
    case le => rw [machine_le hpos hma hmb] at hx; exact boolToInt_eq hx
    case gt => rw [machine_gt hpos hma hmb] at hx; exact boolToInt_eq hx
    case ge => rw [machine_ge hpos hma hmb] at hx; exact boolToInt_eq hx
  | false =>
    have hu : p.isUnsigned = true := by rw [p.isUnsigned_eq hp, hs]; rfl
    have hua := u64_of_unsigned hp hs ha
    have hub := u64_of_unsigned hp hs hb
    rw [hu, if_pos rfl, hua, hub]
    cases op <;> first | exact absurd hop (by decide) | skip
    all_goals
      simp only [BinTok.toBinop, hu, if_true, Option.some.injEq] at hkind
      subst hkind
    case eq =>
      simp only [machine, hbits] at hx
      rw [boolToInt_eq hx, constantCompare, unsigned_of_value hs ha, unsigned_of_value hs hb]
    case ne =>
      simp only [machine, ne_eq, hbits] at hx
      rw [boolToInt_eq hx, constantCompare, unsigned_of_value hs ha, unsigned_of_value hs hb]
    case lt => rw [machine_uLt] at hx; simpa [constantCompare] using boolToInt_eq hx
    case le => rw [machine_uLe] at hx; simpa [constantCompare] using boolToInt_eq hx
    case gt => rw [machine_uGt] at hx; simpa [constantCompare] using boolToInt_eq hx
    case ge => rw [machine_uGe] at hx; simpa [constantCompare] using boolToInt_eq hx

/-! ### Shifts -/

/-- A count that the checker accepts. -/
theorem count_eq {q : Prim} (hq : q.isInteger = true) (hb : q.value b = b)
    (hcount : ¬(q.isSigned = true ∧ i64 (u64 b) < 0)) :
    (unsigned q.bits b : ℤ) = b ∧ (u64 b : ℤ) = b := by
  cases hs : q.isSigned with
  | true =>
    have hmem := value_mem hq hs hb
    rw [i64_u64 hq hs hb] at hcount
    have hnonneg : 0 ≤ b := not_lt.1 fun hc => hcount ⟨hs, hc⟩
    have hpow : (2 : ℤ) ^ (q.bits - 1) ≤ 2 ^ q.bits := pow_le_pow_right₀ (by norm_num) (by omega)
    have h64 : (2 : ℤ) ^ q.bits ≤ 2 ^ 64 := pow_le_pow_right₀ (by norm_num) (q.bits_le hq)
    exact ⟨unsigned_of_nonneg hnonneg (hmem.2.trans_le hpow),
      unsigned_of_nonneg hnonneg ((hmem.2.trans_le hpow).trans_le h64)⟩
  | false =>
    rw [u64_of_unsigned hq hs hb]
    exact ⟨unsigned_of_value hs hb, unsigned_of_value hs hb⟩

theorem modEq_zero_of_le {w k : ℕ} (h : w ≤ k) (x : ℤ) : x * 2 ^ k ≡ 0 [ZMOD 2 ^ w] :=
  (Int.modEq_zero_iff_dvd).2 ((pow_dvd_pow 2 h).trans (dvd_mul_left _ _))

/-- Left shifts look at the low bits of the left operand. -/
theorem agree_shl {k : ℕ} (hp : p.isInteger = true) (hl : Agree p l a) {x : ℤ}
    (hx : machine .shl p.bits a k = some x) :
    Agree p (if k < 64 then (l <<< k) % 2 ^ 64 else 0) (p.value x) ∧
      (l = u64 a → p.value (a * 2 ^ min k 64) = a * 2 ^ min k 64 →
        (if k < 64 then (l <<< k) % 2 ^ 64 else 0) = u64 (p.value x)) := by
  have hlit : (if k < 64 then (l <<< k) % 2 ^ 64 else 0) = u64 ((l : ℤ) * 2 ^ min k 64) := by
    split_ifs with hk
    · rw [min_eq_left hk.le, u64, Nat.shiftLeft_eq]
      have hcast : ((l * 2 ^ k % 2 ^ 64 : ℕ) : ℤ) = (unsigned 64 ((l : ℤ) * 2 ^ k) : ℤ) := by
        rw [unsigned_cast]
        push_cast
        rfl
      exact_mod_cast hcast
    · rw [min_eq_right (not_lt.1 hk)]
      have hzero : unsigned 64 ((l : ℤ) * 2 ^ 64) = unsigned 64 0 :=
        unsigned_congr (wrap_eq_iff_modEq.2 (modEq_zero_of_le le_rfl _))
      exact hzero.symm
  have hval : p.value x = p.value (wrap p.bits (a * 2 ^ min k 64)) := by
    rw [machine_shl] at hx
    rw [← Option.some.inj hx, value_wrap]
    have hle := p.bits_le hp
    split_ifs with hk
    · rw [value_wrap, Int.toNat_natCast, min_eq_left (by omega)]
    · exact value_congr (wrap_eq_iff_modEq.2 (modEq_zero_of_le (by omega) _).symm)
  rw [hlit, hval]
  obtain ⟨hagree, hexact⟩ := agree_arith (f := fun x _ => x * 2 ^ min k 64)
    (fun hx _ => hx.mul_right _) hp hl hl
  exact ⟨hagree, fun hla hfits => hexact hla hla hfits⟩

/-- Shifting a value by its width or more leaves the sign. -/
theorem ediv_of_mem {w k : ℕ} (ha : InS w a) (hk : w - 1 ≤ k) :
    a / 2 ^ k = if a < 0 then -1 else 0 := by
  have hpow : (2 : ℤ) ^ (w - 1) ≤ 2 ^ k := pow_le_pow_right₀ (by norm_num) hk
  have hpos : (0 : ℤ) < 2 ^ k := by positivity
  split_ifs with h
  · have hlt := Int.ediv_neg_of_neg_of_pos h hpos
    have hle : -1 ≤ a / 2 ^ k := (Int.le_ediv_iff_mul_le hpos).2 (by linarith [ha.1])
    omega
  · exact Int.ediv_eq_zero_of_lt (not_lt.1 h) (ha.2.trans_le hpow)

/-- Right shifts of values. -/
theorem agree_shr {k : ℕ} {kind : BinOp} {x : ℤ} (hp : p.isInteger = true) (ha : p.value a = a)
    (hkind : BinTok.shr.toBinop p = some kind) (hx : machine kind p.bits a k = some x) :
    (if p.isSigned then
        u64 (if k < 64 then shr64 (i64 (u64 a)) k else if i64 (u64 a) < 0 then -1 else 0)
      else if k < 64 then u64 a >>> k else 0) = u64 (p.value x) := by
  have hpos := p.bits_pos hp
  have hle := p.bits_le hp
  cases hs : p.isSigned with
  | true =>
    have hu : p.isUnsigned = false := by rw [p.isUnsigned_eq hp, hs]; rfl
    obtain rfl : kind = .shr := by simpa [BinTok.toBinop, hu] using hkind.symm
    have hma := value_mem hp hs ha
    have hval : p.value x = x := by
      refine value_of_mem hp hs ?_
      rw [← Option.some.inj hx]
      exact toInt_mem hpos _
    rw [machine_shr hpos hma] at hx
    rw [if_pos rfl, hval, ← Option.some.inj hx, i64_u64 hp hs ha, shr64]
    congr 1
    by_cases hk : 0 ≤ (k : ℤ) ∧ (k : ℤ) < p.bits
    · rw [if_pos hk, if_pos (by omega), Int.toNat_natCast]
    · have hsign := ediv_of_mem hma (show p.bits - 1 ≤ k by omega)
      rw [if_neg hk, ediv_of_mem hma le_rfl, hsign, ite_self]
  | false =>
    have hu : p.isUnsigned = true := by rw [p.isUnsigned_eq hp, hs]; rfl
    obtain rfl : kind = .uShr := by simpa [BinTok.toBinop, hu] using hkind.symm
    have hlt := unsigned_lt p.bits a
    rw [if_neg Bool.false_ne_true, u64_of_unsigned hp hs ha]
    simp only [machine] at hx
    rw [← Option.some.inj hx]
    by_cases hk : 0 ≤ (k : ℤ) ∧ (k : ℤ) < p.bits
    · rw [if_pos hk, if_pos (by omega), value_toInt_unsigned hp hs, BitVec.toNat_ushiftRight,
        ofInt_toNat, Int.toNat_natCast]
    · have hzero : unsigned p.bits a >>> k = 0 := by
        rw [Nat.shiftRight_eq_div_pow]
        exact Nat.div_eq_of_lt (hlt.trans_le (Nat.pow_le_pow_right (by decide) (by omega)))
      have hval : u64 (p.value 0) = 0 := by
        rw [Prim.value, hs, if_neg Bool.false_ne_true]
        rfl
      rw [if_neg hk, hzero, hval, ite_self]

end Binary

/-! ### Unary operators and conversions -/

section Unary

variable {p : Prim} {l : ℕ} {a : ℤ}

theorem ofNat_complement {w : ℕ} (hw : w ≤ 64) (n : ℕ) :
    BitVec.ofNat w (n ^^^ (2 ^ 64 - 1)) = ~~~BitVec.ofNat w n := by
  have hones : BitVec.ofNat w (2 ^ 64 - 1) = BitVec.allOnes w := by
    refine BitVec.eq_of_getLsbD_eq fun i hi => ?_
    rw [BitVec.getLsbD_ofNat, BitVec.getLsbD_allOnes, Nat.testBit_two_pow_sub_one]
    simp [hi, hi.trans_le hw]
  rw [BitVec.ofNat_xor, hones, BitVec.xor_allOnes]

/-- The complement. -/
theorem agree_complement {n : ℕ} (hp : p.isInteger = true) (hl : Agree p l a)
    (hn : constantUnaryInteger .xor p l = some n) :
    Agree p n (p.value (~~~BitVec.ofInt p.bits a).toInt) ∧
      (l = u64 a → n = u64 (p.value (~~~BitVec.ofInt p.bits a).toInt)) := by
  have hle := p.bits_le hp
  have hlt : l ^^^ (2 ^ 64 - 1) < 2 ^ 64 := Nat.xor_lt_two_pow hl.lt (by decide)
  have hbits : (BitVec.ofNat p.bits (l ^^^ (2 ^ 64 - 1))).toInt =
      (~~~BitVec.ofInt p.bits a).toInt := by
    rw [ofNat_complement hle, hl.ofInt]
  have hwrap : p.value (l ^^^ (2 ^ 64 - 1) : ℕ) = p.value (~~~BitVec.ofInt p.bits a).toInt := by
    rw [← hbits, ← BitVec.ofInt_natCast, ofInt_toInt, value_wrap]
  simp only [constantUnaryInteger] at hn
  split_ifs at hn with hmask
  · -- an unsigned type keeps its own bits
    have hs : p.isSigned = false := by
      have := p.isUnsigned_eq hp
      rw [hmask.1] at this
      simpa using this.symm
    have hnat : n = (~~~BitVec.ofInt p.bits a).toNat := by
      rw [← Option.some.inj hn, and_mask, hl.ofInt, ← ofNat_complement hle, BitVec.toNat_ofNat]
      rfl
    have hself : n = u64 (p.value (~~~BitVec.ofInt p.bits a).toInt) := by
      rw [value_toInt_unsigned hp hs, hnat]
    refine ⟨?_, fun _ => hself⟩
    rw [hself]
    exact agree_u64 hp (value_value _)
  · obtain rfl := Option.some.inj hn
    refine ⟨⟨hlt, hwrap⟩, fun hla => ?_⟩
    cases hs : p.isSigned with
    | true =>
      have hext : l = ((BitVec.ofInt p.bits a).signExtend 64).toNat := by
        rw [← value_toInt_signed hp hs, value_ofInt hl.self, hla]
      have h64 : l ^^^ (2 ^ 64 - 1) = (~~~BitVec.ofNat 64 l).toNat := by
        rw [← ofNat_complement le_rfl, BitVec.toNat_ofNat, Nat.mod_eq_of_lt hlt]
      rw [value_toInt_signed hp hs, BitVec.signExtend_not (p.bits_pos hp), h64, hext,
        BitVec.ofNat_toNat, BitVec.setWidth_eq]
    | false =>
      have hu : p.isUnsigned = true := by rw [p.isUnsigned_eq hp, hs]; rfl
      refine Agree.eq_of_bits ⟨hlt, hwrap⟩ ?_
      have hsize : ¬p.size < 8 := fun hc => hmask ⟨hu, hc⟩
      have hdef : p.bits = p.size * 8 := rfl
      omega

/-- Negation, of a signed type. -/
theorem agree_neg {n : ℕ} (hp : p.isInteger = true) (hl : Agree p l a)
    (hn : constantUnaryInteger .sub p l = some n) :
    Agree p n (p.value (-BitVec.ofInt p.bits a).toInt) ∧
      (l = u64 a → p.value (-a) = -a → n = u64 (p.value (-BitVec.ofInt p.bits a).toInt)) := by
  simp only [constantUnaryInteger] at hn
  split_ifs at hn with hu
  have hs : p.isSigned = true := by
    have := p.isUnsigned_eq hp
    rw [Bool.eq_false_iff.2 hu] at this
    simpa using this.symm
  have hneg : (-BitVec.ofInt p.bits a).toInt = wrap p.bits (-a) := by
    rw [← BitVec.ofInt_neg, ofInt_toInt]
  have hmod : wrap p.bits (i64 l * -1) = wrap p.bits (-a) := by
    have ha : i64 l ≡ a [ZMOD 2 ^ p.bits] :=
      wrap_eq_iff_modEq.1 ((wrap_i64 (p.bits_le hp) l).trans hl.wrap)
    rw [mul_neg_one]
    exact wrap_eq_iff_modEq.2 ha.neg
  rw [← Option.some.inj hn, hneg, value_wrap]
  refine ⟨⟨unsigned_lt 64 _, ?_⟩, fun hla hfits => ?_⟩
  · rw [value_u64 hp, value_congr hmod]
  · rw [hfits, hla, i64_u64 hp hs hl.self, mul_neg_one]

/-- The code extends a wider register from the source's. -/
theorem emitInteger_eq {q : Prim} (hq : q.isInteger = true) (ha : q.value a = a)
    (hbool : p ≠ .bool) : emitInteger p q a = some a := by
  unfold emitInteger
  rw [if_neg hbool]
  split_ifs with hdt hs
  · rfl
  · rw [wrap_eq_self (q.bits_pos hq) (value_mem hq hs ha)]
  · rw [unsigned_of_value (Bool.eq_false_iff.2 hs) ha]

/-- Conversions keep the literal. -/
theorem agree_convert {q : Prim} {x : ℤ} (hp : p.isInteger = true) (hq : q.isInteger = true)
    (hl : Agree q l a) (hbool : p ≠ .bool) (hwide : p.bits ≤ q.bits ∨ l = u64 a)
    (hx : emitInteger p q a = some x) :
    Agree p l (p.value x) ∧ (l = u64 a → p.value a = a → l = u64 (p.value x)) := by
  obtain rfl : a = x := Option.some.inj ((emitInteger_eq hq hl.self hbool).symm.trans hx)
  refine ⟨⟨hl.lt, ?_⟩, fun hla hfits => by rw [hfits, hla]⟩
  obtain hle | hla := hwide
  · refine value_congr ?_
    rw [← wrap_wrap_of_le hle, hl.wrap, wrap_wrap_of_le hle]
  · rw [hla, value_u64 hp]

end Unary

/-! ### Expressions -/

/-- The result of a binary operator: of a comparison a `bool`. -/
def resultType (op : BinTok) (p : Prim) : Prim := if op.isComparison then .bool else p

section Operator

variable {op : BinTok} {kind : BinOp} {p q : Prim} {l r n : ℕ} {a b x : ℤ}

theorem u64_natCast {m : ℕ} (h : m < 2 ^ 64) : u64 (m : ℤ) = m := by
  rw [u64, ← unsigned_wrap le_rfl]
  exact u64_i64 h

/-- A truth value is itself in eight bits. -/
theorem agree_bool (c : Bool) :
    Agree .bool c.toNat (c.toNat : ℤ) ∧ c.toNat = u64 (c.toNat : ℤ) := by
  cases c with
  | false => exact ⟨⟨by decide, by decide⟩, by decide⟩
  | true => exact ⟨⟨by decide, by decide⟩, by decide⟩

theorem agree_comparison (hop : op.isComparison = true) (hp : p.isInteger = true)
    (ha : p.value a = a) (hb : p.value b = b) (hkind : op.toBinop p = some kind)
    (hx : machine kind p.bits a b = some x)
    (hn : constantInteger op p q (u64 a) (u64 b) = some n) :
    Agree .bool n (Prim.bool.value x) ∧ n = u64 (Prim.bool.value x) := by
  have hcmp := agree_compare hop hp ha hb hkind hx
  obtain ⟨c, rfl, rfl⟩ : ∃ c : Bool, n = c.toNat ∧ x = c.toNat := by
    rw [hcmp]
    cases op <;> first | exact absurd hop (by decide) | skip
    all_goals
      rw [← Option.some.inj hn]
      split_ifs
      · exact ⟨_, rfl, rfl⟩
      · exact ⟨_, rfl, rfl⟩
  obtain ⟨hagree, hself⟩ := agree_bool c
  rw [hagree.self]
  exact ⟨hagree, hself⟩

/-- A shift, by a count that is the value itself. -/
theorem agree_shift (hop : op.isShift = true) (hp : p.isInteger = true) (hq : q.isInteger = true)
    (hl : Agree p l a) (hb : q.value b = b) (hleft : op.readsLeft = true → l = u64 a)
    (hrb : r = u64 b) (hkind : op.toBinop p = some kind)
    (hx : machine kind p.bits a (unsigned q.bits b) = some x)
    (hn : constantInteger op p q l r = some n) :
    Agree p n (p.value x) ∧
      (l = u64 a ∧ r = u64 b ∧ (op.exact a b).all (fun v => p.value v = v) = true →
        n = u64 (p.value x)) := by
  subst hrb
  have hshift : constantInteger op p q l (u64 b) = constantShift op p q l (u64 b) := by
    cases op <;> first | rfl | exact absurd hop (by decide)
  rw [hshift, constantShift] at hn
  have hcount : ¬(q.isSigned = true ∧ i64 (u64 b) < 0) := by
    intro hc
    rw [if_pos hc] at hn
    cases hn
  obtain ⟨hcount₁, hcount₂⟩ := count_eq hq hb hcount
  rw [if_neg hcount] at hn
  rw [hcount₁, ← hcount₂] at hx
  have hnat : b.toNat = u64 b := by
    rw [← hcount₂, Int.toNat_natCast, hcount₂]
  cases op with
  | shl =>
    obtain rfl := Option.some.inj hkind
    rw [if_pos rfl] at hn
    obtain ⟨hagree, hexact⟩ := agree_shl hp hl hx
    rw [Option.some.inj hn] at hagree hexact
    refine ⟨hagree, fun ⟨hla, _, hfits⟩ => hexact hla ?_⟩
    rw [← hnat]
    exact of_decide_eq_true hfits
  | shr =>
    have heq := agree_shr hp hl.self hkind hx
    rw [← hleft rfl] at heq
    have hres : n = u64 (p.value x) := by
      rw [← heq]
      refine Option.some.inj (hn.symm.trans ?_)
      rw [if_neg (by decide)]
      cases p.isSigned with
      | true => rfl
      | false => rfl
    rw [hres]
    exact ⟨agree_u64 hp (value_value _), fun _ => rfl⟩
  | _ => cases hop

/-- **One binary operator.** -/
theorem agree_binary (hp : p.isInteger = true) (hq : q.isInteger = true)
    (hty : op.isShift = true ∨ p = q) (hl : Agree p l a) (hr : Agree q r b)
    (hleft : op.readsLeft = true → l = u64 a) (hright : op.readsRight = true → r = u64 b)
    (hkind : op.toBinop p = some kind)
    (hx : machine kind p.bits a (if op.isShift then unsigned q.bits b else b) = some x)
    (hn : constantInteger op p q l r = some n) :
    Agree (resultType op p) n ((resultType op p).value x) ∧
      (op.isComparison = true ∨
          l = u64 a ∧ r = u64 b ∧ (op.exact a b).all (fun v => p.value v = v) = true →
        n = u64 ((resultType op p).value x)) := by
  cases hcmp : op.isComparison with
  | true =>
    -- a comparison sees both constants whole
    have hread : op.readsLeft = true ∧ op.readsRight = true ∧ op.isShift = false := by
      cases op <;> first | exact absurd hcmp (by decide) | decide
    obtain ⟨hrl, hrr, hshift⟩ := hread
    obtain rfl : p = q := hty.resolve_left (by rw [hshift]; exact Bool.false_ne_true)
    rw [hshift, if_neg Bool.false_ne_true] at hx
    rw [hleft hrl, hright hrr] at hn
    have h := agree_comparison hcmp hp hl.self hr.self hkind hx hn
    rw [resultType, hcmp, if_pos rfl]
    exact ⟨h.1, fun _ => h.2⟩
  | false =>
    rw [resultType, hcmp, if_neg Bool.false_ne_true]
    simp only [Bool.false_eq_true, false_or]
    cases hshift : op.isShift with
    | true =>
      rw [hshift, if_pos rfl] at hx
      -- the count of a shift is read whole
      have hrb : r = u64 b := hright (by cases op <;> first | exact absurd hshift (by decide) | rfl)
      exact agree_shift hshift hp hq hl hr.self hleft hrb hkind hx hn
    | false =>
      obtain rfl : p = q := hty.resolve_left (by rw [hshift]; exact Bool.false_ne_true)
      rw [hshift, if_neg Bool.false_ne_true] at hx
      cases op with
      | add =>
        obtain rfl := Option.some.inj hkind
        rw [machine_add] at hx
        rw [← Option.some.inj hn, ← Option.some.inj hx]
        obtain ⟨hagree, hexact⟩ := agree_arith (f := (· + ·)) (fun h h' => h.add h') hp hl hr
        exact ⟨hagree, fun ⟨hla, hrb, hfits⟩ => hexact hla hrb (of_decide_eq_true hfits)⟩
      | sub =>
        obtain rfl := Option.some.inj hkind
        rw [machine_sub] at hx
        rw [← Option.some.inj hn, ← Option.some.inj hx]
        obtain ⟨hagree, hexact⟩ := agree_arith (f := (· - ·)) (fun h h' => h.sub h') hp hl hr
        exact ⟨hagree, fun ⟨hla, hrb, hfits⟩ => hexact hla hrb (of_decide_eq_true hfits)⟩
      | mul =>
        obtain rfl := Option.some.inj hkind
        rw [machine_mul] at hx
        rw [← Option.some.inj hn, ← Option.some.inj hx]
        obtain ⟨hagree, hexact⟩ := agree_arith (f := (· * ·)) (fun h h' => h.mul h') hp hl hr
        exact ⟨hagree, fun ⟨hla, hrb, hfits⟩ => hexact hla hrb (of_decide_eq_true hfits)⟩
      | and =>
        obtain rfl := Option.some.inj hkind
        rw [← Option.some.inj hn, ← Option.some.inj hx]
        obtain ⟨hagree, hexact⟩ := agree_bitwise bitwise_and hp hl hr
        exact ⟨hagree, fun ⟨hla, hrb, _⟩ => hexact hla hrb⟩
      | or =>
        obtain rfl := Option.some.inj hkind
        rw [← Option.some.inj hn, ← Option.some.inj hx]
        obtain ⟨hagree, hexact⟩ := agree_bitwise bitwise_or hp hl hr
        exact ⟨hagree, fun ⟨hla, hrb, _⟩ => hexact hla hrb⟩
      | xor =>
        obtain rfl := Option.some.inj hkind
        rw [← Option.some.inj hn, ← Option.some.inj hx]
        obtain ⟨hagree, hexact⟩ := agree_bitwise bitwise_xor hp hl hr
        exact ⟨hagree, fun ⟨hla, hrb, _⟩ => hexact hla hrb⟩
      | andNot =>
        obtain rfl := Option.some.inj hkind
        rw [← Option.some.inj hn, ← Option.some.inj hx]
        obtain ⟨hagree, hexact⟩ := agree_bitwise bitwise_andNot hp hl hr
        exact ⟨hagree, fun ⟨hla, hrb, _⟩ => hexact hla hrb⟩
      | quo | mod =>
        rw [hleft rfl, hright rfl] at hn
        have heq := agree_divide (by decide) hp hl.self hr.self hkind hx hn
        rw [heq]
        exact ⟨agree_u64 hp (value_value _), fun _ => rfl⟩
      | modMod => cases hkind
      | shl | shr => exact absurd hshift (by decide)
      | eq | ne | lt | le | gt | ge => exact absurd hcmp (by decide)

theorem ofInt_eq_zero (hp : p.isInteger = true) (ha : p.value a = a) :
    BitVec.ofInt p.bits a = BitVec.ofInt p.bits 0 ↔ a = 0 := by
  have h0 : p.value 0 = 0 := by
    unfold Prim.value
    split_ifs
    · exact wrap_eq_self (p.bits_pos hp) ⟨by simp, by positivity⟩
    · rfl
  exact ⟨value_inj ha h0, fun h => by rw [h]⟩

theorem u64_eq_zero_iff (hp : p.isInteger = true) (ha : p.value a = a) : u64 a = 0 ↔ a = 0 := by
  refine ⟨fun h => (ofInt_eq_zero hp ha).1 ?_, fun h => by rw [h]; rfl⟩
  rw [(agree_u64 hp ha).ofInt, h]
  rfl

/-- A truth value that both sides compute. -/
theorem agree_truth (c : Bool) (hn : n = c.toNat) (hx : some (boolToInt c) = some x) :
    Agree .bool n (Prim.bool.value x) ∧ n = u64 (Prim.bool.value x) := by
  obtain ⟨hagree, hself⟩ := agree_bool c
  rw [hn, boolToInt_eq hx, hagree.self]
  exact ⟨hagree, hself⟩

/-- **One unary operator.** -/
theorem agree_unary {op : UnTok} (hp : p.isInteger = true) (hl : Agree p l a)
    (hnot : op = .not → l = u64 a) (hx : emitUnaryInteger op p a = some x)
    (hn : constantUnaryInteger op p l = some n) :
    Agree p n (p.value x) ∧
      (op = .not ∨ l = u64 a ∧ (op = .sub → p.value (-a) = -a) → n = u64 (p.value x)) := by
  cases op with
  | not =>
    have hla := hnot rfl
    simp only [constantUnaryInteger] at hn
    by_cases hbool : p = .bool
    · subst hbool
      rw [if_pos rfl] at hn
      have hzero : i64 l = 0 ↔ a = 0 := by
        rw [← u64_eq_zero_iff hp hl.self, ← hla]
        exact ⟨fun h => by rw [← u64_i64 hl.lt, h]; rfl, fun h => by rw [h]; rfl⟩
      have hlit : n = (decide (a = 0)).toNat := by
        rw [← Option.some.inj hn, if_congr hzero rfl rfl]
        by_cases h : a = 0
        · rw [if_pos h, decide_eq_true h]
          rfl
        · rw [if_neg h, decide_eq_false h]
          rfl
      simp only [emitUnaryInteger, machine, ofInt_eq_zero hp hl.self] at hx
      obtain ⟨hagree, hself⟩ := agree_truth _ hlit hx
      exact ⟨hagree, fun _ => hself⟩
    · rw [if_neg hbool] at hn
      cases hn
  | xor =>
    rw [← Option.some.inj hx]
    obtain ⟨hagree, hexact⟩ := agree_complement hp hl hn
    refine ⟨hagree, ?_⟩
    rintro (h | ⟨hla, -⟩)
    · cases h
    · exact hexact hla
  | sub =>
    rw [← Option.some.inj hx]
    obtain ⟨hagree, hexact⟩ := agree_neg hp hl hn
    refine ⟨hagree, ?_⟩
    rintro (h | ⟨hla, hfits⟩)
    · cases h
    · exact hexact hla (hfits rfl)
  | add =>
    rw [← Option.some.inj hx, ← Option.some.inj hn, hl.self]
    refine ⟨hl, ?_⟩
    rintro (h | ⟨hla, -⟩)
    · cases h
    · exact hla

/-- A conversion between integer types keeps the literal, but for a truth value. -/
theorem typecheckConversion_uint (out : OutOfRange) (hp : p.isInteger = true) :
    typecheckConversion out p q (.uint l) =
      .uint (if q = p then l else if p = .bool then if l ≠ 0 then 1 else 0 else l) := by
  unfold typecheckConversion
  rw [Prim.isFloat_of_isInteger hp, if_neg Bool.false_ne_true]
  by_cases hsame : q = p
  · rw [if_pos hsame, if_pos hsame]
  · rw [if_neg hsame, if_neg hsame]
    by_cases hb : p = .bool
    · rw [if_pos hb, if_pos hb]
    · rw [if_neg hb, if_neg hb]

/-- **One conversion** between integer types. -/
theorem agree_conversion (out : OutOfRange) (hp : p.isInteger = true) (hq : q.isInteger = true)
    (hl : Agree q l a) (hwide : p ≠ .bool ∧ p.bits ≤ q.bits ∨ l = u64 a)
    (hbool : p = .bool → q = .bool → a = 0 ∨ a = 1) (hx : emitInteger p q a = some x) :
    ∃ n, typecheckConversion out p q (.uint l) = .uint n ∧ Agree p n (p.value x) ∧
      (p = .bool ∧ q ≠ .bool ∨ l = u64 a ∧ p.value a = a → n = u64 (p.value x)) := by
  refine ⟨_, typecheckConversion_uint out hp, ?_⟩
  by_cases hb : p = .bool
  · subst hb
    have hla : l = u64 a := hwide.resolve_left fun h => h.1 rfl
    rw [emitInteger, if_pos rfl] at hx
    simp only [machine, ne_eq, ofInt_eq_zero hq hl.self] at hx
    by_cases hq' : q = .bool
    · -- a truth value stays as it is, and the code compares it with zero
      rw [if_pos hq']
      subst hq'
      refine And.imp_right (fun h _ => h) (agree_truth (decide (¬a = 0)) ?_ hx)
      obtain rfl | rfl := hbool rfl rfl
      · rw [hla]
        rfl
      · rw [hla]
        rfl
    · rw [if_neg hq', if_pos rfl]
      refine And.imp_right (fun h _ => h) (agree_truth (decide (¬a = 0)) ?_ hx)
      have hzero : l ≠ 0 ↔ ¬a = 0 := by rw [hla, ne_eq, u64_eq_zero_iff hq hl.self]
      rw [if_congr hzero rfl rfl]
      by_cases h : a = 0
      · simp [h]
      · simp [h]
  · rw [if_neg hb, ite_self]
    obtain ⟨hagree, hexact⟩ := agree_convert hp hq hl hb (hwide.imp_left And.right) hx
    refine ⟨hagree, ?_⟩
    rintro (⟨h, -⟩ | ⟨hla, hfits⟩)
    · exact absurd h hb
    · exact hexact hla hfits

end Operator

end Constants

end OdinSon.Odinc
