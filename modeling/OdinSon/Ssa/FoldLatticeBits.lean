import OdinSon.Ssa.FoldLatticeSound

/-!
# Bitwise operators on lattices

`knownBits` cuts the bits of an interval into those every value has and those some value may
have.  A bitwise operator works on the two masks (`bitRange`), and `bitLattice` reads the masks
of the result as an interval again.
-/

namespace OdinSon

open MachInt

/-! ### Known bits -/

/-- Every bit of `m` is a bit of `n`. -/
def BitsLe (m n : ℕ) : Prop := ∀ i, m.testBit i = true → n.testBit i = true

theorem BitsLe.le {m n : ℕ} (h : BitsLe m n) : m ≤ n := by
  have : m &&& n = m := by
    apply Nat.eq_of_testBit_eq
    intro i
    rw [Nat.testBit_and]
    cases hm : m.testBit i
    · rfl
    · simpa using h i hm
  rw [← this]
  exact Nat.and_le_right

theorem BitsLe.trans {l m n : ℕ} (h : BitsLe l m) (h' : BitsLe m n) : BitsLe l n :=
  fun i hi => h' i (h i hi)

/-- Numbers between two numbers that agree above bit `k` agree with them there. -/
theorem testBit_of_between {m x n k i : ℕ} (hm : m ≤ x) (hn : x ≤ n) (hk : (m ^^^ n) < 2 ^ k)
    (hi : k ≤ i) : x.testBit i = m.testBit i := by
  have hmn : m >>> k = n >>> k := by
    rw [← Nat.xor_eq_zero_iff, ← Nat.shiftRight_xor_distrib, Nat.shiftRight_eq_div_pow,
      Nat.div_eq_of_lt hk]
  have hx : x >>> k = m >>> k := by
    have h1 : m >>> k ≤ x >>> k := by
      simpa only [Nat.shiftRight_eq_div_pow] using Nat.div_le_div_right hm
    have h2 : x >>> k ≤ n >>> k := by
      simpa only [Nat.shiftRight_eq_div_pow] using Nat.div_le_div_right hn
    omega
  have := congrArg (·.testBit (i - k)) hx
  simpa [Nat.testBit_shiftRight, Nat.add_sub_cancel' hi] using this

theorem log2_add_one {n : ℕ} (h : n ≠ 0) : n.log2 + 1 = n.size := by
  apply eq_of_forall_ge_iff
  intro k
  rw [Nat.size_le, ← Nat.log2_lt h, Nat.succ_le_iff]

/-- `~u64(0) >> count_leading_zeros(n)` has the bits up to the highest one of `n`. -/
theorem varying_mask {n : ℕ} (h : n < 2 ^ 64) :
    (if n ≠ 0 then (2 ^ 64 - 1) >>> countLeadingZeros n else n) = 2 ^ n.size - 1 := by
  split_ifs with h0
  · have hs : n.size ≤ 64 := Nat.size_le.2 h
    have hl := log2_add_one h0
    apply Nat.eq_of_testBit_eq
    intro i
    rw [Nat.testBit_shiftRight, Nat.testBit_two_pow_sub_one, Nat.testBit_two_pow_sub_one,
      countLeadingZeros]
    exact decide_eq_decide.2 (by omega)
  · rw [not_ne_iff.1 h0]; rfl

section

variable {ty : Datatype} (h : ty.isInt = true) {a b : Lattice} {x y : ℤ}

/-- The number of low bits on which the bounds of an interval may differ. -/
def varyingLen (ty : Datatype) (a : Lattice) : ℕ :=
  (unsigned ty.bits a.min ^^^ unsigned ty.bits a.max).size

include h

theorem testBit_knownBits (i : ℕ) :
    (knownBits a (dtMask ty)).1.testBit i =
        ((unsigned ty.bits a.min).testBit i && decide (varyingLen ty a ≤ i)) ∧
      (knownBits a (dtMask ty)).2.testBit i =
        ((unsigned ty.bits a.min).testBit i || decide (i < varyingLen ty a)) := by
  have hw' := Datatype.bits_le h
  have hV : (u64 a.min ^^^ u64 a.max) &&& dtMask ty =
      unsigned ty.bits a.min ^^^ unsigned ty.bits a.max := by
    rw [Nat.and_xor_distrib_right, u64_and_dtMask h, u64_and_dtMask h]
  have hlt : unsigned ty.bits a.min ^^^ unsigned ty.bits a.max < 2 ^ 64 :=
    (Nat.xor_lt_two_pow (unsigned_lt _ _) (unsigned_lt _ _)).trans_le
      (Nat.pow_le_pow_right (by norm_num) hw')
  have hone : (knownBits a (dtMask ty)).1 =
      andNot (unsigned ty.bits a.min) (2 ^ varyingLen ty a - 1) := by
    simp only [knownBits, hV]
    rw [varying_mask hlt, ← varyingLen]
    rw [← u64_and_dtMask h a.min]
    apply Nat.eq_of_testBit_eq
    intro j
    simp only [testBit_andNot, Nat.testBit_and]
    cases (u64 a.min).testBit j <;> cases (dtMask ty).testBit j <;> simp
  have hpos : (knownBits a (dtMask ty)).2 =
      (knownBits a (dtMask ty)).1 ||| (2 ^ varyingLen ty a - 1) := by
    simp only [knownBits, hV]
    rw [varying_mask hlt, ← varyingLen]
  rw [hpos, Nat.testBit_or, hone, testBit_andNot, Nat.testBit_two_pow_sub_one]
  by_cases hi : i < varyingLen ty a
  · simp [hi]
  · simp [hi, Nat.le_of_not_lt hi]

omit h in
theorem varyingLen_le (ty : Datatype) (a : Lattice) : varyingLen ty a ≤ ty.bits :=
  Nat.size_le.2 (Nat.xor_lt_two_pow (unsigned_lt _ _) (unsigned_lt _ _))

/-- Bounds of different signs leave no bit known. -/
theorem varyingLen_of_straddle (hmin : InS ty.bits a.min) (hmax : InS ty.bits a.max)
    (hneg : a.min < 0) (hpos : 0 ≤ a.max) : varyingLen ty a = ty.bits := by
  have hw := Datatype.bits_pos h
  have hp := two_pow_pred hw
  refine le_antisymm (varyingLen_le ty a) ?_
  have hm : 2 ^ (ty.bits - 1) ≤ unsigned ty.bits a.min := by
    have := unsigned_of_neg (w := ty.bits) hneg (by have := hmin.1; omega)
    zify
    have := hmin.1
    omega
  have hM : unsigned ty.bits a.max < 2 ^ (ty.bits - 1) := by
    have := unsigned_of_nonneg (w := ty.bits) hpos (by have := hmax.2; omega)
    zify
    have := hmax.2
    omega
  have hbit : (unsigned ty.bits a.min ^^^ unsigned ty.bits a.max).testBit (ty.bits - 1) = true := by
    rw [Nat.testBit_xor, testBit_msb hw (unsigned_lt _ _), testBit_msb hw (unsigned_lt _ _)]
    simp [hm, hM]
  have := Nat.lt_size.2 (Nat.ge_two_pow_of_testBit hbit)
  rw [varyingLen]; omega

/-- Every value of the interval agrees with the lower bound above the varying bits. -/
theorem testBit_unsigned_of_contains
    (ha : (dtToLattice ty).min ≤ a.min ∧ a.max ≤ (dtToLattice ty).max) (hx : a.Contains x) {i : ℕ}
    (hi : varyingLen ty a ≤ i) :
    (unsigned ty.bits x).testBit i = (unsigned ty.bits a.min).testBit i := by
  have hw := Datatype.bits_pos h
  have hmin : InS ty.bits a.min := inS_of_contains h ha ⟨le_rfl, hx.1.trans hx.2⟩
  have hmax : InS ty.bits a.max := inS_of_contains h ha ⟨hx.1.trans hx.2, le_rfl⟩
  have hX := inS_of_contains h ha hx
  by_cases hs : a.min < 0 ∧ 0 ≤ a.max
  · rw [varyingLen_of_straddle h hmin hmax hs.1 hs.2] at hi
    rw [Nat.testBit_lt_two_pow ((unsigned_lt _ _).trans_le (Nat.pow_le_pow_right (by norm_num) hi)),
      Nat.testBit_lt_two_pow ((unsigned_lt _ _).trans_le (Nat.pow_le_pow_right (by norm_num) hi))]
  · obtain ⟨h1, h2⟩ := hx
    exact testBit_of_between (unsigned_mono hw hmin hX h1 (by omega))
      (unsigned_mono hw hX hmax h2 (by omega)) (Nat.lt_size_self _) hi

theorem knownBits_spec (ha : (dtToLattice ty).min ≤ a.min ∧ a.max ≤ (dtToLattice ty).max)
    (hx : a.Contains x) :
    BitsLe (knownBits a (dtMask ty)).1 (unsigned ty.bits x) ∧
      BitsLe (unsigned ty.bits x) (knownBits a (dtMask ty)).2 := by
  constructor <;> intro i hi
  · rw [(testBit_knownBits h i).1, Bool.and_eq_true, decide_eq_true_eq] at hi
    rw [testBit_unsigned_of_contains h ha hx hi.2, hi.1]
  · rw [(testBit_knownBits h i).2, Bool.or_eq_true, decide_eq_true_eq]
    by_cases hk : i < varyingLen ty a
    · exact .inr hk
    · rw [testBit_unsigned_of_contains h ha hx (by omega)] at hi
      exact .inl hi

theorem knownBits_lt : (knownBits a (dtMask ty)).2 < 2 ^ ty.bits := by
  apply Nat.lt_pow_two_of_testBit
  intro i hi
  have := varyingLen_le ty a
  rw [(testBit_knownBits h i).2,
    Nat.testBit_lt_two_pow ((unsigned_lt _ _).trans_le (Nat.pow_le_pow_right (by norm_num) hi))]
  simp only [Bool.false_or, decide_eq_false_iff_not]
  omega

end

/-! ### Bitwise operators -/

/-- The bitwise operators on unsigned numbers. -/
def bitOp (op : BinOp) (m n : ℕ) : ℕ :=
  match op with
  | .and => m &&& n
  | .or => m ||| n
  | .xor => m ^^^ n
  | .andNot => andNot m n
  | _ => 0

theorem machine_bitwise {op : BinOp} (hop : op = .and ∨ op = .or ∨ op = .xor ∨ op = .andNot)
    (w : ℕ) (x y : ℤ) :
    machine op w x y = some (wrap w (bitOp op (unsigned w x) (unsigned w y))) := by
  rcases hop with rfl | rfl | rfl | rfl
  · exact machine_and w x y
  · exact machine_or w x y
  · exact machine_xor w x y
  · exact machine_andNot w x y

/-- The masks of the result bound the result. -/
theorem bitRange_spec (op : BinOp) {a₁ a₂ b₁ b₂ m n : ℕ} (ha₁ : BitsLe a₁ m) (ha₂ : BitsLe m a₂)
    (hb₁ : BitsLe b₁ n) (hb₂ : BitsLe n b₂) :
    BitsLe (bitRange op a₁ a₂ b₁ b₂).1 (bitOp op m n) ∧
      BitsLe (bitOp op m n) (bitRange op a₁ a₂ b₁ b₂).2 := by
  rw [BitsLe, BitsLe, ← forall_and]
  intro i
  have h := And.intro (And.intro (ha₁ i) (ha₂ i)) (And.intro (hb₁ i) (hb₂ i))
  revert h
  cases op <;>
    simp only [bitRange, bitOp, Nat.testBit_and, Nat.testBit_or, Nat.testBit_xor, testBit_andNot,
      imp_self, and_self, implies_true] <;>
    generalize a₁.testBit i = p₁, a₂.testBit i = p₂, b₁.testBit i = q₁, b₂.testBit i = q₂,
      m.testBit i = p, n.testBit i = q <;>
    revert p₁ p₂ q₁ q₂ p q <;> decide

theorem lt_two_pow_iff_testBit {n w : ℕ} : n < 2 ^ w ↔ ∀ i, w ≤ i → n.testBit i = false := by
  constructor
  · intro h i hi
    exact Nat.testBit_lt_two_pow (h.trans_le (Nat.pow_le_pow_right (by norm_num) hi))
  · exact Nat.lt_pow_two_of_testBit _

/-- Without its sign bit a number is below it. -/
theorem andNot_sign_lt {n w : ℕ} (hn : n < 2 ^ w) : andNot n (2 ^ (w - 1)) < 2 ^ (w - 1) := by
  rw [lt_two_pow_iff_testBit]
  intro i hi
  rcases hi.eq_or_lt with rfl | hi
  · simp [testBit_andNot]
  · rw [testBit_andNot, lt_two_pow_iff_testBit.1 hn i (by omega), Bool.false_and]

theorem bitRange_lt (op : BinOp) (a₁ b₁ : ℕ) {a₂ b₂ w : ℕ} (ha : a₂ < 2 ^ w) (hb : b₂ < 2 ^ w) :
    (bitRange op a₁ a₂ b₁ b₂).2 < 2 ^ w := by
  rw [lt_two_pow_iff_testBit] at ha hb ⊢
  intro i hi
  cases op <;> simp [bitRange, ha i hi, hb i hi]

section

variable {ty : Datatype} (h : ty.isInt = true) {a b : Lattice} {x y : ℤ}

include h

/-- The interval of the masks contains every number between them. -/
theorem bitLattice_contains {one possible n : ℕ} (hone : BitsLe one n) (hpos : BitsLe n possible)
    (hlt : possible < 2 ^ ty.bits) : (bitLattice ty one possible).Contains (wrap ty.bits n) := by
  have hw := Datatype.bits_pos h
  have hw' := Datatype.bits_le h
  have hn : n < 2 ^ ty.bits := hpos.le.trans_lt hlt
  have hone' : one < 2 ^ ty.bits := hone.le.trans_lt hn
  have hsign : (2 : ℕ) ^ (ty.bits - 1) < 2 ^ ty.bits :=
    Nat.pow_lt_pow_right (by norm_num) (by omega)
  have hmsb := testBit_msb hw hn
  unfold bitLattice
  simp only [Nat.one_shiftLeft, ne_eq, and_two_pow_eq_zero, testBit_msb hw hlt, testBit_msb hw hone',
    decide_eq_false_iff_not, not_le, sext_i64 h]
  split_ifs with hs
  · -- the sign of the result is not known: the negative values lie below the others
    have hge : 2 ^ (ty.bits - 1) ≤ one ||| 2 ^ (ty.bits - 1) := Nat.right_le_or
    have hor : one ||| 2 ^ (ty.bits - 1) < 2 ^ ty.bits := Nat.or_lt_two_pow hone' hsign
    have hand : andNot possible (2 ^ (ty.bits - 1)) < 2 ^ (ty.bits - 1) := andNot_sign_lt hlt
    have h63 : andNot possible (2 ^ (ty.bits - 1)) < 2 ^ (64 - 1) :=
      hand.trans_le (Nat.pow_le_pow_right (by norm_num) (by omega))
    have hlow := wrap_natCast_of_ge hw hge hor
    have horz : ((one ||| 2 ^ (ty.bits - 1) : ℕ) : ℤ) < 2 ^ ty.bits := by exact_mod_cast hor
    have hhigh : i64 (andNot possible (2 ^ (ty.bits - 1))) = (andNot possible (2 ^ (ty.bits - 1)) : ℕ) :=
      wrap_natCast_of_lt (by norm_num) h63
    rcases lt_or_ge n (2 ^ (ty.bits - 1)) with hlt' | hge'
    · rw [wrap_natCast_of_lt hw hlt']
      have hle : BitsLe n (andNot possible (2 ^ (ty.bits - 1))) := by
        intro i hi
        have hne : ty.bits - 1 ≠ i := by
          rintro rfl
          rw [hi] at hmsb
          simp only [Bool.true_eq, decide_eq_true_eq] at hmsb
          omega
        simp [testBit_andNot, hpos i hi, Nat.testBit_two_pow_of_ne hne]
      have hle' : (n : ℤ) ≤ (andNot possible (2 ^ (ty.bits - 1)) : ℕ) := by exact_mod_cast hle.le
      exact ⟨by simp only [Lattice.ofBounds, hlow]; omega,
        by simpa only [Lattice.ofBounds, hhigh] using hle'⟩
    · have hle : BitsLe (one ||| 2 ^ (ty.bits - 1)) n := by
        intro i hi
        rw [Nat.testBit_or, Bool.or_eq_true, Nat.testBit_two_pow, decide_eq_true_eq] at hi
        rcases hi with hi | rfl
        · exact hone i hi
        · rw [hmsb, decide_eq_true hge']
      refine ⟨wrap_mono hw hle.le hn (by omega), ?_⟩
      have : (n : ℤ) < 2 ^ ty.bits := by exact_mod_cast hn
      have hneg : wrap ty.bits n ≤ 0 := by
        rw [wrap_natCast_of_ge hw hge' hn]
        linarith
      exact hneg.trans (by simp only [Lattice.ofBounds, hhigh]; positivity)
  · have h1 := hone.le
    have h2 := hpos.le
    exact ⟨wrap_mono hw h1 hn (by omega), wrap_mono hw h2 hlt (by omega)⟩

/-- The bitwise operators on values in the intervals. -/
theorem bitwise_contains {op : BinOp} (hop : op = .and ∨ op = .or ∨ op = .xor ∨ op = .andNot)
    (ha : (dtToLattice ty).min ≤ a.min ∧ a.max ≤ (dtToLattice ty).max)
    (hb : (dtToLattice ty).min ≤ b.min ∧ b.max ≤ (dtToLattice ty).max)
    (hx : a.Contains x) (hy : b.Contains y) {v : ℤ} (hv : machine op ty.bits x y = some v) :
    (bitLattice ty
      (bitRange op (knownBits a (dtMask ty)).1 (knownBits a (dtMask ty)).2
        (knownBits b (dtMask ty)).1 (knownBits b (dtMask ty)).2).1
      (bitRange op (knownBits a (dtMask ty)).1 (knownBits a (dtMask ty)).2
        (knownBits b (dtMask ty)).1 (knownBits b (dtMask ty)).2).2).Contains v := by
  obtain ⟨ha₁, ha₂⟩ := knownBits_spec h ha hx
  obtain ⟨hb₁, hb₂⟩ := knownBits_spec h hb hy
  have hlt := bitRange_lt op (knownBits a (dtMask ty)).1 (knownBits b (dtMask ty)).1
    (knownBits_lt h (a := a)) (knownBits_lt h (a := b))
  obtain ⟨h₁, h₂⟩ := bitRange_spec op ha₁ ha₂ hb₁ hb₂
  rw [machine_bitwise hop, Option.some.injEq] at hv
  exact hv ▸ bitLattice_contains h h₁ h₂ hlt

end

end OdinSon
