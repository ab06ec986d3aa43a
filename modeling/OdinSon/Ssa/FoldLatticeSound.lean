import OdinSon.Ssa.FoldLattice

/-!
# Soundness of the folded lattices

Whatever the operands are inside their intervals, the machine result of the operator lies in the
interval that `foldBinOpLattice` computes.  Each piece of the function has its own lemma: two
constants and the unsigned operators here, the bitwise and the signed ones in the next modules.
-/

namespace OdinSon

open MachInt

theorem dtMask_eq {ty : Datatype} (h : ty.isInt = true) : dtMask ty = 2 ^ ty.bits - 1 := by
  obtain rfl | rfl | rfl | rfl := Datatype.isInt_cases h <;> decide

theorem boolLattice_contains (c : Bool) : boolLattice.Contains (boolToInt c) := by
  cases c <;> decide

/-- Every machine result lies in the widest lattice of the operator. -/
theorem machine_contains_res {ty : Datatype} (h : ty.isInt = true) {op : BinOp} {x y v : ℤ}
    (hv : machine op ty.bits x y = some v) :
    (if op.isComparison then boolLattice else dtToLattice ty).Contains v := by
  have hw := Datatype.bits_pos h
  have h0 : InS ty.bits 0 := ⟨by simp, by positivity⟩
  cases op
  case shl | uShr =>
    simp only [machine, Option.some.injEq] at hv
    subst hv
    simp only [BinOp.isComparison, Bool.false_eq_true, ↓reduceIte, dtToLattice_contains_iff h]
    split_ifs
    · exact toInt_mem hw _
    · exact h0
  case div | rem | uDiv | uRem =>
    simp only [machine, Option.ite_none_left_eq_some, Option.some.injEq] at hv
    rw [← hv.2]
    simpa only [BinOp.isComparison, Bool.false_eq_true, ↓reduceIte, dtToLattice_contains_iff h]
      using toInt_mem hw _
  case add | sub | mul | and | or | xor | andNot | shr =>
    simp only [machine, Option.some.injEq] at hv
    rw [← hv]
    simpa only [BinOp.isComparison, Bool.false_eq_true, ↓reduceIte, dtToLattice_contains_iff h]
      using toInt_mem hw _
  all_goals
    simp only [machine, Option.some.injEq] at hv
    rw [← hv]
    exact boolLattice_contains _

/-! ### Two constants -/

section Const

variable {ty : Datatype} (h : ty.isInt = true) {x y : ℤ}

include h

theorem sext_self (hx : InS ty.bits x) : sext x ty = x := by
  rw [sext_eq_wrap h, wrap_eq_self (Datatype.bits_pos h) hx]

theorem sext_wrap64 (x : ℤ) : sext (wrap 64 x) ty = wrap ty.bits x := by
  rw [sext_eq_wrap h, wrap_wrap_of_le (Datatype.bits_le h)]

theorem sext_i64 (n : ℕ) : sext (i64 n) ty = wrap ty.bits n := sext_wrap64 h n

theorem u64_and_dtMask (x : ℤ) : u64 x &&& dtMask ty = unsigned ty.bits x := by
  rw [dtMask_eq h, u64_and_mask (Datatype.bits_le h)]

theorem u64_i64_unsigned (x : ℤ) : u64 (i64 (unsigned ty.bits x)) = unsigned ty.bits x :=
  u64_i64 ((unsigned_lt _ _).trans_le (Nat.pow_le_pow_right (by norm_num) (Datatype.bits_le h)))

/-- A bitwise operator at 64 bits agrees with the one at the width of the datatype. -/
theorem wrap_bitwise {f : ℕ → ℕ → ℕ}
    (hf : ∀ u v, f u v % 2 ^ ty.bits = f (u % 2 ^ ty.bits) (v % 2 ^ ty.bits)) (x y : ℤ) :
    sext (i64 (f (u64 x) (u64 y))) ty =
      wrap ty.bits (f (unsigned ty.bits x) (unsigned ty.bits y)) := by
  rw [sext_i64 h, ← wrap_natCast_mod, hf, u64, u64, unsigned_mod (Datatype.bits_le h),
    unsigned_mod (Datatype.bits_le h)]

omit h in
theorem ofBounds_contains_self (v : ℤ) : (Lattice.ofBounds v v).Contains v := ⟨le_rfl, le_rfl⟩

theorem sext_and64 (x y : ℤ) :
    sext (and64 x y) ty = wrap ty.bits (unsigned ty.bits x &&& unsigned ty.bits y : ℕ) :=
  wrap_bitwise h (fun _ _ => Nat.and_mod_two_pow) x y

theorem sext_or64 (x y : ℤ) :
    sext (or64 x y) ty = wrap ty.bits (unsigned ty.bits x ||| unsigned ty.bits y : ℕ) :=
  wrap_bitwise h (fun _ _ => Nat.or_mod_two_pow) x y

theorem sext_xor64 (x y : ℤ) :
    sext (xor64 x y) ty = wrap ty.bits (unsigned ty.bits x ^^^ unsigned ty.bits y : ℕ) :=
  wrap_bitwise h (fun _ _ => Nat.xor_mod_two_pow) x y

theorem sext_andNot64 (x y : ℤ) :
    sext (andNot64 x y) ty = wrap ty.bits (andNot (unsigned ty.bits x) (unsigned ty.bits y) : ℕ) :=
  wrap_bitwise h (fun u v => andNot_mod u v _) x y

/-- A shift count reaches the width exactly when it does as a signed number. -/
theorem bits_le_u64_iff (hy : InS 64 y) : ty.bits ≤ u64 y ↔ ¬ (0 ≤ y ∧ y < ty.bits) := by
  have hw' := Datatype.bits_le h
  obtain ⟨h1, h2⟩ := hy
  norm_num at h1 h2
  rcases lt_or_ge y 0 with hneg | hpos
  · have := unsigned_of_neg (w := 64) hneg (by omega)
    rw [u64]; omega
  · have := unsigned_of_nonneg (w := 64) hpos (by omega)
    rw [u64]; omega

omit h in
theorem u64_of_nonneg (hy : InS 64 y) (h0 : 0 ≤ y) : u64 y = y.toNat := by
  obtain ⟨h1, h2⟩ := hy
  norm_num at h1 h2
  have := unsigned_of_nonneg (w := 64) h0 (by omega)
  rw [u64]; omega

/-- Folding two constants gives the machine result. -/
theorem foldConstLattice_contains {op : BinOp} (hx : InS ty.bits x) (hy : InS 64 y)
    (hy' : op.isShift = false → InS ty.bits y) {v : ℤ} (hv : machine op ty.bits x y = some v)
    {res : Lattice} (hres : res.Contains v) : (foldConstLattice x op y ty res).Contains v := by
  have hw := Datatype.bits_pos h
  have hw' := Datatype.bits_le h
  have hsx := sext_self h hx
  have hm := machine_contains_res h hv
  unfold foldConstLattice
  rw [hsx]
  cases op <;> simp only [BinOp.isShift, BinOp.isComparison, Bool.false_eq_true, ↓reduceIte,
    foldBinOp, u64_and_dtMask h, u64_i64_unsigned h, reduceCtorEq, forall_true_left,
    dtToLattice_contains_iff h] at hy' hm ⊢
  case add | sub | mul =>
    rw [sext_self h hy', sext_wrap64 h]
    simp only [machine_add, machine_sub, machine_mul, Option.some.injEq] at hv
    exact hv ▸ ofBounds_contains_self _
  case and | or | xor | andNot =>
    simp only [machine_and, machine_or, machine_xor, machine_andNot, Option.some.injEq] at hv
    simp only [sext_self h hy', sext_and64 h, sext_or64 h, sext_xor64 h, sext_andNot64 h, hv]
    exact ofBounds_contains_self _
  case eq | ne | le | lt | gt | ge =>
    simp only [machine_eq hw hx hy', machine_ne hw hx hy', machine_le hw hx hy',
      machine_lt hw hx hy', machine_gt hw hx hy', machine_ge hw hx hy', Option.some.injEq] at hv
    simp only [hsx, sext_self h hy', hv]
    exact ofBounds_contains_self _
  case uLt | uLe | uGt | uGe =>
    simp only [machine_uLt, machine_uLe, machine_uGt, machine_uGe, Option.some.injEq] at hv
    simp only [sext_self h hy', hv]
    exact ofBounds_contains_self _
  case div | rem =>
    simp only [machine_div hw hx hy', machine_rem hw hx hy', Option.ite_none_left_eq_some,
      Option.some.injEq] at hv
    simp only [hsx, sext_self h hy']
    split_ifs with ht h0
    · exact hres
    · -- a zero divisor has been caught by the trap test before
      simp [h0] at ht
    · rw [sext_wrap64 h, hv.2, wrap_eq_self hw hm]
      exact ofBounds_contains_self _
  case uDiv | uRem =>
    simp only [machine_uDiv hw hy', machine_uRem hw hy', Option.ite_none_left_eq_some,
      Option.some.injEq] at hv
    simp only [sext_self h hy', decide_eq_true_eq]
    split_ifs with ht
    · exact hres
    · rw [sext_i64 h, hv.2]
      exact ofBounds_contains_self _
  case shl =>
    simp only [machine_shl, Option.some.injEq] at hv
    -- a count out of range, negative ones included, is one that is too large as `u64`
    simp only [hsx, bits_le_u64_iff h hy, ite_not]
    split_ifs with hc
    · rw [if_pos hc] at hv
      rw [u64_of_nonneg hy hc.1, shl64, if_pos (by omega), sext_wrap64 h, hv, sext_self h hm]
      exact ofBounds_contains_self _
    · rw [if_neg hc] at hv
      rw [hv, sext_self h hm]
      exact ofBounds_contains_self _
  case shr =>
    simp only [machine_shr hw hx, Option.some.injEq] at hv
    have hc : min (u64 y) (ty.bits - 1) = if 0 ≤ y ∧ y < ty.bits then y.toNat else ty.bits - 1 := by
      have := bits_le_u64_iff h hy
      split_ifs with hc
      · rw [u64_of_nonneg hy hc.1]; omega
      · have := this.2 hc; omega
    rw [hsx, hsx, shr64, hc, hv, sext_self h hm]
    exact ofBounds_contains_self _
  case uShr =>
    simp only [machine_uShr, Option.some.injEq] at hv
    simp only [bits_le_u64_iff h hy, ite_not]
    split_ifs with hc
    · rw [if_pos hc] at hv
      rw [u64_of_nonneg hy hc.1, sext_i64 h, Nat.shiftRight_eq_div_pow, hv]
      exact ofBounds_contains_self _
    · rw [if_neg hc] at hv
      rw [hv, sext_self h hm]
      exact ofBounds_contains_self _

end Const

/-! ### Unsigned operators -/

theorem boolToInt_mono {p q : Bool} (h : p = true → q = true) : boolToInt p ≤ boolToInt q := by
  cases p <;> cases q <;> simp_all [boolToInt]

theorem i64_toNat (p : Bool) : i64 p.toNat = boolToInt p := by
  cases p <;> decide

section Unsigned

variable {w : ℕ} {x y : ℤ}

/-- On one side of zero the unsigned reading is monotone. -/
theorem unsigned_mono (hw : 0 < w) (hx : InS w x) (hy : InS w y) (hxy : x ≤ y)
    (hs : ¬ (x < 0 ∧ 0 ≤ y)) : unsigned w x ≤ unsigned w y := by
  have hp := two_pow_pred hw
  obtain ⟨hx1, hx2⟩ := hx
  obtain ⟨hy1, hy2⟩ := hy
  rcases lt_or_ge x 0 with hx0 | hx0
  · have h1 := unsigned_of_neg (w := w) hx0 (by omega)
    have h2 := unsigned_of_neg (w := w) (x := y) (by omega) (by omega)
    omega
  · have h1 := unsigned_of_nonneg (w := w) hx0 (by omega)
    have h2 := unsigned_of_nonneg (w := w) (x := y) (by omega) (by omega)
    omega

/-- Wrapping is monotone on unsigned numbers with the same sign bit. -/
theorem wrap_mono (hw : 0 < w) {m n : ℕ} (hmn : m ≤ n) (hn : n < 2 ^ w)
    (hs : ¬ (m < 2 ^ (w - 1) ∧ n ≥ 2 ^ (w - 1))) : wrap w m ≤ wrap w n := by
  rcases lt_or_ge m (2 ^ (w - 1)) with hm | hm
  · rw [wrap_natCast_of_lt hw hm, wrap_natCast_of_lt hw (by omega)]
    exact_mod_cast hmn
  · rw [wrap_natCast_of_ge hw hm (by omega), wrap_natCast_of_ge hw (by omega) hn]
    have : (m : ℤ) ≤ n := by exact_mod_cast hmn
    omega

end Unsigned

section

variable {ty : Datatype} (h : ty.isInt = true) {a b : Lattice} {x y : ℤ}

include h

/-- The bounds of an interval of the datatype are values of the datatype. -/
theorem inS_of_contains (ha : (dtToLattice ty).min ≤ a.min ∧ a.max ≤ (dtToLattice ty).max)
    (hx : a.Contains x) : InS ty.bits x :=
  (dtToLattice_contains_iff h).1 ⟨ha.1.trans hx.1, hx.2.trans ha.2⟩

theorem unsignedBounds_spec (ha : (dtToLattice ty).min ≤ a.min ∧ a.max ≤ (dtToLattice ty).max)
    (hx : a.Contains x) :
    (unsignedBounds a (dtMask ty)).1 ≤ unsigned ty.bits x ∧
      unsigned ty.bits x ≤ (unsignedBounds a (dtMask ty)).2 ∧
      (unsignedBounds a (dtMask ty)).2 < 2 ^ ty.bits := by
  have hw := Datatype.bits_pos h
  have hlt := unsigned_lt ty.bits x
  have hmin : InS ty.bits a.min := inS_of_contains h ha ⟨le_rfl, hx.1.trans hx.2⟩
  have hmax : InS ty.bits a.max := inS_of_contains h ha ⟨hx.1.trans hx.2, le_rfl⟩
  have hX := inS_of_contains h ha hx
  unfold unsignedBounds
  split_ifs with hs
  · rw [dtMask_eq h]
    exact ⟨Nat.zero_le _, by simp only; omega, by simp only; omega⟩
  · simp only [u64_and_dtMask h]
    obtain ⟨h1, h2⟩ := hx
    exact ⟨unsigned_mono hw hmin hX h1 (by omega), unsigned_mono hw hX hmax h2 (by omega),
      unsigned_lt _ _⟩

theorem unsignedLattice_contains {op : BinOp} (hop : op.isComparison = false) {lo hi n : ℕ}
    (hlo : lo ≤ n) (hhi : n ≤ hi) (hlt : hi < 2 ^ ty.bits) :
    (unsignedLattice op ty lo hi).Contains (wrap ty.bits n) := by
  have hw := Datatype.bits_pos h
  simp only [unsignedLattice, hop, Bool.false_eq_true, ↓reduceIte, Nat.one_shiftLeft]
  split_ifs with hs
  · exact (dtToLattice_contains_iff h).2 (wrap_mem hw _)
  · rw [sext_i64 h, sext_i64 h]
    exact ⟨wrap_mono hw hlo (by omega) (by omega), wrap_mono hw hhi hlt (by omega)⟩

omit h in
theorem unsignedLattice_bool {op : BinOp} (hop : op.isComparison = true) {p q r : Bool}
    (hpr : p = true → r = true) (hrq : r = true → q = true) :
    (unsignedLattice op ty p.toNat q.toNat).Contains (boolToInt r) := by
  simp only [unsignedLattice, hop, ↓reduceIte, i64_toNat]
  exact ⟨boolToInt_mono hpr, boolToInt_mono hrq⟩

/-- `U_Div` and `U_Rem` of values in the intervals. -/
theorem unsigned_division_contains {op : BinOp} (hop : op = .uDiv ∨ op = .uRem)
    (ha : (dtToLattice ty).min ≤ a.min ∧ a.max ≤ (dtToLattice ty).max)
    (hb : (dtToLattice ty).min ≤ b.min ∧ b.max ≤ (dtToLattice ty).max)
    (hx : a.Contains x) (hy : b.Contains y) {v : ℤ} (hv : machine op ty.bits x y = some v)
    {res : Lattice} (hres : res.Contains v) :
    (match unsignedRange a op b ty res with
      | .error r => r
      | .ok (lo, hi) => unsignedLattice op ty lo hi).Contains v := by
  have hw := Datatype.bits_pos h
  obtain ⟨ha1, ha2, ha3⟩ := unsignedBounds_spec h ha hx
  obtain ⟨hb1, hb2, hb3⟩ := unsignedBounds_spec h hb hy
  have hY := inS_of_contains h hb hy
  rcases hop with rfl | rfl
  · rw [machine_uDiv hw hY, Option.ite_none_left_eq_some, Option.some.injEq] at hv
    simp only [unsignedRange]
    split_ifs with h0
    · exact hres
    · rw [← hv.2]
      refine unsignedLattice_contains h rfl (Nat.div_le_div ha1 hb2 (by omega))
        (Nat.div_le_div ha2 hb1 h0) ((Nat.div_le_self _ _).trans_lt ha3)
  · rw [machine_uRem hw hY, Option.ite_none_left_eq_some, Option.some.injEq] at hv
    simp only [unsignedRange]
    split_ifs with h0
    · exact hres
    · rw [← hv.2]
      have h1 := Nat.mod_le (unsigned ty.bits x) (unsigned ty.bits y)
      have h2 := Nat.mod_lt (unsigned ty.bits x) (show 0 < unsigned ty.bits y by omega)
      exact unsignedLattice_contains h rfl (Nat.zero_le _) (by omega) (by omega)

/-- The unsigned comparisons of values in the intervals. -/
theorem unsigned_comparison_contains {op : BinOp}
    (hop : op = .uLt ∨ op = .uLe ∨ op = .uGt ∨ op = .uGe)
    (ha : (dtToLattice ty).min ≤ a.min ∧ a.max ≤ (dtToLattice ty).max)
    (hb : (dtToLattice ty).min ≤ b.min ∧ b.max ≤ (dtToLattice ty).max)
    (hx : a.Contains x) (hy : b.Contains y) {v : ℤ} (hv : machine op ty.bits x y = some v)
    (res : Lattice) :
    (match unsignedRange a op b ty res with
      | .error r => r
      | .ok (lo, hi) => unsignedLattice op ty lo hi).Contains v := by
  obtain ⟨ha1, ha2, -⟩ := unsignedBounds_spec h ha hx
  obtain ⟨hb1, hb2, -⟩ := unsignedBounds_spec h hb hy
  rcases hop with rfl | rfl | rfl | rfl <;>
    simp only [machine_uLt, machine_uLe, machine_uGt, machine_uGe, Option.some.injEq] at hv <;>
    rw [← hv] <;>
    simp only [unsignedRange] <;>
    refine unsignedLattice_bool rfl ?_ ?_ <;>
    simp only [decide_eq_true_eq] <;> omega

/-- `U_Shr` of values in the intervals; the count is any `i64` interval. -/
theorem uShr_contains
    (ha : (dtToLattice ty).min ≤ a.min ∧ a.max ≤ (dtToLattice ty).max)
    (hb : InS 64 b.min ∧ InS 64 b.max)
    (hx : a.Contains x) (hy : b.Contains y) {v : ℤ} (hv : machine .uShr ty.bits x y = some v)
    {res : Lattice} (hres : res.Contains v) :
    (match unsignedRange a .uShr b ty res with
      | .error r => r
      | .ok (lo, hi) => unsignedLattice .uShr ty lo hi).Contains v := by
  have hw := Datatype.bits_pos h
  obtain ⟨ha1, ha2, ha3⟩ := unsignedBounds_spec h ha hx
  obtain ⟨hy1, hy2⟩ := hy
  rw [machine_uShr, Option.some.injEq] at hv
  by_cases hout : b.max < 0 ∨ b.min ≥ ty.bits
  · rw [if_neg (by omega)] at hv
    simp only [unsignedRange, hout, ↓reduceIte]
    exact hv ▸ ofBounds_contains_self _
  by_cases hneg : b.min < 0
  · simpa only [unsignedRange, hout, hneg, ↓reduceIte] using hres
  have hmin : u64 b.min = b.min.toNat := u64_of_nonneg hb.1 (by omega)
  have hmax : u64 b.max = b.max.toNat := u64_of_nonneg hb.2 (by omega)
  have hhi : (unsignedBounds a (dtMask ty)).2 / 2 ^ b.min.toNat < 2 ^ ty.bits :=
    (Nat.div_le_self _ _).trans_lt ha3
  simp only [unsignedRange, hout, hneg, ↓reduceIte, hmin, hmax, Nat.shiftRight_eq_div_pow]
  by_cases hc : 0 ≤ y ∧ y < ty.bits
  · rw [if_pos hc] at hv
    rw [← hv]
    refine unsignedLattice_contains h rfl ?_ (Nat.div_le_div ha2
      (Nat.pow_le_pow_right (by norm_num) (by omega)) (by positivity)) hhi
    split_ifs
    · exact Nat.zero_le _
    · exact Nat.div_le_div ha1 (Nat.pow_le_pow_right (by norm_num) (by omega)) (by positivity)
  · rw [if_neg hc] at hv
    have h0 : wrap ty.bits ((0 : ℕ) : ℤ) = v := by rw [← hv]; simp [wrap]
    rw [← h0]
    refine unsignedLattice_contains h rfl ?_ (Nat.zero_le _) hhi
    rw [if_pos (by omega)]

end

end OdinSon
