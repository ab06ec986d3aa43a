import OdinSon.Bac.LatticeOrder
import OdinSon.Ssa.FoldLatticeSigned

/-!
# Monotonicity of the folded lattices

Larger operand intervals give a larger result.  Most bounds that `foldBinOpLattice` computes are
values that the operator takes somewhere in the intervals, or numbers between the masks of its
known bits, so that soundness at the larger intervals already covers them; the rest is a
comparison of the bounds.
-/

namespace OdinSon

open MachInt Set

/-- The interval of `a` lies in that of `b`. -/
def Lattice.Sub (a b : Lattice) : Prop := b.min ≤ a.min ∧ a.max ≤ b.max

namespace Lattice.Sub

variable {a b c : Lattice}

theorem refl (a : Lattice) : a.Sub a := ⟨le_rfl, le_rfl⟩

theorem trans (h : a.Sub b) (h' : b.Sub c) : a.Sub c := ⟨h'.1.trans h.1, h.2.trans h'.2⟩

theorem of_contains (hmin : b.Contains a.min) (hmax : b.Contains a.max) : a.Sub b :=
  ⟨hmin.1, hmax.2⟩

theorem contains {x : ℤ} (h : a.Sub b) (hx : a.Contains x) : b.Contains x :=
  ⟨h.1.trans hx.1, hx.2.trans h.2⟩

end Lattice.Sub

/-- A division that may trap still may on larger operands. -/
theorem mayTrap_mono {a a' b b' full : Lattice} {op : BinOp} (ha : a.Sub a') (hb : b.Sub b')
    (h : mayTrap a op b full = true) : mayTrap a' op b' full = true := by
  obtain ⟨ha1, ha2⟩ := ha
  obtain ⟨hb1, hb2⟩ := hb
  cases op <;> simp only [mayTrap, Bool.or_eq_true, Bool.and_eq_true, decide_eq_true_eq,
    Bool.false_eq_true] at h ⊢ <;> omega

section

variable {ty : Datatype} (h : ty.isInt = true) {a a' b b' : Lattice} {op : BinOp} {res : Lattice}

include h

/-! ### Constants -/

/-- Operands that cannot trap have a machine result. -/
theorem machine_isSome (ha : a.Sub (dtToLattice ty))
    (hb : op.isShift = false → b.Sub (dtToLattice ty)) (ht : mayTrap a op b (dtToLattice ty) = false)
    {x y : ℤ} (hx : a.Contains x) (hy : b.Contains y) : ∃ v, machine op ty.bits x y = some v := by
  have hw := Datatype.bits_pos h
  have hX := inS_of_contains h ha hx
  have hmin := dtToLattice_min h
  cases op
  case div =>
    rw [machine_div hw hX (inS_of_contains h (hb rfl) hy)]
    simp only [mayTrap, Bool.or_eq_false_iff, Bool.and_eq_false_iff, decide_eq_false_iff_not] at ht
    obtain ⟨hx1, hx2⟩ := hx
    obtain ⟨hy1, hy2⟩ := hy
    rw [if_neg (by omega)]
    exact ⟨_, rfl⟩
  case rem =>
    rw [machine_rem hw hX (inS_of_contains h (hb rfl) hy)]
    simp only [mayTrap, Bool.or_eq_false_iff, Bool.and_eq_false_iff, decide_eq_false_iff_not] at ht
    obtain ⟨hy1, hy2⟩ := hy
    rw [if_neg (by omega)]
    exact ⟨_, rfl⟩
  case uDiv =>
    rw [machine_uDiv hw (inS_of_contains h (hb rfl) hy)]
    simp only [mayTrap, Bool.and_eq_false_iff, decide_eq_false_iff_not] at ht
    obtain ⟨hy1, hy2⟩ := hy
    rw [if_neg (by omega)]
    exact ⟨_, rfl⟩
  case uRem =>
    rw [machine_uRem hw (inS_of_contains h (hb rfl) hy)]
    simp only [mayTrap, Bool.and_eq_false_iff, decide_eq_false_iff_not] at ht
    obtain ⟨hy1, hy2⟩ := hy
    rw [if_neg (by omega)]
    exact ⟨_, rfl⟩
  all_goals exact ⟨_, rfl⟩

/-- Two constants that cannot trap fold to a constant. -/
theorem foldConstLattice_min_eq_max (res : Lattice) {x y : ℤ} (hx : InS ty.bits x)
    (hy : op.isShift = false → InS ty.bits y)
    (ht : mayTrap (.ofBounds x x) op (.ofBounds y y) (dtToLattice ty) = false) :
    (foldConstLattice x op y ty res).min = (foldConstLattice x op y ty res).max := by
  have hw := Datatype.bits_pos h
  unfold foldConstLattice
  rw [sext_self h hx]
  have hself (v : ℤ) : (Lattice.ofBounds v v).min = (Lattice.ofBounds v v).max := rfl
  have hite (c : Prop) [Decidable c] (v : ℤ) (hc : ¬ c) :
      (if c then res else Lattice.ofBounds v v).min =
        (if c then res else Lattice.ofBounds v v).max := by
    rw [if_neg hc, hself]
  cases op <;> simp only [BinOp.isShift, Bool.false_eq_true, ↓reduceIte, forall_true_left,
    reduceCtorEq, hself] at hy ⊢
  case div | rem =>
    simp only [mayTrap, Bool.or_eq_false_iff, Bool.and_eq_false_iff, decide_eq_false_iff_not] at ht
    simp only [Lattice.ofBounds] at ht
    rw [sext_self h hy]
    apply hite
    simp only [Bool.or_eq_true, Bool.and_eq_true, decide_eq_true_eq]
    omega
  case uDiv | uRem =>
    simp only [mayTrap, Bool.and_eq_false_iff, decide_eq_false_iff_not] at ht
    simp only [Lattice.ofBounds] at ht
    simp only [sext_self h hy, u64_and_dtMask h]
    apply hite
    intro h0
    rw [decide_eq_true_eq] at h0
    have hu : unsigned ty.bits y = 0 := by
      rw [← u64_i64_unsigned h y, h0]
      rfl
    have hy0 : y = 0 := by
      rw [← wrap_eq_self hw hy, ← wrap_unsigned, hu]
      simp [wrap]
    omega

/-- A constant result lies in every lattice that contains the machine result. -/
theorem foldConstLattice_sub (ha : a.Sub (dtToLattice ty))
    (hb : op.isShift = false → b.Sub (dtToLattice ty)) (hb64 : InS 64 b.min ∧ InS 64 b.max)
    (ht : mayTrap a op b (dtToLattice ty) = false) (hca : a.min = a.max) (hcb : b.min = b.max)
    {v : ℤ} (hv : machine op ty.bits a.min b.min = some v) (hres : res.Contains v) {l : Lattice}
    (hl : l.Contains v) : (foldConstLattice a.min op b.min ty res).Sub l := by
  have hx : a.Contains a.min := ⟨le_rfl, hca.le⟩
  have hy : b.Contains b.min := ⟨le_rfl, hcb.le⟩
  have hX := inS_of_contains h ha hx
  have hY := fun hs => inS_of_contains h (hb hs) hy
  have ht' : mayTrap (.ofBounds a.min a.min) op (.ofBounds b.min b.min) (dtToLattice ty) = false := by
    by_contra hc
    rw [Bool.not_eq_false] at hc
    have hsa : (Lattice.ofBounds a.min a.min).Sub a := ⟨le_rfl, hca.le⟩
    have hsb : (Lattice.ofBounds b.min b.min).Sub b := ⟨le_rfl, hcb.le⟩
    have htrap := mayTrap_mono hsa hsb hc
    simp [ht] at htrap
  have hc := foldConstLattice_contains h hX hb64.1 hY hv hres
  have heq := foldConstLattice_min_eq_max h res hX hY ht'
  have h1 := hc.1
  have h2 := hc.2
  exact ⟨hl.1.trans (heq ▸ h2), (heq ▸ h1 : _ ≤ v).trans hl.2⟩

/-! ### Unsigned operators -/

theorem unsignedBounds_mono (ha : a'.Sub (dtToLattice ty)) (hle : a.min ≤ a.max) (haa : a.Sub a') :
    (unsignedBounds a' (dtMask ty)).1 ≤ (unsignedBounds a (dtMask ty)).1 ∧
      (unsignedBounds a (dtMask ty)).1 ≤ (unsignedBounds a (dtMask ty)).2 ∧
      (unsignedBounds a (dtMask ty)).2 ≤ (unsignedBounds a' (dtMask ty)).2 ∧
      (unsignedBounds a' (dtMask ty)).2 < 2 ^ ty.bits := by
  have hmin : a.Contains a.min := ⟨le_rfl, hle⟩
  have hmax : a.Contains a.max := ⟨hle, le_rfl⟩
  obtain ⟨h1, h2, h3⟩ := unsignedBounds_spec h ha (haa.contains hmin)
  obtain ⟨h4, h5, -⟩ := unsignedBounds_spec h ha (haa.contains hmax)
  obtain ⟨h6, h7, -⟩ := unsignedBounds_spec h (haa.trans ha) hmin
  obtain ⟨h8, h9, -⟩ := unsignedBounds_spec h (haa.trans ha) hmax
  obtain ⟨hs1, hs2⟩ := haa
  by_cases hs : a.min < 0 ∧ a.max ≥ 0
  · have hs' : a'.min < 0 ∧ a'.max ≥ 0 := by omega
    have e : unsignedBounds a (dtMask ty) = unsignedBounds a' (dtMask ty) := by
      rw [unsignedBounds, unsignedBounds, if_pos hs, if_pos hs']
    rw [e]
    omega
  · have e : unsignedBounds a (dtMask ty) = (unsigned ty.bits a.min, unsigned ty.bits a.max) := by
      rw [unsignedBounds, if_neg hs, u64_and_dtMask h, u64_and_dtMask h]
    rw [e] at h6 h7 h8 h9 ⊢
    simp only at h6 h7 h8 h9 ⊢
    omega

theorem unsignedLattice_mono {lo lo' hi hi' : ℕ} (hlo : lo' ≤ lo) (hle : lo ≤ hi) (hhi : hi ≤ hi')
    (hlt : if op.isComparison then hi' ≤ 1 else hi' < 2 ^ ty.bits) :
    (unsignedLattice op ty lo hi).Sub (unsignedLattice op ty lo' hi') := by
  cases hop : op.isComparison with
  | true =>
    rw [hop, if_pos rfl] at hlt
    have hi64 {n : ℕ} (hn : n ≤ 1) : i64 n = n := wrap_natCast_of_lt (by norm_num) (by omega)
    simp only [unsignedLattice, hop, ↓reduceIte, Lattice.Sub, Lattice.ofBounds]
    rw [hi64 (by omega), hi64 (by omega), hi64 (by omega), hi64 (by omega)]
    omega
  | false =>
    rw [hop, if_neg (by simp)] at hlt
    by_cases hs : lo < 1 <<< (ty.bits - 1) ∧ hi ≥ 1 <<< (ty.bits - 1)
    · have e : unsignedLattice op ty lo' hi' = dtToLattice ty := by
        simp only [unsignedLattice, hop, Bool.false_eq_true, ↓reduceIte]
        rw [if_pos (by omega)]
      have e' : unsignedLattice op ty lo hi = dtToLattice ty := by
        simp only [unsignedLattice, hop, Bool.false_eq_true, ↓reduceIte]
        rw [if_pos hs]
      rw [e, e']
      exact .refl _
    · have e : unsignedLattice op ty lo hi = .ofBounds (wrap ty.bits lo) (wrap ty.bits hi) := by
        simp only [unsignedLattice, hop, Bool.false_eq_true, ↓reduceIte, sext_i64 h]
        rw [if_neg hs]
      rw [e]
      exact .of_contains (unsignedLattice_contains h hop hlo (hle.trans hhi) hlt)
        (unsignedLattice_contains h hop (hlo.trans hle) hhi hlt)

/-- Larger operands give larger unsigned bounds, or the code gives up on them; a shift out of
range is left to soundness. -/
theorem unsignedRange_mono (ha : a'.Sub (dtToLattice ty))
    (hb : op.isShift = false → b'.Sub (dtToLattice ty)) (hb64 : InS 64 b'.min ∧ InS 64 b'.max)
    (hla : a.min ≤ a.max) (hlb : b.min ≤ b.max) (haa : a.Sub a') (hbb : b.Sub b') {lo' hi' : ℕ}
    (hr : unsignedRange a' op b' ty res = .ok (lo', hi')) :
    (∃ lo hi, unsignedRange a op b ty res = .ok (lo, hi) ∧ lo' ≤ lo ∧ lo ≤ hi ∧ hi ≤ hi' ∧
      if op.isComparison then hi' ≤ 1 else hi' < 2 ^ ty.bits) ∨
      op = .uShr ∧ (b.max < 0 ∨ b.min ≥ ty.bits) := by
  obtain ⟨h1, h2, h3, h4⟩ := unsignedBounds_mono h ha hla haa
  simp only [unsignedRange] at hr ⊢
  cases op
  case uDiv =>
    obtain ⟨g1, g2, g3, g4⟩ := unsignedBounds_mono h (hb rfl) hlb hbb
    simp only at hr ⊢
    split_ifs at hr with h0
    obtain ⟨rfl, rfl⟩ := Prod.mk.inj (Except.ok.inj hr)
    rw [if_neg (by omega)]
    exact .inl ⟨_, _, rfl, Nat.div_le_div h1 g3 (by omega), Nat.div_le_div h2 g2 (by omega),
      Nat.div_le_div h3 g1 (by omega), (Nat.div_le_self _ _).trans_lt h4⟩
  case uRem =>
    obtain ⟨g1, g2, g3, g4⟩ := unsignedBounds_mono h (hb rfl) hlb hbb
    simp only at hr ⊢
    split_ifs at hr with h0
    obtain ⟨rfl, rfl⟩ := Prod.mk.inj (Except.ok.inj hr)
    rw [if_neg (by omega)]
    exact .inl ⟨_, _, rfl, le_rfl, Nat.zero_le _, by omega, (min_le_left _ _).trans_lt h4⟩
  case uShr =>
    by_cases hout' : b.max < 0 ∨ b.min ≥ ty.bits
    · exact .inr ⟨rfl, hout'⟩
    obtain ⟨hb1, hb2⟩ := hbb
    simp only at hr ⊢
    by_cases hneg : b'.min < 0
    · rw [if_neg (by omega), if_pos hneg] at hr
      cases hr
    have hmin : u64 b.min = b.min.toNat :=
      u64_of_nonneg ⟨hb64.1.1.trans hb1, (hlb.trans hb2).trans_lt hb64.2.2⟩ (by omega)
    have hmax : u64 b.max = b.max.toNat :=
      u64_of_nonneg ⟨(hb64.1.1.trans hb1).trans hlb, hb2.trans_lt hb64.2.2⟩ (by omega)
    have hmin' : u64 b'.min = b'.min.toNat := u64_of_nonneg hb64.1 (by omega)
    have hmax' : u64 b'.max = b'.max.toNat := u64_of_nonneg hb64.2 (by omega)
    have hdiv {m n s t : ℕ} (hmn : m ≤ n) (hst : s ≤ t) : m / 2 ^ t ≤ n / 2 ^ s :=
      Nat.div_le_div hmn (Nat.pow_le_pow_right (by norm_num) hst) (by positivity)
    rw [if_neg (by omega), if_neg hneg] at hr
    rw [if_neg hout', if_neg (by omega)]
    obtain ⟨rfl, rfl⟩ := Prod.mk.inj (Except.ok.inj hr)
    simp only [hmin, hmax, hmin', hmax', Nat.shiftRight_eq_div_pow]
    refine .inl ⟨_, _, rfl, ?_, ?_, hdiv h3 (by omega), (Nat.div_le_self _ _).trans_lt h4⟩
    · split_ifs
      · exact Nat.zero_le _
      · exact Nat.zero_le _
      · omega
      · exact hdiv h1 (by omega)
    · split_ifs
      · exact Nat.zero_le _
      · exact hdiv h2 (by omega)
  case uLt | uLe | uGt | uGe =>
    obtain ⟨g1, g2, g3, g4⟩ := unsignedBounds_mono h (hb rfl) hlb hbb
    obtain ⟨rfl, rfl⟩ := Prod.mk.inj (Except.ok.inj hr)
    refine .inl ⟨_, _, rfl, ?_, ?_, ?_, Bool.toNat_le _⟩ <;>
      refine Bool.toNat_le_toNat (fun hd => ?_) <;>
      simp only [decide_eq_true_eq] at hd ⊢ <;> omega
  all_goals cases hr

/-! ### Bitwise operators -/

theorem varyingLen_mono (ha : a'.Sub (dtToLattice ty)) (hle : a.min ≤ a.max) (haa : a.Sub a') :
    varyingLen ty a ≤ varyingLen ty a' := by
  rw [varyingLen, Nat.size_le, lt_two_pow_iff_testBit]
  intro i hi
  rw [Nat.testBit_xor, testBit_unsigned_of_contains h ha (haa.contains ⟨le_rfl, hle⟩) hi,
    testBit_unsigned_of_contains h ha (haa.contains ⟨hle, le_rfl⟩) hi, Bool.xor_self]

theorem knownBits_self : BitsLe (knownBits a (dtMask ty)).1 (knownBits a (dtMask ty)).2 := by
  intro i hi
  rw [(testBit_knownBits h i).1, Bool.and_eq_true] at hi
  rw [(testBit_knownBits h i).2, hi.1, Bool.true_or]

/-- Larger intervals have fewer known and more possible bits. -/
theorem knownBits_mono (ha : a'.Sub (dtToLattice ty)) (hle : a.min ≤ a.max) (haa : a.Sub a') :
    BitsLe (knownBits a' (dtMask ty)).1 (knownBits a (dtMask ty)).1 ∧
      BitsLe (knownBits a (dtMask ty)).2 (knownBits a' (dtMask ty)).2 := by
  have hlen := varyingLen_mono h ha hle haa
  have hbit {i : ℕ} (hi : varyingLen ty a' ≤ i) :
      (unsigned ty.bits a.min).testBit i = (unsigned ty.bits a'.min).testBit i :=
    testBit_unsigned_of_contains h ha (haa.contains ⟨le_rfl, hle⟩) hi
  refine ⟨fun i hi => ?_, fun i hi => ?_⟩
  · rw [(testBit_knownBits h i).1, Bool.and_eq_true, decide_eq_true_eq] at hi ⊢
    exact ⟨hbit hi.2 ▸ hi.1, hlen.trans hi.2⟩
  · rw [(testBit_knownBits h i).2, Bool.or_eq_true, decide_eq_true_eq] at hi ⊢
    by_cases hk : i < varyingLen ty a'
    · exact .inr hk
    · rw [← hbit (Nat.le_of_not_lt hk)]
      exact .inl (hi.resolve_right (by omega))

omit h in
theorem bitRange_mono (op : BinOp) {a₁ a₁' a₂ a₂' b₁ b₁' b₂ b₂' : ℕ} (ha : BitsLe a₁' a₁) (ha' : BitsLe a₁ a₂)
    (ha'' : BitsLe a₂ a₂') (hb : BitsLe b₁' b₁) (hb' : BitsLe b₁ b₂) (hb'' : BitsLe b₂ b₂') :
    BitsLe (bitRange op a₁' a₂' b₁' b₂').1 (bitRange op a₁ a₂ b₁ b₂).1 ∧
      BitsLe (bitRange op a₁ a₂ b₁ b₂).1 (bitRange op a₁ a₂ b₁ b₂).2 ∧
      BitsLe (bitRange op a₁ a₂ b₁ b₂).2 (bitRange op a₁' a₂' b₁' b₂').2 := by
  rw [BitsLe, BitsLe, BitsLe, ← forall_and, ← forall_and]
  intro i
  have h₁ := ha i
  have h₂ := ha' i
  have h₃ := ha'' i
  have h₄ := hb i
  have h₅ := hb' i
  have h₆ := hb'' i
  cases op <;>
    simp only [bitRange, Nat.testBit_and, Nat.testBit_or, testBit_andNot, imp_self, and_self] <;>
    grind

/-- The bounds of the interval of two masks are numbers between the masks. -/
theorem bitLattice_bounds {one possible : ℕ} (hle : BitsLe one possible)
    (hlt : possible < 2 ^ ty.bits) :
    ∃ m n : ℕ, (BitsLe one m ∧ BitsLe m possible) ∧ (BitsLe one n ∧ BitsLe n possible) ∧
      bitLattice ty one possible = .ofBounds (wrap ty.bits m) (wrap ty.bits n) := by
  have hw := Datatype.bits_pos h
  have hw' := Datatype.bits_le h
  unfold bitLattice
  simp only [Nat.one_shiftLeft, ne_eq, and_two_pow_eq_zero, Bool.not_eq_false, sext_i64 h]
  split_ifs with hs
  · refine ⟨one ||| 2 ^ (ty.bits - 1), andNot possible (2 ^ (ty.bits - 1)), ⟨?_, ?_⟩, ⟨?_, ?_⟩, ?_⟩
    · intro i hi
      rw [Nat.testBit_or, hi, Bool.true_or]
    · intro i hi
      rw [Nat.testBit_or, Bool.or_eq_true, Nat.testBit_two_pow, decide_eq_true_eq] at hi
      rcases hi with hi | rfl
      · exact hle i hi
      · exact hs.1
    · intro i hi
      have hne : ty.bits - 1 ≠ i := by
        rintro rfl
        simp [hs.2] at hi
      simp [testBit_andNot, hle i hi, Nat.testBit_two_pow_of_ne hne]
    · intro i hi
      rw [testBit_andNot, Bool.and_eq_true] at hi
      exact hi.1
    · have hlt' : andNot possible (2 ^ (ty.bits - 1)) < 2 ^ (ty.bits - 1) :=
        andNot_sign_lt hlt
      rw [i64, wrap_natCast_of_lt hw hlt', wrap_natCast_of_lt (by norm_num)
        (hlt'.trans_le (Nat.pow_le_pow_right (by norm_num) (by omega)))]
  · exact ⟨one, possible, ⟨fun _ hi => hi, hle⟩, ⟨hle, fun _ hi => hi⟩, rfl⟩

theorem bitLattice_mono {one one' possible possible' : ℕ} (h₁ : BitsLe one' one)
    (h₂ : BitsLe one possible) (h₃ : BitsLe possible possible') (hlt : possible' < 2 ^ ty.bits) :
    (bitLattice ty one possible).Sub (bitLattice ty one' possible') := by
  obtain ⟨m, n, hm, hn, e⟩ := bitLattice_bounds h h₂ (h₃.le.trans_lt hlt)
  rw [e]
  exact .of_contains (bitLattice_contains h (h₁.trans hm.1) (hm.2.trans h₃) hlt)
    (bitLattice_contains h (h₁.trans hn.1) (hn.2.trans h₃) hlt)

/-! ### Signed operators -/

omit h in
theorem signedLattice_mono {lo lo' hi hi' : ℤ} (hlo : lo' ≤ lo) (hhi : hi ≤ hi') :
    (signedLattice op ty lo hi).Sub (signedLattice op ty lo' hi') := by
  simp only [signedLattice]
  split_ifs with h1 h2 h2
  · exact .refl _
  · exact absurd ⟨h1.1, by have := h1.2; omega⟩ h2
  · have : ¬ (lo < (dtToLattice ty).min ∨ hi > (dtToLattice ty).max) := fun hc => h1 ⟨h2.1, hc⟩
    exact ⟨by simp only [Lattice.ofBounds]; omega, by simp only [Lattice.ofBounds]; omega⟩
  · exact ⟨hlo, hhi⟩

omit h in
/-- Corner values inside the larger hull give a smaller hull. -/
theorem hull4_mono {v₀ v₁ v₂ v₃ lo hi : ℤ} (h₀ : lo ≤ v₀ ∧ v₀ ≤ hi) (h₁ : lo ≤ v₁ ∧ v₁ ≤ hi)
    (h₂ : lo ≤ v₂ ∧ v₂ ≤ hi) (h₃ : lo ≤ v₃ ∧ v₃ ≤ hi) :
    lo ≤ (hull4 v₀ v₁ v₂ v₃).1 ∧ (hull4 v₀ v₁ v₂ v₃).2 ≤ hi := by
  simp only [hull4]
  omega

omit h in
/-- The hull of the corners grows with the intervals. -/
theorem hull4_corners_mono {α : Type*} [PartialOrder α] {f : ℤ → α → ℤ} {m n m' n' : ℤ}
    {c d c' d' : α} (hmn : m ≤ n) (hcd : c ≤ d) (hm : m' ≤ m) (hn : n ≤ n') (hc : c' ≤ c)
    (hd : d ≤ d')
    (hf : ∀ y ∈ Icc c' d', MonotoneOn (f · y) (Icc m' n') ∨ AntitoneOn (f · y) (Icc m' n'))
    (hg : ∀ x ∈ Icc m' n', MonotoneOn (f x) (Icc c' d') ∨ AntitoneOn (f x) (Icc c' d')) :
    (hull4 (f m' c') (f m' d') (f n' c') (f n' d')).1 ≤
        (hull4 (f m c) (f m d) (f n c) (f n d)).1 ∧
      (hull4 (f m c) (f m d) (f n c) (f n d)).2 ≤
        (hull4 (f m' c') (f m' d') (f n' c') (f n' d')).2 := by
  have hM : m ∈ Icc m' n' := ⟨hm, hmn.trans hn⟩
  have hN : n ∈ Icc m' n' := ⟨hm.trans hmn, hn⟩
  have hC : c ∈ Icc c' d' := ⟨hc, hcd.trans hd⟩
  have hD : d ∈ Icc c' d' := ⟨hc.trans hcd, hd⟩
  exact hull4_mono (hull4_corners hM hC (hf c hC) hg) (hull4_corners hM hD (hf d hD) hg)
    (hull4_corners hN hC (hf c hC) hg) (hull4_corners hN hD (hf d hD) hg)

omit h in
theorem mulRange_mono (hla : a.min ≤ a.max) (hlb : b.min ≤ b.max) (haa : a.Sub a') (hbb : b.Sub b')
    {lo' hi' : ℤ} (hr : mulRange a' b' res = .ok (lo', hi')) :
    ∃ lo hi, mulRange a b res = .ok (lo, hi) ∧ lo' ≤ lo ∧ hi ≤ hi' := by
  simp only [mulRange] at hr
  split at hr
  next v₀ v₁ v₂ v₃ h₀ h₁ h₂ h₃ =>
    rw [checked_eq_some] at h₀ h₁ h₂ h₃
    -- every corner of the smaller intervals lies between the larger ones, so it fits as well
    have hin {x y : ℤ} (hx : x ∈ Icc a'.min a'.max) (hy : y ∈ Icc b'.min b'.max) :
        InS 64 (x * y) ∧ lo' ≤ x * y ∧ x * y ≤ hi' := by
      have hc := hull4_corners (f := fun x y => x * y) hx hy
        (by simpa only [mul_comm] using mul_monotoneOn y _) (fun x _ => mul_monotoneOn x _)
      have hi := hull4_mono h₀.1.bounds h₁.1.bounds h₂.1.bounds h₃.1.bounds
      rw [h₀.2, h₁.2, h₂.2, h₃.2, Except.ok.inj hr] at hc hi
      exact ⟨⟨hi.1.trans hc.1, Int.lt_of_le_sub_one (hc.2.trans hi.2)⟩, hc⟩
    have hM : a.min ∈ Icc a'.min a'.max := ⟨haa.1, hla.trans haa.2⟩
    have hN : a.max ∈ Icc a'.min a'.max := ⟨haa.1.trans hla, haa.2⟩
    have hC : b.min ∈ Icc b'.min b'.max := ⟨hbb.1, hlb.trans hbb.2⟩
    have hD : b.max ∈ Icc b'.min b'.max := ⟨hbb.1.trans hlb, hbb.2⟩
    have hk {x y : ℤ} (hx : x ∈ Icc a'.min a'.max) (hy : y ∈ Icc b'.min b'.max) :
        checked (x * y) = some (x * y) := checked_eq_some.2 ⟨(hin hx hy).1, rfl⟩
    have hb := hull4_mono (hin hM hC).2 (hin hM hD).2 (hin hN hC).2 (hin hN hD).2
    exact ⟨_, _, by simp only [mulRange, hk hM hC, hk hM hD, hk hN hC, hk hN hD], hb⟩
  next => cases hr

theorem divRange_mono (ha : a'.Sub (dtToLattice ty))
    (ht : mayTrap a' .div b' (dtToLattice ty) = false)
    (hla : a.min ≤ a.max) (hlb : b.min ≤ b.max) (haa : a.Sub a') (hbb : b.Sub b')
    {lo' hi' : ℤ} (hr : signedRange a' .div b' ty res = .ok (lo', hi')) :
    ∃ lo hi, signedRange a .div b ty res = .ok (lo, hi) ∧ lo' ≤ lo ∧ hi ≤ hi' := by
  have hexact : ∀ u ∈ Icc a'.min a'.max, ∀ d ∈ Icc b'.min b'.max, wrap 64 (u.tdiv d) = u.tdiv d :=
    fun u hu d hd => wrap_tdiv h ha ht hu hd
  have hM : a.min ∈ Icc a'.min a'.max := ⟨haa.1, hla.trans haa.2⟩
  have hN : a.max ∈ Icc a'.min a'.max := ⟨haa.1.trans hla, haa.2⟩
  have hC : b.min ∈ Icc b'.min b'.max := ⟨hbb.1, hlb.trans hbb.2⟩
  have hD : b.max ∈ Icc b'.min b'.max := ⟨hbb.1.trans hlb, hbb.2⟩
  have hla' := haa.1.trans (hla.trans haa.2)
  have hlb' := hbb.1.trans (hlb.trans hbb.2)
  simp only [mayTrap, Bool.or_eq_false_iff, Bool.and_eq_false_iff, decide_eq_false_iff_not] at ht
  have hm := hull4_corners_mono (f := fun x y => x.tdiv y) hla hlb haa.1 haa.2 hbb.1 hbb.2
    (fun y hy => tdiv_left_monotoneOn (by have := hy.1; have := hy.2; omega) _)
    (fun x _ => tdiv_monotoneOn x (by omega))
  simp only [signedRange, hexact _ ⟨le_rfl, hla'⟩ _ ⟨le_rfl, hlb'⟩,
    hexact _ ⟨le_rfl, hla'⟩ _ ⟨hlb', le_rfl⟩, hexact _ ⟨hla', le_rfl⟩ _ ⟨le_rfl, hlb'⟩,
    hexact _ ⟨hla', le_rfl⟩ _ ⟨hlb', le_rfl⟩] at hr
  rw [Except.ok.inj hr] at hm
  exact ⟨_, _, by simp only [signedRange, hexact _ hM _ hC, hexact _ hM _ hD, hexact _ hN _ hC,
    hexact _ hN _ hD], hm⟩

omit h in
theorem remRange_mono (ht : mayTrap a' .rem b' (dtToLattice ty) = false)
    (hlb : b.min ≤ b.max) (haa : a.Sub a') (hbb : b.Sub b')
    {lo' hi' : ℤ} (hr : signedRange a' .rem b' ty res = .ok (lo', hi')) :
    ∃ lo hi, signedRange a .rem b ty res = .ok (lo, hi) ∧ lo' ≤ lo ∧ hi ≤ hi' := by
  simp only [mayTrap, Bool.or_eq_false_iff, Bool.and_eq_false_iff, decide_eq_false_iff_not] at ht
  obtain ⟨haa1, haa2⟩ := haa
  obtain ⟨hbb1, hbb2⟩ := hbb
  obtain ⟨rfl, rfl⟩ := Prod.mk.inj (Except.ok.inj hr)
  refine ⟨_, _, rfl, ?_, ?_⟩
  · split_ifs <;> omega
  · split_ifs <;> omega

omit h in
/-- The counts of a shift whose interval is not out of range. -/
theorem shift_counts (hb64 : InS 64 b'.min ∧ InS 64 b'.max) (hlb : b.min ≤ b.max) (hbb : b.Sub b')
    (hneg : ¬ b'.min < 0) :
    u64 b.min = b.min.toNat ∧ u64 b.max = b.max.toNat ∧ u64 b'.min = b'.min.toNat ∧
      u64 b'.max = b'.max.toNat := by
  obtain ⟨h1, h2⟩ := hbb
  exact ⟨u64_of_nonneg ⟨hb64.1.1.trans h1, (hlb.trans h2).trans_lt hb64.2.2⟩ (by omega),
    u64_of_nonneg ⟨(hb64.1.1.trans h1).trans hlb, h2.trans_lt hb64.2.2⟩ (by omega),
    u64_of_nonneg hb64.1 (by omega), u64_of_nonneg hb64.2 (by omega)⟩

theorem shlRange_mono (hb64 : InS 64 b'.min ∧ InS 64 b'.max)
    (hla : a.min ≤ a.max) (hlb : b.min ≤ b.max) (haa : a.Sub a') (hbb : b.Sub b')
    (hout : ¬ (b.max < 0 ∨ b.min ≥ ty.bits)) {lo' hi' : ℤ}
    (hr : signedRange a' .shl b' ty res = .ok (lo', hi')) :
    ∃ lo hi, signedRange a .shl b ty res = .ok (lo, hi) ∧ lo' ≤ lo ∧ hi ≤ hi' := by
  have hw := Datatype.bits_pos h
  simp only [signedRange, shiftRange, ne_eq, reduceCtorEq, not_false_eq_true, ↓reduceIte] at hr ⊢
  have hbb' := hbb
  obtain ⟨hb1, hb2⟩ := hbb
  rw [if_neg (by omega)] at hr
  by_cases hneg : b'.min < 0
  · rw [if_pos hneg] at hr
    cases hr
  obtain ⟨e1, e2, e3, e4⟩ := shift_counts hb64 hlb hbb' hneg
  rw [if_neg hneg, e3, e4] at hr
  rw [if_neg hout, if_neg (by omega), e1, e2]
  set m := min b.max.toNat (ty.bits - 1) with hm
  set m' := min b'.max.toNat (ty.bits - 1) with hm'
  by_cases hfit' : a'.min < shr64 (dtToLattice ty).min m' ∨ a'.max > shr64 (dtToLattice ty).max m'
  · rw [if_pos hfit'] at hr
    cases hr
  rw [if_neg hfit', Except.ok.injEq] at hr
  have hmm : m ≤ m' := by omega
  rw [not_or, not_lt, not_lt] at hfit'
  have hmin := dtToLattice_min h
  have hmax := dtToLattice_max h
  have hp : (0 : ℤ) < 2 ^ (ty.bits - 1) := by positivity
  have hlow : shr64 (dtToLattice ty).min m ≤ a.min :=
    ((ediv_pow_le_of_neg (by omega) hmm).trans hfit'.1).trans haa.1
  have hhigh : a.max ≤ shr64 (dtToLattice ty).max m :=
    (haa.2.trans hfit'.2).trans (ediv_pow_le_of_nonneg (by omega) hmm)
  rw [if_neg (by omega)]
  rw [shr64, shr64, hmin, hmax] at hfit'
  have hexact {u : ℤ} (hu : u ∈ Icc a'.min a'.max) {s : ℕ} (hs : s ≤ m') :
      shl64 u s = u * 2 ^ s :=
    shl64_eq h (by omega) (inS_mul_pow (by omega) hs (hfit'.1.trans hu.1) (hu.2.trans hfit'.2))
  have hla' := haa.1.trans (hla.trans haa.2)
  have hM : a.min ∈ Icc a'.min a'.max := ⟨haa.1, hla.trans haa.2⟩
  have hN : a.max ∈ Icc a'.min a'.max := ⟨haa.1.trans hla, haa.2⟩
  rw [hexact ⟨le_rfl, hla'⟩ (by omega), hexact ⟨le_rfl, hla'⟩ le_rfl,
    hexact ⟨hla', le_rfl⟩ (by omega), hexact ⟨hla', le_rfl⟩ le_rfl] at hr
  rw [hexact hM (by omega), hexact hM hmm, hexact hN (by omega), hexact hN hmm]
  have hc := hull4_corners_mono (f := fun (x : ℤ) (k : ℕ) => x * 2 ^ k) (c := b.min.toNat)
    (d := m) hla (by omega) haa.1 haa.2 (show b'.min.toNat ≤ b.min.toNat by omega) hmm
    (fun _ _ => .inl fun _ _ _ _ huv => mul_le_mul_of_nonneg_right huv (by positivity))
    (fun x _ => mul_pow_monotoneOn x _)
  by_cases hz : b.max ≥ ty.bits
  · rw [if_pos (by omega)] at hr
    rw [if_pos hz]
    obtain ⟨rfl, rfl⟩ := Prod.mk.inj hr
    exact ⟨_, _, rfl, min_le_min_right 0 hc.1, max_le_max_right 0 hc.2⟩
  · rw [if_neg hz]
    split_ifs at hr
    · obtain ⟨rfl, rfl⟩ := Prod.mk.inj hr
      exact ⟨_, _, rfl, min_le_of_left_le hc.1, le_max_of_le_left hc.2⟩
    · rw [hr] at hc
      exact ⟨_, _, rfl, hc⟩

theorem shrRange_mono (hb64 : InS 64 b'.min ∧ InS 64 b'.max)
    (hla : a.min ≤ a.max) (hlb : b.min ≤ b.max) (haa : a.Sub a') (hbb : b.Sub b') {lo' hi' : ℤ}
    (hr : signedRange a' .shr b' ty res = .ok (lo', hi')) :
    ∃ lo hi, signedRange a .shr b ty res = .ok (lo, hi) ∧ lo' ≤ lo ∧ hi ≤ hi' := by
  have hw := Datatype.bits_pos h
  have hf (k : ℕ) (s : Set ℤ) : MonotoneOn (fun x : ℤ => x / 2 ^ k) s :=
    fun _ _ _ _ huv => Int.ediv_le_ediv (by positivity) huv
  have hbb' := hbb
  obtain ⟨ha1, ha2⟩ := haa
  obtain ⟨hb1, hb2⟩ := hbb
  simp only [signedRange, shiftRange, ne_eq, not_true_eq_false, reduceCtorEq, ↓reduceIte,
    shr64] at hr ⊢
  by_cases hout' : b'.max < 0 ∨ b'.min ≥ ty.bits
  · rw [if_pos hout', Except.ok.injEq] at hr
    rw [if_pos (by omega)]
    obtain ⟨rfl, rfl⟩ := Prod.mk.inj hr
    exact ⟨_, _, rfl, Int.ediv_le_ediv (by positivity) ha1, Int.ediv_le_ediv (by positivity) ha2⟩
  rw [if_neg hout'] at hr
  by_cases hneg : b'.min < 0
  · rw [if_pos hneg] at hr
    cases hr
  obtain ⟨e1, e2, e3, e4⟩ := shift_counts hb64 hlb hbb' hneg
  rw [if_neg hneg, e3, e4, Except.ok.injEq] at hr
  by_cases hout : b.max < 0 ∨ b.min ≥ ty.bits
  · -- the larger interval still has counts in range, and its largest count is the width less one
    rw [if_pos hout]
    have hc {x : ℤ} (hx : x ∈ Icc a'.min a'.max) :=
      hull4_corners (f := fun (x : ℤ) (k : ℕ) => x / 2 ^ k) (c := b'.min.toNat)
        (d := min b'.max.toNat (ty.bits - 1)) (y := ty.bits - 1) hx ⟨by omega, by omega⟩
        (.inl (hf _ _)) (fun x _ => ediv_pow_monotoneOn x _)
    rw [hr] at hc
    exact ⟨_, _, rfl, (hc ⟨ha1, hla.trans ha2⟩).1, (hc ⟨ha1.trans hla, ha2⟩).2⟩
  · rw [if_neg hout, if_neg (by omega), e1, e2]
    have hc := hull4_corners_mono (f := fun (x : ℤ) (k : ℕ) => x / 2 ^ k) (c := b.min.toNat)
      (d := min b.max.toNat (ty.bits - 1)) hla (by omega) ha1 ha2
      (show b'.min.toNat ≤ b.min.toNat by omega)
      (show min b.max.toNat (ty.bits - 1) ≤ min b'.max.toNat (ty.bits - 1) by omega)
      (fun y _ => .inl (hf _ _)) (fun x _ => ediv_pow_monotoneOn x _)
    rw [hr] at hc
    exact ⟨_, _, rfl, hc⟩

theorem signedRange_mono (ha : a'.Sub (dtToLattice ty))
    (hb64 : InS 64 b'.min ∧ InS 64 b'.max) (ht : mayTrap a' op b' (dtToLattice ty) = false)
    (hla : a.min ≤ a.max) (hlb : b.min ≤ b.max) (haa : a.Sub a') (hbb : b.Sub b') {lo' hi' : ℤ}
    (hr : signedRange a' op b' ty res = .ok (lo', hi')) :
    (∃ lo hi, signedRange a op b ty res = .ok (lo, hi) ∧ lo' ≤ lo ∧ hi ≤ hi') ∨
      op = .shl ∧ (b.max < 0 ∨ b.min ≥ ty.bits) := by
  cases op
  case add =>
    left
    obtain ⟨ha1, ha2⟩ := haa
    obtain ⟨hb1, hb2⟩ := hbb
    simp only [signedRange] at hr ⊢
    split at hr
    next l u hl hu =>
      rw [checked_eq_some] at hl hu
      obtain ⟨⟨hl1, hl2⟩, rfl⟩ := hl
      obtain ⟨⟨hu1, hu2⟩, rfl⟩ := hu
      obtain ⟨rfl, rfl⟩ := Prod.mk.inj (Except.ok.inj hr)
      rw [checked_eq_some.2 ⟨⟨by omega, by omega⟩, rfl⟩,
        checked_eq_some.2 ⟨⟨by omega, by omega⟩, rfl⟩]
      exact ⟨_, _, rfl, by omega, by omega⟩
    next => cases hr
  case sub =>
    left
    obtain ⟨ha1, ha2⟩ := haa
    obtain ⟨hb1, hb2⟩ := hbb
    simp only [signedRange] at hr ⊢
    split at hr
    next l u hl hu =>
      rw [checked_eq_some] at hl hu
      obtain ⟨⟨hl1, hl2⟩, rfl⟩ := hl
      obtain ⟨⟨hu1, hu2⟩, rfl⟩ := hu
      obtain ⟨rfl, rfl⟩ := Prod.mk.inj (Except.ok.inj hr)
      rw [checked_eq_some.2 ⟨⟨by omega, by omega⟩, rfl⟩,
        checked_eq_some.2 ⟨⟨by omega, by omega⟩, rfl⟩]
      exact ⟨_, _, rfl, by omega, by omega⟩
    next => cases hr
  case mul => exact .inl (mulRange_mono hla hlb haa hbb hr)
  case div => exact .inl (divRange_mono h ha ht hla hlb haa hbb hr)
  case rem => exact .inl (remRange_mono ht hlb haa hbb hr)
  case shl =>
    by_cases hout : b.max < 0 ∨ b.min ≥ ty.bits
    · exact .inr ⟨rfl, hout⟩
    · exact .inl (shlRange_mono h hb64 hla hlb haa hbb hout hr)
  case shr => exact .inl (shrRange_mono h hb64 hla hlb haa hbb hr)
  case eq | ne =>
    obtain ⟨ha1, ha2⟩ := haa
    obtain ⟨hb1, hb2⟩ := hbb
    simp only [signedRange] at hr ⊢
    left
    by_cases hs' : a'.max < b'.min ∨ b'.max < a'.min
    · rw [if_pos hs'] at hr
      rw [if_pos (by omega)]
      exact ⟨lo', hi', hr, le_rfl, le_rfl⟩
    · rw [if_neg hs'] at hr
      obtain ⟨rfl, rfl⟩ := Prod.mk.inj (Except.ok.inj hr)
      split_ifs
      · exact ⟨_, _, rfl, by decide, by decide⟩
      · exact ⟨_, _, rfl, le_rfl, le_rfl⟩
  case lt | le | gt | ge =>
    obtain ⟨ha1, ha2⟩ := haa
    obtain ⟨hb1, hb2⟩ := hbb
    obtain ⟨rfl, rfl⟩ := Prod.mk.inj (Except.ok.inj hr)
    refine .inl ⟨_, _, rfl, boolToInt_mono ?_, boolToInt_mono ?_⟩ <;>
      simp only [decide_eq_true_eq] <;> omega
  all_goals cases hr

/-! ### Every operator -/

theorem ofBounds_wrap_sub (m n : ℤ) :
    (Lattice.ofBounds (wrap ty.bits m) (wrap ty.bits n)).Sub (dtToLattice ty) := by
  have hw := Datatype.bits_pos h
  exact .of_contains ((dtToLattice_contains_iff h).2 (wrap_mem hw m))
    ((dtToLattice_contains_iff h).2 (wrap_mem hw n))

omit h in
theorem ofBounds_bool_sub (p q : Bool) :
    (Lattice.ofBounds (boolToInt p) (boolToInt q)).Sub boolLattice :=
  .of_contains (boolLattice_contains p) (boolLattice_contains q)

theorem ofBounds_zero_sub : (Lattice.ofBounds 0 0).Sub (dtToLattice ty) := by
  have h0 : (dtToLattice ty).Contains 0 :=
    (dtToLattice_contains_iff h).2 ⟨by simp, by positivity⟩
  exact .of_contains h0 h0

theorem unsignedLattice_sub {lo hi : ℕ}
    (hr : unsignedRange a op b ty res = .ok (lo, hi)) :
    (unsignedLattice op ty lo hi).Sub
      (if op.isComparison then boolLattice else dtToLattice ty) := by
  cases hop : op.isComparison with
  | false =>
    simp only [unsignedLattice, hop, Bool.false_eq_true, ↓reduceIte, sext_i64 h]
    split_ifs
    · exact .refl _
    · exact ofBounds_wrap_sub h lo hi
  | true =>
    simp only [unsignedLattice, hop, ↓reduceIte]
    cases op <;> simp only [BinOp.isComparison, Bool.false_eq_true] at hop <;>
      simp only [unsignedRange, reduceCtorEq] at hr
    all_goals
      obtain ⟨rfl, rfl⟩ := Prod.mk.inj (Except.ok.inj hr)
      rw [i64_toNat, i64_toNat]
      exact ofBounds_bool_sub _ _

omit h in
theorem signedLattice_sub {lo hi : ℤ}
    (hr : signedRange a op b ty res = .ok (lo, hi)) :
    (signedLattice op ty lo hi).Sub
      (if op.isComparison then boolLattice else dtToLattice ty) := by
  cases hop : op.isComparison with
  | false =>
    simp only [signedLattice, hop, Bool.not_false, true_and, Bool.false_eq_true, ↓reduceIte]
    split_ifs with hs
    · exact .refl _
    · exact ⟨by simp only [Lattice.ofBounds]; omega, by simp only [Lattice.ofBounds]; omega⟩
  | true =>
    simp only [signedLattice, hop, Bool.not_true, Bool.false_eq_true, false_and, ↓reduceIte]
    cases op <;> simp only [BinOp.isComparison, Bool.false_eq_true] at hop <;>
      simp only [signedRange, reduceCtorEq] at hr
    case eq | ne =>
      split_ifs at hr <;> obtain ⟨rfl, rfl⟩ := Prod.mk.inj (Except.ok.inj hr)
      · exact ofBounds_bool_sub _ _
      · exact .refl _
    all_goals
      obtain ⟨rfl, rfl⟩ := Prod.mk.inj (Except.ok.inj hr)
      exact ofBounds_bool_sub _ _

/-- A folded interval lies in the widest lattice of the operator. -/
theorem foldRangeLattice_sub (a : Lattice) (op : BinOp) (b : Lattice) :
    (foldRangeLattice a op b ty (if op.isComparison then boolLattice else dtToLattice ty)).Sub
      (if op.isComparison then boolLattice else dtToLattice ty) := by
  have hzero {r : Lattice} (hr : r = (if op.isComparison then boolLattice else dtToLattice ty) ∨
      (op = .uShr ∨ op = .shl) ∧ r = .ofBounds 0 0) :
      r.Sub (if op.isComparison then boolLattice else dtToLattice ty) := by
    obtain rfl | ⟨rfl | rfl, rfl⟩ := hr
    · exact .refl _
    · exact ofBounds_zero_sub h
    · exact ofBounds_zero_sub h
  unfold foldRangeLattice
  cases op
  case uDiv | uRem | uLt | uLe | uGt | uGe | uShr =>
    simp only
    split
    next r hr => exact hzero ((unsignedRange_error hr).imp_right fun hc => ⟨.inl hc.1, hc.2.2⟩)
    next lo hi hr => exact unsignedLattice_sub h hr
  case and | or | xor | andNot =>
    have hrefl (l : Lattice) := knownBits_self h (a := l)
    obtain ⟨m, n, -, -, e⟩ := bitLattice_bounds h
      (bitRange_mono _ (fun _ hi => hi) (hrefl a) (fun _ hi => hi) (fun _ hi => hi) (hrefl b)
        (fun _ hi => hi)).2.1
      (bitRange_lt _ _ _ (knownBits_lt h (a := a)) (knownBits_lt h (a := b)))
    simp only
    rw [e]
    exact ofBounds_wrap_sub h m n
  all_goals
    simp only
    split
    next r hr => exact hzero ((signedRange_error hr).imp_right fun hc => ⟨.inr hc.1, hc.2.2⟩)
    next lo hi hr => exact signedLattice_sub hr

/-- A shift out of range folds to zero, which soundness covers at the larger intervals. -/
theorem zero_sub_foldRangeLattice (hop : op = .uShr ∨ op = .shl) (ha : a'.Sub (dtToLattice ty))
    (hb64 : InS 64 b'.min ∧ InS 64 b'.max) (hla : a.min ≤ a.max) (hlb : b.min ≤ b.max)
    (haa : a.Sub a') (hbb : b.Sub b') (hout : b.max < 0 ∨ b.min ≥ ty.bits) :
    (Lattice.ofBounds 0 0).Sub (foldRangeLattice a' op b' ty (dtToLattice ty)) := by
  have hx := haa.contains ⟨le_rfl, hla⟩
  have hy := hbb.contains ⟨le_rfl, hlb⟩
  have hv : machine op ty.bits a.min b.min = some 0 := by
    rcases hop with rfl | rfl
    · rw [machine_uShr, if_neg (by omega)]
    · rw [machine_shl, if_neg (by omega)]
  have hc : (foldRangeLattice a' op b' ty (dtToLattice ty)).Contains 0 :=
    foldRangeLattice_contains h ha (fun hs => by rcases hop with rfl | rfl <;> cases hs) hb64 hx hy
    (by rcases hop with rfl | rfl <;> rfl) hv
    ((dtToLattice_contains_iff h).2 ⟨by simp, by positivity⟩)
  exact .of_contains hc hc

section Match

variable (ha : a'.Sub (dtToLattice ty))
  (hb : op.isShift = false → b'.Sub (dtToLattice ty)) (hb64 : InS 64 b'.min ∧ InS 64 b'.max)
  (hla : a.min ≤ a.max) (hlb : b.min ≤ b.max) (haa : a.Sub a') (hbb : b.Sub b')

include ha hb64 hla hlb haa hbb

include hb in
theorem unsignedFold_mono {l l' : Lattice}
    (hl : l = match unsignedRange a op b ty res with
      | .error r => r
      | .ok (lo, hi) => unsignedLattice op ty lo hi)
    (hl' : l' = match unsignedRange a' op b' ty res with
      | .error r => r
      | .ok (lo, hi) => unsignedLattice op ty lo hi)
    (hres : l.Sub res)
    (hzero : op = .uShr → b.max < 0 ∨ b.min ≥ ty.bits → (Lattice.ofBounds 0 0).Sub l') :
    l.Sub l' := by
  have hout (hop : op = .uShr) (ho : b.max < 0 ∨ b.min ≥ ty.bits) : l = .ofBounds 0 0 := by
    subst hop
    simp only [unsignedRange, ho, ↓reduceIte] at hl
    exact hl
  rcases hr' : unsignedRange a' op b' ty res with r' | ⟨lo', hi'⟩
  · simp only [hr'] at hl'
    obtain hr | ⟨hop, ho, hr⟩ := unsignedRange_error hr'
    · rw [hl', hr]
      exact hres
    · obtain ⟨hb1, hb2⟩ := hbb
      rw [hl', hr, hout hop (by omega)]
      exact .refl _
  · simp only [hr'] at hl'
    obtain ⟨lo, hi, hr, h1, h2, h3, h4⟩ | ⟨hop, ho⟩ :=
      unsignedRange_mono h ha hb hb64 hla hlb haa hbb hr'
    · simp only [hr] at hl
      rw [hl, hl']
      exact unsignedLattice_mono h h1 h2 h3 h4
    · rw [hout hop ho]
      exact hzero hop ho

theorem signedFold_mono {l l' : Lattice} (ht : mayTrap a' op b' (dtToLattice ty) = false)
    (hl : l = match signedRange a op b ty res with
      | .error r => r
      | .ok (lo, hi) => signedLattice op ty lo hi)
    (hl' : l' = match signedRange a' op b' ty res with
      | .error r => r
      | .ok (lo, hi) => signedLattice op ty lo hi)
    (hres : l.Sub res)
    (hzero : op = .shl → b.max < 0 ∨ b.min ≥ ty.bits → (Lattice.ofBounds 0 0).Sub l') :
    l.Sub l' := by
  have hout (hop : op = .shl) (ho : b.max < 0 ∨ b.min ≥ ty.bits) : l = .ofBounds 0 0 := by
    subst hop
    simp only [signedRange, shiftRange, ho, ↓reduceIte, ne_eq, reduceCtorEq,
      not_false_eq_true] at hl
    exact hl
  rcases hr' : signedRange a' op b' ty res with r' | ⟨lo', hi'⟩
  · simp only [hr'] at hl'
    obtain hr | ⟨hop, ho, hr⟩ := signedRange_error hr'
    · rw [hl', hr]
      exact hres
    · obtain ⟨hb1, hb2⟩ := hbb
      rw [hl', hr, hout hop (by omega)]
      exact .refl _
  · simp only [hr'] at hl'
    obtain ⟨lo, hi, hr, h1, h2⟩ | ⟨hop, ho⟩ := signedRange_mono h ha hb64 ht hla hlb haa hbb hr'
    · simp only [hr] at hl
      rw [hl, hl']
      exact signedLattice_mono h1 h2
    · rw [hout hop ho]
      exact hzero hop ho

include hb in
theorem foldRangeLattice_mono (ht : mayTrap a' op b' (dtToLattice ty) = false) :
    (foldRangeLattice a op b ty (if op.isComparison then boolLattice else dtToLattice ty)).Sub
      (foldRangeLattice a' op b' ty (if op.isComparison then boolLattice else dtToLattice ty)) := by
  have hres := foldRangeLattice_sub h a op b
  have hzero (hop : op = .uShr ∨ op = .shl) (ho : b.max < 0 ∨ b.min ≥ ty.bits) :
      (Lattice.ofBounds 0 0).Sub (foldRangeLattice a' op b' ty
        (if op.isComparison then boolLattice else dtToLattice ty)) := by
    have := zero_sub_foldRangeLattice h hop ha hb64 hla hlb haa hbb ho
    rcases hop with rfl | rfl <;> exact this
  cases op
  case uDiv | uRem | uLt | uLe | uGt | uGe | uShr =>
    exact unsignedFold_mono h ha hb hb64 hla hlb haa hbb rfl rfl hres fun hop => hzero (.inl hop)
  case and | or | xor | andNot =>
    obtain ⟨ha₁, ha₂⟩ := knownBits_mono h ha hla haa
    obtain ⟨hb₁, hb₂⟩ := knownBits_mono h (hb rfl) hlb hbb
    have hm (o : BinOp) := bitRange_mono o ha₁ (knownBits_self h (a := a)) ha₂ hb₁
      (knownBits_self h (a := b)) hb₂
    simp only [foldRangeLattice]
    exact bitLattice_mono h (hm _).1 (hm _).2.1 (hm _).2.2
      (bitRange_lt _ _ _ (knownBits_lt h (a := a')) (knownBits_lt h (a := b')))
  all_goals
    exact signedFold_mono h ha hb64 hla hlb haa hbb ht rfl rfl hres fun hop => hzero (.inr hop)

omit h ha hb64 hla hlb haa hbb in
theorem foldIntLattice_eq (ht : mayTrap a op b (dtToLattice ty) = false) :
    foldIntLattice a op b ty = if a.min = a.max ∧ b.min = b.max then
      foldConstLattice a.min op b.min ty (if op.isComparison then boolLattice else dtToLattice ty)
      else foldRangeLattice a op b ty (if op.isComparison then boolLattice else dtToLattice ty) := by
  rw [foldIntLattice, if_neg (by simp [ht])]

omit hb64 hla hlb haa hbb ha in
/-- A folded interval lies in the widest lattice of the operator. -/
theorem foldIntLattice_sub (ha : a.Sub (dtToLattice ty))
    (hb : op.isShift = false → b.Sub (dtToLattice ty)) (hb64 : InS 64 b.min ∧ InS 64 b.max) :
    (foldIntLattice a op b ty).Sub (if op.isComparison then boolLattice else dtToLattice ty) := by
  by_cases ht : mayTrap a op b (dtToLattice ty) = true
  · rw [foldIntLattice, if_pos ht]
    exact .refl _
  by_cases hc : a.min = a.max ∧ b.min = b.max
  · rw [foldIntLattice, if_neg ht, if_pos hc]
    rw [Bool.not_eq_true] at ht
    obtain ⟨v, hv⟩ := machine_isSome h ha hb ht ⟨le_rfl, hc.1.le⟩ ⟨le_rfl, hc.2.le⟩
    have hres := machine_contains_res h hv
    exact foldConstLattice_sub h ha hb hb64 ht hc.1 hc.2 hv hres hres
  · rw [foldIntLattice, if_neg ht, if_neg hc]
    exact foldRangeLattice_sub h a op b

include hb in
/-- **Folding integer intervals is monotone.** -/
theorem foldIntLattice_mono :
    (foldIntLattice a op b ty).Sub (foldIntLattice a' op b' ty) := by
  have hb64' : InS 64 b.min ∧ InS 64 b.max :=
    ⟨⟨hb64.1.1.trans hbb.1, (hlb.trans hbb.2).trans_lt hb64.2.2⟩,
      ⟨(hb64.1.1.trans hbb.1).trans hlb, hbb.2.trans_lt hb64.2.2⟩⟩
  have hbs (hs : op.isShift = false) := hbb.trans (hb hs)
  by_cases ht' : mayTrap a' op b' (dtToLattice ty) = true
  · have e : foldIntLattice a' op b' ty =
        if op.isComparison then boolLattice else dtToLattice ty := by
      rw [foldIntLattice, if_pos ht']
    rw [e]
    exact foldIntLattice_sub h (haa.trans ha) hbs hb64'
  rw [Bool.not_eq_true] at ht'
  have ht : mayTrap a op b (dtToLattice ty) = false := by
    by_contra hc
    rw [Bool.not_eq_false] at hc
    simp [mayTrap_mono haa hbb hc] at ht'
  rw [foldIntLattice_eq ht, foldIntLattice_eq ht']
  by_cases hc : a.min = a.max ∧ b.min = b.max
  · rw [if_pos hc]
    obtain ⟨v, hv⟩ := machine_isSome h (haa.trans ha) hbs ht ⟨le_rfl, hc.1.le⟩ ⟨le_rfl, hc.2.le⟩
    exact foldConstLattice_sub h (haa.trans ha) hbs hb64' ht hc.1 hc.2 hv (machine_contains_res h hv)
      (foldIntLattice_eq ht' ▸ foldIntLattice_contains h ha hb hb64 (haa.contains ⟨le_rfl, hla⟩)
        (hbb.contains ⟨le_rfl, hlb⟩) hv)
  · obtain ⟨ha1, ha2⟩ := haa
    obtain ⟨hb1, hb2⟩ := hbb
    have hc' : ¬ (a'.min = a'.max ∧ b'.min = b'.max) := by omega
    rw [if_neg hc, if_neg hc']
    exact foldRangeLattice_mono h ha hb hb64 hla hlb ⟨ha1, ha2⟩ ⟨hb1, hb2⟩ ht'

end Match

end

end OdinSon
