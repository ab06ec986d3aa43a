import OdinSon.Ssa.FoldLatticeBits
import Mathlib.Data.Int.ConditionallyCompleteOrder

/-!
# Signed operators on lattices, and soundness of the folding

The signed operators fold an interval from the values at its corners: they are monotone or
antitone in each operand, so a value inside lies between the values at the corners
(`hull4_corners`).  The bounds are exact `i64` values or the code gives the widest lattice.

`foldBinOpLattice_sound` puts the pieces together.
-/

namespace OdinSon

open MachInt Set

/-! ### Corners -/

theorem hull4_le (v₀ v₁ v₂ v₃ : ℤ) :
    (hull4 v₀ v₁ v₂ v₃).1 ≤ min (min v₀ v₁) (min v₂ v₃) ∧
      max (max v₀ v₁) (max v₂ v₃) ≤ (hull4 v₀ v₁ v₂ v₃).2 := by
  simp only [hull4]
  omega

/-- A function that is monotone or antitone on an interval stays between its end values. -/
theorem between_of_monotoneOn {α : Type*} [PartialOrder α] {f : α → ℤ} {lo hi z : α}
    (hf : MonotoneOn f (Icc lo hi) ∨ AntitoneOn f (Icc lo hi)) (hz : z ∈ Icc lo hi) :
    min (f lo) (f hi) ≤ f z ∧ f z ≤ max (f lo) (f hi) := by
  have hlo : lo ∈ Icc lo hi := ⟨le_rfl, hz.1.trans hz.2⟩
  have hhi : hi ∈ Icc lo hi := ⟨hz.1.trans hz.2, le_rfl⟩
  rcases hf with hf | hf
  · have h1 := hf hlo hz hz.1
    have h2 := hf hz hhi hz.2
    omega
  · have h1 := hf hlo hz hz.1
    have h2 := hf hz hhi hz.2
    omega

/-- A function that is monotone or antitone in each argument stays between its corner values. -/
theorem hull4_corners {α : Type*} [PartialOrder α] {f : ℤ → α → ℤ} {a b x : ℤ} {c d y : α}
    (hx : x ∈ Icc a b) (hy : y ∈ Icc c d)
    (hf : MonotoneOn (f · y) (Icc a b) ∨ AntitoneOn (f · y) (Icc a b))
    (hg : ∀ x ∈ Icc a b, MonotoneOn (f x) (Icc c d) ∨ AntitoneOn (f x) (Icc c d)) :
    (hull4 (f a c) (f a d) (f b c) (f b d)).1 ≤ f x y ∧
      f x y ≤ (hull4 (f a c) (f a d) (f b c) (f b d)).2 := by
  have hab := hx.1.trans hx.2
  have h1 := between_of_monotoneOn hf hx
  have h2 := between_of_monotoneOn (hg a ⟨le_rfl, hab⟩) hy
  have h3 := between_of_monotoneOn (hg b ⟨hab, le_rfl⟩) hy
  have h4 := hull4_le (f a c) (f a d) (f b c) (f b d)
  omega

theorem mul_monotoneOn (x : ℤ) (s : Set ℤ) :
    MonotoneOn (x * ·) s ∨ AntitoneOn (x * ·) s := by
  rcases le_total 0 x with h | h
  · exact .inl fun _ _ _ _ hyz => mul_le_mul_of_nonneg_left hyz h
  · exact .inr fun _ _ _ _ hyz => mul_le_mul_of_nonpos_left hyz h

theorem mul_pow_monotoneOn (x : ℤ) (s : Set ℕ) :
    MonotoneOn (fun k : ℕ => x * 2 ^ k) s ∨ AntitoneOn (fun k : ℕ => x * 2 ^ k) s := by
  have hp : Monotone fun k : ℕ => (2 : ℤ) ^ k := pow_right_mono₀ (by norm_num)
  rcases le_total 0 x with h | h
  · exact .inl fun _ _ _ _ hyz => mul_le_mul_of_nonneg_left (hp hyz) h
  · exact .inr fun _ _ _ _ hyz => mul_le_mul_of_nonpos_left (hp hyz) h

theorem ediv_pow_eq (x : ℤ) {m n : ℕ} (hmn : m ≤ n) : x / 2 ^ n = x / 2 ^ m / 2 ^ (n - m) := by
  rw [Int.ediv_ediv_of_nonneg (by positivity), ← pow_add, Nat.add_sub_cancel' hmn]

theorem ediv_pow_le_of_nonneg {x : ℤ} (hx : 0 ≤ x) {m n : ℕ} (hmn : m ≤ n) :
    x / 2 ^ n ≤ x / 2 ^ m := by
  rw [ediv_pow_eq x hmn]
  exact Int.ediv_le_self _ (Int.ediv_nonneg hx (by positivity))

theorem ediv_pow_le_of_neg {x : ℤ} (hx : x < 0) {m n : ℕ} (hmn : m ≤ n) :
    x / 2 ^ m ≤ x / 2 ^ n := by
  rw [ediv_pow_eq x hmn]
  have hneg : x / 2 ^ m < 0 := Int.ediv_neg_of_neg_of_pos hx (by positivity)
  have hp : (1 : ℤ) ≤ 2 ^ (n - m) := one_le_pow₀ (by norm_num)
  rw [Int.le_ediv_iff_mul_le (by positivity)]
  nlinarith

/-- Dividing by a larger power of two moves towards zero, or towards `-1`. -/
theorem ediv_pow_monotoneOn (x : ℤ) (s : Set ℕ) :
    MonotoneOn (fun k : ℕ => x / 2 ^ k) s ∨ AntitoneOn (fun k : ℕ => x / 2 ^ k) s := by
  rcases le_or_gt 0 x with h | h
  · exact .inr fun _ _ _ _ hmn => ediv_pow_le_of_nonneg h hmn
  · exact .inl fun _ _ _ _ hmn => ediv_pow_le_of_neg h hmn

theorem tdiv_le_tdiv_left {x y z : ℤ} (hx : 0 ≤ x) (hy : 0 < y) (hyz : y ≤ z) :
    x.tdiv z ≤ x.tdiv y := by
  rw [Int.tdiv_eq_ediv_of_nonneg hx, Int.tdiv_eq_ediv_of_nonneg hx]
  rw [Int.le_ediv_iff_mul_le hy]
  have h1 := Int.ediv_mul_le x (show z ≠ 0 by omega)
  have h2 : 0 ≤ x / z := Int.ediv_nonneg hx (by omega)
  nlinarith

/-- Truncating division is monotone or antitone in a divisor that keeps its sign. -/
theorem tdiv_monotoneOn (x : ℤ) {c d : ℤ} (h : 0 < c ∨ d < 0) :
    MonotoneOn (x.tdiv ·) (Icc c d) ∨ AntitoneOn (x.tdiv ·) (Icc c d) := by
  have hpos {x y z : ℤ} (hx : 0 ≤ x) (hyz : y ≤ z) (hs : 0 < y ∨ z < 0) :
      x.tdiv z ≤ x.tdiv y := by
    rcases hs with hy | hz
    · exact tdiv_le_tdiv_left hx hy hyz
    · have := tdiv_le_tdiv_left (y := -z) (z := -y) hx (by omega) (by omega)
      rw [Int.tdiv_neg, Int.tdiv_neg] at this
      omega
  rcases le_total 0 x with hx | hx
  · refine .inr fun y hy z hz hyz => hpos hx hyz ?_
    have := hy.1; have := hz.2; omega
  · refine .inl fun y hy z hz hyz => ?_
    have := hpos (x := -x) (by omega) hyz (by have := hy.1; have := hz.2; omega)
    rw [Int.neg_tdiv, Int.neg_tdiv] at this
    simp only
    omega

theorem tdiv_left_monotoneOn {y : ℤ} (hy : y ≠ 0) (s : Set ℤ) :
    MonotoneOn (fun x : ℤ => x.tdiv y) s ∨ AntitoneOn (fun x : ℤ => x.tdiv y) s := by
  rcases lt_or_gt_of_ne hy with h | h
  · refine .inr fun x _ z _ hxz => ?_
    have := Int.tdiv_le_tdiv (c := -y) (by omega) hxz
    rw [Int.tdiv_neg, Int.tdiv_neg] at this
    simp only
    omega
  · exact .inl fun x _ z _ hxz => Int.tdiv_le_tdiv h hxz

/-! ### Bounds that fit the datatype -/

theorem checked_eq_some {v v' : ℤ} : checked v = some v' ↔ InS 64 v ∧ v = v' := by
  simp only [checked, Option.ite_none_right_eq_some, Option.some.injEq]

section

variable {ty : Datatype} (h : ty.isInt = true) {a b : Lattice} {x y v : ℤ} {res : Lattice}

include h

/-- Bounds of the exact result bound the wrapped one, or the code gives up on them. -/
theorem signedLattice_contains {op : BinOp} (hop : op.isComparison = false) {lo hi z : ℤ}
    (hlo : lo ≤ z) (hhi : z ≤ hi) : (signedLattice op ty lo hi).Contains (wrap ty.bits z) := by
  have hw := Datatype.bits_pos h
  simp only [signedLattice, hop, Bool.not_false, true_and]
  split_ifs with hs
  · exact (dtToLattice_contains_iff h).2 (wrap_mem hw z)
  · have hz : InS ty.bits z := (dtToLattice_contains_iff h).1 ⟨by omega, by omega⟩
    rw [wrap_eq_self hw hz]
    exact ⟨hlo, hhi⟩

/-- The same for an operator whose exact result is a value of the datatype. -/
theorem signedLattice_contains_self {op : BinOp} (hop : op.isComparison = false) {lo hi z : ℤ}
    (hz : InS ty.bits z) (hlo : lo ≤ z) (hhi : z ≤ hi) :
    (signedLattice op ty lo hi).Contains z := by
  have := signedLattice_contains h hop hlo hhi
  rwa [wrap_eq_self (Datatype.bits_pos h) hz] at this

omit h in
theorem signedLattice_bool {op : BinOp} (hop : op.isComparison = true) {p q r : Bool}
    (hpr : p = true → r = true) (hrq : r = true → q = true) :
    (signedLattice op ty (boolToInt p) (boolToInt q)).Contains (boolToInt r) := by
  simp only [signedLattice, hop, Bool.not_true, Bool.false_eq_true, false_and, ↓reduceIte]
  exact ⟨boolToInt_mono hpr, boolToInt_mono hrq⟩

/-! ### Arithmetic -/

theorem add_contains {lo hi : ℤ} (hx : a.Contains x) (hy : b.Contains y)
    (hv : machine .add ty.bits x y = some v) (hr : signedRange a .add b ty res = .ok (lo, hi)) :
    (signedLattice .add ty lo hi).Contains v := by
  rw [machine_add, Option.some.injEq] at hv
  obtain ⟨hx1, hx2⟩ := hx
  obtain ⟨hy1, hy2⟩ := hy
  simp only [signedRange] at hr
  split at hr
  next l u hl hu =>
    rw [checked_eq_some] at hl hu
    obtain ⟨rfl, rfl⟩ := Prod.mk.inj (Except.ok.inj hr)
    exact hv ▸ signedLattice_contains h rfl (by omega) (by omega)
  next => cases hr

theorem sub_contains {lo hi : ℤ} (hx : a.Contains x) (hy : b.Contains y)
    (hv : machine .sub ty.bits x y = some v) (hr : signedRange a .sub b ty res = .ok (lo, hi)) :
    (signedLattice .sub ty lo hi).Contains v := by
  rw [machine_sub, Option.some.injEq] at hv
  obtain ⟨hx1, hx2⟩ := hx
  obtain ⟨hy1, hy2⟩ := hy
  simp only [signedRange] at hr
  split at hr
  next l u hl hu =>
    rw [checked_eq_some] at hl hu
    obtain ⟨rfl, rfl⟩ := Prod.mk.inj (Except.ok.inj hr)
    exact hv ▸ signedLattice_contains h rfl (by omega) (by omega)
  next => cases hr

theorem mul_contains {lo hi : ℤ} (hx : a.Contains x) (hy : b.Contains y)
    (hv : machine .mul ty.bits x y = some v) (hr : signedRange a .mul b ty res = .ok (lo, hi)) :
    (signedLattice .mul ty lo hi).Contains v := by
  rw [machine_mul, Option.some.injEq] at hv
  simp only [signedRange, mulRange] at hr
  split at hr
  next v₀ v₁ v₂ v₃ h₀ h₁ h₂ h₃ =>
    rw [checked_eq_some] at h₀ h₁ h₂ h₃
    have hc := hull4_corners (f := fun x y => x * y) hx hy
      (by simpa only [mul_comm] using mul_monotoneOn y _) (fun x _ => mul_monotoneOn x _)
    rw [h₀.2, h₁.2, h₂.2, h₃.2, Except.ok.inj hr] at hc
    exact hv ▸ signedLattice_contains h rfl hc.1 hc.2
  next => cases hr

omit h in
/-- A quotient overflows only when the least value is divided by `-1`. -/
theorem inS_tdiv {w : ℕ} (hx : InS w x) (hne : ¬ (x = -2 ^ (w - 1) ∧ y = -1)) :
    InS w (x.tdiv y) := by
  have habs : (x.tdiv y).natAbs ≤ x.natAbs := by
    rw [Int.natAbs_tdiv]; exact Nat.div_le_self _ _
  obtain ⟨h1, h2⟩ := hx
  refine ⟨by omega, ?_⟩
  by_contra hc
  have hmin : x = -2 ^ (w - 1) := by omega
  have hq : x.tdiv y = -x := by omega
  have hp : (0 : ℤ) < 2 ^ (w - 1) := by positivity
  have hone : y.natAbs = 1 := by
    have hself : x.natAbs / y.natAbs = x.natAbs := (Int.natAbs_tdiv x y).symm.trans (by omega)
    exact (Nat.div_eq_self.1 hself).resolve_left (by omega)
  rcases Int.natAbs_eq y with hy | hy <;> rw [hone] at hy
  · rw [hy] at hq
    simp only [Nat.cast_one, Int.tdiv_one] at hq
    omega
  · exact hne ⟨hmin, by simpa using hy⟩

/-- A quotient that cannot trap is an `i64`. -/
theorem wrap_tdiv (ha : (dtToLattice ty).min ≤ a.min ∧ a.max ≤ (dtToLattice ty).max)
    (ht : mayTrap a .div b (dtToLattice ty) = false) (hx : a.Contains x) (hy : b.Contains y) :
    wrap 64 (x.tdiv y) = x.tdiv y := by
  have hX := inS_of_contains h ha hx
  have hX64 := hX.mono (Datatype.bits_le h)
  have hmin := dtToLattice_min h
  have hX1 := hX.1
  simp only [mayTrap, Bool.or_eq_false_iff, Bool.and_eq_false_iff, decide_eq_false_iff_not] at ht
  have hp : (2 : ℤ) ^ (ty.bits - 1) ≤ 2 ^ (64 - 1) :=
    pow_le_pow_right₀ (by norm_num) (by have := Datatype.bits_le h; omega)
  obtain ⟨hx1, hx2⟩ := hx
  obtain ⟨hy1, hy2⟩ := hy
  exact wrap_eq_self (by norm_num) (inS_tdiv hX64 (by omega))

theorem div_contains {lo hi : ℤ}
    (ha : (dtToLattice ty).min ≤ a.min ∧ a.max ≤ (dtToLattice ty).max)
    (hb : (dtToLattice ty).min ≤ b.min ∧ b.max ≤ (dtToLattice ty).max)
    (hx : a.Contains x) (hy : b.Contains y) (ht : mayTrap a .div b (dtToLattice ty) = false)
    (hv : machine .div ty.bits x y = some v) (hr : signedRange a .div b ty res = .ok (lo, hi)) :
    (signedLattice .div ty lo hi).Contains v := by
  have hw := Datatype.bits_pos h
  have hV := machine_contains_res h hv
  simp only [BinOp.isComparison, Bool.false_eq_true, ↓reduceIte, dtToLattice_contains_iff h] at hV
  rw [machine_div hw (inS_of_contains h ha hx) (inS_of_contains h hb hy),
    Option.ite_none_left_eq_some, Option.some.injEq] at hv
  have hexact : ∀ u ∈ Icc a.min a.max, ∀ d ∈ Icc b.min b.max, wrap 64 (u.tdiv d) = u.tdiv d :=
    fun u hu d hd => wrap_tdiv h ha ht hu hd
  simp only [mayTrap, Bool.or_eq_false_iff, Bool.and_eq_false_iff, decide_eq_false_iff_not] at ht
  have hab := hx.1.trans hx.2
  have hcd := hy.1.trans hy.2
  simp only [signedRange, hexact _ ⟨le_rfl, hab⟩ _ ⟨le_rfl, hcd⟩,
    hexact _ ⟨le_rfl, hab⟩ _ ⟨hcd, le_rfl⟩, hexact _ ⟨hab, le_rfl⟩ _ ⟨le_rfl, hcd⟩,
    hexact _ ⟨hab, le_rfl⟩ _ ⟨hcd, le_rfl⟩] at hr
  have hc := hull4_corners (f := fun x y => x.tdiv y) hx hy
    (tdiv_left_monotoneOn (by have := hy.1; have := hy.2; omega) _)
    (fun x _ => tdiv_monotoneOn x (by omega))
  rw [Except.ok.inj hr] at hc
  exact signedLattice_contains_self h rfl hV (hv.2 ▸ hc.1) (hv.2 ▸ hc.2)

theorem rem_contains {lo hi : ℤ}
    (ha : (dtToLattice ty).min ≤ a.min ∧ a.max ≤ (dtToLattice ty).max)
    (hb : (dtToLattice ty).min ≤ b.min ∧ b.max ≤ (dtToLattice ty).max)
    (hx : a.Contains x) (hy : b.Contains y) (ht : mayTrap a .rem b (dtToLattice ty) = false)
    (hv : machine .rem ty.bits x y = some v) (hr : signedRange a .rem b ty res = .ok (lo, hi)) :
    (signedLattice .rem ty lo hi).Contains v := by
  have hV := machine_contains_res h hv
  simp only [BinOp.isComparison, Bool.false_eq_true, ↓reduceIte, dtToLattice_contains_iff h] at hV
  rw [machine_rem (Datatype.bits_pos h) (inS_of_contains h ha hx) (inS_of_contains h hb hy),
    Option.ite_none_left_eq_some, Option.some.injEq] at hv
  simp only [mayTrap, Bool.or_eq_false_iff, Bool.and_eq_false_iff, decide_eq_false_iff_not] at ht
  obtain ⟨hx1, hx2⟩ := hx
  obtain ⟨hy1, hy2⟩ := hy
  have hlt : v.natAbs < y.natAbs := by
    rw [← hv.2, Int.natAbs_tmod]
    exact Nat.mod_lt _ (by omega)
  have hle : v.natAbs ≤ x.natAbs := by
    rw [← hv.2, Int.natAbs_tmod]
    exact Nat.mod_le _ _
  have hpos : 0 ≤ x → 0 ≤ v := fun h0 => hv.2 ▸ Int.tmod_nonneg y h0
  have hneg : x ≤ 0 → v ≤ 0 := by
    intro h0
    have := Int.tmod_nonneg (a := -x) y (by omega)
    rw [Int.neg_tmod, hv.2] at this
    omega
  simp only [signedRange] at hr
  obtain ⟨rfl, rfl⟩ := Prod.mk.inj (Except.ok.inj hr)
  refine signedLattice_contains_self h rfl hV ?_ ?_
  · split_ifs <;> omega
  · split_ifs <;> omega

/-! ### Comparisons and shifts -/

theorem comparison_contains {op : BinOp} {lo hi : ℤ}
    (hop : op = .eq ∨ op = .ne ∨ op = .lt ∨ op = .le ∨ op = .gt ∨ op = .ge)
    (ha : (dtToLattice ty).min ≤ a.min ∧ a.max ≤ (dtToLattice ty).max)
    (hb : (dtToLattice ty).min ≤ b.min ∧ b.max ≤ (dtToLattice ty).max)
    (hx : a.Contains x) (hy : b.Contains y)
    (hv : machine op ty.bits x y = some v) (hr : signedRange a op b ty res = .ok (lo, hi)) :
    (signedLattice op ty lo hi).Contains v := by
  have hw := Datatype.bits_pos h
  have hX := inS_of_contains h ha hx
  have hY := inS_of_contains h hb hy
  obtain ⟨hx1, hx2⟩ := hx
  obtain ⟨hy1, hy2⟩ := hy
  rcases hop with rfl | rfl | rfl | rfl | rfl | rfl
  · rw [machine_eq hw hX hY, Option.some.injEq] at hv
    simp only [signedRange] at hr
    split_ifs at hr with hs <;> obtain ⟨rfl, rfl⟩ := Prod.mk.inj (Except.ok.inj hr)
    · exact hv ▸ signedLattice_bool rfl (by simp) (by simp only [decide_eq_true_eq]; omega)
    · exact hv ▸ signedLattice_bool (p := false) (q := true) rfl (by simp) (by simp)
  · rw [machine_ne hw hX hY, Option.some.injEq] at hv
    simp only [signedRange] at hr
    split_ifs at hr with hs <;> obtain ⟨rfl, rfl⟩ := Prod.mk.inj (Except.ok.inj hr)
    · exact hv ▸ signedLattice_bool rfl (by simp only [decide_eq_true_eq]; omega) (by simp)
    · exact hv ▸ signedLattice_bool (p := false) (q := true) rfl (by simp) (by simp)
  all_goals
    simp only [machine_lt hw hX hY, machine_le hw hX hY, machine_gt hw hX hY,
      machine_ge hw hX hY, Option.some.injEq] at hv
    simp only [signedRange] at hr
    obtain ⟨rfl, rfl⟩ := Prod.mk.inj (Except.ok.inj hr)
    rw [← hv]
    refine signedLattice_bool rfl ?_ ?_ <;> simp only [decide_eq_true_eq] <;> omega

omit h in
/-- A value that may be shifted left by `m` may be shifted by less. -/
theorem inS_mul_pow {w s m : ℕ} (hm : m ≤ w - 1) (hs : s ≤ m)
    (hlo : -2 ^ (w - 1) / 2 ^ m ≤ x) (hhi : x ≤ (2 ^ (w - 1) - 1) / 2 ^ m) :
    InS w (x * 2 ^ s) := by
  have hdvd : (2 : ℤ) ^ m ∣ -2 ^ (w - 1) := (Int.dvd_neg).2 (pow_dvd_pow 2 hm)
  have hlo' : -2 ^ (w - 1) ≤ x * 2 ^ m := by
    rw [← Int.ediv_mul_cancel hdvd]
    exact mul_le_mul_of_nonneg_right hlo (by positivity)
  have hhi' : x * 2 ^ m ≤ 2 ^ (w - 1) - 1 := (Int.le_ediv_iff_mul_le (by positivity)).1 hhi
  have hp : (2 : ℤ) ^ s ≤ 2 ^ m := pow_le_pow_right₀ (by norm_num) hs
  have hpos : (0 : ℤ) < 2 ^ (w - 1) := by positivity
  rcases le_total 0 x with h0 | h0
  · have h1 := mul_le_mul_of_nonneg_left hp h0
    have h2 : 0 ≤ x * 2 ^ s := by positivity
    exact ⟨by omega, by omega⟩
  · have h1 := mul_le_mul_of_nonpos_left hp h0
    have h2 : x * 2 ^ s ≤ 0 := mul_nonpos_of_nonpos_of_nonneg h0 (by positivity)
    exact ⟨by omega, by omega⟩

theorem shl64_eq {s : ℕ} (hs : s < ty.bits) (hx : InS ty.bits (x * 2 ^ s)) :
    shl64 x s = x * 2 ^ s := by
  have hw' := Datatype.bits_le h
  have hp : (2 : ℤ) ^ (ty.bits - 1) ≤ 2 ^ (64 - 1) := pow_le_pow_right₀ (by norm_num) (by omega)
  obtain ⟨h1, h2⟩ := hx
  rw [shl64, if_pos (by omega), wrap_eq_self (by norm_num) ⟨by omega, by omega⟩]

theorem shl_contains {lo hi : ℤ} (hb : InS 64 b.min ∧ InS 64 b.max)
    (hx : a.Contains x) (hy : b.Contains y)
    (hv : machine .shl ty.bits x y = some v) (hr : signedRange a .shl b ty res = .ok (lo, hi)) :
    (signedLattice .shl ty lo hi).Contains v := by
  have hw := Datatype.bits_pos h
  obtain ⟨hy1, hy2⟩ := hy
  rw [machine_shl, Option.some.injEq] at hv
  simp only [signedRange, shiftRange, ne_eq, reduceCtorEq, not_false_eq_true, ↓reduceIte] at hr
  by_cases hout : b.max < 0 ∨ b.min ≥ ty.bits
  · simp only [hout, ↓reduceIte, reduceCtorEq] at hr
  by_cases hneg : b.min < 0
  · simp only [hout, hneg, ↓reduceIte, reduceCtorEq] at hr
  have hmin : u64 b.min = b.min.toNat := u64_of_nonneg hb.1 (by omega)
  have hmax : u64 b.max = b.max.toNat := u64_of_nonneg hb.2 (by omega)
  rw [if_neg hout, if_neg hneg, hmin, hmax] at hr
  set m := min b.max.toNat (ty.bits - 1) with hm
  by_cases hfit : a.min < shr64 (dtToLattice ty).min m ∨ a.max > shr64 (dtToLattice ty).max m
  · simp only [hfit, ↓reduceIte, reduceCtorEq] at hr
  rw [if_neg hfit, Except.ok.injEq] at hr
  rw [not_or, not_lt, not_lt, shr64, shr64, dtToLattice_min h, dtToLattice_max h] at hfit
  have hfit' {u : ℤ} (hu : u ∈ Icc a.min a.max) {s : ℕ} (hs : s ≤ m) : InS ty.bits (u * 2 ^ s) :=
    inS_mul_pow (by omega) hs (hfit.1.trans hu.1) (hu.2.trans hfit.2)
  have hab := hx.1.trans hx.2
  have hsm : b.min.toNat ≤ m := by omega
  rw [shl64_eq h (by omega) (hfit' ⟨le_rfl, hab⟩ hsm),
    shl64_eq h (by omega) (hfit' ⟨le_rfl, hab⟩ le_rfl),
    shl64_eq h (by omega) (hfit' ⟨hab, le_rfl⟩ hsm),
    shl64_eq h (by omega) (hfit' ⟨hab, le_rfl⟩ le_rfl)] at hr
  -- a count from the width on gives zero, and the code then takes zero into the bounds
  by_cases hc : 0 ≤ y ∧ y < ty.bits
  · rw [if_pos hc] at hv
    have hcorner := hull4_corners (f := fun (x : ℤ) (k : ℕ) => x * 2 ^ k) (c := b.min.toNat)
      (d := m) (y := y.toNat) hx ⟨by omega, by omega⟩
      (.inl fun _ _ _ _ huv => mul_le_mul_of_nonneg_right huv (by positivity))
      (fun x _ => mul_pow_monotoneOn x _)
    rw [← hv]
    split_ifs at hr <;> obtain ⟨rfl, rfl⟩ := Prod.mk.inj hr
    · exact signedLattice_contains h rfl (min_le_of_left_le hcorner.1) (le_max_of_le_left hcorner.2)
    · exact signedLattice_contains h rfl hcorner.1 hcorner.2
  · rw [if_neg hc] at hv
    rw [if_pos (by omega)] at hr
    obtain ⟨rfl, rfl⟩ := Prod.mk.inj hr
    rw [← hv]
    exact signedLattice_contains_self h rfl ⟨by simp, by positivity⟩ (min_le_right _ _)
      (le_max_right _ _)

theorem shr_contains {lo hi : ℤ}
    (ha : (dtToLattice ty).min ≤ a.min ∧ a.max ≤ (dtToLattice ty).max)
    (hb : InS 64 b.min ∧ InS 64 b.max)
    (hx : a.Contains x) (hy : b.Contains y)
    (hv : machine .shr ty.bits x y = some v) (hr : signedRange a .shr b ty res = .ok (lo, hi)) :
    (signedLattice .shr ty lo hi).Contains v := by
  have hw := Datatype.bits_pos h
  have hV := machine_contains_res h hv
  simp only [BinOp.isComparison, Bool.false_eq_true, ↓reduceIte, dtToLattice_contains_iff h] at hV
  rw [machine_shr hw (inS_of_contains h ha hx), Option.some.injEq] at hv
  have hmono (k : ℕ) (s : Set ℤ) : MonotoneOn (fun x : ℤ => x / 2 ^ k) s :=
    fun _ _ _ _ huv => Int.ediv_le_ediv (by positivity) huv
  simp only [signedRange, shiftRange, ne_eq, not_true_eq_false, reduceCtorEq, ↓reduceIte, shr64] at hr
  split_ifs at hr with hout hneg
  · obtain ⟨rfl, rfl⟩ := Prod.mk.inj (Except.ok.inj hr)
    rw [if_neg (by have := hy.1; have := hy.2; omega)] at hv
    refine signedLattice_contains_self h rfl hV ?_ ?_ <;> rw [← hv]
    · exact Int.ediv_le_ediv (by positivity) hx.1
    · exact Int.ediv_le_ediv (by positivity) hx.2
  · have hmin : u64 b.min = b.min.toNat := u64_of_nonneg hb.1 (by omega)
    have hmax : u64 b.max = b.max.toNat := u64_of_nonneg hb.2 (by omega)
    obtain ⟨hy1, hy2⟩ := hy
    have hc := hull4_corners (f := fun (x : ℤ) (k : ℕ) => x / 2 ^ k) (c := b.min.toNat)
      (d := min b.max.toNat (ty.bits - 1)) (y := if 0 ≤ y ∧ y < ty.bits then y.toNat else ty.bits - 1)
      hx ⟨by split_ifs <;> omega, by split_ifs <;> omega⟩ (.inl (hmono _ _))
      (fun x _ => ediv_pow_monotoneOn x _)
    simp only [hmin, hmax] at hr
    rw [Except.ok.inj hr] at hc
    exact signedLattice_contains_self h rfl hV (hv ▸ hc.1) (hv ▸ hc.2)

/-! ### Every operator -/

omit h in
/-- The unsigned operators give up with the widest lattice, or on a shift out of range. -/
theorem unsignedRange_error {op : BinOp} {r : Lattice}
    (hr : unsignedRange a op b ty res = .error r) :
    r = res ∨ op = .uShr ∧ (b.max < 0 ∨ b.min ≥ ty.bits) ∧ r = .ofBounds 0 0 := by
  simp only [unsignedRange] at hr
  cases op <;> simp only [reduceCtorEq, Except.error.injEq] at hr
  case uDiv | uRem =>
    split_ifs at hr
    exact .inl (Except.error.inj hr).symm
  case uShr =>
    split_ifs at hr with hout
    · exact .inr ⟨rfl, hout, (Except.error.inj hr).symm⟩
    · exact .inl (Except.error.inj hr).symm
  all_goals exact .inl hr.symm

omit h in
/-- The signed operators give up with the widest lattice, or on a shift out of range. -/
theorem signedRange_error {op : BinOp} {r : Lattice}
    (hr : signedRange a op b ty res = .error r) :
    r = res ∨ op = .shl ∧ (b.max < 0 ∨ b.min ≥ ty.bits) ∧ r = .ofBounds 0 0 := by
  cases op <;> simp only [signedRange, mulRange, shiftRange, reduceCtorEq, ne_eq,
    not_false_eq_true, not_true_eq_false, ↓reduceIte, Except.error.injEq] at hr
  case add | sub | mul =>
    split at hr
    · cases hr
    · exact .inl (Except.error.inj hr).symm
  case shl =>
    split_ifs at hr with hout
    · exact .inr ⟨rfl, hout, (Except.error.inj hr).symm⟩
    · exact .inl (Except.error.inj hr).symm
    · exact .inl (Except.error.inj hr).symm
  case shr =>
    split_ifs at hr
    exact .inl (Except.error.inj hr).symm
  case eq | ne => split_ifs at hr
  all_goals exact .inl hr.symm

omit h in
theorem signedRange_error_contains {op : BinOp} {r : Lattice} (hy : b.Contains y)
    (hv : machine op ty.bits x y = some v) (hres : res.Contains v)
    (hr : signedRange a op b ty res = .error r) : r.Contains v := by
  obtain rfl | ⟨rfl, hout, rfl⟩ := signedRange_error hr
  · exact hres
  · obtain ⟨hy1, hy2⟩ := hy
    rw [machine_shl, if_neg (by omega), Option.some.injEq] at hv
    exact hv ▸ ofBounds_contains_self 0

theorem signedRange_ok {op : BinOp} {lo hi : ℤ}
    (ha : (dtToLattice ty).min ≤ a.min ∧ a.max ≤ (dtToLattice ty).max)
    (hb : op.isShift = false → (dtToLattice ty).min ≤ b.min ∧ b.max ≤ (dtToLattice ty).max)
    (hb64 : InS 64 b.min ∧ InS 64 b.max) (hx : a.Contains x) (hy : b.Contains y)
    (ht : mayTrap a op b (dtToLattice ty) = false) (hv : machine op ty.bits x y = some v)
    (hr : signedRange a op b ty res = .ok (lo, hi)) : (signedLattice op ty lo hi).Contains v := by
  cases op
  case add => exact add_contains h hx hy hv hr
  case sub => exact sub_contains h hx hy hv hr
  case mul => exact mul_contains h hx hy hv hr
  case div => exact div_contains h ha (hb rfl) hx hy ht hv hr
  case rem => exact rem_contains h ha (hb rfl) hx hy ht hv hr
  case shl => exact shl_contains h hb64 hx hy hv hr
  case shr => exact shr_contains h ha hb64 hx hy hv hr
  case eq | ne | lt | le | gt | ge =>
    exact comparison_contains h (by simp) ha (hb rfl) hx hy hv hr
  all_goals cases hr

theorem foldRangeLattice_contains {op : BinOp}
    (ha : (dtToLattice ty).min ≤ a.min ∧ a.max ≤ (dtToLattice ty).max)
    (hb : op.isShift = false → (dtToLattice ty).min ≤ b.min ∧ b.max ≤ (dtToLattice ty).max)
    (hb64 : InS 64 b.min ∧ InS 64 b.max) (hx : a.Contains x) (hy : b.Contains y)
    (ht : mayTrap a op b (dtToLattice ty) = false) (hv : machine op ty.bits x y = some v)
    (hres : res.Contains v) : (foldRangeLattice a op b ty res).Contains v := by
  unfold foldRangeLattice
  cases op
  case uDiv | uRem =>
    exact unsigned_division_contains h (by simp) ha (hb rfl) hx hy hv hres
  case uLt | uLe | uGt | uGe =>
    exact unsigned_comparison_contains h (by simp) ha (hb rfl) hx hy hv res
  case uShr => exact uShr_contains h ha hb64 hx hy hv hres
  case and | or | xor | andNot => exact bitwise_contains h (by simp) ha (hb rfl) hx hy hv
  all_goals
    simp only
    split
    next r hr => exact signedRange_error_contains hy hv hres hr
    next lo hi hr => exact signedRange_ok h ha hb hb64 hx hy ht hv hr

/-- Folding two integer intervals covers every machine result. -/
theorem foldIntLattice_contains {op : BinOp}
    (ha : (dtToLattice ty).min ≤ a.min ∧ a.max ≤ (dtToLattice ty).max)
    (hb : op.isShift = false → (dtToLattice ty).min ≤ b.min ∧ b.max ≤ (dtToLattice ty).max)
    (hb64 : InS 64 b.min ∧ InS 64 b.max) (hx : a.Contains x) (hy : b.Contains y)
    (hv : machine op ty.bits x y = some v) : (foldIntLattice a op b ty).Contains v := by
  have hres := machine_contains_res h hv
  have hX := inS_of_contains h ha hx
  simp only [foldIntLattice]
  generalize (if op.isComparison = true then boolLattice else dtToLattice ty) = res at hres ⊢
  split_ifs with ht hconst
  · exact hres
  · obtain rfl : a.min = x := le_antisymm hx.1 (hconst.1 ▸ hx.2)
    obtain rfl : b.min = y := le_antisymm hy.1 (hconst.2 ▸ hy.2)
    exact foldConstLattice_contains h hX hb64.1 (fun hs => inS_of_contains h (hb hs) hy) hv hres
  · exact foldRangeLattice_contains h ha hb hb64 hx hy (Bool.not_eq_true _ ▸ ht) hv hres

end

/-- An integer interval, with nothing in the fields of the other kinds. -/
def Lattice.IsInterval (l : Lattice) : Prop := l = .ofBounds l.min l.max

theorem isInterval_ofBounds (lo hi : ℤ) : (Lattice.ofBounds lo hi).IsInterval := rfl

theorem isInterval_ite {c : Prop} [Decidable c] {l r : Lattice} (hl : l.IsInterval)
    (hr : r.IsInterval) : (if c then l else r).IsInterval := by
  split_ifs
  · exact hl
  · exact hr

theorem Lattice.IsInterval.type {l : Lattice} (h : l.IsInterval) : l.type = .int := by
  rw [h]; rfl

theorem isInterval_dtToLattice {ty : Datatype} (h : ty.isInt = true) :
    (dtToLattice ty).IsInterval := by
  obtain rfl | rfl | rfl | rfl := Datatype.isInt_cases h <;> rfl

theorem unsignedLattice_isInterval {ty : Datatype} (h : ty.isInt = true) (op : BinOp) (lo hi : ℕ) :
    (unsignedLattice op ty lo hi).IsInterval := by
  simp only [unsignedLattice]
  split_ifs
  · exact isInterval_ofBounds _ _
  · exact isInterval_dtToLattice h
  · exact isInterval_ofBounds _ _

theorem signedLattice_isInterval {ty : Datatype} (h : ty.isInt = true) (op : BinOp) (lo hi : ℤ) :
    (signedLattice op ty lo hi).IsInterval := by
  simp only [signedLattice]
  split_ifs
  · exact isInterval_dtToLattice h
  · exact isInterval_ofBounds _ _

theorem bitLattice_isInterval (ty : Datatype) (one possible : ℕ) :
    (bitLattice ty one possible).IsInterval := by
  simp only [bitLattice]
  split_ifs <;> exact isInterval_ofBounds _ _

theorem foldConstLattice_isInterval {x y : ℤ} {op : BinOp} {ty : Datatype} {res : Lattice}
    (hres : res.IsInterval) : (foldConstLattice x op y ty res).IsInterval := by
  unfold foldConstLattice
  exact isInterval_ite hres (isInterval_ofBounds _ _)

/-- Two integer intervals fold to an integer interval. -/
theorem foldIntLattice_isInterval {ty : Datatype} (h : ty.isInt = true) (a : Lattice) (op : BinOp)
    (b : Lattice) : (foldIntLattice a op b ty).IsInterval := by
  have hres : (if op.isComparison then boolLattice else dtToLattice ty).IsInterval :=
    isInterval_ite (isInterval_ofBounds 0 1) (isInterval_dtToLattice h)
  simp only [foldIntLattice]
  generalize (if op.isComparison = true then boolLattice else dtToLattice ty) = res at hres ⊢
  split_ifs with ht hc
  · exact hres
  · exact foldConstLattice_isInterval hres
  · unfold foldRangeLattice
    cases op
    case uDiv | uRem | uLt | uLe | uGt | uGe | uShr =>
      simp only
      split
      next r hr =>
        obtain rfl | ⟨-, -, rfl⟩ := unsignedRange_error hr
        · exact hres
        · exact isInterval_ofBounds 0 0
      next => exact unsignedLattice_isInterval h _ _ _
    case and | or | xor | andNot => exact bitLattice_isInterval _ _ _
    all_goals
      simp only
      split
      next r hr =>
        obtain rfl | ⟨-, -, rfl⟩ := signedRange_error hr
        · exact hres
        · exact isInterval_ofBounds 0 0
      next => exact signedLattice_isInterval h _ _ _

theorem foldBinOpLattice_of_int {ty : Datatype} (h : ty.isInt = true) {a b : Lattice} (op : BinOp)
    (ha : a.type = .int) (hb : b.type = .int) :
    foldBinOpLattice a op b ty = foldIntLattice a op b ty := by
  simp [foldBinOpLattice, ha, hb, h, Datatype.not_isFloat h]

/-- **Folding a binary operator on integer intervals is sound**: the machine result of operands
inside the intervals lies in the interval of the result.  The intervals are those of the datatype;
the count of a shift is any `i64`. -/
theorem foldBinOpLattice_sound {ty : Datatype} (h : ty.isInt = true) {a b : Lattice} {op : BinOp}
    (ha : a.type = .int) (hb : b.type = .int) (hat : isa a (dtToLattice ty) = true)
    (hbt : isa b (dtToLattice (if op.isShift then .i64 else ty)) = true) {x y v : ℤ}
    (hx : a.Contains x) (hy : b.Contains y) (hv : machine op ty.bits x y = some v) :
    (foldBinOpLattice a op b ty).type = .int ∧ (foldBinOpLattice a op b ty).Contains v := by
  rw [isa_dtToLattice_iff h ha] at hat
  rw [foldBinOpLattice_of_int h op ha hb]
  refine ⟨(foldIntLattice_isInterval h a op b).type, ?_⟩
  have hcount : (if op.isShift then Datatype.i64 else ty).isInt = true := by
    split_ifs
    · rfl
    · exact h
  rw [isa_dtToLattice_iff hcount hb] at hbt
  have hbb := hy.1.trans hy.2
  refine foldIntLattice_contains h hat (fun hs => ?_) ?_ hx hy hv
  · simpa only [hs, Bool.false_eq_true, ↓reduceIte] using hbt
  · have hmin := inS_of_contains hcount hbt ⟨le_rfl, hbb⟩
    have hmax := inS_of_contains hcount hbt ⟨hbb, le_rfl⟩
    exact ⟨hmin.mono (Datatype.bits_le hcount), hmax.mono (Datatype.bits_le hcount)⟩

/-- `I8` intervals that cross zero: the quotient of `-128` and `2` is found. -/
theorem foldBinOpLattice_sound_div :
    (foldBinOpLattice (.ofBounds (-128) 5) .div (.ofBounds 2 3) .i8).Contains (-64) :=
  (foldBinOpLattice_sound (a := .ofBounds (-128) 5) (b := .ofBounds 2 3) (x := -128) (y := 2)
    rfl rfl rfl (by decide) (by decide) (by decide) (by decide) (by decide)).2

end OdinSon
