import Mathlib.Logic.Function.Basic
import Mathlib.Data.Set.Function
import Mathlib.Order.Interval.Set.Defs

/-!
# Copying one cell at a time

A memory gives every address of `A` a cell of `B`, and `loc` names the addresses by positions, one
address for each position below `bound`.  `copyUp` copies cells from the lowest on and `copyDown` from
the highest on.

A copy is right when the destination has what the source had before, and nothing else changes
(`Moved`).  Where the ranges overlap, `copyUp` is right for a destination below the source and
`copyDown` for one above; the other way it is right only when the cells of the source repeat with the
distance of the two ranges (`moved_copyUp_iff`, `moved_copyDown_iff`).
-/

namespace OdinSon.Lib

variable {A B : Type*} [DecidableEq A] (loc : ℕ → A)

/-- `n` cells from position `q` on to those from `p` on, the lowest first. -/
@[grind =] def copyUp : ℕ → (A → B) → ℕ → ℕ → A → B
  | 0, m, _, _ => m
  | n + 1, m, p, q => copyUp n (Function.update m (loc p) (m (loc q))) (p + 1) (q + 1)

/-- The same, the highest first. -/
def copyDown : ℕ → (A → B) → ℕ → ℕ → A → B
  | 0, m, _, _ => m
  | n + 1, m, p, q => copyDown n (Function.update m (loc (p + n)) (m (loc (q + n)))) p q

/-- The `n` cells from `p` on have what those from `q` on had before; the others are unchanged. -/
structure Moved (m m' : A → B) (p q n : ℕ) : Prop where
  copied : ∀ i < n, m' (loc (p + i)) = m (loc (q + i))
  frame : ∀ a, (∀ i < n, a ≠ loc (p + i)) → m' a = m a

/-- The cells repeat with distance `d`. -/
def Repeats (m : A → B) (q n d : ℕ) : Prop := ∀ i, i + d < n → m (loc (q + i)) = m (loc (q + i + d))

variable {loc} {bound : ℕ} {m : A → B} {n p q : ℕ}

theorem copyUp_frame (a : A) (ha : ∀ i < n, a ≠ loc (p + i)) : copyUp loc n m p q a = m a := by
  induction n generalizing m p q with
  | zero => rfl
  | succ n ih =>
    have hne : a ≠ loc p := ha 0 (by omega)
    rw [copyUp, ih fun i hi => ?_, Function.update_of_ne hne]
    rw [Nat.add_right_comm]
    exact ha (i + 1) (by omega)

theorem copyDown_frame (a : A) (ha : ∀ i < n, a ≠ loc (p + i)) : copyDown loc n m p q a = m a := by
  induction n generalizing m with
  | zero => rfl
  | succ n ih =>
    rw [copyDown, ih fun i hi => ha i (by omega), Function.update_of_ne (ha n (by omega))]

/-- Copying cells to themselves. -/
theorem copyUp_self : copyUp loc n m p p = m := by
  induction n generalizing p with
  | zero => rfl
  | succ n ih => rw [copyUp, Function.update_eq_self, ih]

section Inj

variable (hloc : Set.InjOn loc (Set.Iio bound))

include hloc

omit [DecidableEq A] in
theorem loc_ne {i j : ℕ} (hi : i < bound) (hj : j < bound) (h : i ≠ j) : loc i ≠ loc j :=
  fun he => h (hloc hi hj he)

/-- Copying up, to a position above: a cell that was written before it is read has its new content. -/
theorem copyUp_of_le (hqp : q ≤ p) (hp : p + n ≤ bound) {i : ℕ} (hi : i < n) :
    copyUp loc n m p q (loc (p + i)) =
      if q + i < p then m (loc (q + i)) else copyUp loc n m p q (loc (q + i)) := by
  induction n generalizing m p q i with
  | zero => omega
  | succ n ih =>
    have hfirst : copyUp loc (n + 1) m p q (loc p) = m (loc q) := by
      rw [copyUp, copyUp_frame, Function.update_self]
      exact fun j hj => loc_ne hloc (i := p) (j := p + 1 + j) (by omega) (by omega) (by omega)
    cases i with
    | zero =>
      simp only [Nat.add_zero]
      rw [hfirst]
      split_ifs with h
      · rfl
      · rw [show q = p by omega] at hfirst ⊢
        exact hfirst.symm
    | succ i =>
      have h := ih (m := Function.update m (loc p) (m (loc q))) (p := p + 1) (q := q + 1)
        (by omega) (by omega) (i := i) (by omega)
      rw [Nat.add_right_comm, Nat.add_right_comm q] at h
      rw [copyUp, ← Nat.add_assoc, ← Nat.add_assoc, h]
      rcases lt_trichotomy (q + i + 1) p with hlt | heq | hgt
      · rw [if_pos (by omega), if_pos hlt,
          Function.update_of_ne (loc_ne hloc (by omega) (by omega) (by omega))]
      · rw [if_pos (by omega), if_neg (by omega), heq, Function.update_self]
        exact hfirst.symm
      · rw [if_neg (by omega), if_neg (by omega)]

/-- Copying down, to a position below: the same. -/
theorem copyDown_of_le (hpq : p ≤ q) (hq : q + n ≤ bound) {i : ℕ} (hi : i < n) :
    copyDown loc n m p q (loc (p + i)) =
      if p + n ≤ q + i then m (loc (q + i)) else copyDown loc n m p q (loc (q + i)) := by
  induction n generalizing m i with
  | zero => omega
  | succ n ih =>
    have hlast : copyDown loc (n + 1) m p q (loc (p + n)) = m (loc (q + n)) := by
      rw [copyDown, copyDown_frame, Function.update_self]
      exact fun j hj => loc_ne hloc (i := p + n) (j := p + j) (by omega) (by omega) (by omega)
    rcases Nat.lt_succ_iff_lt_or_eq.1 hi with hi | rfl
    · have h := ih (m := Function.update m (loc (p + n)) (m (loc (q + n)))) (by omega) hi
      rw [copyDown, h]
      rcases lt_trichotomy (q + i) (p + n) with hlt | heq | hgt
      · rw [if_neg (by omega), if_neg (by omega)]
      · rw [if_pos (by omega), if_neg (by omega), heq, Function.update_self]
        exact hlast.symm
      · rw [if_pos (by omega), if_pos (by omega),
          Function.update_of_ne (loc_ne hloc (by omega) (by omega) (by omega))]
    · rw [hlast]
      split_ifs with h
      · rfl
      · rw [show q = p by omega] at hlast ⊢
        exact hlast.symm

/-- Copying down to a position above never reads a cell that was written. -/
theorem copyDown_of_lt (hqp : q < p) (hp : p + n ≤ bound) {i : ℕ} (hi : i < n) :
    copyDown loc n m p q (loc (p + i)) = m (loc (q + i)) := by
  induction n generalizing m i with
  | zero => omega
  | succ n ih =>
    rw [copyDown]
    rcases Nat.lt_succ_iff_lt_or_eq.1 hi with hi | rfl
    · rw [ih (by omega) hi, Function.update_of_ne (loc_ne hloc (by omega) (by omega) (by omega))]
    · rw [copyDown_frame, Function.update_self]
      exact fun j hj => loc_ne hloc (i := p + i) (j := p + j) (by omega) (by omega) (by omega)

/-- Copying up to a position above is right when the source repeats. -/
theorem moved_copyUp_iff (hqp : q ≤ p) (hp : p + n ≤ bound) :
    Moved loc m (copyUp loc n m p q) p q n ↔ Repeats loc m q n (p - q) := by
  constructor
  · intro h i hi
    have hread := copyUp_of_le (m := m) hloc hqp hp hi
    rw [if_neg (by omega), show q + (i + (p - q)) = p + i by omega, h.copied i (by omega),
      h.copied _ hi] at hread
    rw [← hread, Nat.add_assoc]
  · intro h
    refine ⟨fun i hi => ?_, copyUp_frame⟩
    rcases Nat.eq_or_lt_of_le hqp with rfl | hlt
    · rw [copyUp_self]
    · induction i using Nat.strong_induction_on with
      | h i ih =>
        rw [copyUp_of_le hloc hqp hp hi]
        split_ifs with hq
        · rfl
        · have h1 := ih (i - (p - q)) (by omega) (by omega)
          have h2 := h (i - (p - q)) (by omega)
          rw [show p + (i - (p - q)) = q + i by omega] at h1
          rw [h1, h2, show q + (i - (p - q)) + (p - q) = q + i by omega]

/-- Copying down to a position below is right when the source repeats. -/
theorem moved_copyDown_iff (hpq : p < q) (hq : q + n ≤ bound) :
    Moved loc m (copyDown loc n m p q) p q n ↔ Repeats loc m q n (q - p) := by
  constructor
  · intro h i hi
    have hread := copyDown_of_le (m := m) hloc hpq.le hq (i := i) (by omega)
    rw [if_neg (by omega), show q + i = p + (i + (q - p)) by omega, h.copied _ hi,
      h.copied i (by omega)] at hread
    rw [hread, Nat.add_assoc]
  · intro h
    refine ⟨fun i hi => ?_, copyDown_frame⟩
    -- from the highest cell down
    induction hk : n - i using Nat.strong_induction_on generalizing i with
    | h k ih =>
      rw [copyDown_of_le hloc hpq.le hq hi]
      split_ifs with hlast
      · rfl
      · have h1 := ih (n - (i + (q - p))) (by omega) (i + (q - p)) (by omega) rfl
        rw [show p + (i + (q - p)) = q + i by omega] at h1
        rw [h1, h i (by omega), Nat.add_assoc]

theorem moved_copyDown (hqp : q < p) (hp : p + n ≤ bound) :
    Moved loc m (copyDown loc n m p q) p q n :=
  ⟨fun _ hi => copyDown_of_lt hloc hqp hp hi, copyDown_frame⟩

end Inj

end OdinSon.Lib
