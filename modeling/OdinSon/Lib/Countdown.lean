import Mathlib.Algebra.Order.Ring.Int
import Mathlib.Data.List.Count
import Mathlib.Data.List.Nodup
import Mathlib.Logic.Function.Basic

/-!
# Counting down to zero

Counters that are decremented one after the other, and the list of those that came to zero on the way.
-/

namespace OdinSon.Lib

variable {α : Type*} [DecidableEq α]

/-- Decrement the counters of the list in turn; each that comes to zero joins the order. -/
@[grind =] def countdown : List α → (α → ℤ) → List α → (α → ℤ) × List α
  | [], rc, order => (rc, order)
  | a :: as, rc, order =>
    let rc := Function.update rc a (rc a - 1)
    countdown as rc (if rc a = 0 then order ++ [a] else order)

variable {as order : List α} {rc : α → ℤ}

theorem countdown_rc (a : α) : (countdown as rc order).1 a = rc a - as.count a := by
  induction as generalizing rc order with
  | nil => rw [countdown, List.count_nil, Nat.cast_zero, sub_zero]
  | cons b as ih =>
    rw [countdown, ih]
    by_cases h : a = b
    · subst h
      rw [Function.update_self, List.count_cons_self]
      push_cast
      omega
    · rw [Function.update_of_ne h, List.count_cons_of_ne (Ne.symm h)]

/-- The counters that came to zero were positive, and counted at least so often. -/
theorem countdown_order : ∃ zeros, (countdown as rc order).2 = order ++ zeros ∧ zeros.Nodup ∧
    ∀ a, a ∈ zeros ↔ 0 < rc a ∧ rc a ≤ as.count a := by
  induction as generalizing rc order with
  | nil =>
    refine ⟨[], (List.append_nil _).symm, List.nodup_nil, fun a => ?_⟩
    rw [List.count_nil]
    simp only [List.not_mem_nil, false_iff]
    omega
  | cons b as ih =>
    rw [countdown]
    have hself : Function.update rc b (rc b - 1) b = rc b - 1 := Function.update_self ..
    have hother {a : α} (h : a ≠ b) : Function.update rc b (rc b - 1) a = rc a :=
      Function.update_of_ne h ..
    obtain ⟨zeros, hzeros, hnodup, hmem⟩ := @ih (if Function.update rc b (rc b - 1) b = 0 then order ++ [b] else order)
      (Function.update rc b (rc b - 1))
    rw [hzeros]
    by_cases hzero : rc b - 1 = 0
    · -- the counter of the head comes to zero here, and goes below it later
      have hb : b ∉ zeros := by
        rw [hmem, hself]
        omega
      refine ⟨b :: zeros, ?_, List.nodup_cons.2 ⟨hb, hnodup⟩, fun a => ?_⟩
      · rw [hself, if_pos hzero, List.append_assoc]
        rfl
      · rw [List.mem_cons]
        by_cases h : a = b
        · subst h
          rw [List.count_cons_self]
          simp only [true_or, true_iff]
          push_cast
          omega
        · rw [hmem, hother h, List.count_cons_of_ne (Ne.symm h)]
          simp only [h, false_or]
    · refine ⟨zeros, by rw [hself, if_neg hzero], hnodup, fun a => ?_⟩
      rw [hmem]
      by_cases h : a = b
      · subst h
        rw [hself, List.count_cons_self]
        push_cast
        omega
      · rw [hother h, List.count_cons_of_ne (Ne.symm h)]

end OdinSon.Lib
