import Mathlib.Data.List.Basic
import Mathlib.Data.List.Nodup
import Mathlib.Tactic.Tauto

/-!
# Removing from a list by putting its last element in the gap

Arrays whose order does not matter are shortened in constant time that way.  Up to order the element
is just removed (`swapRemove_perm`).
-/

namespace OdinSon

variable {α : Type*}

/-- Put the last element of the list at place `i`, and drop it at the end. -/
def swapRemove (l : List α) (i : ℕ) : List α :=
  match l.getLast? with
  | none => []
  | some z => (l.set i z).dropLast

theorem swapRemove_append (l₁ : List α) (a : α) (l₂ : List α) :
    (swapRemove (l₁ ++ a :: l₂) l₁.length).Perm (l₁ ++ l₂) := by
  rcases List.eq_nil_or_concat l₂ with rfl | ⟨l₂, z, rfl⟩
  · simp [swapRemove]
  · have hlast : (l₁ ++ a :: (l₂ ++ [z])).getLast? = some z := by
      rw [← List.cons_append, ← List.append_assoc, List.getLast?_concat]
    have hset : (l₁ ++ a :: (l₂ ++ [z])).set l₁.length z = (l₁ ++ z :: l₂) ++ [z] := by
      rw [List.set_append_right _ _ (Nat.le_refl _), Nat.sub_self, List.set_cons_zero]
      simp
    simp only [swapRemove, hlast, List.concat_eq_append, hset, List.dropLast_concat]
    refine List.Perm.append_left l₁ ?_
    exact (List.perm_append_singleton z l₂).symm

/-- **Up to order the element at `i` is removed.** -/
theorem swapRemove_perm {l : List α} {i : ℕ} (h : i < l.length) :
    (swapRemove l i).Perm (l.eraseIdx i) := by
  have hl : l.take i ++ l[i] :: l.drop (i + 1) = l := by
    rw [List.getElem_cons_drop, List.take_append_drop]
  have hp := swapRemove_append (l.take i) l[i] (l.drop (i + 1))
  rwa [hl, List.length_take_of_le (Nat.le_of_lt h), ← List.eraseIdx_eq_take_drop_succ] at hp

theorem mem_eraseIdx_iff [DecidableEq α] {l : List α} {a b : α} {i : ℕ} (hl : l.Nodup)
    (h : l.idxOf? a = some i) : b ∈ l.eraseIdx i ↔ b ∈ l ∧ b ≠ a := by
  obtain ⟨hi, ha, -⟩ := List.idxOf?_eq_some_iff.1 h
  rw [← hl.erase_getElem i hi, ha, hl.mem_erase_iff]
  exact and_comm

/-- In a list without duplicates it is gone afterwards, and nothing else. -/
theorem mem_swapRemove_iff [DecidableEq α] {l : List α} {a b : α} {i : ℕ} (hl : l.Nodup)
    (h : l.idxOf? a = some i) : b ∈ swapRemove l i ↔ b ∈ l ∧ b ≠ a := by
  obtain ⟨hi, -⟩ := List.idxOf?_eq_some_iff.1 h
  rw [(swapRemove_perm hi).mem_iff, mem_eraseIdx_iff hl h]

/-- Another element stays. -/
theorem mem_swapRemove_of_ne [DecidableEq α] {l : List α} {a b : α} {i : ℕ}
    (h : l.idxOf? a = some i) (hb : b ∈ l) (hne : b ≠ a) : b ∈ swapRemove l i := by
  obtain ⟨hi, -⟩ := List.idxOf?_eq_some_iff.1 h
  have herase : l.erase a = l.eraseIdx i := by rw [List.erase_eq_eraseIdx, h]
  rw [(swapRemove_perm hi).mem_iff, ← herase]
  exact (List.mem_erase_of_ne hne).2 hb

theorem nodup_swapRemove {l : List α} {i : ℕ} (hl : l.Nodup) (hi : i < l.length) :
    (swapRemove l i).Nodup :=
  (swapRemove_perm hi).nodup_iff.2 (hl.eraseIdx i)

/-- An element that is replaced by `c` is gone as well. -/
theorem mem_set_iff [DecidableEq α] {l : List α} {a b c : α} {i : ℕ} (hl : l.Nodup)
    (h : l.idxOf? a = some i) : b ∈ l.set i c ↔ b ∈ l ∧ b ≠ a ∨ b = c := by
  obtain ⟨hi, -⟩ := List.idxOf?_eq_some_iff.1 h
  rw [← mem_eraseIdx_iff hl h, List.set_eq_take_append_cons_drop, if_pos hi,
    List.eraseIdx_eq_take_drop_succ, List.mem_append, List.mem_append, List.mem_cons]
  tauto

end OdinSon
