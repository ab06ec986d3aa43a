import Mathlib.Data.List.Basic
import Mathlib.Tactic.Ring
import Mathlib.Tactic.Linarith

/-!
# Numbers in bytes

A number in `k` bytes, the low byte first, and lists with a part that is written over.
-/

namespace OdinSon

/-- `n` in `k` bytes, the low one first. -/
@[grind =] def toLE : ℕ → ℕ → List ℕ
  | 0, _ => []
  | k + 1, n => n % 256 :: toLE k (n / 256)

/-- The number that the bytes make. -/
def ofLE : List ℕ → ℕ
  | [] => 0
  | b :: bs => b + 256 * ofLE bs

@[simp] theorem length_toLE (k n : ℕ) : (toLE k n).length = k := by
  induction k generalizing n with
  | zero => rfl
  | succ k ih => rw [toLE, List.length_cons, ih]

theorem ofLE_toLE (k n : ℕ) : ofLE (toLE k n) = n % 256 ^ k := by
  induction k generalizing n with
  | zero => rw [pow_zero, Nat.mod_one, toLE, ofLE]
  | succ k ih => rw [toLE, ofLE, ih, pow_succ', Nat.mod_mul]

theorem ofLE_toLE_of_lt {k n : ℕ} (h : n < 256 ^ k) : ofLE (toLE k n) = n := by
  rw [ofLE_toLE, Nat.mod_eq_of_lt h]

/-- `data` written over the list, from `off` on. -/
def splice {α : Type*} (l : List α) (off : ℕ) (data : List α) : List α :=
  l.take off ++ data ++ l.drop (off + data.length)

section Splice

variable {α : Type*} {l data : List α} {off i : ℕ}

theorem length_splice (h : off + data.length ≤ l.length) : (splice l off data).length = l.length := by
  rw [splice, List.length_append, List.length_append, List.length_take, List.length_drop]
  omega

theorem getElem?_splice (h : off + data.length ≤ l.length) :
    (splice l off data)[i]? = if off ≤ i ∧ i < off + data.length then data[i - off]? else l[i]? := by
  have htake : (l.take off).length = off := by
    rw [List.length_take]
    omega
  rw [splice, List.append_assoc]
  obtain hi | hi := lt_or_ge i off
  · rw [if_neg (by omega), List.getElem?_append_left (by omega), List.getElem?_take_of_lt hi]
  · rw [List.getElem?_append_right (by omega), htake]
    obtain hd | hd := lt_or_ge i (off + data.length)
    · rw [if_pos ⟨hi, hd⟩, List.getElem?_append_left (by omega)]
    · rw [if_neg (by omega), List.getElem?_append_right (by omega), List.getElem?_drop]
      congr 1
      omega

/-- Two parts that are written one after the other. -/
theorem splice_splice {data₂ : List α} (h : off + data.length + data₂.length ≤ l.length) :
    splice (splice l off data) (off + data.length) data₂ = splice l off (data ++ data₂) := by
  have hle : off + data.length ≤ l.length := (Nat.le_add_right _ _).trans h
  have hfits : off + (data ++ data₂).length ≤ l.length := by
    rw [List.length_append]
    omega
  refine List.ext_getElem? fun i => ?_
  rw [getElem?_splice (by rwa [length_splice hle]), getElem?_splice hle, getElem?_splice hfits,
    List.length_append]
  by_cases h₁ : i < off + data.length
  · have hn : ¬(off + data.length ≤ i ∧ i < off + data.length + data₂.length) := by omega
    rw [if_neg hn]
    by_cases h₀ : off ≤ i
    · rw [if_pos ⟨h₀, h₁⟩, if_pos (by omega), List.getElem?_append_left (by omega)]
    · rw [if_neg (by omega), if_neg (by omega)]
  · by_cases h₂ : i < off + data.length + data₂.length
    · rw [if_pos ⟨not_lt.1 h₁, h₂⟩, if_pos (by omega), List.getElem?_append_right (by omega),
        Nat.sub_sub]
    · rw [if_neg (by omega), if_neg (by omega), if_neg (by omega)]

/-- A part of a part. -/
theorem splice_splice_inner {b : List α} (h : off + data.length ≤ l.length)
    (hb : i + b.length ≤ data.length) :
    splice (splice l off data) (off + i) b = splice l off (splice data i b) := by
  have hlen := length_splice hb
  refine List.ext_getElem? fun j => ?_
  rw [getElem?_splice (by rw [length_splice h]; omega), getElem?_splice h,
    getElem?_splice (by rwa [hlen]), hlen, getElem?_splice hb]
  by_cases hj : off ≤ j ∧ j < off + data.length
  · by_cases hi : off + i ≤ j ∧ j < off + i + b.length
    · have hn : i ≤ j - off ∧ j - off < i + b.length := by omega
      rw [if_pos hi, if_pos hj, if_pos hn, Nat.sub_sub]
    · have hn : ¬(i ≤ j - off ∧ j - off < i + b.length) := by omega
      rw [if_neg hi, if_pos hj, if_pos hj, if_neg hn]
  · have hn : ¬(off + i ≤ j ∧ j < off + i + b.length) := by omega
    rw [if_neg hn, if_neg hj, if_neg hj]

theorem splice_append_append (pre old post : List α) (h : data.length = old.length) :
    splice (pre ++ old ++ post) pre.length data = pre ++ data ++ post := by
  have htake : (pre ++ old ++ post).take pre.length = pre := by
    rw [List.append_assoc]
    exact List.take_left' rfl
  rw [splice, htake, h, List.drop_left' List.length_append]

/-- Parts written one after another. -/
def spliceAll (l : List α) (parts : List (ℕ × List α)) : List α :=
  parts.foldl (fun l p => splice l p.1 p.2) l

section SpliceAll

variable {parts : List (ℕ × List α)}

theorem length_spliceAll (h : ∀ p ∈ parts, p.1 + p.2.length ≤ l.length) :
    (spliceAll l parts).length = l.length := by
  induction parts generalizing l with
  | nil => rfl
  | cons p parts ih =>
    have hp := length_splice (h p (List.mem_cons_self ..))
    have hrest : ∀ q ∈ parts, q.1 + q.2.length ≤ (splice l p.1 p.2).length := by
      intro q hq
      rw [hp]
      exact h q (List.mem_cons_of_mem _ hq)
    exact (ih hrest).trans hp

/-- What is in no part stays. -/
theorem getElem?_spliceAll_of_outside (h : ∀ p ∈ parts, p.1 + p.2.length ≤ l.length)
    (hout : ∀ p ∈ parts, ¬(p.1 ≤ i ∧ i < p.1 + p.2.length)) : (spliceAll l parts)[i]? = l[i]? := by
  induction parts generalizing l with
  | nil => rfl
  | cons p parts ih =>
    have hp := h p (List.mem_cons_self ..)
    have hrest : ∀ q ∈ parts, q.1 + q.2.length ≤ (splice l p.1 p.2).length := by
      intro q hq
      rw [length_splice hp]
      exact h q (List.mem_cons_of_mem _ hq)
    refine (ih hrest fun q hq => hout q (List.mem_cons_of_mem _ hq)).trans ?_
    rw [getElem?_splice hp, if_neg (hout p (List.mem_cons_self ..))]

/-- Of parts that do not meet, each is there in the end. -/
theorem getElem?_spliceAll_of_mem (h : ∀ p ∈ parts, p.1 + p.2.length ≤ l.length)
    (hapart : parts.Pairwise fun p q => p.1 + p.2.length ≤ q.1 ∨ q.1 + q.2.length ≤ p.1)
    {p : ℕ × List α} (hp : p ∈ parts) (hi : i < p.2.length) :
    (spliceAll l parts)[p.1 + i]? = p.2[i]? := by
  induction parts generalizing l with
  | nil => cases hp
  | cons q parts ih =>
    have hq := h q (List.mem_cons_self ..)
    have hrest : ∀ r ∈ parts, r.1 + r.2.length ≤ (splice l q.1 q.2).length := by
      intro r hr
      rw [length_splice hq]
      exact h r (List.mem_cons_of_mem _ hr)
    obtain ⟨hapart, happarts⟩ := List.pairwise_cons.1 hapart
    obtain rfl | hp := List.mem_cons.1 hp
    · have hout : ∀ r ∈ parts, ¬(r.1 ≤ p.1 + i ∧ p.1 + i < r.1 + r.2.length) := by
        intro r hr
        have := hapart r hr
        omega
      refine (getElem?_spliceAll_of_outside hrest hout).trans ?_
      rw [getElem?_splice hq, if_pos ⟨Nat.le_add_right _ _, by omega⟩, Nat.add_sub_cancel_left]
    · exact ih hrest happarts hp

/-- Parts of a part. -/
theorem spliceAll_splice (h : off + data.length ≤ l.length)
    (hparts : ∀ p ∈ parts, p.1 + p.2.length ≤ data.length) :
    spliceAll (splice l off data) (parts.map fun p => (off + p.1, p.2)) =
      splice l off (spliceAll data parts) := by
  induction parts generalizing data with
  | nil => rfl
  | cons p parts ih =>
    have hp := hparts p (List.mem_cons_self ..)
    have hlen := length_splice hp
    have hnext := ih (by rwa [hlen]) (by
      intro q hq
      rw [hlen]
      exact hparts q (List.mem_cons_of_mem _ hq))
    rw [← splice_splice_inner h hp] at hnext
    exact hnext

end SpliceAll

end Splice

end OdinSon
