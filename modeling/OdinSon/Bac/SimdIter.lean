import Mathlib.Data.Nat.Log
import Mathlib.Data.Nat.Bitwise

/-!
# Searching bytes from the end

`simd_iter_next_rev` of `bac/graph.odin`: the places of a byte in an array, from the last to the
first.  Sixteen bytes are compared at a time, and the result is a mask of 16 bits that the next
calls take apart.  The array may change between calls.  What the iterator still has to find is what
is below a cursor (`RevAt`), so changes at or above the cursor do not matter (`RevAt.congr`).
-/

namespace OdinSon

/-- The lanes below `n` of a block that are equal to `needle` (`lanes_eq`, `extract_lsbs`). -/
def lanesEq (hash : ℕ → UInt8) (needle : UInt8) (block : ℕ) : ℕ → ℕ
  | 0 => 0
  | n + 1 =>
    lanesEq hash needle block n ||| if hash (16 * block + n) = needle then 2 ^ n else 0

/-- `count_leading_zeros` of a `u16` that is not 0. -/
def leadingZeros16 (mask : ℕ) : ℕ := 15 - mask.log2

/-- `simd_iter_next_rev`.  Of the iterator there are the blocks that are not loaded yet and the mask
of the last one that is; the result has the place that was found and the iterator after it. -/
@[grind =] def simdIterNextRev (hash : ℕ → UInt8) (needle : UInt8) : ℕ → ℕ → Option (ℕ × ℕ × ℕ)
  | 0, mask =>
    if mask ≠ 0 then
      let leading := leadingZeros16 mask
      some ((0 + 1) * 16 - leading - 1, 0, mask &&& (65535 >>> (leading + 1)))
    else none
  | rest + 1, mask =>
    if mask ≠ 0 then
      let leading := leadingZeros16 mask
      some ((rest + 1 + 1) * 16 - leading - 1, rest + 1, mask &&& (65535 >>> (leading + 1)))
    else simdIterNextRev hash needle rest (lanesEq hash needle rest 16)

/-- The iterator has the places below `c` before it. -/
structure RevAt (hash : ℕ → UInt8) (needle : UInt8) (rest mask c : ℕ) : Prop where
  lo : 16 * rest ≤ c
  hi : c ≤ 16 * rest + 16
  bit : ∀ l, mask.testBit l = true ↔ 16 * rest + l < c ∧ hash (16 * rest + l) = needle

variable {hash hash' : ℕ → UInt8} {needle : UInt8} {rest mask rest' mask' c k : ℕ}

theorem testBit_lanesEq (block n l : ℕ) :
    (lanesEq hash needle block n).testBit l = true ↔ l < n ∧ hash (16 * block + l) = needle := by
  induction n with
  | zero => simp [lanesEq]
  | succ n ih =>
    rw [lanesEq, Nat.testBit_or, Bool.or_eq_true, ih]
    by_cases hn : hash (16 * block + n) = needle
    · rw [if_pos hn, Nat.testBit_two_pow, decide_eq_true_iff]
      constructor
      · rintro (⟨hl, he⟩ | rfl)
        · exact ⟨by omega, he⟩
        · exact ⟨by omega, hn⟩
      · rintro ⟨hl, he⟩
        by_cases hln : l < n
        · exact .inl ⟨hln, he⟩
        · exact .inr (by omega)
    · rw [if_neg hn, Nat.zero_testBit]
      constructor
      · rintro (⟨hl, he⟩ | h)
        · exact ⟨by omega, he⟩
        · cases h
      · rintro ⟨hl, he⟩
        have hne : l ≠ n := fun h => hn (h ▸ he)
        exact .inl ⟨by omega, he⟩

theorem revAt_start (blocks : ℕ) : RevAt hash needle blocks 0 (16 * blocks) :=
  ⟨le_refl _, by omega, fun l => by simp⟩

theorem revAt_load (block : ℕ) :
    RevAt hash needle block (lanesEq hash needle block 16) (16 * block + 16) := by
  refine ⟨by omega, le_refl _, fun l => ?_⟩
  rw [testBit_lanesEq, Nat.add_lt_add_iff_left]

theorem RevAt.congr (h : RevAt hash needle rest mask c) (he : ∀ i < c, hash' i = hash i) :
    RevAt hash' needle rest mask c := by
  refine ⟨h.lo, h.hi, fun l => (h.bit l).trans (and_congr_right fun hl => ?_)⟩
  rw [he _ hl]

theorem shiftRight_leading : ∀ l < 16, 65535 >>> (15 - l + 1) = 2 ^ l - 1 := by decide

/-- The highest bit of the mask is the place before the cursor, and is taken out. -/
theorem RevAt.take (h : RevAt hash needle rest mask c) (hm : mask ≠ 0) :
    let leading := leadingZeros16 mask
    let k := (rest + 1) * 16 - leading - 1
    k < c ∧ hash k = needle ∧ (∀ i, k < i → i < c → hash i ≠ needle) ∧
      RevAt hash needle rest (mask &&& (65535 >>> (leading + 1))) k := by
  have htop : mask.testBit mask.log2 = true := Nat.testBit_log2 hm
  obtain ⟨hlt, hhash⟩ := (h.bit _).1 htop
  have hhi := h.hi
  have hlane : mask.log2 < 16 := by omega
  have hk : (rest + 1) * 16 - leadingZeros16 mask - 1 = 16 * rest + mask.log2 := by
    rw [leadingZeros16]
    omega
  dsimp only
  rw [hk, leadingZeros16, shiftRight_leading _ hlane]
  refine ⟨hlt, hhash, fun i hki hic he => ?_, by omega, by omega, fun l => ?_⟩
  · have hbit : mask.testBit (i - 16 * rest) = true := by
      have hi : 16 * rest + (i - 16 * rest) = i := by omega
      rw [h.bit, hi]
      exact ⟨hic, he⟩
    have := (Nat.le_log2 hm).2 (Nat.ge_two_pow_of_testBit hbit)
    omega
  · rw [Nat.testBit_and, Nat.testBit_two_pow_sub_one, Bool.and_eq_true, h.bit, decide_eq_true_iff]
    constructor
    · rintro ⟨⟨-, he⟩, hl⟩
      exact ⟨by omega, he⟩
    · rintro ⟨hl, he⟩
      exact ⟨⟨by omega, he⟩, by omega⟩

theorem RevAt.of_mask_zero (h : RevAt hash needle rest 0 c) {i : ℕ} (hlo : 16 * rest ≤ i)
    (hic : i < c) : hash i ≠ needle := by
  intro he
  have hi : 16 * rest + (i - 16 * rest) = i := by omega
  have hbit : (0 : ℕ).testBit (i - 16 * rest) = true := by
    rw [h.bit, hi]
    exact ⟨hic, he⟩
  rw [Nat.zero_testBit] at hbit
  cases hbit

/-- **A place that is found** is the last one below the cursor. -/
theorem simdIterNextRev_some (h : RevAt hash needle rest mask c)
    (hn : simdIterNextRev hash needle rest mask = some (k, rest', mask')) :
    k < c ∧ hash k = needle ∧ (∀ i, k < i → i < c → hash i ≠ needle) ∧
      RevAt hash needle rest' mask' k := by
  induction rest generalizing mask c with
  | zero =>
    rw [simdIterNextRev] at hn
    split at hn
    · rename_i hm
      cases hn
      exact h.take hm
    · cases hn
  | succ rest ih =>
    rw [simdIterNextRev] at hn
    split at hn
    · rename_i hm
      cases hn
      exact h.take hm
    · rename_i hm
      rw [not_not] at hm
      obtain ⟨hk, he, hbetween, hat⟩ := ih (revAt_load rest) hn
      have hlo := h.lo
      refine ⟨by omega, he, fun i hki hic => ?_, hat⟩
      by_cases hi : i < 16 * rest + 16
      · exact hbetween i hki hi
      · exact (hm ▸ h).of_mask_zero (by omega) hic

/-- **When nothing is found** there is nothing below the cursor. -/
theorem simdIterNextRev_none (h : RevAt hash needle rest mask c)
    (hn : simdIterNextRev hash needle rest mask = none) : ∀ i < c, hash i ≠ needle := by
  induction rest generalizing mask c with
  | zero =>
    rw [simdIterNextRev] at hn
    split at hn
    · cases hn
    · rename_i hm
      rw [not_not] at hm
      exact fun i hic => (hm ▸ h).of_mask_zero (by omega) hic
  | succ rest ih =>
    rw [simdIterNextRev] at hn
    split at hn
    · cases hn
    · rename_i hm
      rw [not_not] at hm
      intro i hic
      by_cases hi : i < 16 * rest + 16
      · exact ih (revAt_load rest) hn i hi
      · exact (hm ▸ h).of_mask_zero (by omega) hic

end OdinSon
