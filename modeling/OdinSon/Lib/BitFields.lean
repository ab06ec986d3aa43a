import Mathlib.Data.List.Pairwise
import Mathlib.Data.Nat.Bitwise
import Mathlib.Tactic.Tauto

/-!
# Words made of fields

A field is a number of `width` bits that stands in a word from bit `lo` on.  A word is put together
by or-ing its fields (`assemble`), and taken apart by shifting and masking (`readField`).  When the
fields are apart, each is read back (`readField_assemble`).
-/

namespace OdinSon.Lib

variable {n : ℕ}

/-- The lowest `k` bits. -/
def lowMask (n k : ℕ) : BitVec n := BitVec.ofNat n (2 ^ k - 1)

/-- A number, and the bits of a word where it stands. -/
structure WordField (n : ℕ) where
  /-- The lowest bit. -/
  lo : ℕ
  /-- The number of bits. -/
  width : ℕ
  /-- The number. -/
  value : BitVec n

/-- The bits of a word from `lo` on. -/
def readField (lo width : ℕ) (x : BitVec n) : BitVec n := x >>> lo &&& lowMask n width

namespace WordField

/-- The field in its place. -/
def put (f : WordField n) : BitVec n := (f.value &&& lowMask n f.width) <<< f.lo

/-- No bit is in both fields. -/
def Apart (f g : WordField n) : Prop := f.lo + f.width ≤ g.lo ∨ g.lo + g.width ≤ f.lo

instance (f g : WordField n) : Decidable (f.Apart g) := inferInstanceAs (Decidable (_ ∨ _))

instance : Std.Symm (Apart (n := n)) := ⟨fun _ _ h => h.symm⟩

end WordField

/-- The word with the fields. -/
@[grind =] def assemble : List (WordField n) → BitVec n
  | [] => 0
  | f :: fs => f.put ||| assemble fs

variable {f g : WordField n} {fs gs : List (WordField n)} {x y : BitVec n} {lo width i k : ℕ}

theorem getLsbD_lowMask (n k i : ℕ) : (lowMask n k).getLsbD i = decide (i < n ∧ i < k) := by
  rw [lowMask, BitVec.getLsbD_ofNat, Nat.testBit_two_pow_sub_one, Bool.decide_and]

theorem getLsbD_readField :
    (readField lo width x).getLsbD i = (decide (i < width) && x.getLsbD (lo + i)) := by
  rw [readField, BitVec.getLsbD_and, BitVec.getLsbD_ushiftRight, getLsbD_lowMask]
  by_cases hi : i < n
  · simp [hi, Bool.and_comm]
  · rw [BitVec.getLsbD_of_ge x (lo + i) (by omega), Bool.false_and, Bool.and_false]

theorem getLsbD_put : f.put.getLsbD i =
    (decide (i < n ∧ f.lo ≤ i ∧ i < f.lo + f.width) && f.value.getLsbD (i - f.lo)) := by
  rw [WordField.put, BitVec.getLsbD_shiftLeft, BitVec.getLsbD_and, getLsbD_lowMask,
    Bool.eq_iff_iff]
  simp only [Bool.and_eq_true, decide_eq_true_iff, Bool.not_eq_true', decide_eq_false_iff_not]
  constructor
  · rintro ⟨⟨hi, hlo⟩, hv, -, hw⟩
    exact ⟨⟨hi, by omega, by omega⟩, hv⟩
  · rintro ⟨⟨hi, hlo, hw⟩, hv⟩
    exact ⟨⟨hi, by omega⟩, hv, by omega, by omega⟩

theorem getLsbD_assemble : (assemble fs).getLsbD i = fs.any fun f => f.put.getLsbD i := by
  induction fs with
  | nil => exact BitVec.getLsbD_zero
  | cons f fs ih => rw [assemble, BitVec.getLsbD_or, List.any_cons, ih]

theorem assemble_append : assemble (fs ++ gs) = assemble fs ||| assemble gs := by
  induction fs with
  | nil => exact (BitVec.zero_or).symm
  | cons f fs ih => rw [List.cons_append, assemble, ih, assemble, BitVec.or_assoc]

theorem and_lowMask (h : x.toNat < 2 ^ k) : x &&& lowMask n k = x := by
  refine BitVec.eq_of_getLsbD_eq fun i hi => ?_
  rw [BitVec.getLsbD_and, getLsbD_lowMask]
  by_cases hk : i < k
  · rw [decide_eq_true ⟨hi, hk⟩, Bool.and_true]
  · have hlt : x.toNat < 2 ^ i := h.trans_le (Nat.pow_le_pow_right (by decide) (not_lt.1 hk))
    rw [BitVec.getLsbD, Nat.testBit_lt_two_pow hlt, Bool.false_and]

/-- A number that fits is put in its place by a shift. -/
theorem put_of_lt (h : f.value.toNat < 2 ^ f.width) : f.put = f.value <<< f.lo := by
  rw [WordField.put, and_lowMask h]

/-- Bits that are moved down, masked and moved back. -/
theorem getLsbD_readField_shiftLeft (hi : i < n) : (readField lo width x <<< lo).getLsbD i =
    (decide (lo ≤ i ∧ i < lo + width) && x.getLsbD i) := by
  rw [BitVec.getLsbD_shiftLeft, getLsbD_readField, Bool.eq_iff_iff]
  simp only [Bool.and_eq_true, decide_eq_true_iff, Bool.not_eq_true', decide_eq_false_iff_not]
  constructor
  · rintro ⟨⟨-, hlo⟩, hw, hx⟩
    rw [Nat.add_sub_cancel' (not_lt.1 hlo)] at hx
    exact ⟨⟨by omega, by omega⟩, hx⟩
  · rintro ⟨⟨hlo, hw⟩, hx⟩
    refine ⟨⟨hi, by omega⟩, by omega, ?_⟩
    rw [Nat.add_sub_cancel' hlo]
    exact hx

/-- A mask that is moved up. -/
theorem and_shiftLeft (x y : BitVec n) (k : ℕ) : x &&& y <<< k = (x >>> k &&& y) <<< k := by
  refine BitVec.eq_of_getLsbD_eq fun i hi => ?_
  simp only [BitVec.getLsbD_and, BitVec.getLsbD_shiftLeft, BitVec.getLsbD_ushiftRight]
  by_cases hk : i < k
  · simp [hk]
  · rw [Nat.add_sub_cancel' (not_lt.1 hk), Bool.and_left_comm]

/-- **A field is read back** from a word whose fields are apart. -/
theorem readField_assemble {v : BitVec n} (hap : fs.Pairwise WordField.Apart)
    (hf : ⟨lo, width, v⟩ ∈ fs) (hn : lo + width ≤ n) :
    readField lo width (assemble fs) = v &&& lowMask n width := by
  refine BitVec.eq_of_getLsbD_eq fun i hi => ?_
  rw [getLsbD_readField, getLsbD_assemble, BitVec.getLsbD_and, getLsbD_lowMask, Bool.eq_iff_iff]
  simp only [Bool.and_eq_true, decide_eq_true_iff, List.any_eq_true, getLsbD_put]
  have hsame (g : WordField n) (hg : g ∈ fs) (hlo : g.lo ≤ lo + i) (hhi : lo + i < g.lo + g.width)
      (hw : i < width) : g = ⟨lo, width, v⟩ := by
    by_contra hne
    rcases hap.forall hf hg (Ne.symm hne) with h | h
    · exact absurd h (by dsimp only; omega)
    · exact absurd h (by dsimp only; omega)
  constructor
  · rintro ⟨hw, g, hg, ⟨-, hlo, hhi⟩, hv⟩
    obtain rfl := hsame g hg hlo hhi hw
    rw [Nat.add_sub_cancel_left] at hv
    exact ⟨hv, hi, hw⟩
  · rintro ⟨hv, -, hw⟩
    refine ⟨hw, _, hf, ⟨by omega, Nat.le_add_right _ _, Nat.add_lt_add_left hw _⟩, ?_⟩
    rw [Nat.add_sub_cancel_left]
    exact hv

/-- The number in a field that it fits into. -/
theorem readField_of_lt {v : BitVec n} (hap : fs.Pairwise WordField.Apart)
    (hf : ⟨lo, width, v⟩ ∈ fs) (hn : lo + width ≤ n) (hv : v.toNat < 2 ^ width) :
    readField lo width (assemble fs) = v :=
  (readField_assemble hap hf hn).trans (and_lowMask hv)

end OdinSon.Lib
