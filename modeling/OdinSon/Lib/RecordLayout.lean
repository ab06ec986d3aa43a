import Mathlib.Algebra.Order.Ring.Int
import Mathlib.Data.Nat.Bitwise
import Mathlib.Tactic.Linarith
import Mathlib.Tactic.Positivity
import Mathlib.Tactic.Ring

/-!
# Laying out a record

The members of a record are placed one after the other, each at the next multiple of its alignment;
the record is aligned as its most demanding member, and ends at a multiple of that.  With alignments
that are powers of two every member is aligned, ends before the next one begins and stays inside the
record (`Layout.sound_place`).
-/

namespace OdinSon.Lib

/-- The least multiple of `a` from `x` on. -/
def alignUp (x a : ℤ) : ℤ := x + -x % a

section AlignUp

variable {x a : ℤ}

theorem dvd_alignUp : a ∣ alignUp x a := by
  rw [alignUp, Int.emod_def]
  exact ⟨-(-x / a), by ring⟩

theorem le_alignUp (ha : 0 < a) : x ≤ alignUp x a := by
  have := Int.emod_nonneg (-x) ha.ne'
  rw [alignUp]
  omega

/-- The step that rounds a remainder up. -/
theorem alignUp_eq_ite (ha : 0 < a) :
    alignUp x a = if x % a = 0 then x else x + a - x % a := by
  rw [alignUp]
  have hx := Int.emod_nonneg x ha.ne'
  have hlt := Int.emod_lt_of_pos x ha
  split_ifs with h
  · rw [Int.emod_eq_zero_of_dvd (Int.dvd_neg.2 (Int.dvd_of_emod_eq_zero h)), add_zero]
  · have hneg : -x % a = a - x % a := by
      rw [Int.emod_eq_iff ha.ne']
      refine ⟨by omega, by rw [Int.natCast_natAbs, abs_of_pos ha]; omega, ?_⟩
      have := Int.mul_ediv_add_emod x a
      exact ⟨x / a + 1, by linarith⟩
    rw [hneg]
    ring

end AlignUp

/-- A positive power of two. -/
def IsPow2 (a : ℤ) : Prop := ∃ k : ℕ, a = 2 ^ k

theorem IsPow2.pos {a : ℤ} (h : IsPow2 a) : 0 < a := by
  obtain ⟨k, rfl⟩ := h
  positivity

theorem IsPow2.max {a b : ℤ} (ha : IsPow2 a) (hb : IsPow2 b) : IsPow2 (max a b) := by
  rcases max_choice a b with h | h <;> rw [h] <;> assumption

theorem IsPow2.dvd {a b : ℤ} (ha : IsPow2 a) (hb : IsPow2 b) (h : a ≤ b) : a ∣ b := by
  obtain ⟨j, rfl⟩ := ha
  obtain ⟨k, rfl⟩ := hb
  exact pow_dvd_pow _ ((pow_le_pow_iff_right₀ (by norm_num)).1 h)

/-- The bit test for a power of two. -/
theorem isPow2_of_and {a : ℤ} (hpos : 0 < a) (h : a.toNat &&& (a.toNat - 1) = 0) : IsPow2 a := by
  obtain ⟨k, hk⟩ := (Nat.and_sub_one_eq_zero_iff_isPowerOfTwo (n := a.toNat) (by omega)).1 h
  refine ⟨k, ?_⟩
  have : ((a.toNat : ℕ) : ℤ) = ((2 ^ k : ℕ) : ℤ) := by rw [hk]
  rw [Int.toNat_of_nonneg hpos.le] at this
  exact_mod_cast this

/-- What a record holds. -/
structure Member where
  /-- The number of bytes. -/
  size : ℤ
  /-- What the offset has to be a multiple of. -/
  align : ℤ

/-- A record that is being laid out. -/
structure Layout where
  /-- The members with their offsets. -/
  fields : List (ℤ × Member)
  /-- Where the next member may begin. -/
  size : ℤ
  /-- The greatest alignment of a member. -/
  align : ℤ

namespace Layout

/-- Place a member behind those that are there. -/
def add (l : Layout) (m : Member) : Layout where
  fields := l.fields ++ [(alignUp l.size m.align, m)]
  size := alignUp l.size m.align + m.size
  align := max l.align m.align

/-- The members in turn, in an empty record. -/
def place (ms : List Member) : Layout := ms.foldl add ⟨[], 0, 1⟩

/-- Round the size up to the alignment. -/
def close (l : Layout) : Layout := { l with size := alignUp l.size l.align }

theorem place_append (ms : List Member) (m : Member) : place (ms ++ [m]) = (place ms).add m := by
  rw [place, List.foldl_append]
  rfl

/-- The members are aligned, apart from each other and inside the record. -/
structure Sound (l : Layout) : Prop where
  aligned : ∀ f ∈ l.fields, f.2.align ∣ f.1
  inside : ∀ f ∈ l.fields, 0 ≤ f.1 ∧ f.1 + f.2.size ≤ l.size
  apart : l.fields.Pairwise fun f g => f.1 + f.2.size ≤ g.1
  dvd_align : ∀ f ∈ l.fields, f.2.align ∣ l.align
  size_nonneg : 0 ≤ l.size
  align_pow2 : IsPow2 l.align

theorem Sound.add {l : Layout} {m : Member} (h : l.Sound) (hm : 0 ≤ m.size) (ha : IsPow2 m.align) :
    (l.add m).Sound := by
  have hle : l.size ≤ alignUp l.size m.align := le_alignUp ha.pos
  have hnonneg := h.size_nonneg
  have hmax := h.align_pow2.max ha
  refine ⟨?_, ?_, ?_, ?_, by simp only [Layout.add]; omega, hmax⟩
  · intro f hf
    rcases List.mem_append.1 hf with hf | hf
    · exact h.aligned f hf
    · rw [List.mem_singleton.1 hf]
      exact dvd_alignUp
  · intro f hf
    rcases List.mem_append.1 hf with hf | hf
    · have := h.inside f hf
      simp only [Layout.add]
      omega
    · rw [List.mem_singleton.1 hf]
      simp only [Layout.add]
      omega
  · refine List.pairwise_append.2 ⟨h.apart, List.pairwise_singleton .., fun f hf g hg => ?_⟩
    -- what was there ends at the old size, and the new member begins behind it
    rw [List.mem_singleton.1 hg]
    exact (h.inside f hf).2.trans hle
  · intro f hf
    rcases List.mem_append.1 hf with hf | hf
    · exact (h.dvd_align f hf).trans (h.align_pow2.dvd hmax (le_max_left ..))
    · rw [List.mem_singleton.1 hf]
      exact ha.dvd hmax (le_max_right ..)

theorem Sound.close {l : Layout} (h : l.Sound) : l.close.Sound := by
  have hle : l.size ≤ alignUp l.size l.align := le_alignUp h.align_pow2.pos
  refine ⟨h.aligned, fun f hf => ?_, h.apart, h.dvd_align, h.size_nonneg.trans hle, h.align_pow2⟩
  exact ⟨(h.inside f hf).1, (h.inside f hf).2.trans hle⟩

/-- **Placing members of a size and an alignment that is a power of two**, the members come out
aligned, apart and inside. -/
theorem sound_place {ms : List Member} (h : ∀ m ∈ ms, 0 ≤ m.size ∧ IsPow2 m.align) :
    (place ms).Sound := by
  induction ms using List.reverseRecOn with
  | nil => exact ⟨by simp [place], by simp [place], by simp [place], by simp [place], le_rfl, 0, rfl⟩
  | append_singleton ms m ih =>
    rw [place_append]
    have hm := h m (by simp)
    exact (ih fun m' hm' => h m' (List.mem_append_left _ hm')).add hm.1 hm.2

theorem close_dvd (l : Layout) : l.close.align ∣ l.close.size := dvd_alignUp

end Layout

end OdinSon.Lib
