import Mathlib.Algebra.Order.BigOperators.Group.List
import Mathlib.Tactic.Linarith
import Mathlib.Tactic.Push

/-!
# Areas laid one after another

Half-open ranges of integer addresses.  `place start sizes` puts areas of the given sizes next to
each other: they do not meet (`apart_place`), stay within their total (`mem_place_bounds`) and leave
no gap (`exists_mem_place`).
-/

namespace OdinSon.Lib

/-- Addresses in a row. -/
structure Area where
  /-- The first address. -/
  start : ℤ
  /-- The number of addresses. -/
  size : ℤ
  deriving DecidableEq, Repr

namespace Area

/-- The address after the last one. -/
@[grind =] def stop (a : Area) : ℤ := a.start + a.size

instance : Membership ℤ Area := ⟨fun a x => a.start ≤ x ∧ x < a.stop⟩

theorem mem_def {a : Area} {x : ℤ} : x ∈ a ↔ a.start ≤ x ∧ x < a.stop := Iff.rfl

/-- No address is in both. -/
def Apart (a b : Area) : Prop := ∀ x ∈ a, x ∉ b

theorem Apart.symm {a b : Area} (h : Apart a b) : Apart b a := fun x hb ha => h x ha hb

theorem apart_of_le {a b : Area} (h : a.stop ≤ b.start) : Apart a b := by
  intro x ha hb
  have := ha.2
  have := hb.1
  omega

theorem mem_natCast {off : ℤ} {n k : ℕ} (h : k < n) : off + k ∈ (⟨off, n⟩ : Area) := by
  rw [mem_def, stop]
  simp only
  omega

theorem exists_of_mem {off x : ℤ} {n : ℕ} (h : x ∈ (⟨off, n⟩ : Area)) :
    ∃ k < n, x = off + (k : ℕ) := by
  rw [mem_def, stop] at h
  simp only at h
  exact ⟨(x - off).toNat, by omega, by omega⟩

end Area

open Area

/-- Areas of the given sizes, from `start` on. -/
@[grind =] def place : ℤ → List ℤ → List Area
  | _, [] => []
  | start, size :: sizes => ⟨start, size⟩ :: place (start + size) sizes

variable {start : ℤ} {sizes : List ℤ}

@[simp] theorem length_place : (place start sizes).length = sizes.length := by
  induction sizes generalizing start with
  | nil => rfl
  | cons size sizes ih => rw [place, List.length_cons, ih, List.length_cons]

theorem place_append {more : List ℤ} :
    place start (sizes ++ more) = place start sizes ++ place (start + sizes.sum) more := by
  induction sizes generalizing start with
  | nil => simp [place]
  | cons size sizes ih => simp [place, ih, add_assoc]

theorem getElem?_place {i : ℕ} {n : ℤ} (h : sizes[i]? = some n) :
    (place start sizes)[i]? = some ⟨start + (sizes.take i).sum, n⟩ := by
  induction sizes generalizing start i with
  | nil => cases h
  | cons size sizes ih =>
    cases i with
    | zero =>
      obtain rfl := Option.some.inj h
      simp [place]
    | succ i =>
      rw [List.getElem?_cons_succ] at h
      simp [place, ih h, add_assoc]

theorem zipWith_start_place :
    List.zipWith Area.mk ((place start sizes).map Area.start) sizes = place start sizes := by
  induction sizes generalizing start with
  | nil => rfl
  | cons size sizes ih => simp [place, ih]

theorem mem_place_bounds (h : ∀ n ∈ sizes, 0 ≤ n) {a : Area} (ha : a ∈ place start sizes) :
    start ≤ a.start ∧ a.stop ≤ start + sizes.sum := by
  induction sizes generalizing start with
  | nil => cases ha
  | cons size sizes ih =>
    have hsize := h size (List.mem_cons_self ..)
    have hrest := fun n hn => h n (List.mem_cons_of_mem _ hn)
    have hsum := List.sum_nonneg hrest
    rw [List.sum_cons]
    obtain rfl | ha := List.mem_cons.1 ha
    · exact ⟨le_refl _, by simp only [stop]; omega⟩
    · obtain ⟨h1, h2⟩ := ih hrest ha
      omega

theorem apart_place (h : ∀ n ∈ sizes, 0 ≤ n) : (place start sizes).Pairwise Apart := by
  induction sizes generalizing start with
  | nil => exact List.Pairwise.nil
  | cons size sizes ih =>
    have hrest := fun n hn => h n (List.mem_cons_of_mem _ hn)
    exact List.pairwise_cons.2
      ⟨fun a ha => apart_of_le (mem_place_bounds hrest ha).1, ih hrest⟩

/-- There is no gap. -/
theorem exists_mem_place {x : ℤ} (h : start ≤ x) (hx : x < start + sizes.sum) :
    ∃ a ∈ place start sizes, x ∈ a := by
  induction sizes generalizing start with
  | nil =>
    rw [List.sum_nil] at hx
    omega
  | cons size sizes ih =>
    rw [List.sum_cons] at hx
    by_cases hlt : x < start + size
    · exact ⟨⟨start, size⟩, List.mem_cons_self .., h, hlt⟩
    · obtain ⟨a, ha, hxa⟩ := ih (not_lt.1 hlt) (by omega)
      exact ⟨a, List.mem_cons_of_mem _ ha, hxa⟩

/-- An area that does not reach beyond a block of areas is off the block iff it ends before it. -/
theorem apart_place_iff {a : Area} (h : ∀ n ∈ sizes, 0 ≤ n) (ha : a.stop ≤ start + sizes.sum) :
    (∀ b ∈ place start sizes, Apart a b) ↔ (0 < a.size → a.stop ≤ start) := by
  constructor
  · intro hap hpos
    by_contra hlt
    -- the last address of `a` is in the block
    have hge : start ≤ a.stop - 1 := by omega
    have hlt : a.stop - 1 < start + sizes.sum := by omega
    obtain ⟨b, hb, hxb⟩ := exists_mem_place hge hlt
    exact hap b hb (a.stop - 1) ⟨by simp only [stop] at *; omega, by omega⟩ hxb
  · intro hle b hb x hxa hxb
    have hpos : 0 < a.size := by
      obtain ⟨h1, h2⟩ := hxa
      simp only [stop] at h2
      omega
    have h1 := hle hpos
    have h2 := (mem_place_bounds h hb).1
    have h3 := hxa.2
    have h4 := hxb.1
    omega

end OdinSon.Lib
