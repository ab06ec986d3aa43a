import Mathlib.Data.List.Induction
import Mathlib.Data.List.Perm.Basic
import Mathlib.Order.Lattice

/-!
# Insertion sort in place

The array is a list with the cells below some place in order; the next element sinks into them
while the larger ones move up by one cell.  `sortCells_perm` and `sortCells_sorted` say that the loop
over all places sorts the array.
-/

namespace OdinSon.Lib

variable {α κ : Type} [LinearOrder κ] (key : α → κ)

/-- `x` sinks from the free cell `p`: what is larger moves up. -/
def sinkInto (x : α) : ℕ → List α → List α
  | 0, cells => cells.set 0 x
  | p + 1, cells =>
    match cells[p]? with
    | some y => if key x < key y then sinkInto x p (cells.set (p + 1) y) else cells.set (p + 1) x
    | none => cells

/-- One round of the loop: the element at `j` sinks into the cells before it. -/
def sinkAt (cells : List α) (j : ℕ) : List α :=
  match cells[j]? with
  | some x => sinkInto key x j cells
  | none => cells

/-- The loop over all places but the first. -/
def sortCells (cells : List α) : List α :=
  (List.range' 1 (cells.length - 1)).foldl (sinkAt key) cells

/-- The order of the keys, smaller ones first. -/
def Sorted (cells : List α) : Prop := cells.Pairwise fun x y => key x ≤ key y

theorem Sorted.snoc {cells : List α} (h : Sorted key cells) {x : α}
    (hx : ∀ y ∈ cells, key y ≤ key x) : Sorted key (cells ++ [x]) := by
  refine List.pairwise_append.mpr ⟨h, List.pairwise_singleton _ _, ?_⟩
  intro y hy z hz
  rw [List.mem_singleton] at hz
  exact hz ▸ hx y hy

/-- `x` sinks into the sorted cells before the free one, and the cells behind stay. -/
theorem sink_spec (x : α) (done : List α) (hsorted : Sorted key done) (y : α) (rest : List α) :
    ∃ cells, sinkInto key x done.length (done ++ y :: rest) = cells ++ rest ∧
      cells.Perm (x :: done) ∧ Sorted key cells := by
  induction done using List.reverseRecOn generalizing y rest with
  | nil => exact ⟨[x], rfl, List.Perm.refl _, List.pairwise_singleton _ _⟩
  | append_singleton done z ih =>
    have hget : (done ++ [z] ++ y :: rest)[done.length]? = some z := by
      rw [List.append_assoc, List.getElem?_append_right (Nat.le_refl _), Nat.sub_self]
      rfl
    have hset (w : α) :
        (done ++ [z] ++ y :: rest).set (done.length + 1) w = done ++ z :: w :: rest := by
      rw [List.append_assoc, List.set_append_right _ _ (by omega), Nat.add_sub_cancel_left]
      rfl
    obtain ⟨hdone, -, hz⟩ := List.pairwise_append.mp hsorted
    have hlast (w : α) (hw : w ∈ done) : key w ≤ key z := hz w hw z (List.mem_singleton_self z)
    rw [List.length_append, List.length_singleton, sinkInto, hget]
    dsimp only
    split_ifs with hlt
    · obtain ⟨cells, heq, hperm, hcells⟩ := ih hdone z (z :: rest)
      refine ⟨cells ++ [z], ?_, ?_, hcells.snoc key ?_⟩
      · rw [hset, heq, List.append_assoc, List.singleton_append]
      · exact (hperm.append_right [z]).trans (List.Perm.refl _)
      · intro w hw
        obtain rfl | hw := List.mem_cons.mp (hperm.mem_iff.mp hw)
        · exact hlt.le
        · exact hlast w hw
    · refine ⟨done ++ [z] ++ [x], ?_, List.perm_append_singleton _ _, hsorted.snoc key ?_⟩
      · rw [hset, List.append_assoc, List.append_assoc]
        rfl
      · intro w hw
        obtain hw | hw := List.mem_append.mp hw
        · exact (hlast w hw).trans (not_lt.mp hlt)
        · rw [List.mem_singleton.mp hw]
          exact not_lt.mp hlt

/-- From place `j` on, with the cells before it in order. -/
theorem foldl_sinkAt (rest done : List α) (hsorted : Sorted key done) :
    ∃ cells, (List.range' done.length rest.length).foldl (sinkAt key) (done ++ rest) = cells ∧
      cells.Perm (done ++ rest) ∧ Sorted key cells := by
  induction rest generalizing done with
  | nil =>
    rw [List.append_nil]
    exact ⟨done, rfl, List.Perm.refl _, hsorted⟩
  | cons x rest ih =>
    have hget : (done ++ x :: rest)[done.length]? = some x := by
      rw [List.getElem?_append_right (Nat.le_refl _), Nat.sub_self]
      rfl
    obtain ⟨cells, heq, hperm, hcells⟩ := sink_spec key x done hsorted x rest
    have hlength : cells.length = done.length + 1 := hperm.length_eq
    obtain ⟨all, hall, hallPerm, hallSorted⟩ := ih cells hcells
    refine ⟨all, ?_, ?_, hallSorted⟩
    · rw [List.length_cons, List.range'_succ, List.foldl_cons, sinkAt, hget]
      dsimp only
      rw [heq, ← hlength]
      exact hall
    · exact hallPerm.trans ((hperm.append_right rest).trans List.perm_middle.symm)

theorem sortCells_spec (cells : List α) :
    (sortCells key cells).Perm cells ∧ Sorted key (sortCells key cells) := by
  cases cells with
  | nil => exact ⟨List.Perm.refl _, List.Pairwise.nil⟩
  | cons x rest =>
    obtain ⟨all, hall, hperm, hsorted⟩ := foldl_sinkAt key rest [x] (List.pairwise_singleton _ _)
    rw [List.length_singleton, List.singleton_append] at hall
    rw [sortCells, List.length_cons, Nat.add_sub_cancel, hall]
    exact ⟨hperm, hsorted⟩

theorem sortCells_perm (cells : List α) : (sortCells key cells).Perm cells :=
  (sortCells_spec key cells).1

theorem sortCells_sorted (cells : List α) : Sorted key (sortCells key cells) :=
  (sortCells_spec key cells).2

end OdinSon.Lib
