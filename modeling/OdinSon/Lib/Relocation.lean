import Mathlib.Data.List.Nodup
import Mathlib.Data.List.GetD
import Mathlib.Data.Finset.Card
import Mathlib.Algebra.GroupWithZero.Nat
import Mathlib.Algebra.Order.BigOperators.Group.List

/-!
# Moving a list of objects

Objects of different sizes are laid one behind the other (`places`), and what names an object is
renamed to the place it went to (`rename`).  As the objects are all different and none is empty, the
renaming is a bijection between the objects and their places.
-/

namespace OdinSon.Relocation

variable {α : Type*}

/-- The places of the objects of a list that is laid out from `p` on. -/
def places (size : α → ℕ) : ℕ → List α → List ℕ
  | _, [] => []
  | p, x :: l => p :: places size (p + size x) l

/-- Where the list ends. -/
def endPlace (size : α → ℕ) (p : ℕ) (l : List α) : ℕ := p + (l.map size).sum

/-- The name in `ys` of what is called `x` in `xs`. -/
def rename [DecidableEq α] {β : Type*} (xs : List α) (ys : List β) (d : β) (x : α) : β :=
  ys.getD (xs.idxOf x) d

section Places

variable {size : α → ℕ} {p q : ℕ} {l : List α} {x : α}

@[simp] theorem length_places : (places size p l).length = l.length := by
  induction l generalizing p with
  | nil => rfl
  | cons x l ih => rw [places, List.length_cons, List.length_cons, ih]

@[simp] theorem endPlace_nil : endPlace size p [] = p := rfl

theorem endPlace_cons : endPlace size p (x :: l) = endPlace size (p + size x) l := by
  rw [endPlace, endPlace, List.map_cons, List.sum_cons, Nat.add_assoc]

theorem le_endPlace : p ≤ endPlace size p l := Nat.le_add_right ..

theorem le_of_mem_places (h : q ∈ places size p l) : p ≤ q := by
  induction l generalizing p with
  | nil => exact absurd h List.not_mem_nil
  | cons x l ih =>
    rcases List.mem_cons.1 h with rfl | h
    · exact le_rfl
    · exact (Nat.le_add_right ..).trans (ih h)

theorem lt_of_mem_places (hsize : ∀ x, 0 < size x) (h : q ∈ places size p l) :
    q < endPlace size p l := by
  induction l generalizing p with
  | nil => exact absurd h List.not_mem_nil
  | cons x l ih =>
    rw [endPlace_cons]
    rcases List.mem_cons.1 h with rfl | h
    · exact (Nat.lt_add_of_pos_right (hsize x)).trans_le le_endPlace
    · exact ih h

/-- What has a size has a place of its own. -/
theorem nodup_places (hsize : ∀ x, 0 < size x) : (places size p l).Nodup := by
  induction l generalizing p with
  | nil => exact .nil
  | cons x l ih =>
    refine List.nodup_cons.2 ⟨fun h => ?_, ih⟩
    have hle := le_of_mem_places h
    have hpos := hsize x
    omega

end Places

section Rename

variable [DecidableEq α] {β : Type*} {xs : List α} {ys : List β} {d : β} {x y : α}

theorem rename_cons_self {b : β} : rename (x :: xs) (b :: ys) d x = b := by
  rw [rename, List.idxOf_cons_self, List.getD_cons_zero]

theorem rename_cons_of_ne {b : β} (h : y ≠ x) :
    rename (x :: xs) (b :: ys) d y = rename xs ys d y := by
  rw [rename, rename, List.idxOf_cons_ne _ h.symm, List.getD_cons_succ]

theorem rename_mem (hlen : xs.length = ys.length) (hx : x ∈ xs) : rename xs ys d x ∈ ys := by
  have hlt : xs.idxOf x < ys.length := hlen ▸ List.idxOf_lt_length_of_mem hx
  rw [rename, List.getD_eq_getElem _ _ hlt]
  exact List.getElem_mem hlt

theorem rename_getElem? (hnd : xs.Nodup) (hlen : xs.length = ys.length) {i : ℕ}
    (h : xs[i]? = some x) : ys[i]? = some (rename xs ys d x) := by
  obtain ⟨hi, rfl⟩ := List.getElem?_eq_some_iff.1 h
  rw [rename, hnd.idxOf_getElem, List.getD_eq_getElem _ _ (hlen ▸ hi)]
  exact List.getElem?_eq_getElem _

/-- An object stands behind those that come before it. -/
theorem rename_places {size : α → ℕ} {p : ℕ} (hx : x ∈ xs) :
    rename xs (places size p xs) 0 x = p + ((xs.takeWhile (· ≠ x)).map size).sum := by
  induction xs generalizing p with
  | nil => exact absurd hx List.not_mem_nil
  | cons y xs ih =>
    by_cases hy : x = y
    · subst hy
      rw [places, rename_cons_self, List.takeWhile_cons_of_neg (by simp)]
      rfl
    · have hx' : x ∈ xs := (List.mem_cons.1 hx).resolve_left hy
      rw [places, rename_cons_of_ne hy, ih hx',
        List.takeWhile_cons_of_pos (by simpa using fun h => hy h.symm), List.map_cons,
        List.sum_cons, Nat.add_assoc]

/-- Different objects have different names. -/
theorem rename_inj (hnd : ys.Nodup) (hlen : xs.length = ys.length) (hx : x ∈ xs) (hy : y ∈ xs)
    (h : rename xs ys d x = rename xs ys d y) : x = y := by
  have hxi : xs.idxOf x < ys.length := hlen ▸ List.idxOf_lt_length_of_mem hx
  have hyi : xs.idxOf y < ys.length := hlen ▸ List.idxOf_lt_length_of_mem hy
  rw [rename, rename, List.getD_eq_getElem _ _ hxi, List.getD_eq_getElem _ _ hyi,
    hnd.getElem_inj_iff] at h
  exact (List.idxOf_inj hx).1 h

/-- Every new name is the name of an object. -/
theorem exists_rename (hnd : xs.Nodup) (hlen : xs.length = ys.length) {b : β} (h : b ∈ ys) :
    ∃ x ∈ xs, rename xs ys d x = b := by
  obtain ⟨i, hi, rfl⟩ := List.mem_iff_getElem.1 h
  have hix : i < xs.length := hlen ▸ hi
  refine ⟨xs[i], List.getElem_mem hix, ?_⟩
  rw [rename, hnd.idxOf_getElem, List.getD_eq_getElem _ _ hi]

end Rename

/-! ### Lists under a renaming -/

section Lists

variable {β : Type*}

/-- Lists that a function takes to the same list are equal, if it takes no two of their elements to the
same one. -/
theorem eq_of_map_eq {f : α → β} {l l' : List α}
    (hf : ∀ x ∈ l, ∀ y ∈ l', f x = f y → x = y) (h : l.map f = l'.map f) : l = l' := by
  induction l generalizing l' with
  | nil => exact (List.map_eq_nil_iff.1 h.symm).symm
  | cons x l ih =>
    obtain ⟨y, l', rfl, hy, hl⟩ := List.map_eq_cons_iff.1 h.symm
    rw [hf x List.mem_cons_self y List.mem_cons_self hy.symm, ih (fun x hx y hy =>
      hf x (List.mem_cons_of_mem _ hx) y (List.mem_cons_of_mem _ hy)) hl.symm]

theorem mapM_eq_map {f : α → Option β} {h : α → β} {l : List α}
    (hf : ∀ y ∈ l, f y = some (h y)) : l.mapM f = some (l.map h) := by
  induction l with
  | nil => rfl
  | cons y l ih =>
    rw [List.mapM_cons, hf y List.mem_cons_self, ih fun z hz => hf z (List.mem_cons_of_mem _ hz)]
    rfl

theorem two_le_countP [DecidableEq α] {p : α → Bool} {l : List α} {x y : α}
    (hx : x ∈ l) (hy : y ∈ l) (hne : x ≠ y) (hpx : p x = true) (hpy : p y = true) :
    2 ≤ l.countP p := by
  have hy' : y ∈ l.erase x := (List.mem_erase_of_ne hne.symm).2 hy
  have hpos : 0 < (l.erase x).countP p := List.countP_pos_iff.2 ⟨y, hy', hpy⟩
  rw [(List.perm_cons_erase hx).countP_eq, List.countP_cons_of_pos hpx]
  omega

/-- An element that stays has more copies than before, if another one is renamed to it. -/
theorem count_lt_count_map [DecidableEq α] {f : α → α} {l : List α} {x z : α} (hz : f z = z)
    (hx : x ∈ l) (hne : x ≠ z) (hfx : f x = z) : l.count z < (l.map f).count z := by
  have hrest : (l.erase x).count z ≤ ((l.erase x).map f).count z := by
    have hle : (l.erase x).count z ≤ ((l.erase x).map f).count (f z) := List.count_le_count_map
    rwa [hz] at hle
  have hperm := List.perm_cons_erase hx
  rw [hperm.count_eq, (hperm.map f).count_eq, List.map_cons, hfx, List.count_cons_self,
    List.count_cons_of_ne hne]
  omega

end Lists

end OdinSon.Relocation
