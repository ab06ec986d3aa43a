import Mathlib.Data.List.Nodup
import Mathlib.Data.List.Rotate
import Mathlib.Tactic.Tauto

/-!
# Lists in the order of a relation

`Ordered R l` says that nothing in `l` comes before what `R` demands before it.  To move an element
to the right keeps the order when nothing that it is moved over needs it (`Ordered.rotateLeft`).
-/

namespace OdinSon

variable {α : Type*}

/-- What `R` demands before an element does not come after it. -/
def Ordered (R : α → α → Prop) (l : List α) : Prop := l.Pairwise fun x y => ¬ R y x

/-- Rotate the elements at `pos ..< i` to the left by one: the one at `pos` goes to `i - 1`. -/
def rotateLeft (l : List α) (pos i : ℕ) : List α :=
  l.take pos ++ ((l.take i).drop pos).rotate 1 ++ l.drop i

theorem Ordered.mono {R R' : α → α → Prop} {l : List α} (h : Ordered R l)
    (hR : ∀ x y, R' x y → R x y) : Ordered R' l :=
  h.imp fun hxy hyx => hxy (hR _ _ hyx)

/-- What comes first has the smaller index. -/
theorem Ordered.idxOf_lt [DecidableEq α] {R : α → α → Prop} {l : List α} (h : Ordered R l) {a b : α}
    (ha : a ∈ l) (hb : b ∈ l) (hab : R a b) (hne : a ≠ b) : l.idxOf a < l.idxOf b := by
  rcases Nat.lt_trichotomy (l.idxOf a) (l.idxOf b) with hlt | heq | hgt
  · exact hlt
  · exact absurd ((List.idxOf_inj ha).1 heq) hne
  · have hia := List.idxOf_lt_length_of_mem ha
    have hib := List.idxOf_lt_length_of_mem hb
    have := List.pairwise_iff_getElem.1 h _ _ hib hia hgt
    rw [List.getElem_idxOf, List.getElem_idxOf] at this
    exact absurd hab this

theorem take_append_drop_take (l : List α) {pos i : ℕ} (h : pos ≤ i) :
    l.take pos ++ (l.take i).drop pos ++ l.drop i = l := by
  have htake : l.take pos = (l.take i).take pos := by rw [List.take_take, Nat.min_eq_left h]
  rw [htake, List.take_append_drop, List.take_append_drop]

theorem rotateLeft_perm (l : List α) {pos i : ℕ} (h : pos ≤ i) : (rotateLeft l pos i).Perm l := by
  calc (rotateLeft l pos i).Perm (l.take pos ++ (l.take i).drop pos ++ l.drop i) :=
        ((List.rotate_perm _ 1).append_left _).append_right _
    _ = l := take_append_drop_take l h

theorem rotateLeft_self (l : List α) (pos : ℕ) : rotateLeft l pos pos = l := by
  have hempty : (l.take pos).drop pos = [] := List.drop_eq_nil_of_le (List.length_take_le _ _)
  rw [rotateLeft, hempty, List.rotate_nil, List.append_nil, List.take_append_drop]

/-- The last element stays where it is, unless it is among those that are moved. -/
theorem getLast?_rotateLeft {l : List α} {pos i : ℕ} (hi : i < l.length) :
    (rotateLeft l pos i).getLast? = l.getLast? := by
  have hne : l.drop i ≠ [] := fun h => by
    have := List.drop_eq_nil_iff.1 h
    omega
  rw [rotateLeft, List.getLast?_append_of_ne_nil _ hne]
  conv_rhs => rw [← List.take_append_drop i l]
  rw [List.getLast?_append_of_ne_nil _ hne]

/-- The element at `pos`, what it is moved over, and the rest. -/
theorem rotateLeft_split {l : List α} {pos i : ℕ} (h : pos < i) (hi : i ≤ l.length) :
    ∃ A x B C, l = A ++ x :: (B ++ C) ∧ rotateLeft l pos i = A ++ (B ++ x :: C) ∧
      l[pos]? = some x ∧ A = l.take pos ∧ B = (l.take i).drop (pos + 1) := by
  have hpos : pos < (l.take i).length := by rw [List.length_take]; omega
  have hdrop : (l.take i).drop pos = l[pos] :: (l.take i).drop (pos + 1) := by
    rw [List.drop_eq_getElem_cons hpos, List.getElem_take]
  refine ⟨l.take pos, l[pos], (l.take i).drop (pos + 1), l.drop i, ?_, ?_, ?_, rfl, rfl⟩
  · rw [← List.cons_append, ← hdrop, ← List.append_assoc, take_append_drop_take l h.le]
  · rw [rotateLeft, hdrop, List.rotate_cons_succ, List.rotate_zero]
    simp
  · exact List.getElem?_eq_getElem _

/-- **To move an element to the right keeps the order**, when nothing on the way needs it. -/
theorem Ordered.rotateLeft {R : α → α → Prop} {l : List α} {pos i : ℕ} {x : α} (h : Ordered R l)
    (hpos : pos < i) (hi : i ≤ l.length) (hx : l[pos]? = some x)
    (hfree : ∀ b ∈ (l.take i).drop (pos + 1), ¬ R x b) : Ordered R (rotateLeft l pos i) := by
  obtain ⟨A, y, B, C, hl, hrot, hy, -, hB⟩ := rotateLeft_split hpos hi
  rw [hx, Option.some.injEq] at hy
  subst hy
  rw [hrot]
  rw [hl] at h
  rw [← hB] at hfree
  unfold Ordered at h ⊢
  simp only [List.pairwise_append, List.pairwise_cons, List.mem_append, List.mem_cons] at h ⊢
  obtain ⟨hA, ⟨hxr, hB', hC, hBC⟩, hcross⟩ := h
  refine ⟨hA, ⟨hB', ⟨fun c hc => hxr c (.inr hc), hC⟩, ?_⟩, ?_⟩
  · rintro b hb z (rfl | hz)
    · exact hfree b hb
    · exact hBC b hb z hz
  · rintro a ha z (hz | rfl | hz)
    · exact hcross a ha z (.inr (.inl hz))
    · exact hcross a ha z (.inl rfl)
    · exact hcross a ha z (.inr (.inr hz))

end OdinSon
