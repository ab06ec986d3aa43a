import Mathlib.Data.Set.BooleanAlgebra
import Mathlib.Data.Set.Disjoint
import Mathlib.Order.CompletePartialOrder

/-!
# Footprints

An operation on a memory `A → B` touches what it reads and what it writes.  Operations that do not
write what the other touches can be swapped (`Touches.comm`), and memories that agree outside of
some addresses keep doing so after an operation that does not read these (`Touches.agreeOff`).
-/

namespace OdinSon.Footprint

variable {A B R R' : Type*}

/-- The operation reads only `rd` and writes only `wr`. -/
structure Touches (op : (A → B) → (A → B) × R) (rd wr : Set A) : Prop where
  frame : ∀ m x, x ∉ wr → (op m).1 x = m x
  writes : ∀ m m', (∀ x ∈ rd, m x = m' x) → ∀ x ∈ wr, (op m).1 x = (op m').1 x
  result : ∀ m m', (∀ x ∈ rd, m x = m' x) → (op m).2 = (op m').2

/-- The memories agree outside of `w`. -/
def AgreeOff (w : Set A) (m m' : A → B) : Prop := ∀ x ∉ w, m x = m' x

variable {op : (A → B) → (A → B) × R} {op' : (A → B) → (A → B) × R'} {rd wr rd' wr' w : Set A}
  {m m' : A → B}

theorem AgreeOff.on (h : AgreeOff w m m') (hd : Disjoint rd w) : ∀ x ∈ rd, m x = m' x :=
  fun x hx => h x (Set.disjoint_left.1 hd hx)

theorem Touches.agreeOff_self (h : Touches op rd wr) (m : A → B) : AgreeOff wr (op m).1 m :=
  fun x hx => h.frame m x hx

/-- What an operation writes no longer differs after it. -/
theorem Touches.agreeOff (h : Touches op rd wr) (hm : AgreeOff w m m') (hd : Disjoint rd w) :
    AgreeOff (w \ wr) (op m).1 (op m').1 := by
  intro x hx
  by_cases hw : x ∈ wr
  · exact h.writes m m' (hm.on hd) x hw
  · rw [h.frame m x hw, h.frame m' x hw]
    exact hm x fun hc => hx ⟨hc, hw⟩

/-- **Operations that do not meet can be swapped.** -/
theorem Touches.comm (h : Touches op rd wr) (h' : Touches op' rd' wr') (h1 : Disjoint wr rd')
    (h2 : Disjoint wr' rd) (h3 : Disjoint wr wr') (m : A → B) :
    (op' (op m).1).1 = (op (op' m).1).1 ∧ (op' (op m).1).2 = (op' m).2 ∧
      (op (op' m).1).2 = (op m).2 := by
  have hr : ∀ x ∈ rd', (op m).1 x = m x := (h.agreeOff_self m).on h1.symm
  have hr' : ∀ x ∈ rd, (op' m).1 x = m x := (h'.agreeOff_self m).on h2.symm
  refine ⟨funext fun x => ?_, h'.result _ _ hr, h.result _ _ hr'⟩
  by_cases hx : x ∈ wr
  · rw [h'.frame _ x (Set.disjoint_left.1 h3 hx), h.writes _ _ hr' x hx]
  · rw [h.frame _ x hx]
    by_cases hx' : x ∈ wr'
    · exact h'.writes _ _ hr x hx'
    · rw [h'.frame _ x hx', h'.frame _ x hx', h.frame _ x hx]

end OdinSon.Footprint
