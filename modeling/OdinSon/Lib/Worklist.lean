import Mathlib.Data.List.Nodup
import Mathlib.Data.Finset.Card
import Mathlib.Data.Finset.Range

/-!
# Worklists

A worklist is a queue without repetitions: `push` puts an element at its end unless it is there,
or is not `live` any more.  `closure` collects everything that can be reached from a worklist by
pushing the neighbours of its elements, one after another.

## Main results

* `mem_pushAll` : what is in the worklist after pushing a list.
* `closure_closed` : the closure is closed under live neighbours, when the live elements are
  bounded by the fuel.
-/

namespace OdinSon.Worklist

variable {ι : Type*} [DecidableEq ι] (live : ι → Bool)

/-- Put `x` at the end of the queue. -/
def push (q : List ι) (x : ι) : List ι := if live x = false ∨ x ∈ q then q else q ++ [x]

/-- Put the elements of a list at the end of the queue. -/
def pushAll (q l : List ι) : List ι := l.foldl (push live) q

variable {live} {q l : List ι} {x y : ι}

theorem mem_push : y ∈ push live q x ↔ y ∈ q ∨ y = x ∧ live y = true := by
  unfold push
  split_ifs with h
  · rcases h with h | h
    · constructor
      · exact .inl
      · rintro (h' | ⟨rfl, h'⟩)
        · exact h'
        · simp [h] at h'
    · constructor
      · exact .inl
      · rintro (h' | ⟨rfl, -⟩)
        · exact h'
        · exact h
  · rw [not_or, Bool.not_eq_false] at h
    simp only [List.mem_append, List.mem_singleton]
    constructor
    · rintro (h' | rfl)
      · exact .inl h'
      · exact .inr ⟨rfl, h.1⟩
    · rintro (h' | ⟨h', -⟩)
      · exact .inl h'
      · exact .inr h'

theorem nodup_push (h : q.Nodup) : (push live q x).Nodup := by
  unfold push
  split_ifs with hc
  · exact h
  · rw [not_or] at hc
    exact h.append (List.nodup_singleton x) (by simpa using hc.2)

@[simp] theorem mem_pushAll : y ∈ pushAll live q l ↔ y ∈ q ∨ y ∈ l ∧ live y = true := by
  induction l generalizing q with
  | nil => simp [pushAll]
  | cons x l ih =>
    have h := ih (q := push live q x)
    rw [pushAll, List.foldl_cons, ← pushAll, h, mem_push, List.mem_cons]
    tauto

theorem nodup_pushAll (h : q.Nodup) : (pushAll live q l).Nodup := by
  induction l generalizing q with
  | nil => exact h
  | cons x l ih => exact ih (nodup_push h)

theorem length_push_le : (push live q x).length ≤ q.length + 1 := by
  unfold push
  split_ifs
  · exact Nat.le_succ _
  · rw [List.length_append, List.length_singleton]

theorem push_extends : q <+: push live q x := by
  unfold push
  split_ifs
  · exact List.prefix_rfl
  · exact List.prefix_append _ _

/-- Pushing leaves the elements of the queue where they are. -/
theorem pushAll_extends : q <+: pushAll live q l := by
  induction l generalizing q with
  | nil => exact List.prefix_rfl
  | cons x l ih => exact push_extends.trans ih

/-! ### Everything that can be reached -/

/-- Push the neighbours of the elements from the `i`-th on, for `fuel` elements. -/
@[grind =] def closure (live : ι → Bool) (next : ι → List ι) : ℕ → ℕ → List ι → List ι
  | 0, _, q => q
  | fuel + 1, i, q =>
    match q[i]? with
    | none => q
    | some x => closure live next fuel (i + 1) (pushAll live q (next x))

variable {next : ι → List ι} {fuel i : ℕ}

theorem subset_closure : ∀ z ∈ q, z ∈ closure live next fuel i q := by
  induction fuel generalizing i q with
  | zero => exact fun z hz => hz
  | succ fuel ih =>
    intro z hz
    unfold closure
    split
    · exact hz
    · exact ih z (mem_pushAll.2 (.inl hz))

theorem nodup_closure (h : q.Nodup) : (closure live next fuel i q).Nodup := by
  induction fuel generalizing i q with
  | zero => exact h
  | succ fuel ih =>
    unfold closure
    split
    · exact h
    · exact ih (nodup_pushAll h)

theorem live_closure (h : ∀ z ∈ q, live z = true) :
    ∀ z ∈ closure live next fuel i q, live z = true := by
  induction fuel generalizing i q with
  | zero => exact h
  | succ fuel ih =>
    unfold closure
    split
    · exact h
    · refine ih fun z hz => ?_
      rcases mem_pushAll.1 hz with hz | hz
      · exact h z hz
      · exact hz.2

theorem closure_extends : q <+: closure live next fuel i q := by
  induction fuel generalizing i q with
  | zero => exact List.prefix_rfl
  | succ fuel ih =>
    unfold closure
    split
    · exact List.prefix_rfl
    · exact pushAll_extends.trans ih

/-- What is true of a worklist, and of the neighbours of what it is true of, is true of the
closure. -/
theorem closure_induction {P : ι → Prop} (hq : ∀ z ∈ q, P z)
    (hnext : ∀ z, P z → ∀ y ∈ next z, live y = true → P y) :
    ∀ z ∈ closure live next fuel i q, P z := by
  induction fuel generalizing i q with
  | zero => exact hq
  | succ fuel ih =>
    unfold closure
    split
    next => exact hq
    next x hsome =>
      refine ih fun z hz => ?_
      rcases mem_pushAll.1 hz with hz | ⟨hz, hl⟩
      · exact hq z hz
      · exact hnext x (hq x (List.mem_of_getElem? hsome)) z hz hl

/-- **The closure is closed**: it has the live neighbours of all its elements, when no more than
`fuel + i` elements are live and the first `i` have been looked at. -/
theorem closure_closed (hbound : ∀ l : List ι, l.Nodup → (∀ z ∈ l, live z = true) →
      l.length ≤ fuel + i)
    (hnd : q.Nodup) (hlive : ∀ z ∈ q, live z = true)
    (hseen : ∀ j < i, ∀ z, q[j]? = some z → ∀ y ∈ next z, live y = true → y ∈ q) :
    ∀ z ∈ closure live next fuel i q, ∀ y ∈ next z, live y = true →
      y ∈ closure live next fuel i q := by
  induction fuel generalizing i q with
  | zero =>
    intro z hz y hy hly
    obtain ⟨j, hj, rfl⟩ := List.mem_iff_getElem.1 hz
    have hlen : q.length ≤ 0 + i := hbound q hnd hlive
    exact hseen j (by simp only [closure] at hj; omega) _ (List.getElem?_eq_getElem hj) y hy hly
  | succ fuel ih =>
    unfold closure
    split
    next hnone =>
      intro z hz y hy hly
      obtain ⟨j, hj, rfl⟩ := List.mem_iff_getElem.1 hz
      rw [List.getElem?_eq_none_iff] at hnone
      exact hseen j (by omega) _ (List.getElem?_eq_getElem hj) y hy hly
    next x hsome =>
      have hlive' : ∀ z ∈ pushAll live q (next x), live z = true := by
        intro z hz
        rcases mem_pushAll.1 hz with hz | hz
        · exact hlive z hz
        · exact hz.2
      refine ih (fun l h1 h2 => (hbound l h1 h2).trans (by omega)) (nodup_pushAll hnd) hlive' ?_
      intro j hj z hz y hy hly
      have hjq : j < q.length := by
        have := (List.getElem?_eq_some_iff.1 hsome).1
        omega
      have hzq : q[j]? = some z := by
        obtain ⟨t, ht⟩ : q <+: pushAll live q (next x) := pushAll_extends
        rw [← ht, List.getElem?_append_left hjq] at hz
        exact hz
      rw [mem_pushAll]
      by_cases hji : j = i
      · subst hji
        rw [hsome, Option.some.injEq] at hzq
        exact .inr ⟨hzq ▸ hy, hly⟩
      · exact .inl (hseen j (by omega) z hzq y hy hly)

end OdinSon.Worklist
