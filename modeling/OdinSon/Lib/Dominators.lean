import Mathlib.Logic.Relation
import Mathlib.Tactic.ByContra
import Mathlib.Tactic.Push

/-!
# Dominators

Of a graph with an entry: a node dominates another one if every path from the entry to it goes through
the node.  The dominators of a node are the node itself and the common dominators of the nodes with an
edge to it (`dominates_iff`), where an edge from a node that it dominates itself can be left out
(`dominates_iff_of_back`).

A tree of immediate dominators is a function that takes a node up, and a depth that gets smaller on the
way.  The nearest common dominator of two nodes is found by taking the deeper one up
(`IsNearest.up_left`).
-/

namespace OdinSon.Lib

variable {α : Type*}

/-- There is a path from the entry to `x` without `d`. -/
def Avoids (edge : α → α → Prop) (entry d x : α) : Prop :=
  entry ≠ d ∧ Relation.ReflTransGen (fun a b => edge a b ∧ b ≠ d) entry x

/-- Every path from the entry to `x` goes through `d`. -/
def Dominates (edge : α → α → Prop) (entry d x : α) : Prop := ¬ Avoids edge entry d x

/-- `c` dominates `a` and `b`, and what does so dominates `c`. -/
structure IsNearest (edge : α → α → Prop) (entry a b c : α) : Prop where
  left : Dominates edge entry c a
  right : Dominates edge entry c b
  nearest : ∀ d, Dominates edge entry d a → Dominates edge entry d b → Dominates edge entry d c

section

variable {edge : α → α → Prop} {entry d x y : α}

theorem Avoids.ne (h : Avoids edge entry d x) : x ≠ d := by
  rcases h.2.cases_tail with rfl | ⟨p, -, hp⟩
  · exact h.1
  · exact hp.2

theorem Avoids.step (h : Avoids edge entry d x) (he : edge x y) (hne : y ≠ d) :
    Avoids edge entry d y := ⟨h.1, h.2.tail ⟨he, hne⟩⟩

theorem dominates_self : Dominates edge entry x x := fun h => h.ne rfl

theorem dominates_entry : Dominates edge entry entry x := fun h => h.1 rfl

/-- Only the entry dominates the entry. -/
theorem eq_of_dominates_entry (h : Dominates edge entry d entry) : d = entry := by
  by_contra hne
  exact h ⟨Ne.symm hne, .refl⟩

theorem Dominates.trans {c : α} (hcd : Dominates edge entry c d) (hdx : Dominates edge entry d x) :
    Dominates edge entry c x := by
  rintro ⟨hc, hpath⟩
  -- a path without `c` is also one without `d`
  have hd : entry ≠ d := by
    rintro rfl
    exact hcd ⟨hc, .refl⟩
  refine hdx ⟨hd, ?_⟩
  clear hdx
  induction hpath with
  | refl => exact .refl
  | tail hpath he ih =>
    refine ih.tail ⟨he.1, ?_⟩
    rintro rfl
    exact hcd ⟨hc, hpath.tail he⟩

/-- **The dominators of a node** but the entry. -/
theorem dominates_iff (hx : x ≠ entry) :
    Dominates edge entry d x ↔ d = x ∨ ∀ p, edge p x → Dominates edge entry d p := by
  constructor
  · intro h
    by_contra hc
    push Not at hc
    obtain ⟨hne, p, he, hp⟩ := hc
    exact h ((not_not.1 hp).step he (Ne.symm hne))
  · rintro (rfl | h) hav
    · exact hav.ne rfl
    · rcases hav.2.cases_tail with rfl | ⟨p, hpath, he⟩
      · exact hx rfl
      · exact h p he.1 ⟨hav.1, hpath⟩

/-- The first edge to `x` on a path comes from a node that `x` does not dominate. -/
theorem exists_first_edge (hx : x ≠ entry) (h : Avoids edge entry d x) :
    ∃ p, edge p x ∧ Avoids edge entry d p ∧ Avoids edge entry x p := by
  suffices hpath : ∀ y, Relation.ReflTransGen (fun a b => edge a b ∧ b ≠ d) entry y →
      Avoids edge entry x y ∨ ∃ p, edge p x ∧ Avoids edge entry d p ∧ Avoids edge entry x p by
    exact (hpath x h.2).resolve_left fun hav => hav.ne rfl
  intro y hy
  induction hy with
  | refl => exact .inl ⟨hx.symm, .refl⟩
  | @tail y z hpath he ih =>
    refine ih.elim (fun hav => ?_) .inr
    by_cases hz : z = x
    · subst hz
      exact .inr ⟨y, he.1, ⟨h.1, hpath⟩, hav⟩
    · exact .inl (hav.step he.1 hz)

/-- **Edges from dominated nodes can be left out.** -/
theorem dominates_iff_of_back {back : α → Prop} (hx : x ≠ entry)
    (hback : ∀ p, edge p x → back p → Dominates edge entry x p) :
    Dominates edge entry d x ↔ d = x ∨ ∀ p, edge p x → ¬ back p → Dominates edge entry d p := by
  refine ⟨fun h => ?_, ?_⟩
  · exact ((dominates_iff hx).1 h).imp_right fun h p he _ => h p he
  · rintro (rfl | h)
    · exact dominates_self
    · intro hav
      obtain ⟨p, he, hd, hp⟩ := exists_first_edge hx hav
      exact h p he (fun hb => hback p he hb hp) hd

end

/-! ### Nearest common dominators -/

section Nearest

variable {edge : α → α → Prop} {entry a b c : α}

theorem IsNearest.symm (h : IsNearest edge entry a b c) : IsNearest edge entry b a c :=
  ⟨h.right, h.left, fun d hb ha => h.nearest d ha hb⟩

theorem isNearest_self : IsNearest edge entry a a a :=
  ⟨dominates_self, dominates_self, fun _ h _ => h⟩

/-- The common dominators of `a` and `b` are those of `a'` and `b`, if `a'` is the immediate dominator
of `a` and `a` does not dominate `b`. -/
theorem IsNearest.up_left {a' : α}
    (hup : ∀ d, Dominates edge entry d a ↔ d = a ∨ Dominates edge entry d a')
    (hab : ¬ Dominates edge entry a b) (h : IsNearest edge entry a' b c) :
    IsNearest edge entry a b c where
  left := (hup c).2 (.inr h.left)
  right := h.right
  nearest d ha hb := by
    obtain rfl | ha := (hup d).1 ha
    · exact absurd hb hab
    · exact h.nearest d ha hb

/-- What dominates both dominates the nearest of several nodes, taken together one by one. -/
theorem IsNearest.dominates_iff (h : IsNearest edge entry a b c) (d : α) :
    Dominates edge entry d c ↔ Dominates edge entry d a ∧ Dominates edge entry d b :=
  ⟨fun hd => ⟨hd.trans h.left, hd.trans h.right⟩, fun hd => h.nearest d hd.1 hd.2⟩

end Nearest

end OdinSon.Lib
