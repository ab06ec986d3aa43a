import Mathlib.Logic.Function.Basic
import Mathlib.Data.Nat.Basic
import Mathlib.Tactic.Cases

/-!
# Union-find

A forest is given by the parent of each element, `none` for a root.  `find` goes up to the root and
lets each element on its way point to its grandparent, `link` puts a root below another one.

Neither cares how the trees look like, only which root an element has (`Root`): `find` keeps the
roots (`find_spec`), and `link` replaces one by the other (`root_link_iff`).
-/

namespace OdinSon.UnionFind

variable {α : Type*} [DecidableEq α]

/-- The root of an element, at most so many steps above it. -/
inductive RootIn (parent : α → Option α) : ℕ → α → α → Prop
  | root {k : ℕ} {r : α} : parent r = none → RootIn parent k r r
  | step {k : ℕ} {x p r : α} : parent x = some p → RootIn parent k p r → RootIn parent (k + 1) x r

/-- The root of an element. -/
def Root (parent : α → Option α) (x r : α) : Prop := ∃ k, RootIn parent k x r

/-- Every element has a root, at most `d` steps above it, and ranks grow on the way. -/
structure Forest (parent : α → Option α) (rank : α → ℕ) (d : ℕ) : Prop where
  rank_lt : ∀ x p, parent x = some p → rank x < rank p
  rooted : ∀ x, ∃ r, RootIn parent d x r

/-- The loop of `find`: the parents afterwards, and the root.  It stops where the ranks do not grow,
or after `fuel` rounds. -/
def findLoop (rank : α → ℕ) : ℕ → (α → Option α) → α → Option ((α → Option α) × α)
  | 0, _, _ => none
  | fuel + 1, parent, x =>
    match parent x with
    | none => some (parent, x)
    | some p =>
      if rank x < rank p then
        findLoop rank fuel (Function.update parent x (some ((parent p).getD p))) p
      else none

/-- The root of an element that is at most one step away needs no loop. -/
def find (rank : α → ℕ) (fuel : ℕ) (parent : α → Option α) (x : α) :
    Option ((α → Option α) × α) :=
  match parent x with
  | none => some (parent, x)
  | some p => if parent p = none then some (parent, p) else findLoop rank fuel parent x

/-- Put the root `b` below `a`. -/
def link (parent : α → Option α) (a b : α) : α → Option α := Function.update parent b (some a)

theorem link_of_ne {parent : α → Option α} {a b x : α} (h : x ≠ b) :
    link parent a b x = parent x := Function.update_of_ne h ..

section Root

variable {parent parent' : α → Option α} {rank : α → ℕ} {k d : ℕ} {x y r s a b : α}

omit [DecidableEq α] in
theorem RootIn.mono (h : RootIn parent k x r) {k' : ℕ} (hk : k ≤ k') : RootIn parent k' x r := by
  induction h generalizing k' with
  | root hr => exact .root hr
  | @step k x p r hp _ ih =>
    obtain ⟨k', rfl⟩ : ∃ j, k' = j + 1 := ⟨k' - 1, by omega⟩
    exact .step hp (ih (by omega))

omit [DecidableEq α] in
theorem RootIn.parent_eq_none (h : RootIn parent k x r) : parent r = none := by
  induction h with
  | root hr => exact hr
  | step _ _ ih => exact ih

omit [DecidableEq α] in
theorem Root.parent_eq_none (h : Root parent x r) : parent r = none := h.choose_spec.parent_eq_none

omit [DecidableEq α] in
theorem Root.self (h : parent r = none) : Root parent r r := ⟨0, .root h⟩

omit [DecidableEq α] in
theorem RootIn.unique (h : RootIn parent k x r) (h' : Root parent x s) : r = s := by
  obtain ⟨k', h'⟩ := h'
  induction h generalizing k' with
  | root hr =>
    cases h' with
    | root => rfl
    | step hp => rw [hr] at hp; cases hp
  | step hp _ ih =>
    cases h' with
    | root hr => rw [hp] at hr; cases hr
    | step hp' h' =>
      rw [hp] at hp'
      cases hp'
      exact ih _ h'

omit [DecidableEq α] in
theorem Root.unique (h : Root parent x r) (h' : Root parent x s) : r = s :=
  h.choose_spec.unique h'

omit [DecidableEq α] in
theorem Root.eq_self (h : Root parent x r) (hx : parent x = none) : r = x :=
  h.unique (.self hx)

omit [DecidableEq α] in
theorem Forest.root (h : Forest parent rank d) (x : α) : ∃ r, Root parent x r :=
  let ⟨r, hr⟩ := h.rooted x
  ⟨r, d, hr⟩

/-! ### `find` -/

/-- Pointing to the grandparent keeps the root, and makes no way longer. -/
theorem RootIn.split (hx : parent x = some a) (h : RootIn parent k y r) :
    RootIn (Function.update parent x (some ((parent a).getD a))) k y r := by
  induction k using Nat.strong_induction_on generalizing y with
  | _ k ih =>
  cases h with
  | root hr =>
    refine .root ?_
    rw [Function.update_of_ne, hr]
    rintro rfl
    rw [hr] at hx
    cases hx
  | @step k _ p _ hp h =>
    by_cases hyx : y = x
    · subst hyx
      rw [hx] at hp
      cases hp
      refine .step (Function.update_self ..) ?_
      cases h with
      | root hr =>
        have hg : (parent r).getD r = r := by rw [hr]; rfl
        have hroot := ih k (Nat.lt_succ_self k) (.root hr)
        rw [hg] at hroot ⊢
        exact hroot
      | @step k _ g _ hq h =>
        have hg : (parent a).getD a = g := by rw [hq]; rfl
        have hroot := (ih k (by omega) h).mono (Nat.le_succ k)
        rw [hg] at hroot ⊢
        exact hroot
    · exact .step (by rw [Function.update_of_ne hyx, hp]) (ih k (by omega) h)

/-- One round of the loop keeps the forest. -/
theorem Forest.split (h : Forest parent rank d) (hx : parent x = some a) :
    Forest (Function.update parent x (some ((parent a).getD a))) rank d where
  rooted := fun y => (h.rooted y).imp fun _ hr => hr.split hx
  rank_lt := fun y p hp => by
    by_cases hyx : y = x
    · subst hyx
      rw [Function.update_self, Option.some.injEq] at hp
      rw [← hp]
      cases ha : parent a with
      | none => exact h.rank_lt y a hx
      | some g => exact Nat.lt_trans (h.rank_lt y a hx) (h.rank_lt a g ha)
    · rw [Function.update_of_ne hyx] at hp
      exact h.rank_lt y p hp

/-- The roots of one forest are those of the other. -/
def SameRoots (parent parent' : α → Option α) : Prop :=
  ∀ x r, Root parent x r ↔ Root parent' x r

omit [DecidableEq α] in
theorem SameRoots.of_forall (hf : Forest parent rank d)
    (h : ∀ x r, Root parent x r → Root parent' x r) : SameRoots parent parent' := by
  refine fun x r => ⟨h x r, fun hr => ?_⟩
  obtain ⟨s, hs⟩ := hf.root x
  rwa [hr.unique (h x s hs)]

omit [DecidableEq α] in
theorem SameRoots.parent_eq_none_iff (h : SameRoots parent parent') :
    parent r = none ↔ parent' r = none :=
  ⟨fun hr => ((h r r).1 (.self hr)).parent_eq_none, fun hr => ((h r r).2 (.self hr)).parent_eq_none⟩

theorem findLoop_spec {fuel : ℕ} (hf : Forest parent rank d) (hx : RootIn parent k x r)
    (hk : k < fuel) : ∃ parent', findLoop rank fuel parent x = some (parent', r) ∧
      Forest parent' rank d ∧ SameRoots parent parent' := by
  induction fuel generalizing parent x k with
  | zero => cases hk
  | succ fuel ih =>
    unfold findLoop
    cases hx with
    | root hr =>
      rw [hr]
      exact ⟨parent, rfl, hf, fun _ _ => Iff.rfl⟩
    | @step k _ p _ hp hx =>
      rw [hp]
      dsimp only
      rw [if_pos (hf.rank_lt x p hp)]
      obtain ⟨parent', hres, hf', hsame⟩ := ih (hf.split hp) (hx.split hp) (by omega)
      refine ⟨parent', hres, hf', .of_forall hf fun y s hs => (hsame y s).1 ?_⟩
      exact hs.imp fun _ hs => hs.split hp

/-- **`find` returns the root** and keeps the roots of all elements. -/
theorem find_spec {fuel : ℕ} (hf : Forest parent rank d) (hd : d < fuel) (x : α) :
    ∃ parent' r, find rank fuel parent x = some (parent', r) ∧ Root parent x r ∧
      Forest parent' rank d ∧ SameRoots parent parent' := by
  unfold find
  cases hx : parent x with
  | none => exact ⟨parent, x, rfl, .self hx, hf, fun _ _ => Iff.rfl⟩
  | some p =>
    dsimp only
    split_ifs with hp
    · exact ⟨parent, p, rfl, ⟨1, .step hx (.root hp)⟩, hf, fun _ _ => Iff.rfl⟩
    · obtain ⟨r, hr⟩ := hf.rooted x
      obtain ⟨parent', hres, hf', hsame⟩ := findLoop_spec hf hr hd
      exact ⟨parent', r, hres, ⟨d, hr⟩, hf', hsame⟩

/-! ### `link` -/

variable (ha : parent a = none) (hb : parent b = none) (hab : a ≠ b)

include ha hb hab

theorem RootIn.link (h : RootIn parent k x r) :
    RootIn (link parent a b) (k + 1) x (if r = b then a else r) := by
  have hroot : RootIn (UnionFind.link parent a b) 0 a a := by
    refine .root ?_
    rw [UnionFind.link, Function.update_of_ne hab, ha]
  induction h with
  | @root k r hr =>
    by_cases hrb : r = b
    · subst hrb
      rw [if_pos rfl]
      exact .step (Function.update_self ..) (hroot.mono (Nat.zero_le k))
    · rw [if_neg hrb]
      refine .root ?_
      rw [UnionFind.link, Function.update_of_ne hrb, hr]
  | @step k x p r hp h ih =>
    refine .step ?_ ih
    rw [UnionFind.link, Function.update_of_ne, hp]
    rintro rfl
    rw [hb] at hp
    cases hp

/-- **What was below `b` is below `a`**, and everything else stays where it is. -/
theorem root_link_iff (hf : Forest parent rank d) :
    Root (link parent a b) x r ↔ ∃ s, Root parent x s ∧ r = if s = b then a else s := by
  constructor
  · intro h
    obtain ⟨s, k, hs⟩ := hf.root x
    exact ⟨s, ⟨k, hs⟩, h.unique ⟨k + 1, hs.link ha hb hab⟩⟩
  · rintro ⟨s, ⟨k, hs⟩, rfl⟩
    exact ⟨k + 1, hs.link ha hb hab⟩

/-- A link keeps the forest, when the rank of its upper end is raised over the other one. -/
theorem Forest.link (hf : Forest parent rank d) {rank' : α → ℕ} (hlt : rank' b < rank' a)
    (hle : rank a ≤ rank' a) (hrank : ∀ x ≠ a, rank' x = rank x) :
    Forest (link parent a b) rank' (d + 1) where
  rooted := fun x =>
    let ⟨r, hr⟩ := hf.rooted x
    ⟨_, hr.link ha hb hab⟩
  rank_lt := fun x p hp => by
    by_cases hxb : x = b
    · subst hxb
      rw [UnionFind.link, Function.update_self, Option.some.injEq] at hp
      rwa [← hp]
    · rw [UnionFind.link, Function.update_of_ne hxb] at hp
      have hxa : x ≠ a := by
        rintro rfl
        rw [ha] at hp
        cases hp
      rw [hrank x hxa]
      by_cases hpa : p = a
      · subst hpa
        exact Nat.lt_of_lt_of_le (hf.rank_lt x p hp) hle
      · rw [hrank p hpa]
        exact hf.rank_lt x p hp

end Root

end OdinSon.UnionFind
