import OdinSon.Odinc.SccOrder
import Mathlib.Data.Finset.Card
import Mathlib.Data.List.GetD
import Mathlib.Data.List.Pairwise
import Mathlib.Data.Set.Insert

/-!
# The sets of `strong_connect`

What holds between two calls of `strong_connect` (`SCtx.Inv`), with the procedures that are being
connected as the set `path`: they reach what was put on the stack after them, and everything on the
stack reaches one of them that was there before it.  A call preserves it, and leaves on the stack only
what reaches back below it (`strongConnect_spec`).
-/

namespace OdinSon.Odinc

open Lib Relation

variable {g : CallGraph}

namespace CallGraph

/-- Calls upon calls. -/
abbrev Reach (g : CallGraph) : ℕ → ℕ → Prop := ReflTransGen g.Calls

theorem callees_lt {u v : ℕ} (h : g.Calls u v) : v < g.count := by
  rw [Calls, callees] at h
  by_cases hu : u < g.callerToCallee.length
  · rw [List.getD_eq_getElem _ _ hu] at h
    exact g.valid _ (List.getElem_mem hu) v h
  · rw [List.getD_eq_default _ _ (not_lt.1 hu)] at h
    exact absurd h List.not_mem_nil

end CallGraph

namespace SCtx

section Abbreviations

/-- The place in the order of the visits; `0` before. -/
abbrev idx (s : SCtx) (v : ℕ) : ℕ := (s.sccAsoc v).index

abbrev low (s : SCtx) (v : ℕ) : ℕ := (s.sccAsoc v).lowlink

abbrev sccId (s : SCtx) (v : ℕ) : ℕ := (s.sccAsoc v).sccId

/-- Visited, and in a set already. -/
def Closed (s : SCtx) (v : ℕ) : Prop := s.idx v ≠ 0 ∧ v ∉ s.stack

end Abbreviations

/-- Between two calls. -/
structure Inv (g : CallGraph) (s : SCtx) (path : Set ℕ) : Prop where
  idx_le : ∀ v, s.idx v ≤ s.index
  idx_inj : ∀ u v, s.idx u = s.idx v → s.idx u ≠ 0 → u = v
  sorted : s.stack.Pairwise fun u v => s.idx u < s.idx v
  mem_stack : ∀ v, v ∈ s.stack ↔ (s.sccAsoc v).onStack = true
  visited : ∀ v ∈ s.stack, s.idx v ≠ 0
  lt_count : ∀ v, s.idx v ≠ 0 → v < g.count
  path_subset : ∀ v ∈ path, v ∈ s.stack
  /-- What is done with has only visited callees. -/
  black : ∀ u, s.idx u ≠ 0 → u ∉ path → ∀ v, g.Calls u v → s.idx v ≠ 0
  /-- The sets call only themselves and earlier ones. -/
  closed : ∀ u, s.Closed u → ∀ v, g.Calls u v → s.Closed v ∧ s.sccId v ≤ s.sccId u
  down : ∀ x ∈ path, ∀ y ∈ s.stack, s.idx x ≤ s.idx y → g.Reach x y
  up : ∀ y ∈ s.stack, ∃ x ∈ path, s.idx x ≤ s.idx y ∧ g.Reach y x
  /-- The set of a procedure is the one of its place. -/
  member : ∀ v i, (s.Closed v ∧ s.sccId v = i) ↔ ∃ C, s.sccs[i]? = some C ∧ v ∈ C
  component : ∀ C ∈ s.sccs, IsComponent g.Calls C ∧ C.Nodup

/-- What a call of `strong_connect x` does. -/
structure Post (g : CallGraph) (s : SCtx) (x : ℕ) (s' : SCtx) (path : Set ℕ) : Prop where
  inv : Inv g s' path
  visited : s'.idx x ≠ 0
  frame : ∀ v, s.idx v ≠ 0 → s'.idx v = s.idx v ∧ s'.low v = s.low v
  fresh : ∀ v, s.idx v = 0 → s'.idx v ≠ 0 → s.index < s'.idx v
  /-- What it leaves on the stack calls nothing that was there below the low link. -/
  stack : ∃ new, s'.stack = s.stack ++ new ∧ (∀ u ∈ new, s.idx u = 0) ∧
    ∀ u ∈ new, ∀ v, g.Calls u v → v ∈ s.stack → s'.low x ≤ s.idx v
  low : s'.low x = s'.idx x ∨ ∃ y ∈ s.stack, s.idx y = s'.low x ∧ g.Reach x y

/-- In the loop over the callees of `x`, after those in `done`. -/
structure Mid (g : CallGraph) (s : SCtx) (x : ℕ) (t : SCtx) (path : Set ℕ) (done : List ℕ) :
    Prop where
  inv : Inv g t (insert x path)
  idx_self : t.idx x = s.index + 1
  frame : ∀ v, s.idx v ≠ 0 → t.idx v = s.idx v ∧ t.low v = s.low v
  fresh : ∀ v, s.idx v = 0 → t.idx v ≠ 0 → s.index < t.idx v
  stack : ∃ new, t.stack = s.stack ++ x :: new ∧
    ∀ u ∈ new, ∀ v, g.Calls u v → v ∈ s.stack → t.low x ≤ s.idx v
  visited_done : ∀ v ∈ done, t.idx v ≠ 0
  low_done : ∀ v ∈ done, v ∈ s.stack → t.low x ≤ s.idx v
  low_le : t.low x ≤ t.idx x
  low_mem : ∃ y ∈ t.stack, t.idx y = t.low x ∧ g.Reach x y

section Lower

variable {s : SCtx} {caller bound v : ℕ}

@[simp] theorem lower_stack : (s.lower caller bound).stack = s.stack := rfl

theorem lower_self : (s.lower caller bound).sccAsoc caller =
    { s.sccAsoc caller with lowlink := min (s.low caller) bound } := Function.update_self ..

theorem lower_of_ne (h : v ≠ caller) : (s.lower caller bound).sccAsoc v = s.sccAsoc v :=
  Function.update_of_ne h ..

@[simp] theorem lower_idx : (s.lower caller bound).idx v = s.idx v := by
  by_cases h : v = caller
  · rw [h, idx, lower_self]
  · rw [idx, lower_of_ne h]

@[simp] theorem lower_onStack :
    ((s.lower caller bound).sccAsoc v).onStack = (s.sccAsoc v).onStack := by
  by_cases h : v = caller
  · rw [h, lower_self]
  · rw [lower_of_ne h]

@[simp] theorem lower_sccId : (s.lower caller bound).sccId v = s.sccId v := by
  by_cases h : v = caller
  · rw [h, sccId, lower_self]
  · rw [sccId, lower_of_ne h]

theorem lower_low_self : (s.lower caller bound).low caller = min (s.low caller) bound := by
  rw [low, lower_self]

theorem lower_low_of_ne (h : v ≠ caller) : (s.lower caller bound).low v = s.low v := by
  rw [low, lower_of_ne h]

@[simp] theorem lower_closed : (s.lower caller bound).Closed v ↔ s.Closed v := by
  rw [Closed, Closed, lower_idx, lower_stack]

/-- The invariant does not depend on the low links. -/
theorem Inv.lower {path : Set ℕ} (h : Inv g s path) : Inv g (s.lower caller bound) path where
  idx_le v := by rw [lower_idx]; exact h.idx_le v
  idx_inj u v := by rw [lower_idx, lower_idx]; exact h.idx_inj u v
  sorted := h.sorted.imp fun huv => by rwa [lower_idx, lower_idx]
  mem_stack v := by rw [lower_onStack]; exact h.mem_stack v
  visited v hv := by rw [lower_idx]; exact h.visited v hv
  lt_count v hv := h.lt_count v (by rwa [lower_idx] at hv)
  path_subset := h.path_subset
  black u hu hpath v huv := by
    rw [lower_idx] at hu ⊢
    exact h.black u hu hpath v huv
  closed u hu v huv := by
    rw [lower_closed, lower_sccId, lower_sccId]
    exact h.closed u (lower_closed.1 hu) v huv
  down x hx y hy hxy := h.down x hx y hy (by rwa [lower_idx, lower_idx] at hxy)
  up y hy := by simpa only [lower_idx] using h.up y hy
  member v i := by
    rw [lower_closed, lower_sccId]
    exact h.member v i
  component := h.component

end Lower

/-! ### Entering a procedure -/

section Enter

variable {s : SCtx} {path : Set ℕ} {x v : ℕ}

theorem enter_self : (s.enter x).sccAsoc x =
    { s.sccAsoc x with index := s.index + 1, lowlink := s.index + 1, onStack := true } :=
  Function.update_self ..

theorem enter_of_ne (h : v ≠ x) : (s.enter x).sccAsoc v = s.sccAsoc v := Function.update_of_ne h ..

theorem enter_idx_self : (s.enter x).idx x = s.index + 1 := by rw [idx, enter_self]

theorem enter_idx_of_ne (h : v ≠ x) : (s.enter x).idx v = s.idx v := by rw [idx, enter_of_ne h]

@[simp] theorem enter_stack : (s.enter x).stack = s.stack ++ [x] := rfl

theorem enter_sccId : (s.enter x).sccId v = s.sccId v := by
  by_cases h : v = x
  · rw [h, sccId, enter_self]
  · rw [sccId, enter_of_ne h]

/-- A procedure that is not visited is not on the stack. -/
theorem Inv.not_mem_stack (h : Inv g s path) (hv : s.idx v = 0) : v ∉ s.stack :=
  fun hmem => h.visited v hmem hv

theorem enter_closed (hx : s.idx x = 0) :
    (s.enter x).Closed v ↔ s.Closed v := by
  rw [Closed, Closed, enter_stack, List.mem_append, List.mem_singleton]
  by_cases hv : v = x
  · subst hv
    simp [hx]
  · rw [enter_idx_of_ne hv]
    simp [hv]

theorem Inv.enter (h : Inv g s path) (hx : s.idx x = 0) (hlt : x < g.count)
    (hreach : ∀ p ∈ path, g.Reach p x) : Inv g (s.enter x) (insert x path) where
  idx_le v := by
    by_cases hv : v = x
    · rw [hv, enter_idx_self]
      exact le_rfl
    · rw [enter_idx_of_ne hv]
      exact (h.idx_le v).trans (Nat.le_succ _)
  idx_inj u v huv hne := by
    by_cases hu : u = x <;> by_cases hv : v = x
    · rw [hu, hv]
    · rw [hu, enter_idx_self, enter_idx_of_ne hv] at huv
      have hle := h.idx_le v
      omega
    · rw [hv, enter_idx_self, enter_idx_of_ne hu] at huv
      have hle := h.idx_le u
      omega
    · rw [enter_idx_of_ne hu] at huv hne
      rw [enter_idx_of_ne hv] at huv
      exact h.idx_inj u v huv hne
  sorted := by
    rw [enter_stack, List.pairwise_append]
    -- the new node has the greatest index, and it goes on top
    refine ⟨h.sorted.imp_of_mem fun {a b} ha hb hab => ?_, List.pairwise_singleton _ _,
      fun a ha b hb => ?_⟩
    · rw [enter_idx_of_ne (ne_of_mem_of_not_mem ha (h.not_mem_stack hx)),
        enter_idx_of_ne (ne_of_mem_of_not_mem hb (h.not_mem_stack hx))]
      exact hab
    · rw [List.mem_singleton.1 hb, enter_idx_self,
        enter_idx_of_ne (ne_of_mem_of_not_mem ha (h.not_mem_stack hx))]
      exact Nat.lt_succ_of_le (h.idx_le a)
  mem_stack v := by
    rw [enter_stack, List.mem_append, List.mem_singleton]
    by_cases hv : v = x
    · rw [hv, enter_self]
      simp
    · rw [enter_of_ne hv, ← h.mem_stack v]
      simp [hv]
  visited v hv := by
    by_cases hvx : v = x
    · rw [hvx, enter_idx_self]
      exact Nat.succ_ne_zero _
    · rw [enter_idx_of_ne hvx]
      rw [enter_stack, List.mem_append, List.mem_singleton] at hv
      exact h.visited v (hv.resolve_right hvx)
  lt_count v hv := by
    by_cases hvx : v = x
    · exact hvx ▸ hlt
    · rw [enter_idx_of_ne hvx] at hv
      exact h.lt_count v hv
  path_subset v hv := by
    rw [enter_stack, List.mem_append, List.mem_singleton]
    exact hv.elim Or.inr fun hv => Or.inl (h.path_subset v hv)
  black u hu hpath v huv := by
    -- `x` itself is on the path, so nothing is asked of its calls yet
    have hux : u ≠ x := fun hux => hpath (hux ▸ Set.mem_insert x path)
    rw [enter_idx_of_ne hux] at hu
    by_cases hv : v = x
    · rw [hv, enter_idx_self]
      exact Nat.succ_ne_zero _
    · rw [enter_idx_of_ne hv]
      exact h.black u hu (fun hmem => hpath (Set.mem_insert_of_mem x hmem)) v huv
  closed u hu v huv := by
    rw [enter_closed hx] at hu ⊢
    rw [enter_sccId, enter_sccId]
    exact h.closed u hu v huv
  down p hp y hy hpy := by
    rw [enter_stack, List.mem_append, List.mem_singleton] at hy
    by_cases hyx : y = x
    · subst hyx
      obtain rfl | hp := hp
      · exact ReflTransGen.refl
      · exact hreach p hp
    · have hy := hy.resolve_right hyx
      rw [enter_idx_of_ne hyx] at hpy
      obtain rfl | hp := hp
      · rw [enter_idx_self] at hpy
        have hle := h.idx_le y
        omega
      · rw [enter_idx_of_ne (ne_of_mem_of_not_mem (h.path_subset p hp) (h.not_mem_stack hx))] at hpy
        exact h.down p hp y hy hpy
  up y hy := by
    rw [enter_stack, List.mem_append, List.mem_singleton] at hy
    obtain hy | rfl := hy
    · -- nodes below `x` keep the ancestor that they had
      obtain ⟨p, hp, hle, hreach⟩ := h.up y hy
      refine ⟨p, Set.mem_insert_of_mem x hp, ?_, hreach⟩
      rwa [enter_idx_of_ne (ne_of_mem_of_not_mem (h.path_subset p hp) (h.not_mem_stack hx)),
        enter_idx_of_ne (ne_of_mem_of_not_mem hy (h.not_mem_stack hx))]
    · exact ⟨y, Set.mem_insert y path, le_rfl, ReflTransGen.refl⟩
  member v i := by
    rw [enter_closed hx, enter_sccId]
    exact h.member v i
  component := h.component

/-- The loop over the callees starts. -/
theorem Mid.start (h : Inv g s path) (hx : s.idx x = 0) (hlt : x < g.count)
    (hreach : ∀ p ∈ path, g.Reach p x) : Mid g s x (s.enter x) path [] where
  inv := h.enter hx hlt hreach
  idx_self := enter_idx_self
  frame v hv := by
    have hvx : v ≠ x := fun hvx => hv (hvx ▸ hx)
    rw [enter_idx_of_ne hvx, low, enter_of_ne hvx]
    exact ⟨rfl, rfl⟩
  fresh v hv hv' := by
    by_cases hvx : v = x
    · rw [hvx, enter_idx_self]
      exact Nat.lt_succ_self _
    · rw [enter_idx_of_ne hvx] at hv'
      exact absurd hv hv'
  stack := ⟨[], rfl, fun u hu => absurd hu List.not_mem_nil⟩
  visited_done v hv := absurd hv List.not_mem_nil
  low_done v hv := absurd hv List.not_mem_nil
  low_le := by rw [low, idx, enter_self]
  low_mem := ⟨x, by rw [enter_stack]; simp, by rw [low, idx, enter_self], ReflTransGen.refl⟩

end Enter

/-! ### The loop over the callees -/

section Loop

variable {s t t' : SCtx} {path : Set ℕ} {x c : ℕ} {done : List ℕ}

/-- What was on the stack before is older than the caller. -/
theorem Mid.older (h : Mid g s x t path done) (hs : Inv g s path) {v : ℕ} (hv : v ∈ s.stack) :
    t.idx v = s.idx v ∧ t.idx v < t.idx x := by
  have hframe := (h.frame v (hs.visited v hv)).1
  have hle := hs.idx_le v
  rw [hframe, h.idx_self]
  exact ⟨rfl, Nat.lt_succ_of_le hle⟩

/-- The caller was not visited before. -/
theorem Mid.ne_self (h : Mid g s x t path done) (hs : Inv g s path) {v : ℕ} (hv : s.idx v ≠ 0) :
    v ≠ x := by
  rintro rfl
  have hframe := (h.frame v hv).1
  have hle := hs.idx_le v
  rw [h.idx_self] at hframe
  omega

theorem Mid.mem_stack_self (h : Mid g s x t path done) : x ∈ t.stack := by
  obtain ⟨new, hnew, -⟩ := h.stack
  rw [hnew]
  exact List.mem_append_right _ List.mem_cons_self

theorem Mid.mem_stack_of_mem (h : Mid g s x t path done) {v : ℕ} (hv : v ∈ s.stack) :
    v ∈ t.stack := by
  obtain ⟨new, hnew, -⟩ := h.stack
  rw [hnew]
  exact List.mem_append_left _ hv

/-- The path reaches what the caller calls. -/
theorem Mid.reach_callee (h : Mid g s x t path done) (hs : Inv g s path) (hc : g.Calls x c) :
    ∀ p ∈ insert x path, g.Reach p c := by
  rintro p (rfl | hp)
  · exact ReflTransGen.single hc
  · have hold := (h.older hs (hs.path_subset p hp)).2
    exact (h.inv.down p (Set.mem_insert_of_mem x hp) x h.mem_stack_self hold.le).tail hc

/-- A callee on the stack. -/
theorem Mid.onStack (h : Mid g s x t path done) (hs : Inv g s path) (hc : g.Calls x c)
    (hstack : c ∈ t.stack) : Mid g s x (t.lower x (t.idx c)) path (done ++ [c]) where
  inv := h.inv.lower
  idx_self := lower_idx.trans h.idx_self
  frame v hv := by
    rw [lower_idx, lower_low_of_ne (h.ne_self hs hv)]
    exact h.frame v hv
  fresh v hv hv' := by
    rw [lower_idx] at hv' ⊢
    exact h.fresh v hv hv'
  stack := by
    obtain ⟨new, hnew, hlow⟩ := h.stack
    refine ⟨new, hnew, fun u hu v huv hv => ?_⟩
    rw [lower_low_self]
    exact (min_le_left _ _).trans (hlow u hu v huv hv)
  visited_done v hv := by
    rw [lower_idx]
    obtain hv | hv := List.mem_append.1 hv
    · exact h.visited_done v hv
    · exact List.mem_singleton.1 hv ▸ h.inv.visited c hstack
  low_done v hv hvs := by
    rw [lower_low_self]
    obtain hv | hv := List.mem_append.1 hv
    · exact (min_le_left _ _).trans (h.low_done v hv hvs)
    · obtain rfl := List.mem_singleton.1 hv
      exact (min_le_right _ _).trans (h.older hs hvs).1.le
  low_le := by
    rw [lower_low_self, lower_idx]
    exact (min_le_left _ _).trans h.low_le
  low_mem := by
    rw [lower_low_self]
    obtain hmin | hmin := min_choice (t.low x) (t.idx c)
    · rw [hmin]
      obtain ⟨y, hy, hylow, hreach⟩ := h.low_mem
      exact ⟨y, hy, lower_idx.trans hylow, hreach⟩
    · rw [hmin]
      exact ⟨c, hstack, lower_idx, ReflTransGen.single hc⟩

/-- A callee in a set already. -/
theorem Mid.inSet (h : Mid g s x t path done) (hc : t.Closed c) :
    Mid g s x t path (done ++ [c]) where
  inv := h.inv
  idx_self := h.idx_self
  frame := h.frame
  fresh := h.fresh
  stack := h.stack
  visited_done v hv := by
    obtain hv | hv := List.mem_append.1 hv
    · exact h.visited_done v hv
    · exact List.mem_singleton.1 hv ▸ hc.1
  low_done v hv hvs := by
    obtain hv | hv := List.mem_append.1 hv
    · exact h.low_done v hv hvs
    · obtain rfl := List.mem_singleton.1 hv
      exact absurd (h.mem_stack_of_mem hvs) hc.2
  low_le := h.low_le
  low_mem := h.low_mem

/-- A callee that was not visited, after the call. -/
theorem Mid.called (h : Mid g s x t path done) (hs : Inv g s path) (hc : g.Calls x c)
    (hzero : t.idx c = 0) (hpost : Post g t c t' (insert x path)) :
    Mid g s x (t'.lower x (t'.low c)) path (done ++ [c]) := by
  have hself : t.idx x ≠ 0 := by rw [h.idx_self]; exact Nat.succ_ne_zero _
  obtain ⟨hidx, hlow⟩ := hpost.frame x hself
  have hframe (v : ℕ) (hv : s.idx v ≠ 0) : t'.idx v = s.idx v ∧ t'.low v = s.low v := by
    obtain ⟨hv₁, hv₂⟩ := h.frame v hv
    obtain ⟨hv₃, hv₄⟩ := hpost.frame v (hv₁ ▸ hv)
    exact ⟨hv₃.trans hv₁, hv₄.trans hv₂⟩
  have hfresh : t.index < t'.idx c := hpost.fresh c hzero hpost.visited
  have hle := h.inv.idx_le x
  refine ⟨hpost.inv.lower, lower_idx.trans (hidx.trans h.idx_self), fun v hv => ?_, fun v hv hv' => ?_,
    ?_, fun v hv => ?_, fun v hv hvs => ?_, ?_, ?_⟩
  · rw [lower_idx, lower_low_of_ne (h.ne_self hs hv)]
    exact hframe v hv
  · rw [lower_idx] at hv' ⊢
    by_cases hvt : t.idx v = 0
    · have hnew := hpost.fresh v hvt hv'
      rw [h.idx_self] at hle
      omega
    · rw [(hpost.frame v hvt).1]
      exact h.fresh v hv hvt
  · obtain ⟨new, hnew, hnewlow⟩ := h.stack
    obtain ⟨newc, hnewc, -, hnewclow⟩ := hpost.stack
    refine ⟨new ++ newc, ?_, fun u hu v huv hv => ?_⟩
    · rw [lower_stack, hnewc, hnew, List.append_assoc, List.cons_append]
    · rw [lower_low_self, hlow]
      obtain hu | hu := List.mem_append.1 hu
      · exact (min_le_left _ _).trans (hnewlow u hu v huv hv)
      · exact (min_le_right _ _).trans
          ((hnewclow u hu v huv (h.mem_stack_of_mem hv)).trans (h.older hs hv).1.le)
  · rw [lower_idx]
    obtain hv | hv := List.mem_append.1 hv
    · have hvisited := h.visited_done v hv
      rw [(hpost.frame v hvisited).1]
      exact hvisited
    · exact List.mem_singleton.1 hv ▸ hpost.visited
  · rw [lower_low_self, hlow]
    obtain hv | hv := List.mem_append.1 hv
    · exact (min_le_left _ _).trans (h.low_done v hv hvs)
    · obtain rfl := List.mem_singleton.1 hv
      exact absurd hzero (h.inv.visited v (h.mem_stack_of_mem hvs))
  · rw [lower_low_self, lower_idx, hlow, hidx]
    exact (min_le_left _ _).trans h.low_le
  · obtain ⟨newc, hnewc, -, -⟩ := hpost.stack
    have hkeep {y : ℕ} (hy : y ∈ t.stack) : y ∈ t'.stack ∧ t'.idx y = t.idx y :=
      ⟨hnewc ▸ List.mem_append_left _ hy, (hpost.frame y (h.inv.visited y hy)).1⟩
    rw [lower_low_self, hlow]
    obtain hmin | hmin := min_choice (t.low x) (t'.low c)
    · rw [hmin]
      obtain ⟨y, hy, hylow, hreach⟩ := h.low_mem
      exact ⟨y, (hkeep hy).1, lower_idx.trans ((hkeep hy).2.trans hylow), hreach⟩
    · rw [hmin]
      obtain hroot | ⟨y, hy, hylow, hreach⟩ := hpost.low
      · -- the root of a set of its own has a higher link
        have hmin' := min_eq_right_iff.1 hmin
        have hlowle := h.low_le
        omega
      · exact ⟨y, (hkeep hy).1, lower_idx.trans ((hkeep hy).2.trans hylow),
          (ReflTransGen.single hc).trans hreach⟩

end Loop

/-! ### Leaving a procedure -/

section Close

variable {s t : SCtx} {path : Set ℕ} {x : ℕ} {new : List ℕ}

/-- All the callees are visited. -/
abbrev Full (g : CallGraph) (s : SCtx) (x : ℕ) (t : SCtx) (path : Set ℕ) : Prop :=
  Mid g s x t path (g.callees x)

/-- The part of the stack from the caller on. -/
structure Top (g : CallGraph) (s : SCtx) (x : ℕ) (t : SCtx) (new : List ℕ) : Prop where
  stack : t.stack = s.stack ++ x :: new
  low : ∀ u ∈ new, ∀ v, g.Calls u v → v ∈ s.stack → t.low x ≤ s.idx v

variable (h : Full g s x t path) (hs : Inv g s path) (htop : Top g s x t new)

include h htop in
theorem Top.disjoint {v : ℕ} (hv : v ∈ x :: new) : v ∉ s.stack := by
  intro hvs
  have hsorted := htop.stack ▸ h.inv.sorted
  exact lt_irrefl _ ((List.pairwise_append.1 hsorted).2.2 v hvs v hv)

include h htop in
theorem Top.le {v : ℕ} (hv : v ∈ x :: new) : t.idx x ≤ t.idx v := by
  have hsorted := htop.stack ▸ h.inv.sorted
  obtain rfl | hv := List.mem_cons.1 hv
  · exact le_rfl
  · exact ((List.pairwise_cons.1 (List.pairwise_append.1 hsorted).2.1).1 v hv).le

include h htop in
theorem Top.idx_ne_zero {v : ℕ} (hv : v ∈ x :: new) : t.idx v ≠ 0 :=
  h.inv.visited v (htop.stack ▸ List.mem_append_right _ hv)

include h hs htop in
/-- What the top calls is visited, and not too old. -/
theorem Top.calls {u v : ℕ} (hu : u ∈ x :: new) (huv : g.Calls u v) :
    t.idx v ≠ 0 ∧ (v ∈ s.stack → t.low x ≤ t.idx v) := by
  obtain rfl | hnew := List.mem_cons.1 hu
  · refine ⟨h.visited_done v huv, fun hv => ?_⟩
    rw [(h.older hs hv).1]
    exact h.low_done v huv hv
  · refine ⟨h.inv.black u (htop.idx_ne_zero h hu) ?_ v huv, fun hv => ?_⟩
    · rintro (rfl | hpath)
      · -- the caller is on the stack once
        have hsorted := htop.stack ▸ h.inv.sorted
        exact lt_irrefl _
          ((List.pairwise_cons.1 (List.pairwise_append.1 hsorted).2.1).1 u hnew)
      · exact htop.disjoint h hu (hs.path_subset u hpath)
    · rw [(h.older hs hv).1]
      exact htop.low u hnew v huv hv

include h hs htop in
/-- The top and the caller reach each other where it reaches nothing older. -/
theorem Top.reach {y : ℕ} (hy : y ∈ x :: new) : g.Reach x y ∧ g.Reach y x := by
  have hmem : y ∈ t.stack := htop.stack ▸ List.mem_append_right _ hy
  refine ⟨h.inv.down x (Set.mem_insert x path) y hmem (htop.le h hy), ?_⟩
  obtain ⟨p, hp, -, hreach⟩ := h.inv.up y hmem
  obtain rfl | hp := hp
  · exact hreach
  · have hold := (h.older hs (hs.path_subset p hp)).2
    exact hreach.trans (h.inv.down p (Set.mem_insert_of_mem x hp) x h.mem_stack_self hold.le)

include h hs htop in
/-- What the root of a set calls is in the set or in an earlier one. -/
theorem Top.calls_of_root (hroot : t.idx x = t.low x) {u v : ℕ} (hu : u ∈ x :: new)
    (huv : g.Calls u v) : v ∈ x :: new ∨ t.Closed v := by
  obtain ⟨hvisited, hlow⟩ := htop.calls h hs hu huv
  by_cases hv : v ∈ t.stack
  · rw [htop.stack, List.mem_append] at hv
    obtain hv | hv := hv
    · have hold := (h.older hs hv).2
      have hle := hlow hv
      omega
    · exact Or.inl hv
  · exact Or.inr ⟨hvisited, hv⟩

include h hs htop in
/-- The top is a component, if the caller is its root. -/
theorem Top.isComponent (hroot : t.idx x = t.low x) : IsComponent g.Calls (x :: new) := by
  refine isComponent_of_closed (S := {v | t.Closed v}) (r := x) List.mem_cons_self
    (fun hclosed => hclosed.2 h.mem_stack_self) (fun u hu v huv => (h.inv.closed u hu v huv).1)
    (fun u hu v huv => htop.calls_of_root h hs hroot hu huv) fun y hy => htop.reach h hs hy

/-- The state after the set is taken. -/
theorem close_root (htop : Top g s x t new) (hroot : t.idx x = t.low x) :
    t.close x s.stack.length =
      { t with
        sccAsoc := fun n =>
          if n ∈ x :: new then { t.sccAsoc n with sccId := t.sccs.length, onStack := false }
          else t.sccAsoc n
        stack := s.stack
        sccs := t.sccs ++ [x :: new] } := by
  rw [close, if_pos hroot, htop.stack, List.drop_left, List.take_left]

/-- A record of the state after the set is taken. -/
structure Taken (s t : SCtx) (C : List ℕ) (t' : SCtx) : Prop where
  stack : t'.stack = s.stack
  sccs : t'.sccs = t.sccs ++ [C]
  index : t'.index = t.index
  idx : ∀ v, t'.idx v = t.idx v
  low : ∀ v, t'.low v = t.low v
  onStack : ∀ v, (t'.sccAsoc v).onStack = (!decide (v ∈ C) && (t.sccAsoc v).onStack)
  sccId : ∀ v, t'.sccId v = if v ∈ C then t.sccs.length else t.sccId v

theorem Taken.of_root (htop : Top g s x t new) (hroot : t.idx x = t.low x) :
    Taken s t (x :: new) (t.close x s.stack.length) := by
  rw [close_root htop hroot]
  refine ⟨rfl, rfl, rfl, fun v => ?_, fun v => ?_, fun v => ?_, fun v => ?_⟩
  all_goals
    dsimp only [SCtx.idx, SCtx.low, SCtx.sccId]
    by_cases hv : v ∈ x :: new
    · simp [hv]
    · simp [hv]

variable {t' : SCtx} (htaken : Taken s t (x :: new) t')

include h htop htaken in
theorem Taken.closed_iff {v : ℕ} : t'.Closed v ↔ v ∈ x :: new ∨ t.Closed v := by
  rw [Closed, Closed, htaken.idx, htaken.stack, htop.stack, List.mem_append, not_or]
  by_cases hv : v ∈ x :: new
  · simp only [hv, true_or, iff_true]
    exact ⟨htop.idx_ne_zero h hv, htop.disjoint h hv⟩
  · simp only [hv, false_or, not_false_eq_true, and_true]

include htaken in
/-- The sets before the new one have lower places. -/
theorem Taken.sccId_lt (hinv : Inv g t (insert x path)) {v : ℕ} (hv : t.Closed v) :
    t.sccId v < t.sccs.length ∧ (v ∉ x :: new → t'.sccId v = t.sccId v) := by
  obtain ⟨C, hC, -⟩ := (hinv.member v _).1 ⟨hv, rfl⟩
  refine ⟨(List.getElem?_eq_some_iff.1 hC).1, fun hnew => ?_⟩
  rw [htaken.sccId, if_neg hnew]

include h hs htop htaken in
theorem Inv.taken (hroot : t.idx x = t.low x) : Inv g t' path where
  idx_le v := by rw [htaken.idx, htaken.index]; exact h.inv.idx_le v
  idx_inj u v := by rw [htaken.idx, htaken.idx]; exact h.inv.idx_inj u v
  sorted := by
    have hsorted := htop.stack ▸ h.inv.sorted
    rw [htaken.stack]
    exact (List.pairwise_append.1 hsorted).1.imp fun huv => by rwa [htaken.idx, htaken.idx]
  mem_stack v := by
    have hmem := h.inv.mem_stack v
    rw [htop.stack, List.mem_append] at hmem
    rw [htaken.stack, htaken.onStack]
    by_cases hv : v ∈ x :: new
    · -- what is taken is off the stack, and its flag is cleared
      simp only [hv, decide_true, Bool.not_true, Bool.false_and, Bool.false_eq_true, iff_false]
      exact htop.disjoint h hv
    · simpa only [hv, or_false, decide_false, Bool.not_false, Bool.true_and] using hmem
  visited v hv := by
    rw [htaken.idx]
    rw [htaken.stack] at hv
    exact h.inv.visited v (h.mem_stack_of_mem hv)
  lt_count v hv := h.inv.lt_count v (by rwa [htaken.idx] at hv)
  path_subset v hv := by
    rw [htaken.stack]
    exact hs.path_subset v hv
  black u hu hpath v huv := by
    rw [htaken.idx] at hu ⊢
    by_cases hux : u = x
    · exact h.visited_done v (hux ▸ huv)
    · exact h.inv.black u hu (fun hmem => hmem.elim hux hpath) v huv
  closed u hu v huv := by
    rw [htaken.closed_iff h htop] at hu ⊢
    by_cases hunew : u ∈ x :: new
    · -- out of the component calls go to closed nodes only
      have hcalls := htop.calls_of_root h hs hroot hunew huv
      refine ⟨hcalls, ?_⟩
      rw [htaken.sccId u, if_pos hunew, htaken.sccId v]
      split_ifs with hvnew
      · exact le_rfl
      · exact (htaken.sccId_lt h.inv (hcalls.resolve_left hvnew)).1.le
    · obtain ⟨hv, hle⟩ := h.inv.closed u (hu.resolve_left hunew) v huv
      -- what was closed before was not on the stack
      have hvnew : v ∉ x :: new := fun hvnew =>
        hv.2 (htop.stack ▸ List.mem_append_right _ hvnew)
      rw [htaken.sccId u, if_neg hunew, htaken.sccId v, if_neg hvnew]
      exact ⟨Or.inr hv, hle⟩
  down p hp y hy hpy := by
    rw [htaken.idx, htaken.idx] at hpy
    rw [htaken.stack] at hy
    exact h.inv.down p (Set.mem_insert_of_mem x hp) y (h.mem_stack_of_mem hy) hpy
  up y hy := by
    rw [htaken.stack] at hy
    obtain ⟨p, hp, hle, hreach⟩ := hs.up y hy
    refine ⟨p, hp, ?_, hreach⟩
    rwa [htaken.idx, htaken.idx, (h.older hs hy).1, (h.older hs (hs.path_subset p hp)).1]
  member v i := by
    rw [htaken.closed_iff h htop, htaken.sccs, htaken.sccId, List.getElem?_append]
    by_cases hv : v ∈ x :: new
    · have hnot : ¬ t.Closed v := fun hclosed =>
        hclosed.2 (htop.stack ▸ List.mem_append_right _ hv)
      simp only [hv, true_or, true_and, if_true]
      constructor
      · rintro rfl
        exact ⟨x :: new, by simp, hv⟩
      · rintro ⟨C, hC, hvC⟩
        split_ifs at hC with hi
        · exact absurd ((h.inv.member v i).2 ⟨C, hC, hvC⟩).1 hnot
        · have hzero : i - t.sccs.length < 1 := (List.getElem?_eq_some_iff.1 hC).1
          omega
    · simp only [hv, false_or, if_false]
      -- the others stay in the component they were in
      rw [h.inv.member v i]
      constructor
      · rintro ⟨C, hC, hvC⟩
        exact ⟨C, by rwa [if_pos (List.getElem?_eq_some_iff.1 hC).1], hvC⟩
      · rintro ⟨C, hC, hvC⟩
        split_ifs at hC with hi
        · exact ⟨C, hC, hvC⟩
        · have hmem := List.mem_of_getElem? hC
          exact absurd (List.mem_singleton.1 hmem ▸ hvC) hv
  component C hC := by
    rw [htaken.sccs, List.mem_append, List.mem_singleton] at hC
    obtain hC | rfl := hC
    · exact h.inv.component C hC
    · refine ⟨htop.isComponent h hs hroot, ?_⟩
      have hsorted := htop.stack ▸ h.inv.sorted
      exact (List.pairwise_append.1 hsorted).2.1.imp fun huv heq => (heq ▸ huv).ne rfl

include h hs htop in
/-- What is not the root of a set stays on the stack, and leads below itself. -/
theorem Inv.stays (hroot : t.idx x ≠ t.low x) : Inv g t path := by
  obtain ⟨z, hz, hzlow, hreach⟩ := h.low_mem
  have hlt : t.idx z < t.idx x := by
    have hle := h.low_le
    omega
  have hzs : z ∈ s.stack := by
    rw [htop.stack, List.mem_append] at hz
    exact hz.resolve_right fun hz => (htop.le h hz).not_gt hlt
  refine { h.inv with
    path_subset := fun v hv => h.mem_stack_of_mem (hs.path_subset v hv)
    black := fun u hu hpath v huv => ?_
    down := fun p hp y hy hpy => h.inv.down p (Set.mem_insert_of_mem x hp) y hy hpy
    up := fun y hy => ?_ }
  · by_cases hux : u = x
    · exact h.visited_done v (hux ▸ huv)
    · exact h.inv.black u hu (fun hmem => hmem.elim hux hpath) v huv
  · obtain ⟨p, hp, hle, hyp⟩ := h.inv.up y hy
    obtain rfl | hp := hp
    · obtain ⟨q, hq, hqz, hzq⟩ := hs.up z hzs
      refine ⟨q, hq, ?_, (hyp.trans hreach).trans hzq⟩
      rw [← (h.older hs (hs.path_subset q hq)).1, ← (h.older hs hzs).1] at hqz
      omega
    · exact ⟨p, hp, hle, hyp⟩

include h hs in
/-- The end of the call. -/
theorem Post.of_full : Post g s x (t.close x s.stack.length) path := by
  obtain ⟨new, hnew, hlow⟩ := h.stack
  have htop : Top g s x t new := ⟨hnew, hlow⟩
  by_cases hroot : t.idx x = t.low x
  · have htaken := Taken.of_root htop hroot
    refine ⟨Inv.taken h hs htop htaken hroot, ?_, fun v hv => ?_, fun v hv hv' => ?_,
      ⟨[], ?_, ?_, ?_⟩, Or.inl ?_⟩
    · rw [htaken.idx, h.idx_self]
      exact Nat.succ_ne_zero _
    · rw [htaken.idx, htaken.low]
      exact h.frame v hv
    · rw [htaken.idx] at hv' ⊢
      exact h.fresh v hv hv'
    · rw [htaken.stack, List.append_nil]
    · exact fun u hu => absurd hu List.not_mem_nil
    · exact fun u hu => absurd hu List.not_mem_nil
    · rw [htaken.low, htaken.idx, hroot]
  · rw [close, if_neg hroot]
    refine ⟨Inv.stays h hs htop hroot, ?_, h.frame, h.fresh, ⟨x :: new, hnew, fun u hu => ?_,
      fun u hu v huv hv => ?_⟩, Or.inr ?_⟩
    · rw [h.idx_self]
      exact Nat.succ_ne_zero _
    · -- what is new was not visited before
      by_contra hvisited
      have hle := hs.idx_le u
      have htle := htop.le h hu
      rw [(h.frame u hvisited).1, h.idx_self] at htle
      omega
    · rw [← (h.older hs hv).1]
      exact (htop.calls h hs hu huv).2 hv
    · obtain ⟨z, hz, hzlow, hreach⟩ := h.low_mem
      have hlt : t.idx z < t.idx x := by
        have hle := h.low_le
        omega
      have hzs : z ∈ s.stack := by
        rw [htop.stack, List.mem_append] at hz
        exact hz.resolve_right fun hz => (htop.le h hz).not_gt hlt
      exact ⟨z, hzs, (h.older hs hzs).1 ▸ hzlow, hreach⟩

end Close

/-! ### The whole call -/

section Connect

variable {s : SCtx} {path : Set ℕ}

/-- How many procedures are not visited. -/
def unvisited (g : CallGraph) (s : SCtx) : ℕ :=
  ((Finset.range g.count).filter fun v => s.idx v = 0).card

theorem unvisited_lt {t : SCtx} {x : ℕ} (hx : s.idx x = 0) (hlt : x < g.count) (hxt : t.idx x ≠ 0)
    (hframe : ∀ v, s.idx v ≠ 0 → t.idx v ≠ 0) : unvisited g t < unvisited g s := by
  refine Finset.card_lt_card ⟨fun v hv => ?_, fun hsub => ?_⟩
  · rw [Finset.mem_filter] at hv ⊢
    exact ⟨hv.1, by_contra fun hne => hframe v hne hv.2⟩
  · have hmem := hsub (Finset.mem_filter.2 ⟨Finset.mem_range.2 hlt, hx⟩)
    exact hxt (Finset.mem_filter.1 hmem).2

/-- The loop over the callees, if the calls do what they should. -/
theorem Mid.loop {fuel x : ℕ} (hs : Inv g s path) (hx : s.idx x = 0) (hlt : x < g.count)
    (hfuel : unvisited g s ≤ fuel + 1)
    (ih : ∀ {s : SCtx} {path : Set ℕ} {x : ℕ}, Inv g s path → s.idx x = 0 → x < g.count →
      (∀ p ∈ path, g.Reach p x) → unvisited g s ≤ fuel →
      ∃ s', g.strongConnect fuel s x = some s' ∧ Post g s x s' path)
    {t : SCtx} {cs done : List ℕ} (hsplit : done ++ cs = g.callees x)
    (h : Mid g s x t path done) :
    ∃ t', cs.foldlM (fun s callee => s.visitCallee (g.strongConnect fuel) x callee) t = some t' ∧
      Full g s x t' path := by
  induction cs generalizing t done with
  | nil =>
    rw [List.append_nil] at hsplit
    subst hsplit
    exact ⟨t, rfl, h⟩
  | cons c cs ihcs =>
    have hc : g.Calls x c := by
      rw [CallGraph.Calls, ← hsplit]
      exact List.mem_append_right _ List.mem_cons_self
    have hsplit' : (done ++ [c]) ++ cs = g.callees x := by rw [List.append_assoc]; exact hsplit
    rw [List.foldlM_cons, visitCallee]
    by_cases hzero : t.idx c = 0
    · have hself : t.idx x ≠ 0 := by rw [h.idx_self]; exact Nat.succ_ne_zero _
      have hless := unvisited_lt (g := g) hx hlt hself
        fun v hv => (h.frame v hv).1 ▸ hv
      obtain ⟨t', ht', hpost⟩ := ih h.inv hzero (CallGraph.callees_lt hc) (h.reach_callee hs hc)
        (by omega)
      rw [if_pos hzero, ht', Option.map_some]
      exact ihcs hsplit' (h.called hs hc hzero hpost)
    · rw [if_neg hzero]
      by_cases hstack : (t.sccAsoc c).onStack = true
      · rw [if_pos hstack]
        exact ihcs hsplit' (h.onStack hs hc ((h.inv.mem_stack c).2 hstack))
      · rw [if_neg hstack]
        exact ihcs hsplit' (h.inSet ⟨hzero, fun hmem => hstack ((h.inv.mem_stack c).1 hmem)⟩)

/-- **A call of `strong_connect`** ends, and does what it should. -/
theorem strongConnect_spec {fuel : ℕ} {x : ℕ} (hs : Inv g s path) (hx : s.idx x = 0)
    (hlt : x < g.count) (hreach : ∀ p ∈ path, g.Reach p x) (hfuel : unvisited g s ≤ fuel) :
    ∃ s', g.strongConnect fuel s x = some s' ∧ Post g s x s' path := by
  induction fuel generalizing s path x with
  | zero =>
    have hmem : x ∈ (Finset.range g.count).filter fun v => s.idx v = 0 :=
      Finset.mem_filter.2 ⟨Finset.mem_range.2 hlt, hx⟩
    exact absurd (Finset.card_pos.2 ⟨x, hmem⟩) (not_lt.2 hfuel)
  | succ fuel ih =>
    obtain ⟨t, ht, hfull⟩ := Mid.loop hs hx hlt hfuel ih (List.nil_append _)
      (Mid.start hs hx hlt hreach)
    refine ⟨t.close x s.stack.length, ?_, Post.of_full hfull hs⟩
    rw [CallGraph.strongConnect, ht]
    rfl

/-- Before the first call. -/
theorem Inv.empty (g : CallGraph) : Inv g {} ∅ where
  idx_le _ := le_rfl
  idx_inj _ _ _ h := absurd rfl h
  sorted := List.Pairwise.nil
  mem_stack _ := by simp
  visited _ h := absurd h List.not_mem_nil
  lt_count _ h := absurd rfl h
  path_subset _ h := absurd h (Set.notMem_empty _)
  black _ h := absurd rfl h
  closed _ h := absurd rfl h.1
  down _ h := absurd h (Set.notMem_empty _)
  up _ h := absurd h List.not_mem_nil
  member _ _ := by simp [Closed]
  component _ h := absurd h List.not_mem_nil

/-- The loop over the procedures. -/
theorem findSccs_loop {vs : List ℕ} (hvs : ∀ v ∈ vs, v < g.count) (hs : Inv g s ∅) :
    ∃ s', vs.foldlM (fun s i =>
        if (s.sccAsoc i).index = 0 then g.strongConnect g.count s i else some s) s = some s' ∧
      Inv g s' ∅ ∧ (∀ v, s.idx v ≠ 0 → s'.idx v ≠ 0) ∧ ∀ v ∈ vs, s'.idx v ≠ 0 := by
  induction vs generalizing s with
  | nil => exact ⟨s, rfl, hs, fun _ hv => hv, fun v hv => absurd hv List.not_mem_nil⟩
  | cons v vs ih =>
    have hrest : ∀ v ∈ vs, v < g.count := fun u hu => hvs u (List.mem_cons_of_mem v hu)
    rw [List.foldlM_cons]
    by_cases hzero : s.idx v = 0
    · have hfuel : unvisited g s ≤ g.count := by
        have hle := Finset.card_filter_le (Finset.range g.count) fun v => s.idx v = 0
        rwa [Finset.card_range] at hle
      obtain ⟨s₁, hs₁, hpost⟩ := strongConnect_spec hs hzero (hvs v List.mem_cons_self)
        (fun p hp => absurd hp (Set.notMem_empty p)) hfuel
      have hkeep : ∀ u, s.idx u ≠ 0 → s₁.idx u ≠ 0 := fun u hu => (hpost.frame u hu).1 ▸ hu
      obtain ⟨s', hs', hinv, hframe, hvisited⟩ := ih hrest hpost.inv
      rw [if_pos hzero, hs₁]
      refine ⟨s', hs', hinv, fun u hu => hframe u (hkeep u hu), fun u hu => ?_⟩
      obtain rfl | hu := List.mem_cons.1 hu
      · exact hframe u hpost.visited
      · exact hvisited u hu
    · obtain ⟨s', hs', hinv, hframe, hvisited⟩ := ih hrest hs
      rw [if_neg hzero]
      refine ⟨s', hs', hinv, hframe, fun u hu => ?_⟩
      obtain rfl | hu := List.mem_cons.1 hu
      · exact hframe u hzero
      · exact hvisited u hu

/-- What `strong_connect` leaves: the sets are the components, and call only themselves and those
before them. -/
structure Partition (g : CallGraph) (s : SCtx) : Prop where
  component : ∀ C ∈ s.sccs, IsComponent g.Calls C ∧ C.Nodup
  member : ∀ v i, (v < g.count ∧ s.sccId v = i) ↔ ∃ C, s.sccs[i]? = some C ∧ v ∈ C
  le : ∀ u v, u < g.count → g.Calls u v → s.sccId v ≤ s.sccId u

theorem findSccs_spec (g : CallGraph) : ∃ s, g.findSccs = some s ∧ Partition g s := by
  obtain ⟨s, hs, hinv, -, hvisited⟩ := findSccs_loop (fun v hv => List.mem_range.1 hv) (Inv.empty g)
  have hstack (v : ℕ) : v ∉ s.stack := fun hv =>
    let ⟨p, hp, _⟩ := hinv.up v hv
    Set.notMem_empty p hp
  have hclosed (v : ℕ) : s.Closed v ↔ v < g.count :=
    ⟨fun h => hinv.lt_count v h.1, fun h => ⟨hvisited v (List.mem_range.2 h), hstack v⟩⟩
  refine ⟨s, hs, hinv.component, fun v i => ?_, fun u v hu huv => ?_⟩
  · rw [← hclosed]
    exact hinv.member v i
  · exact (hinv.closed u ((hclosed u).2 hu) v huv).2

end Connect

end SCtx

end OdinSon.Odinc
