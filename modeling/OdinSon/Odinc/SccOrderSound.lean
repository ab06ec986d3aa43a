import OdinSon.Odinc.SccTarjan
import Mathlib.Algebra.BigOperators.Group.Finset.Basic
import Mathlib.Algebra.Order.BigOperators.Group.Finset

/-!
# Callees first

The second part of the ordering: a counter for each set of its calls to others, with multiplicity, that
the sets which are ready count down.  A set whose counter comes to zero has all its callees in the part
of the order that is done (`SCtx.Loop`), and since sets call only earlier ones, all of them come to it.

`sccOrder_right` puts this together with the components.
-/

namespace OdinSon.Odinc

open Lib

namespace CallGraph

variable {g : CallGraph} {s : SCtx}

/-! ### The tables -/

theorem mem_insertCaller {callers : ℕ → List ℕ} {i e v : ℕ} {egs : List ℕ} :
    v ∈ egs.foldl (fun callers e => Function.update callers e (callers e ++ [i])) callers e ↔
      v ∈ callers e ∨ v = i ∧ e ∈ egs := by
  induction egs generalizing callers with
  | nil => simp
  | cons e' egs ih =>
    rw [List.foldl_cons, ih, List.mem_cons]
    by_cases he : e = e'
    · subst he
      rw [Function.update_self, List.mem_append, List.mem_singleton]
      tauto
    · rw [Function.update_of_ne he]
      tauto

theorem mem_calleeToCaller {u v : ℕ} : u ∈ g.calleeToCaller v ↔ u < g.count ∧ g.Calls u v := by
  have hloop (is : List ℕ) (callers : ℕ → List ℕ) : u ∈ is.foldl (fun callers i =>
      (g.callees i).foldl (fun callers e => Function.update callers e (callers e ++ [i])) callers)
      callers v ↔ u ∈ callers v ∨ u ∈ is ∧ g.Calls u v := by
    induction is generalizing callers with
    | nil => simp
    | cons i is ih =>
      rw [List.foldl_cons, ih, mem_insertCaller, List.mem_cons]
      constructor
      · rintro ((h | ⟨rfl, h⟩) | h)
        · exact Or.inl h
        · exact Or.inr ⟨Or.inl rfl, h⟩
        · exact Or.inr ⟨Or.inr h.1, h.2⟩
      · rintro (h | ⟨rfl | h, hcalls⟩)
        · exact Or.inl (Or.inl h)
        · exact Or.inl (Or.inr ⟨rfl, hcalls⟩)
        · exact Or.inr ⟨h, hcalls⟩
  rw [calleeToCaller, hloop, List.mem_range]
  simp

/-- The calls from a set to another one, with multiplicity. -/
def calls (g : CallGraph) (s : SCtx) (a b : ℕ) : ℕ := (g.callerIds s b).count a

theorem calls_pos {a b : ℕ} : 0 < g.calls s a b ↔
    ∃ C, s.sccs[b]? = some C ∧ ∃ v ∈ C, ∃ u < g.count, g.Calls u v ∧ s.sccId u = a := by
  rw [calls, List.count_pos_iff, callerIds, List.mem_flatMap]
  constructor
  · rintro ⟨v, hv, ha⟩
    obtain ⟨u, hu, rfl⟩ := List.mem_map.1 ha
    obtain ⟨hlt, hcalls⟩ := mem_calleeToCaller.1 hu
    rw [List.getD_eq_getElem?_getD] at hv
    cases hC : s.sccs[b]? with
    | none =>
      rw [hC] at hv
      exact absurd hv List.not_mem_nil
    | some C =>
      rw [hC] at hv
      exact ⟨C, rfl, v, hv, u, hlt, hcalls, rfl⟩
  · rintro ⟨C, hC, v, hv, u, hlt, hcalls, rfl⟩
    refine ⟨v, ?_, List.mem_map.2 ⟨u, mem_calleeToCaller.2 ⟨hlt, hcalls⟩, rfl⟩⟩
    rw [List.getD_eq_getElem?_getD, hC]
    exact hv

/-- What a set still calls, when those in `P` are done. -/
def remaining (g : CallGraph) (s : SCtx) (P : List ℕ) (a : ℕ) : ℕ :=
  ∑ b ∈ (Finset.range s.sccs.length).filter fun b => b ∉ P ∧ b ≠ a, g.calls s a b

theorem remaining_eq_zero {P : List ℕ} {a : ℕ} : g.remaining s P a = 0 ↔
    ∀ b < s.sccs.length, b ≠ a → 0 < g.calls s a b → b ∈ P := by
  rw [remaining, Finset.sum_eq_zero_iff]
  constructor
  · intro h b hb hne hpos
    by_contra hP
    have hzero := h b (Finset.mem_filter.2 ⟨Finset.mem_range.2 hb, hP, hne⟩)
    omega
  · intro h b hb
    obtain ⟨hb, hP, hne⟩ := Finset.mem_filter.1 hb
    by_contra hne'
    exact hP (h b (Finset.mem_range.1 hb) hne (Nat.pos_of_ne_zero hne'))

/-- One more set is done. -/
theorem remaining_append {P : List ℕ} {a b : ℕ} (hb : b < s.sccs.length) (hP : b ∉ P) (hne : b ≠ a) :
    g.remaining s P a = g.calls s a b + g.remaining s (P ++ [b]) a := by
  have hmem : b ∈ (Finset.range s.sccs.length).filter fun b => b ∉ P ∧ b ≠ a :=
    Finset.mem_filter.2 ⟨Finset.mem_range.2 hb, hP, hne⟩
  rw [remaining, ← Finset.add_sum_erase _ _ hmem, remaining]
  congr 1
  refine Finset.sum_congr (Finset.ext fun c => ?_) fun _ _ => rfl
  simp only [Finset.mem_erase, Finset.mem_filter, List.mem_append, List.mem_singleton, not_or]
  tauto

theorem countRc_eq (a : ℕ) : g.countRc s a = g.remaining s [] a := by
  have hids (i : ℕ) (ids : List ℕ) (rc : ℕ → ℤ) :
      ids.foldl (fun rc id => Function.update rc id (rc id + if id ≠ i then 1 else 0)) rc a =
        rc a + if i ≠ a then (ids.count a : ℤ) else 0 := by
    induction ids generalizing rc with
    | nil => simp
    | cons id ids ih =>
      rw [List.foldl_cons, ih]
      by_cases hid : id = a
      · subst hid
        rw [Function.update_self, List.count_cons_self]
        split_ifs <;> omega
      · rw [Function.update_of_ne (Ne.symm hid), List.count_cons_of_ne hid]
  have hloop (k : ℕ) : (List.range k).foldl (fun (rc : ℕ → ℤ) i => (g.callerIds s i).foldl
      (fun rc id => Function.update rc id (rc id + if id ≠ i then 1 else 0)) rc) (fun _ => 0) a =
      ((∑ b ∈ (Finset.range k).filter fun b => b ≠ a, g.calls s a b : ℕ) : ℤ) := by
    induction k with
    | zero => rfl
    | succ k ih =>
      rw [List.range_succ, List.foldl_append, List.foldl_cons, List.foldl_nil, hids, ih,
        Finset.range_add_one, Finset.filter_insert]
      split_ifs with hne
      · rw [Finset.sum_insert (by simp), calls]
        push_cast
        omega
      · rw [add_zero]
  rw [countRc, hloop, remaining]
  simp only [List.not_mem_nil, not_false_eq_true, true_and]

/-! ### The loop over the order -/

/-- At the place `i`: what is before it is done, and the order has the sets of which all callees are
done, after them. -/
structure Ordering (g : CallGraph) (s : SCtx) (i : ℕ) (order : List ℕ) (rc : ℕ → ℤ) : Prop where
  le : i ≤ order.length
  nodup : order.Nodup
  mem : ∀ a, a ∈ order ↔ a < s.sccs.length ∧ g.remaining s (order.take i) a = 0
  before : ∀ pre a post, order = pre ++ a :: post →
    ∀ b < s.sccs.length, b ≠ a → 0 < g.calls s a b → b ∈ pre
  waiting : ∀ a, a ∉ order.take i → rc a = g.remaining s (order.take i) a
  done : ∀ a ∈ order.take i, rc a ≤ 0

theorem Ordering.start (g : CallGraph) (s : SCtx) :
    Ordering g s 0 ((List.range s.sccs.length).filter (g.countRc s · = 0)) (g.countRc s) where
  le := Nat.zero_le _
  nodup := List.nodup_range.filter _
  mem a := by
    rw [List.mem_filter, List.mem_range, decide_eq_true_eq, List.take_zero, countRc_eq]
    exact and_congr_right fun _ => Int.natCast_eq_zero
  before pre a post hsplit b hb hne hpos := by
    have ha : a ∈ (List.range s.sccs.length).filter (g.countRc s · = 0) :=
      hsplit ▸ List.mem_append_right _ List.mem_cons_self
    rw [List.mem_filter, decide_eq_true_eq, countRc_eq, Int.natCast_eq_zero] at ha
    exact absurd (remaining_eq_zero.1 ha.2 b hb hne hpos) List.not_mem_nil
  waiting a _ := by rw [List.take_zero, countRc_eq]
  done a ha := absurd ha List.not_mem_nil

variable {i : ℕ} {order : List ℕ} {rc : ℕ → ℤ}

/-- Calls come from sets. -/
theorem lt_of_calls_pos (hs : s.Partition g) {a b : ℕ} (h : 0 < g.calls s a b) : a < s.sccs.length := by
  obtain ⟨-, -, -, -, u, hlt, -, rfl⟩ := calls_pos.1 h
  obtain ⟨C, hC, -⟩ := (hs.member u _).1 ⟨hlt, rfl⟩
  exact (List.getElem?_eq_some_iff.1 hC).1

/-- The assertion of the loop holds, and the invariant after the round. -/
theorem Ordering.step (hs : s.Partition g) (h : Ordering g s i order rc) {si : ℕ}
    (hsi : order[i]? = some si) : rc si = 0 ∧
      Ordering g s (i + 1) (countdown (g.callerIds s si) rc order).2
        (countdown (g.callerIds s si) rc order).1 := by
  obtain ⟨hi, rfl⟩ := List.getElem?_eq_some_iff.1 hsi
  set si := order[i] with hsi'
  have htake : order.take (i + 1) = order.take i ++ [si] := List.take_succ_eq_append_getElem hi
  have hmem : si ∈ order := List.getElem_mem hi
  have hnot : si ∉ order.take i := by
    have hnodup := h.nodup.sublist (List.take_sublist (i + 1) order)
    rw [htake] at hnodup
    exact fun hin => List.disjoint_of_nodup_append hnodup hin (List.mem_singleton_self si)
  obtain ⟨hlt, hzero⟩ := (h.mem si).1 hmem
  have hrc : rc si = 0 := by rw [h.waiting si hnot, hzero, Nat.cast_zero]
  refine ⟨hrc, ?_⟩
  obtain ⟨zeros, hzeros, hznodup, hzmem⟩ :=
    @countdown_order ℕ _ (g.callerIds s si) order rc
  -- what joins the order is waiting for this set alone
  have hjoin (a : ℕ) : a ∈ zeros ↔ a < s.sccs.length ∧ g.remaining s (order.take i) a ≠ 0 ∧
      g.remaining s (order.take (i + 1)) a = 0 := by
    rw [hzmem, htake]
    by_cases ha : a ∈ order.take i
    · have hdone := h.done a ha
      have hzero := ((h.mem a).1 (List.mem_of_mem_take ha)).2
      simp only [hzero, ne_eq, not_true_eq_false, false_and, and_false, iff_false]
      omega
    · by_cases hasi : a = si
      · rw [hasi, hzero, hrc]
        simp
      · rw [h.waiting a ha, remaining_append hlt hnot (Ne.symm hasi)]
        have hcalls : (g.callerIds s si).count a = g.calls s a si := rfl
        rw [hcalls]
        constructor
        · rintro ⟨hpos, hle⟩
          have hcallspos : 0 < g.calls s a si := by omega
          exact ⟨lt_of_calls_pos hs hcallspos, by omega, by omega⟩
        · rintro ⟨-, hne, hrest⟩
          omega
  have htake' : (order ++ zeros).take (i + 1) = order.take (i + 1) :=
    List.take_append_of_le_length hi
  have hmono {a : ℕ} (ha : g.remaining s (order.take i) a = 0) :
      g.remaining s (order.take (i + 1)) a = 0 := by
    rw [remaining_eq_zero] at ha ⊢
    intro b hb hne hpos
    rw [htake]
    exact List.mem_append_left _ (ha b hb hne hpos)
  rw [hzeros]
  refine ⟨?_, ?_, fun a => ?_, fun pre a post hsplit b hb hne hpos => ?_, fun a ha => ?_,
    fun a ha => ?_⟩
  · rw [List.length_append]
    omega
  · refine h.nodup.append hznodup fun a ha hz => ?_
    exact ((hjoin a).1 hz).2.1 ((h.mem a).1 ha).2
  · rw [htake', List.mem_append, h.mem, hjoin]
    constructor
    · rintro (⟨ha, hz⟩ | ⟨ha, -, hz⟩)
      · exact ⟨ha, hmono hz⟩
      · exact ⟨ha, hz⟩
    · rintro ⟨ha, hz⟩
      by_cases hz' : g.remaining s (order.take i) a = 0
      · exact Or.inl ⟨ha, hz'⟩
      · exact Or.inr ⟨ha, hz', hz⟩
  · obtain ⟨mid, hpre, hmid⟩ | ⟨mid, hpre, hmid⟩ := List.append_eq_append_iff.1 hsplit
    · -- what joined comes after all that is done
      have ha : a ∈ zeros := hmid ▸ List.mem_append_right _ List.mem_cons_self
      have hdone := remaining_eq_zero.1 ((hjoin a).1 ha).2.2 b hb hne hpos
      exact hpre ▸ List.mem_append_left _ (List.mem_of_mem_take hdone)
    · cases mid with
      | nil =>
        rw [List.nil_append] at hmid
        have ha : a ∈ zeros := hmid ▸ List.mem_cons_self
        have hdone := remaining_eq_zero.1 ((hjoin a).1 ha).2.2 b hb hne hpos
        rw [List.append_nil] at hpre
        exact hpre ▸ List.mem_of_mem_take hdone
      | cons a' mid =>
        obtain ⟨rfl, -⟩ := List.cons.inj hmid
        exact h.before pre a mid hpre b hb hne hpos
  · rw [htake', htake, List.mem_append, List.mem_singleton, not_or] at ha
    rw [countdown_rc, h.waiting a ha.1, htake', htake, remaining_append hlt hnot (Ne.symm ha.2)]
    have hcalls : (g.callerIds s si).count a = g.calls s a si := rfl
    rw [hcalls]
    omega
  · rw [htake', htake, List.mem_append, List.mem_singleton] at ha
    rw [countdown_rc]
    obtain ha | rfl := ha
    · have hdone := h.done a ha
      omega
    · omega

theorem Ordering.length_le (h : Ordering g s i order rc) : order.length ≤ s.sccs.length := by
  have hle := (h.nodup.subperm fun a ha => List.mem_range.2 ((h.mem a).1 ha).1).length_le
  rwa [List.length_range] at hle

/-- The whole loop: its assertion never fails, and it ends with all in order. -/
theorem orderLoop_spec (hs : s.Partition g) {fuel : ℕ} (h : Ordering g s i order rc)
    (hfuel : s.sccs.length < i + fuel) :
    ∃ order' rc', g.orderLoop s fuel i order rc = some order' ∧
      Ordering g s order'.length order' rc' := by
  induction fuel generalizing i order rc with
  | zero =>
    have hle := h.le
    have hlength := h.length_le
    omega
  | succ fuel ih =>
    rw [orderLoop]
    cases hsi : order[i]? with
    | none =>
      obtain rfl : i = order.length := le_antisymm h.le (List.getElem?_eq_none_iff.1 hsi)
      exact ⟨order, rc, rfl, h⟩
    | some si =>
      obtain ⟨hzero, hnext⟩ := h.step hs hsi
      dsimp only
      rw [if_pos hzero]
      exact ih hnext (by omega)

/-- Every set comes to the order, since it calls only earlier ones. -/
theorem Ordering.complete (hs : s.Partition g) (h : Ordering g s order.length order rc) {a : ℕ}
    (ha : a < s.sccs.length) : a ∈ order := by
  induction a using Nat.strong_induction_on with
  | _ a ih =>
    refine (h.mem a).2 ⟨ha, remaining_eq_zero.2 fun b hb hne hpos => ?_⟩
    obtain ⟨C, hC, v, hv, u, hu, hcalls, rfl⟩ := calls_pos.1 hpos
    obtain ⟨hvlt, rfl⟩ := (hs.member v b).2 ⟨C, hC, hv⟩
    rw [List.take_length]
    exact ih _ (lt_of_le_of_ne (hs.le u v hu hcalls) hne) hb

/-- **The order of the call graph**: the sets are the strongly connected components, every procedure is
in one, and the order has each set once, after all that it calls. -/
theorem sccOrder_right (g : CallGraph) : ∃ (s : SCtx) (order : List ℕ),
    g.sccOrder = some (s, order) ∧
    (∀ C ∈ s.sccs, IsComponent g.Calls C ∧ C.Nodup ∧ ∀ v ∈ C, v < g.count) ∧
    (∀ v < g.count, ∃! i : ℕ, ∃ C, s.sccs[i]? = some C ∧ v ∈ C) ∧
    order.Perm (List.range s.sccs.length) ∧
    ∀ pre a post, order = pre ++ a :: post → ∀ b C D, s.sccs[a]? = some C → s.sccs[b]? = some D →
      b ≠ a → (∃ u ∈ C, ∃ v ∈ D, g.Calls u v) → b ∈ pre := by
  obtain ⟨s, hfind, hs⟩ := SCtx.findSccs_spec g
  obtain ⟨order, rc, horder, hdone⟩ := @orderLoop_spec g s 0 _ _ hs
    (s.sccs.length + 1) (Ordering.start g s) (by omega)
  refine ⟨s, order, ?_, fun C hC => ?_, fun v hv => ?_, ?_, ?_⟩
  · rw [sccOrder, hfind]
    dsimp only [Option.bind_eq_bind, Option.bind_some]
    rw [horder]
    rfl
  · obtain ⟨i, hi⟩ := List.mem_iff_getElem?.1 hC
    exact ⟨(hs.component C hC).1, (hs.component C hC).2, fun v hv =>
      ((hs.member v i).2 ⟨C, hi, hv⟩).1⟩
  · have hunique (i : ℕ) (hi : ∃ C, s.sccs[i]? = some C ∧ v ∈ C) : i = s.sccId v :=
      ((hs.member v i).2 hi).2.symm
    exact ⟨s.sccId v, (hs.member v _).1 ⟨hv, rfl⟩, hunique⟩
  · refine (List.perm_ext_iff_of_nodup hdone.nodup List.nodup_range).2 fun a => ?_
    rw [List.mem_range]
    exact ⟨fun ha => ((hdone.mem a).1 ha).1, hdone.complete hs⟩
  · rintro pre a post hsplit b C D hC hD hne ⟨u, hu, v, hv, huv⟩
    refine hdone.before pre a post hsplit b (List.getElem?_eq_some_iff.1 hD).1 hne (calls_pos.2 ?_)
    obtain ⟨hult, rfl⟩ := (hs.member u a).2 ⟨C, hC, hu⟩
    exact ⟨D, hD, v, hv, u, hult, huv, rfl⟩

/-- Two procedures that call each other, one of them twice and itself, and a third that calls one. -/
example : (CallGraph.sccOrder ⟨[[1, 1, 0], [0], [1]], by decide⟩).map
    (fun r => (r.1.sccs, r.2)) = some ([[0, 1], [2]], [0, 1]) := by
  decide

end CallGraph

end OdinSon.Odinc
