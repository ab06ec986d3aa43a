import OdinSon.Bac.Idom

/-!
# What a read of a depth gives

The depth that `get_idepth` gives for a node is a function of the state (`CfgProc.depth`), which a read
does not change, since it caches just that (`Reads`).  In a state where the cached depths agree with
the inputs of their nodes (`CfgProc.Inv`), depths get smaller along immediate dominators
(`depth_lt`).

A `Jump` that the scheduler has put before a `Region` can be as deep as the `Region` itself
(`CfgProc.Spare`).  It does not dominate it, since there is another input.
-/

namespace OdinSon

open Lib

/-- The kinds with one input of control flow. -/
@[grind =] def NodeType.hasCtrl : NodeType → Bool
  | .return_ | .if_ | .else_ | .then_ | .jump | .loop | .callEnd | .call | .trap | .always => true
  | _ => false

namespace Cfg

variable {c : Cfg} {p id : NodeId}

theorem Forward.edge (h : c.Forward p id) : c.Edge p id := by
  refine ⟨?_, h.2⟩
  have hmem := h.1
  unfold forwards at hmem
  split at hmem
  · rw [ctrls, ‹c.itype id = _›]
    exact List.mem_of_mem_take hmem
  · exact hmem

theorem Edge.live (h : c.Edge p id) (hp : c.Live p) : c.Live id := hp.tail h

theorem Edge.itype (h : c.Edge p id) : c.itype id = .region ∨ (c.itype id).hasCtrl = true := by
  have hmem := h.1
  unfold ctrls at hmem
  split at hmem
  · exact .inl ‹_›
  · rw [‹c.itype id = _›]
    exact .inr rfl
  all_goals first
    | (rw [‹c.itype id = _›]; exact .inr rfl)
    | cases hmem

theorem forward_region (h : c.itype id = .region) : c.Forward p id ↔ p ∈ c.inps id ∧ p ≠ 0 := by
  simp only [Forward, forwards, ctrls, h]

theorem Edge.mem (h : c.Edge p id) : p ∈ c.inps id := by
  have hmem := h.1
  unfold ctrls at hmem
  split at hmem
  · exact hmem
  · exact hmem
  all_goals first
    | exact List.mem_of_mem_take hmem
    | cases hmem

theorem edge_of_hasCtrl (h : (c.itype id).hasCtrl = true) (hl : c.itype id ≠ .loop) :
    c.Edge p id ↔ (c.inps id)[0]? = some p ∧ p ≠ 0 := by
  have hmem : c.ctrls id = (c.inps id).take 1 := by
    unfold ctrls
    unfold NodeType.hasCtrl at h
    split <;> simp_all
  rw [Edge, hmem]
  cases c.inps id <;> simp [eq_comm]

theorem forward_of_hasCtrl (h : (c.itype id).hasCtrl = true) :
    c.Forward p id ↔ (c.inps id)[0]? = some p ∧ p ≠ 0 := by
  by_cases hl : c.itype id = .loop
  · have hmem : c.forwards id = (c.inps id).take 1 := by
      rw [forwards, hl]
    rw [Forward, hmem]
    cases c.inps id <;> simp [eq_comm]
  · have hmem : c.forwards id = c.ctrls id := by
      unfold forwards
      split
      · exact absurd ‹_› hl
      · rfl
    rw [Forward, hmem]
    exact edge_of_hasCtrl h hl

section WF

variable (hc : c.WF)
include hc

theorem entry_ne_zero : c.entry ≠ 0 := by
  intro h
  have := hc.entry
  rw [h, hc.nil] at this
  cases this

theorem live_ne_zero (h : c.Live id) : id ≠ 0 := by
  rcases h.cases_tail with rfl | ⟨p, -, he⟩
  · exact entry_ne_zero hc
  · rintro rfl
    have := he.itype
    rw [hc.nil] at this
    cases this <;> contradiction

theorem live_itype (h : c.Live id) (hne : id ≠ c.entry) :
    c.itype id = .region ∨ (c.itype id).hasCtrl = true := by
  obtain ⟨p, hp⟩ := hc.forward id h hne
  exact hp.edge.itype

theorem live_lt (h : c.Live id) : id < c.pos := by
  by_contra hge
  obtain ⟨ht, hi⟩ := hc.free id (not_lt.1 hge)
  rcases h.cases_tail with rfl | ⟨p, -, he⟩
  · exact hge hc.entry_lt
  · have := he.itype
    rw [ht] at this
    cases this <;> contradiction

/-- **The dominators of a live node**, by its forward inputs. -/
theorem dom_iff {d : NodeId} (h : c.Live id) (hne : id ≠ c.entry) :
    c.Dom d id ↔ d = id ∨ ∀ p, c.Forward p id → c.Dom d p := by
  have hback := @dominates_iff_of_back _ c.Edge c.entry d id (fun p => ¬ c.Forward p id) hne
  refine (hback fun p he hb => ?_).trans ?_
  · -- what is not a forward input is the back edge
    have hl : c.itype id = .loop := by
      by_contra hl
      refine hb ⟨?_, he.2⟩
      unfold forwards
      split
      · exact absurd ‹_› hl
      · exact he.1
    have hmem : p ∈ c.inps id := by
      have hmem := he.1
      rw [ctrls, hl] at hmem
      exact hmem
    obtain ⟨i, hi⟩ := List.mem_iff_getElem?.1 hmem
    have hlt := (List.getElem?_eq_some_iff.1 hi).1
    have htwo := hc.two id hl
    have hi1 : i = 1 := by
      by_contra hi1
      have hi0 : i = 0 := by omega
      subst hi0
      exact hb ((forward_of_hasCtrl (by rw [hl]; rfl)).2 ⟨hi, he.2⟩)
    subst hi1
    exact hc.back id p h hl hi he.2
  · refine or_congr_right ⟨fun hall p hp => hall p hp.edge (not_not.2 hp), fun hall p _ hb => ?_⟩
    exact hall p (not_not.1 hb)

variable {rank : NodeId → ℕ} (hr : c.Ranked rank)
include hr

/-- A strict dominator has a forward edge to a node that is not above. -/
theorem exists_forward {d : NodeId} (h : c.Live id) (hd : c.Dom d id) (hne : d ≠ id) :
    ∃ y, c.Forward d y ∧ c.Live y ∧ rank y ≤ rank id := by
  induction hn : rank id using Nat.strong_induction_on generalizing id with
  | _ n ih =>
    subst hn
    have hid : id ≠ c.entry := by
      rintro rfl
      exact hne (eq_of_dominates_entry hd)
    obtain ⟨p, hp⟩ := hc.forward id h hid
    have hpl := hc.inps_live p id h hp.edge
    have hlt := hr.lt p id h hp
    have hdp := (((dom_iff hc h hid).1 hd).resolve_left hne) p hp
    by_cases hdp' : d = p
    · subst hdp'
      exact ⟨id, hp, h, le_rfl⟩
    · obtain ⟨y, hy, hyl, hle⟩ := ih _ hlt hpl hdp hdp' rfl
      exact ⟨y, hy, hyl, hle.trans hlt.le⟩

theorem rank_lt_of_dom {d : NodeId} (h : c.Live id) (hd : c.Dom d id) (hne : d ≠ id) :
    rank d < rank id := by
  obtain ⟨y, hy, hyl, hle⟩ := exists_forward hc hr h hd hne
  exact (hr.lt d y hyl hy).trans_le hle

theorem live_of_dom {d : NodeId} (h : c.Live id) (hd : c.Dom d id) : c.Live d := by
  by_cases hne : d = id
  · exact hne ▸ h
  · obtain ⟨y, hy, hyl, -⟩ := exists_forward hc hr h hd hne
    exact hc.inps_live d y hyl hy.edge

end WF

end Cfg

namespace CfgProc

/-- The largest of some numbers. -/
@[grind =] def maxOf (ds : List ℕ) : ℕ := ds.foldl max 0

/-- The depth of a node, along inputs `n` deep. -/
@[grind =] def depthAt (s : CfgProc) : ℕ → NodeId → ℕ
  | 0, _ => 0
  | n + 1, id =>
    if s.minIdepth < s.idepth id then s.idepth id
    else if s.cfg.itype id = .region then 1 + maxOf ((s.cfg.inps id).map (depthAt s n))
    else if (s.cfg.itype id).hasCtrl then 1 + depthAt s n ((s.cfg.inps id).getD 0 0)
    else s.minIdepth + 1

/-- **The depth of a node**, cached or not. -/
def depth (s : CfgProc) (id : NodeId) : ℕ := s.depthAt (s.cfg.gvn + 2) id

/-- A `Jump` before a `Region` with another input; the `Region` is deeper than what is before the
`Jump`. -/
structure Spare (s : CfgProc) (p id : NodeId) : Prop where
  region : s.cfg.itype id = .region
  jump : s.cfg.itype p = .jump
  before : ∀ q, s.cfg.Forward q p → s.Cached q ∧ s.idepth q < s.idepth id
  le : s.Cached p → s.idepth p ≤ s.idepth id
  user : ∀ y, p ∈ s.cfg.inps y → y = id
  other : ∃ p', s.cfg.Forward p' id ∧ p' ≠ p

/-- A cached depth agrees with the input `p`. -/
def Settled (s : CfgProc) (p id : NodeId) : Prop :=
  s.Cached p ∧ s.idepth p < s.idepth id ∨ s.Spare p id

/-- What holds of a state between two edits. -/
structure Inv (s : CfgProc) : Prop where
  wf : s.cfg.WF
  zero : ¬ s.Cached 0
  entry : s.Cached s.cfg.entry → s.idepth s.cfg.entry = s.minIdepth + 1
  le : ∀ id, s.idepth id ≤ s.maxIdepth
  min_le : s.minIdepth ≤ s.maxIdepth
  settled : ∀ p id, s.cfg.Live id → s.Cached id → s.cfg.Forward p id → s.Settled p id

/-- What a read changes: some depths get cached, each after those of the inputs. -/
structure Reads (s s' : CfgProc) : Prop where
  cfg : s'.cfg = s.cfg
  min : s'.minIdepth = s.minIdepth
  max : s.maxIdepth ≤ s'.maxIdepth
  le : ∀ id, s'.idepth id ≤ s'.maxIdepth
  idepth : ∀ id, s'.idepth id = s.idepth id ∨
    ¬ s.Cached id ∧ s.cfg.Live id ∧ s'.idepth id = s.depth id ∧
      ∀ p, s.cfg.Forward p id → s'.Cached p

theorem foldl_max_le_iff {ds : List ℕ} {m n : ℕ} :
    ds.foldl max m ≤ n ↔ m ≤ n ∧ ∀ d ∈ ds, d ≤ n := by
  induction ds generalizing m with
  | nil => simp
  | cons d ds ih =>
    rw [List.foldl_cons, ih, max_le_iff, List.forall_mem_cons, and_assoc]

theorem maxOf_le_iff {ds : List ℕ} {n : ℕ} : maxOf ds ≤ n ↔ ∀ d ∈ ds, d ≤ n := by
  rw [maxOf, foldl_max_le_iff, and_iff_right (Nat.zero_le n)]

theorem le_maxOf {ds : List ℕ} {d : ℕ} (h : d ∈ ds) : d ≤ maxOf ds := maxOf_le_iff.1 le_rfl d h

section Depth

variable {s : CfgProc} {p id : NodeId} (hI : s.Inv) {rank : NodeId → ℕ} (hr : s.cfg.Ranked rank)
include hI

theorem depthAt_zero {n : ℕ} : s.depthAt (n + 1) 0 = s.minIdepth + 1 := by
  have hne : ¬ s.minIdepth < s.idepth 0 := hI.zero
  rw [depthAt, if_neg hne, hI.wf.nil]
  rfl

theorem depth_zero : s.depth 0 = s.minIdepth + 1 := depthAt_zero hI

/-- The inputs of a `Region` are live or dead. -/
theorem live_or_zero (h : s.cfg.Live id) (ht : s.cfg.itype id = .region)
    (hp : p ∈ s.cfg.inps id) : p = 0 ∨ s.cfg.Forward p id ∧ s.cfg.Live p := by
  by_cases h0 : p = 0
  · exact .inl h0
  · have hf := (Cfg.forward_region ht).2 ⟨hp, h0⟩
    exact .inr ⟨hf, hI.wf.inps_live p id h hf.edge⟩

/-- A node with one input of control flow has it. -/
theorem exists_ctrl (h : s.cfg.Live id) (ht : (s.cfg.itype id).hasCtrl = true) :
    ∃ p, (s.cfg.inps id)[0]? = some p ∧ s.cfg.Forward p id ∧ s.cfg.Live p := by
  have hne : id ≠ s.cfg.entry := by
    rintro rfl
    rw [hI.wf.entry] at ht
    cases ht
  obtain ⟨p, hp⟩ := hI.wf.forward id h hne
  exact ⟨p, ((Cfg.forward_of_hasCtrl ht).1 hp).1, hp, hI.wf.inps_live p id h hp.edge⟩

include hr

theorem depthAt_eq {n m : ℕ} (h : s.cfg.Live id) (hn : rank id < n) (hm : rank id < m) :
    s.depthAt n id = s.depthAt m id := by
  induction n generalizing id m with
  | zero => exact absurd hn (Nat.not_lt_zero _)
  | succ n ih =>
    obtain ⟨m, rfl⟩ := Nat.exists_eq_succ_of_ne_zero (Nat.ne_zero_of_lt hm)
    rw [depthAt, depthAt]
    split_ifs with hcached hregion hctrl
    · rfl
    · congr 2
      refine List.map_congr_left fun p hp => ?_
      obtain rfl | ⟨hf, hl⟩ := live_or_zero hI h hregion hp
      · -- there is also a live input, so that the rank is not zero
        obtain ⟨q, hq⟩ := hI.wf.forward id h (by
          rintro rfl
          rw [hI.wf.entry] at hregion
          cases hregion)
        have hlt := hr.lt q id h hq
        obtain ⟨n, rfl⟩ := Nat.exists_eq_succ_of_ne_zero (show n ≠ 0 by omega)
        obtain ⟨m, rfl⟩ := Nat.exists_eq_succ_of_ne_zero (show m ≠ 0 by omega)
        rw [Nat.succ_eq_add_one, Nat.succ_eq_add_one, depthAt_zero hI, depthAt_zero hI]
      · have hlt := hr.lt p id h hf
        exact ih hl (by omega) (by omega)
    · obtain ⟨p, hp, hf, hl⟩ := exists_ctrl hI h hctrl
      have hlt := hr.lt p id h hf
      have heq : s.depthAt n p = s.depthAt m p := ih hl (by omega) (by omega)
      rw [List.getD_eq_getElem?_getD, hp, Option.getD_some, heq]
    · rfl

/-- **The equation of the depth.** -/
theorem depth_eq (h : s.cfg.Live id) :
    s.depth id =
      if s.minIdepth < s.idepth id then s.idepth id
      else if s.cfg.itype id = .region then 1 + maxOf ((s.cfg.inps id).map s.depth)
      else if (s.cfg.itype id).hasCtrl then 1 + s.depth ((s.cfg.inps id).getD 0 0)
      else s.minIdepth + 1 := by
  have hle := hr.le id
  have hstep : s.depth id = s.depthAt (s.cfg.gvn + 3) id := depthAt_eq hI hr h (by omega) (by omega)
  rw [hstep, depthAt]
  rfl

theorem depth_of_cached (h : s.cfg.Live id) (hc : s.Cached id) : s.depth id = s.idepth id := by
  rw [depth_eq hI hr h]
  exact if_pos hc

theorem depth_region (h : s.cfg.Live id) (hc : ¬ s.Cached id) (ht : s.cfg.itype id = .region) :
    s.depth id = 1 + maxOf ((s.cfg.inps id).map s.depth) := by
  rw [depth_eq hI hr h, if_pos ht]
  exact if_neg hc

theorem depth_ctrl (h : s.cfg.Live id) (hc : ¬ s.Cached id)
    (ht : (s.cfg.itype id).hasCtrl = true) (hp : (s.cfg.inps id)[0]? = some p) :
    s.depth id = 1 + s.depth p := by
  have hne : ¬ s.cfg.itype id = .region := by
    intro hreg
    rw [hreg] at ht
    cases ht
  rw [depth_eq hI hr h, if_neg hne, if_pos ht, List.getD_eq_getElem?_getD, hp, Option.getD_some]
  exact if_neg hc

theorem depth_entry : s.depth s.cfg.entry = s.minIdepth + 1 := by
  have hl : s.cfg.Live s.cfg.entry := .refl
  by_cases hc : s.Cached s.cfg.entry
  · rw [depth_of_cached hI hr hl hc, hI.entry hc]
  · have hc' : ¬ s.minIdepth < s.idepth s.cfg.entry := hc
    rw [depth_eq hI hr hl, if_neg hc', hI.wf.entry]
    rfl

/-- An uncached depth is above those of the inputs. -/
theorem depth_lt_of_not_cached (h : s.cfg.Live id) (hc : ¬ s.Cached id) (hp : s.cfg.Forward p id) :
    s.depth p < s.depth id := by
  obtain ht | ht := hp.edge.itype
  · rw [depth_region hI hr h hc ht, Nat.one_add]
    exact Nat.lt_succ_of_le (le_maxOf (List.mem_map_of_mem ((Cfg.forward_region ht).1 hp).1))
  · rw [depth_ctrl hI hr h hc ht ((Cfg.forward_of_hasCtrl ht).1 hp).1]
    exact Nat.lt_one_add_iff.2 le_rfl

/-- Depths grow along forward edges, but for the `Jump`s that have been put before a `Region`. -/
theorem depth_lt_or_spare (h : s.cfg.Live id) (hp : s.cfg.Forward p id) :
    s.depth p < s.depth id ∨ s.Cached id ∧ s.Spare p id := by
  by_cases hc : s.Cached id
  · obtain ⟨hcp, hlt⟩ | hs := hI.settled p id h hc hp
    · left
      rw [depth_of_cached hI hr h hc,
        depth_of_cached hI hr (hI.wf.inps_live p id h hp.edge) hcp]
      exact hlt
    · exact .inr ⟨hc, hs⟩
  · exact .inl (depth_lt_of_not_cached hI hr h hc hp)

/-- **Depths get smaller along dominators.** -/
theorem depth_lt {d : NodeId} (h : s.cfg.Live id) (hd : s.cfg.Dom d id) (hne : d ≠ id) :
    s.depth d < s.depth id := by
  induction hn : rank id using Nat.strong_induction_on generalizing id with
  | _ n ih =>
    subst hn
    have hid : id ≠ s.cfg.entry := by
      rintro rfl
      exact hne (eq_of_dominates_entry hd)
    have hall := ((Cfg.dom_iff hI.wf h hid).1 hd).resolve_left hne
    obtain ⟨p, hp⟩ := hI.wf.forward id h hid
    have hpl := hI.wf.inps_live p id h hp.edge
    have hlt := hr.lt p id h hp
    obtain hdepth | ⟨hcached, hs⟩ := depth_lt_or_spare hI hr h hp
    · by_cases hdp : d = p
      · exact hdp ▸ hdepth
      · exact (ih _ hlt hpl (hall p hp) hdp rfl).trans hdepth
    · -- the `Jump` is not a dominator, since the only way from it is to the `Region`
      have hdp : d ≠ p := by
        rintro rfl
        obtain ⟨p', hp', hpp⟩ := hs.other
        have hpl' := hI.wf.inps_live p' id h hp'.edge
        obtain ⟨y, hy, -, hle⟩ := Cfg.exists_forward hI.wf hr hpl' (hall p' hp') hpp.symm
        have hyid : y = id := hs.user y (Cfg.Edge.mem hy.edge)
        have := hr.lt p' id h hp'
        rw [hyid] at hle
        omega
      have hpe : p ≠ s.cfg.entry := by
        rintro rfl
        have := hs.jump
        rw [hI.wf.entry] at this
        cases this
      obtain ⟨q, hq⟩ := hI.wf.forward p hpl hpe
      have hql := hI.wf.inps_live q p hpl hq.edge
      have hdq := ((Cfg.dom_iff hI.wf hpl hpe).1 (hall p hp)).resolve_left hdp q hq
      obtain ⟨hqc, hqlt⟩ := hs.before q hq
      have hqd : s.depth q < s.depth id := by
        rwa [depth_of_cached hI hr h hcached, depth_of_cached hI hr hql hqc]
      by_cases hdq' : d = q
      · exact hdq' ▸ hqd
      · exact (ih _ ((hr.lt q p hpl hq).trans hlt) hql hdq hdq' rfl).trans hqd

/-- Depths are bounded by the largest cached one and the size of the graph. -/
theorem depth_le (h : s.cfg.Live id) : s.depth id ≤ s.maxIdepth + 1 + rank id := by
  induction hn : rank id using Nat.strong_induction_on generalizing id with
  | _ n ih =>
    subst hn
    by_cases hc : s.Cached id
    · rw [depth_of_cached hI hr h hc]
      have := hI.le id
      omega
    have hmin := hI.min_le
    by_cases hid : id = s.cfg.entry
    · subst hid
      rw [depth_entry hI hr]
      omega
    obtain ht | ht := Cfg.live_itype hI.wf h hid
    · obtain ⟨q, hq⟩ := hI.wf.forward id h hid
      have hpos := hr.lt q id h hq
      suffices hmax : maxOf ((s.cfg.inps id).map s.depth) ≤ s.maxIdepth + rank id by
        rw [depth_region hI hr h hc ht]
        omega
      refine maxOf_le_iff.2 fun d hd => ?_
      obtain ⟨p, hp, rfl⟩ := List.mem_map.1 hd
      obtain rfl | ⟨hf, hl⟩ := live_or_zero hI h ht hp
      · rw [depth_zero hI]
        omega
      · have hlt := hr.lt p id h hf
        have := ih _ hlt hl rfl
        omega
    · obtain ⟨p, hp, hf, hl⟩ := exists_ctrl hI h ht
      have hlt := hr.lt p id h hf
      have := ih _ hlt hl rfl
      rw [depth_ctrl hI hr h hc ht hp]
      omega

end Depth

/-! ### Reads -/

section Reads

variable {s s' s'' : CfgProc} {p id : NodeId}

theorem Reads.cached (h : s.Reads s') (hc : s.Cached id) :
    s'.Cached id ∧ s'.idepth id = s.idepth id := by
  obtain he | ⟨hn, -⟩ := h.idepth id
  · refine ⟨?_, he⟩
    rw [Cached, h.min, he]
    exact hc
  · exact absurd hc hn

variable (hI : s.Inv) {rank : NodeId → ℕ} (hr : s.cfg.Ranked rank)
include hI

theorem Reads.refl : s.Reads s :=
  ⟨rfl, rfl, le_rfl, hI.le, fun _ => .inl rfl⟩

include hr

/-- What is cached after a read is the depth. -/
theorem Reads.idepth_of_cached (h : s.Reads s') (hl : s.cfg.Live id) (hc : s'.Cached id) :
    s'.idepth id = s.depth id := by
  obtain he | ⟨-, -, he, -⟩ := h.idepth id
  · have hc' : s.Cached id := by
      rw [Cached, h.min, he] at hc
      exact hc
    rw [he, depth_of_cached hI hr hl hc']
  · exact he

/-- **A read keeps the invariant.** -/
theorem Reads.inv (h : s.Reads s') : s'.Inv where
  wf := h.cfg ▸ hI.wf
  zero := by
    intro hc
    obtain he | ⟨-, hl, -⟩ := h.idepth 0
    · rw [Cached, h.min, he] at hc
      exact hI.zero hc
    · exact Cfg.live_ne_zero hI.wf hl rfl
  entry hc := by
    rw [h.cfg] at hc ⊢
    rw [h.idepth_of_cached hI hr .refl hc, depth_entry hI hr, h.min]
  le := h.le
  min_le := h.min ▸ hI.min_le.trans h.max
  settled p id hl hc hp := by
    rw [h.cfg] at hl hp
    have hpl := hI.wf.inps_live p id hl hp.edge
    have hid := h.idepth_of_cached hI hr hl hc
    by_cases hold : s.Cached id
    · have hid' := (h.cached hold).2
      obtain ⟨hcp, hlt⟩ | hs := hI.settled p id hl hold hp
      · exact .inl ⟨(h.cached hcp).1, by rwa [(h.cached hcp).2, hid']⟩
      · refine .inr ⟨h.cfg ▸ hs.region, h.cfg ▸ hs.jump, fun q hq => ?_, fun hcp => ?_,
          fun y hy => hs.user y (h.cfg ▸ hy), ?_⟩
        · obtain ⟨hqc, hqlt⟩ := hs.before q (h.cfg ▸ hq)
          exact ⟨(h.cached hqc).1, by rwa [(h.cached hqc).2, hid']⟩
        · -- the `Jump` is one deeper than what is before it
          by_cases hcp' : s.Cached p
          · rw [(h.cached hcp').2, hid']
            exact hs.le hcp'
          · have hj : (s.cfg.itype p).hasCtrl = true := by rw [hs.jump]; rfl
            obtain ⟨q, hq, hqf, hql⟩ := exists_ctrl hI hpl hj
            obtain ⟨hqc, hqlt⟩ := hs.before q hqf
            rw [h.idepth_of_cached hI hr hpl hcp, depth_ctrl hI hr hpl hcp' hj hq,
              depth_of_cached hI hr hql hqc, hid']
            omega
        · obtain ⟨p', hp', hne⟩ := hs.other
          exact ⟨p', h.cfg ▸ hp', hne⟩
    · -- it has just been cached, after its inputs
      obtain he | ⟨-, -, -, hinps⟩ := h.idepth id
      · rw [Cached, h.min, he] at hc
        exact absurd hc hold
      · have hcp := hinps p hp
        refine .inl ⟨hcp, ?_⟩
        rw [hid, h.idepth_of_cached hI hr hpl hcp]
        exact depth_lt_of_not_cached hI hr hl hold hp

/-- **A read keeps all depths.** -/
theorem Reads.depth (h : s.Reads s') (hl : s.cfg.Live id) : s'.depth id = s.depth id := by
  have hI' := h.inv hI hr
  have hr' : s'.cfg.Ranked rank := h.cfg ▸ hr
  induction hn : rank id using Nat.strong_induction_on generalizing id with
  | _ n ih =>
    subst hn
    have hl' : s'.cfg.Live id := h.cfg ▸ hl
    by_cases hc' : s'.Cached id
    · rw [depth_of_cached hI' hr' hl' hc', h.idepth_of_cached hI hr hl hc']
    have hc : ¬ s.Cached id := fun hc => hc' (h.cached hc).1
    by_cases hid : id = s.cfg.entry
    · subst hid
      have he : s'.cfg.entry = s.cfg.entry := by rw [h.cfg]
      rw [depth_entry hI hr, ← he, depth_entry hI' hr', h.min]
    obtain ht | ht := Cfg.live_itype hI.wf hl hid
    · have ht' : s'.cfg.itype id = .region := h.cfg ▸ ht
      rw [depth_region hI hr hl hc ht, depth_region hI' hr' hl' hc' ht', h.cfg]
      congr 2
      refine List.map_congr_left fun p hp => ?_
      obtain rfl | ⟨hf, hpl⟩ := live_or_zero hI hl ht hp
      · rw [depth_zero hI, depth_zero hI', h.min]
      · exact ih _ (hr.lt p id hl hf) hpl rfl
    · obtain ⟨p, hp, hf, hpl⟩ := exists_ctrl hI hl ht
      have ht' : (s'.cfg.itype id).hasCtrl = true := h.cfg ▸ ht
      have hp' : (s'.cfg.inps id)[0]? = some p := h.cfg ▸ hp
      rw [depth_ctrl hI hr hl hc ht hp, depth_ctrl hI' hr' hl' hc' ht' hp',
        ih _ (hr.lt p id hl hf) hpl rfl]

theorem Reads.trans (h : s.Reads s') (h' : s'.Reads s'') : s.Reads s'' where
  cfg := h'.cfg.trans h.cfg
  min := h'.min.trans h.min
  max := h.max.trans h'.max
  le := h'.le
  idepth id := by
    have hinps : (∀ p, s.cfg.Forward p id → s'.Cached p) →
        ∀ p, s.cfg.Forward p id → s''.Cached p := fun hall p hp => (h'.cached (hall p hp)).1
    obtain he' | ⟨hn', hl', he', hall'⟩ := h'.idepth id
    · obtain he | ⟨hn, hl, he, hall⟩ := h.idepth id
      · exact .inl (he'.trans he)
      · exact .inr ⟨hn, hl, he'.trans he, hinps hall⟩
    · have hl : s.cfg.Live id := h.cfg ▸ hl'
      refine .inr ⟨fun hc => hn' (h.cached hc).1, hl, he'.trans (h.depth hI hr hl), fun p hp => ?_⟩
      exact hall' p (h.cfg ▸ hp)

end Reads

end CfgProc

end OdinSon
