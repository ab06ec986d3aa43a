import OdinSon.Ssa.SccpMono
import Mathlib.Algebra.Order.BigOperators.Group.List
import Mathlib.Data.List.Perm.Subperm
import Mathlib.Tactic.IntervalCases

/-!
# The solver

`computeLatices` ends on every well formed graph, its assertions hold all along, and it leaves
every node with the lattice that its inputs give (`computeLatices_fixpoint`).

The invariant `SccpState.Inv` of the loop says that a node that is not queued is up to date, and is
registered as a trigger wherever it reads a lattice without being an output; and that every lattice
lies below the one that recomputing it would give.  A round that changes a lattice makes it
strictly higher (`Lattice.rank`), and any other round takes a node off the queue.
-/

namespace OdinSon

open OdinSon.Lattice

/-! ### What a node reads -/

section Reads

variable {prc : Proc} {L : Lattices} {n m : NodeId} {v : Lattice}

theorem inp_ne {node : Node} (h : n ∉ node.inps) (h0 : n ≠ 0) (i : ℕ) : node.inp i ≠ n := by
  intro hc
  unfold Node.inp at hc
  rcases lt_or_ge i node.inps.length with hi | hi
  · rw [List.getD_eq_getElem _ _ hi] at hc
    exact h (hc ▸ List.getElem_mem hi)
  · rw [List.getD_eq_default _ _ hi] at hc
    exact h0 hc.symm

theorem update_inp {node : Node} (h : n ∉ node.inps) (h0 : n ≠ 0) (i : ℕ) :
    Function.update L n v (node.inp i) = L (node.inp i) :=
  Function.update_of_ne (inp_ne h h0 i) _ _

theorem phiMeet_congr {L' : Lattices} {edges : List (NodeId × NodeId)}
    (h : ∀ e ∈ edges, L' e.1 = L e.1 ∧ L' e.2 = L e.2) (acc : Lattice) :
    phiMeet L' edges acc = phiMeet L edges acc := by
  induction edges generalizing acc with
  | nil => rfl
  | cons e es ih =>
    obtain ⟨h1, h2⟩ := h e List.mem_cons_self
    rw [phiMeet_cons, phiMeet_cons, h1, h2]
    exact ih (fun e' he' => h e' (List.mem_cons_of_mem _ he')) _

theorem region_congr {L' : Lattices} {inps : List NodeId} (h : ∀ i ∈ inps, L' i = L i)
    (acc : Lattice) :
    inps.foldl (fun res inp => latticeMeet res (L' inp)) acc =
      inps.foldl (fun res inp => latticeMeet res (L inp)) acc := by
  induction inps generalizing acc with
  | nil => rfl
  | cons i is ih =>
    rw [List.foldl_cons, List.foldl_cons, h i List.mem_cons_self]
    exact ih (fun j hj => h j (List.mem_cons_of_mem _ hj)) _

/-- The base of a `Phi` is the same when neither its inputs nor its triggers change. -/
theorem phiBase_update (hin : n ∉ (prc.getNode m).inps)
    (htr : n ∉ (phiEdges prc (prc.getNode m)).map Prod.snd) :
    phiBase prc (Function.update L n v) (prc.getNode m) = phiBase prc L (prc.getNode m) := by
  rw [phiBase_eq, phiBase_eq, phiMeet_congr]
  intro e he
  have h1 : e.1 ≠ n := fun hc => hin (hc ▸ List.mem_of_mem_tail (mem_phiEdges he))
  have h2 : e.2 ≠ n := fun hc => htr (hc ▸ List.mem_map_of_mem he)
  exact ⟨Function.update_of_ne h1 _ _, Function.update_of_ne h2 _ _⟩

/-- The triggers of a node stay the same when none of them, and no input, changes. -/
theorem sccpTriggers_update (h0 : n ≠ 0) (hbot : (L n).type ≠ .bot)
    (hin : n ∉ (prc.getNode m).inps) (htr : n ∉ sccpTriggers prc L m) :
    sccpTriggers prc (Function.update L n v) m = sccpTriggers prc L m := by
  unfold sccpTriggers at htr ⊢
  dsimp only at htr ⊢
  cases ht : (prc.getNode m).itype
  case then_ | else_ =>
    simp only [ht] at htr ⊢
    rw [update_inp hin h0 0]
    by_cases hc : (prc.getNode ((prc.getNode m).inp 0)).inp 1 = n
    · rw [hc] at htr ⊢
      by_cases hr : (L ((prc.getNode m).inp 0)).dead = true ∨
          (L ((prc.getNode m).inp 0)).type ≠ .ctlr
      · simp only [← or_assoc, hr, true_or, ↓reduceIte]
      · rw [if_neg (by tauto)] at htr
        simp at htr
    · rw [Function.update_of_ne hc]
  all_goals rfl

/-- **Locality**: a lattice that is neither among the inputs of a node nor among its triggers does
not matter to the node. -/
theorem sccpCompute_update (h0 : n ≠ 0) (hself : m ≠ n ∨ (prc.getNode m).itype ≠ .phi)
    (hbot : (L n).type ≠ .bot) (hin : n ∉ (prc.getNode m).inps) (htr : n ∉ sccpTriggers prc L m) :
    sccpCompute prc (Function.update L n v) m = sccpCompute prc L m := by
  cases sccpRule prc m with
  | const c hc h => rw [h, h]
  | forward hf h => rw [h, h, update_inp hin h0]
  | branch hf ht h =>
    rw [h, h, update_inp hin h0]
    split_ifs with hd
    · rfl
    · simp only [sccpBranch]
      by_cases hty : (L ((prc.getNode m).inp 0)).type ≠ .ctlr
      · rw [if_pos hty, if_pos hty]
      · have hc : (prc.getNode ((prc.getNode m).inp 0)).inp 1 ≠ n := by
          intro hc
          apply htr
          unfold sccpTriggers
          rcases ht with ht | ht <;> simp only [ht, hc] <;> rw [if_neg (by tauto)] <;> simp
        rw [Function.update_of_ne hc]
  | bin op ht hv h =>
    rw [h, h]
    simp only [sccpBinOp, update_inp hin h0]
  | select ht h =>
    rw [h, h]
    simp only [sccpSelect, update_inp hin h0]
  | phi ht h =>
    rw [h, h, Function.update_of_ne (hself.resolve_right (not_not.2 ht))]
    unfold sccpPhi
    split_ifs with hz
    · rfl
    · rw [phiBase_update hin]
      simpa only [sccpTriggers, ht, hz, ↓reduceIte] using htr
  | region ht h =>
    rw [h, h]
    refine region_congr (fun i hi => Function.update_of_ne ?_ _ _) _
    rintro rfl
    exact hin hi

end Reads

/-! ### Going up -/

section Below

variable {prc : Proc} {L L' : Lattices}

/-- What the inputs of a `Phi` give. -/
def phiTarget (prc : Proc) (L : Lattices) (node : Node) : Lattice :=
  if node.inp 0 = 0 then {} else phiBase prc L node

/-- The lattice of a node lies below the one that recomputing it would give; that of a `Phi`
before widening. -/
def Below (prc : Proc) (L : Lattices) (id : NodeId) : Prop :=
  if (prc.getNode id).itype = .phi then
    PhiBelow (prc.getNode id).dt (L id) (phiTarget prc L (prc.getNode id))
  else LatLe (L id) (sccpCompute prc L id)

theorem sccpCompute_phi {id : NodeId} (h : (prc.getNode id).itype = .phi) :
    sccpCompute prc L id =
      phiWiden (prc.getNode id).dt (L id) (phiTarget prc L (prc.getNode id)) := by
  have e : sccpCompute prc L id = sccpPhi prc L (prc.getNode id) (L id) := by
    simp [sccpCompute, h, forwards, NodeType.isCfg]
  rw [e]
  unfold sccpPhi phiTarget
  split_ifs
  · rfl
  · rfl

section

variable (hT : prc.WellTyped) (hL : ∀ id, Fits (prc.getNode id) (L id))

include hT hL

theorem isBase_phiTarget {id : NodeId} (h : (prc.getNode id).itype = .phi) :
    IsBase (prc.getNode id) (phiTarget prc L (prc.getNode id)) := by
  unfold phiTarget
  split_ifs
  · exact isBase_top _
  · exact isBase_phiBase hT hL h

/-- Recomputing a lattice goes up. -/
theorem Below.le {id : NodeId} (h : Below prc L id) : LatLe (L id) (sccpCompute prc L id) := by
  unfold Below at h
  split_ifs at h with hphi
  · rw [sccpCompute_phi hphi]
    exact (phiWiden_spec (hL id) (isBase_phiTarget hT hL hphi) h).1
  · exact h

omit hT in
theorem phiTarget_mono (hL' : ∀ id, Fits (prc.getNode id) (L' id))
    (hle : ∀ id, LatLe (L id) (L' id)) (node : Node) :
    isa (phiTarget prc L node) (phiTarget prc L' node) = true := by
  unfold phiTarget
  split_ifs
  · rfl
  · exact phiBase_mono hL hL' (fun id => (hle id).1) node

/-- Going up elsewhere keeps a node below what recomputing it gives. -/
theorem Below.mono (hL' : ∀ id, Fits (prc.getNode id) (L' id))
    (hle : ∀ id, LatLe (L id) (L' id)) {id : NodeId} (h : Below prc L id)
    (hid : L' id = L id ∨ L' id = sccpCompute prc L id) : Below prc L' id := by
  unfold Below at h ⊢
  split_ifs at h ⊢ with hphi
  · have hb := isBase_phiTarget hT hL hphi
    have hb' := isBase_phiTarget hT hL' hphi
    refine PhiBelow.mono (hL' id).canon hb hb' (phiTarget_mono hL hL' hle _) ?_
    rcases hid with hid | hid
    · exact hid ▸ h
    · rw [hid, sccpCompute_phi hphi]
      exact (phiWiden_spec (hL id) hb h).2.1
  · have hm := sccpCompute_mono hL hL' hle hT hphi
    rcases hid with hid | hid
    · rw [hid]
      exact LatLe.trans (hL id).canon (fits_sccpCompute hT hL id).canon
        (fits_sccpCompute hT hL' id).canon h hm
    · rw [hid]
      exact hm

end

end Below

/-! ### The loop -/

theorem mem_addTrigger {T : NodeId → List NodeId} {t n x y : NodeId} :
    y ∈ addTrigger T t n x ↔ y ∈ T x ∨ y = n ∧ x = t ∧ x ≠ 0 := by
  unfold addTrigger
  split_ifs with h
  · constructor
    · exact .inl
    · rintro (h' | ⟨rfl, rfl, h0⟩)
      · exact h'
      · exact h.resolve_left h0
  · rw [not_or] at h
    by_cases hx : x = t
    · subst hx
      simp [h.1]
    · simp [hx]

/-- What is registered after a node has gone through its triggers. -/
theorem mem_addTriggers {T : NodeId → List NodeId} {ts : List NodeId} {n x y : NodeId} :
    y ∈ ts.foldl (fun t id => addTrigger t id n) T x ↔ y ∈ T x ∨ y = n ∧ x ∈ ts ∧ x ≠ 0 := by
  induction ts generalizing T with
  | nil => simp
  | cons t ts ih =>
    rw [List.foldl_cons, ih, mem_addTrigger, List.mem_cons]
    tauto

/-- The invariant of the loop of `compute_latices`. -/
structure SccpState.Inv (prc : Proc) (s : SccpState) : Prop where
  nodup : s.queue.Nodup
  queue_sub : ∀ n ∈ s.queue, n ∈ collectNodes prc
  trig_sub : ∀ t, ∀ n ∈ s.triggers t, n ∈ collectNodes prc
  fits : ∀ id, Fits (prc.getNode id) (s.lattices id)
  below : ∀ id, Below prc s.lattices id
  zero : s.lattices 0 = .ofCtrl true
  /-- A node that is not queued is up to date. -/
  done : ∀ n ∈ collectNodes prc, n ∉ s.queue → sccpCompute prc s.lattices n = s.lattices n
  /-- It is registered where it has to be. -/
  trig : ∀ n ∈ collectNodes prc, n ∉ s.queue → ∀ t ∈ sccpTriggers prc s.lattices n, t ≠ 0 →
    n ∈ s.triggers t

/-- How far the lattices of some nodes still may go up. -/
def headroom (nodes : List NodeId) (L : Lattices) : ℕ :=
  (nodes.map fun n => 2 ^ 67 - (L n).rank).sum

/-- What decreases at every round. -/
def SccpState.measure (prc : Proc) (s : SccpState) : ℕ :=
  headroom (collectNodes prc) s.lattices * ((collectNodes prc).length + 1) + s.queue.length

theorem headroom_lt {nodes : List NodeId} {L : Lattices} {n : NodeId} {v : Lattice} (hn : n ∈ nodes)
    (hlt : (L n).rank < v.rank) (hv : v.rank ≤ 2 ^ 67) :
    headroom nodes (Function.update L n v) < headroom nodes L := by
  refine List.sum_lt_sum _ _ (fun m _ => ?_) ⟨n, hn, ?_⟩
  · by_cases hm : m = n
    · rw [hm, Function.update_self]
      omega
    · rw [Function.update_of_ne hm]
  · rw [Function.update_self]
    omega

namespace SccpState.Inv

variable {prc : Proc} {s : SccpState} {n : NodeId} {queue : List NodeId}

theorem queue_length_le (h : s.Inv prc) : s.queue.length ≤ (collectNodes prc).length :=
  (List.subperm_of_subset h.nodup h.queue_sub).length_le

/-- A round that changes nothing takes the node off the queue. -/
theorem visit_same (h : s.Inv prc) (hq : s.queue = n :: queue)
    (hlat : sccpCompute prc s.lattices n = s.lattices n) :
    Inv prc { s with
      queue
      triggers := (sccpTriggers prc s.lattices n).foldl (fun t id => addTrigger t id n)
        s.triggers } := by
  have hn : n ∈ collectNodes prc := h.queue_sub n (hq ▸ List.mem_cons_self)
  refine ⟨?_, fun m hm => ?_, fun t m hm => ?_, h.fits, h.below, h.zero, fun m hm hmq => ?_,
    fun m hm hmq t ht ht0 => mem_addTriggers.2 ?_⟩
  · exact (List.nodup_cons.1 (hq ▸ h.nodup)).2
  · exact h.queue_sub m (hq ▸ List.mem_cons_of_mem n hm)
  · rcases mem_addTriggers.1 hm with hm | ⟨rfl, -⟩
    · exact h.trig_sub t m hm
    · exact hn
  · by_cases hmn : m = n
    · exact hmn ▸ hlat
    · exact h.done m hm (by rw [hq]; simp [hmn, hmq])
  · by_cases hmn : m = n
    · exact .inr ⟨hmn, hmn ▸ ht, ht0⟩
    · exact .inl (h.trig m hm (by rw [hq]; simp [hmn, hmq]) t ht ht0)

theorem mem_worklistAdd {prc : Proc} {q l : List NodeId} {y : NodeId} :
    y ∈ worklistAdd prc q l ↔ y ∈ q ∨ y ∈ l ∧ prc.live y = true := Worklist.mem_pushAll

section Changed

variable (hT : prc.WellTyped) (hK : prc.WellLinked) (h : s.Inv prc) (hq : s.queue = n :: queue)
  (hne : s.lattices n ≠ sccpCompute prc s.lattices n)

include h hne in
/-- The nil node never changes. -/
theorem ne_zero : n ≠ 0 := by
  rintro rfl
  refine hne (h.zero.trans ?_)
  simp [sccpCompute, forwards]

include hT h hne in
theorem rank_lt : (s.lattices n).rank < (sccpCompute prc s.lattices n).rank :=
  ((h.below n).le hT h.fits).rank_lt (h.fits n).canon (fits_sccpCompute hT h.fits n).canon hne

include hT h hne in
theorem ne_bot : (s.lattices n).type ≠ .bot := by
  intro hb
  have hlt := h.rank_lt hT hne
  rw [(h.fits n).canon.eq_bot hb] at hlt
  exact absurd (fits_sccpCompute hT h.fits n).canon.rank_le (not_le.2 hlt)

/-- The queue after a change at `n`. -/
def requeue (prc : Proc) (s : SccpState) (n : NodeId) (queue : List NodeId) : List NodeId :=
  worklistAdd prc (worklistAdd prc queue ((prc.getNode n).outs.map NodeOutput.id))
    ((sccpTriggers prc s.lattices n).foldl (fun t id => addTrigger t id n) s.triggers n)

include hK h hq hne in
/-- A node that is not queued after a change does not read what has changed. -/
theorem not_reads {m : NodeId} (hm : m ∈ collectNodes prc) (hmq : m ∉ requeue prc s n queue) :
    n ∉ (prc.getNode m).inps ∧ n ∉ sccpTriggers prc s.lattices m := by
  have h0 := h.ne_zero hne
  have hlive := live_of_mem_collectNodes hm
  simp only [requeue, mem_worklistAdd, hlive, and_true, not_or] at hmq
  obtain ⟨⟨hmq, hout⟩, htrig⟩ := hmq
  refine ⟨fun hc => hout (hK.mem_outs m hlive n hc h0), fun hc => htrig (mem_addTriggers.2 ?_)⟩
  by_cases hmn : m = n
  · exact .inr ⟨hmn, hmn ▸ hc, h0⟩
  · exact .inl (h.trig m hm (by rw [hq]; simp [hmn, hmq]) n hc h0)

include hT hK h hq hne in
/-- A round that changes a lattice queues every node that reads it. -/
theorem visit_changed :
    Inv prc {
      queue := requeue prc s n queue
      lattices := Function.update s.lattices n (sccpCompute prc s.lattices n)
      triggers := Function.update ((sccpTriggers prc s.lattices n).foldl
        (fun t id => addTrigger t id n) s.triggers) n [] } := by
  have hn : n ∈ collectNodes prc := h.queue_sub n (hq ▸ List.mem_cons_self)
  have h0 := h.ne_zero hne
  have hbot := h.ne_bot hT hne
  have htsub (t m : NodeId) (hm : m ∈ (sccpTriggers prc s.lattices n).foldl
      (fun t id => addTrigger t id n) s.triggers t) : m ∈ collectNodes prc := by
    rcases mem_addTriggers.1 hm with hm | ⟨rfl, -⟩
    · exact h.trig_sub t m hm
    · exact hn
  -- who is not queued now, was not queued before either
  have hnq {m : NodeId} (hmq : m ∉ requeue prc s n queue) (hmn : m ≠ n) : m ∉ s.queue := by
    simp only [requeue, mem_worklistAdd, not_or] at hmq
    rw [hq]
    simp [hmn, hmq.1.1]
  have hfits : ∀ id, Fits (prc.getNode id)
      (Function.update s.lattices n (sccpCompute prc s.lattices n) id) := by
    intro id
    by_cases hid : id = n
    · rw [hid, Function.update_self]
      exact fits_sccpCompute hT h.fits n
    · rw [Function.update_of_ne hid]
      exact h.fits id
  have hle : ∀ id, LatLe (s.lattices id)
      (Function.update s.lattices n (sccpCompute prc s.lattices n) id) := by
    intro id
    by_cases hid : id = n
    · rw [hid, Function.update_self]
      exact (h.below n).le hT h.fits
    · rw [Function.update_of_ne hid]
      exact .refl (h.fits id).canon
  constructor
  case nodup =>
    exact Worklist.nodup_pushAll (Worklist.nodup_pushAll (List.nodup_cons.1 (hq ▸ h.nodup)).2)
  case queue_sub =>
    intro m hm
    simp only [requeue, mem_worklistAdd] at hm
    rcases hm with (hm | ⟨hm, -⟩) | ⟨hm, -⟩
    · exact h.queue_sub m (hq ▸ List.mem_cons_of_mem n hm)
    · exact neighbours_mem_collectNodes hK hn (List.mem_append_right _ hm)
    · exact htsub n m hm
  case trig_sub =>
    intro t m hm
    dsimp only at hm
    by_cases ht : t = n
    · simp [ht] at hm
    · rw [Function.update_of_ne ht] at hm
      exact htsub t m hm
  case fits => exact hfits
  case below =>
    intro id
    refine (h.below id).mono hT h.fits hfits hle ?_
    by_cases hid : id = n
    · -- the node that was visited: its lattice is what was computed, so it is settled
      exact .inr (by rw [hid, Function.update_self])
    · exact .inl (Function.update_of_ne hid _ _)
  case zero =>
    rw [← h.zero]
    exact Function.update_of_ne h0.symm _ _
  case done =>
    intro m hm hmq
    -- who is not queued reads nothing that has changed
    obtain ⟨hin, htr⟩ := h.not_reads hK hq hne hm hmq
    dsimp only
    by_cases hmn : m = n
    · subst hmn
      rw [Function.update_self]
      by_cases hphi : (prc.getNode m).itype = .phi
      · -- a `Phi` reads its own lattice, but widening twice is widening once
        have hbase : phiTarget prc (Function.update s.lattices m (sccpCompute prc s.lattices m))
            (prc.getNode m) = phiTarget prc s.lattices (prc.getNode m) := by
          unfold phiTarget
          split_ifs with hz
          · rfl
          · refine phiBase_update hin ?_
            simpa only [sccpTriggers, hphi, hz, ↓reduceIte] using htr
        have hb := h.below m
        rw [Below, if_pos hphi] at hb
        rw [sccpCompute_phi hphi, hbase, Function.update_self, sccpCompute_phi hphi]
        exact (phiWiden_spec (h.fits m) (isBase_phiTarget hT h.fits hphi) hb).2.2
      · exact sccpCompute_update h0 (.inr hphi) hbot hin htr
    · rw [Function.update_of_ne hmn, sccpCompute_update h0 (.inl hmn) hbot hin htr]
      exact h.done m hm (hnq hmq hmn)
  case trig =>
    intro m hm hmq t ht ht0
    obtain ⟨hin, htr⟩ := h.not_reads hK hq hne hm hmq
    dsimp only at ht ⊢
    rw [sccpTriggers_update h0 hbot hin htr] at ht
    have htn : t ≠ n := fun hc => htr (hc ▸ ht)
    rw [Function.update_of_ne htn, mem_addTriggers]
    by_cases hmn : m = n
    · exact .inr ⟨hmn, hmn ▸ ht, ht0⟩
    · exact .inl (h.trig m hm (hnq hmq hmn) t ht ht0)

end Changed

/-- **One round** keeps the invariant, and its assertion holds. -/
theorem visit (hT : prc.WellTyped) (hK : prc.WellLinked) (h : s.Inv prc)
    (hq : s.queue = n :: queue) :
    ∃ s', sccpVisit prc s n queue = some s' ∧ s'.Inv prc ∧ s'.measure prc < s.measure prc := by
  have hle := (h.below n).le hT h.fits
  have hn : n ∈ collectNodes prc := h.queue_sub n (hq ▸ List.mem_cons_self)
  by_cases hne : s.lattices n = sccpCompute prc s.lattices n
  · refine ⟨_, ?_, h.visit_same hq hne.symm, ?_⟩
    · unfold sccpVisit
      rw [if_pos hle.1, if_neg (by tauto)]
    · simp only [measure, hq, List.length_cons]
      omega
  · have hinv := h.visit_changed hT hK hq hne
    refine ⟨_, ?_, hinv, ?_⟩
    · have htop : (sccpCompute prc s.lattices n).type ≠ .top := by
        intro hc
        have e := (fits_sccpCompute hT h.fits n).canon.eq_top hc
        rw [e] at hle hne
        exact hne (isa_top_right (h.fits n).canon hle.1)
      unfold sccpVisit
      rw [if_pos hle.1, if_pos ⟨htop, hne⟩]
      rfl
    · have hlt := headroom_lt hn (h.rank_lt hT hne) (fits_sccpCompute hT h.fits n).canon.rank_le
      have hlen := hinv.queue_length_le
      have := Nat.mul_le_mul_right ((collectNodes prc).length + 1) hlt
      simp only [measure, Nat.succ_mul] at *
      omega

theorem verify (h : s.Inv prc) (hq : s.queue = []) : sccpVerify prc s.lattices = true := by
  simp only [sccpVerify, List.all_eq_true, beq_iff_eq]
  exact fun n hn => (h.done n hn (by simp [hq])).symm

/-- **The loop ends** with every node up to date. -/
theorem loop (hT : prc.WellTyped) (hK : prc.WellLinked) (h : s.Inv prc) {fuel : ℕ}
    (hfuel : s.measure prc < fuel) :
    ∃ s' : SccpState, s'.Inv prc ∧ s'.queue = [] ∧ sccpLoop prc fuel s = .ok s'.lattices := by
  induction fuel generalizing s with
  | zero => cases hfuel
  | succ fuel ih =>
    unfold sccpLoop
    cases hq : s.queue with
    | nil => exact ⟨s, h, hq, by simp only [h.verify hq, ↓reduceIte]⟩
    | cons n queue =>
      have hlive := live_of_mem_collectNodes (h.queue_sub n (hq ▸ List.mem_cons_self))
      obtain ⟨s', hs', hinv, hlt⟩ := h.visit hT hK hq
      simp only [hlive, hs', Bool.true_eq_false, ↓reduceIte]
      exact ih hinv (by omega)

/-- No assertion fails, however many rounds the loop takes. -/
theorem loop_ne_assertFailed (hT : prc.WellTyped) (hK : prc.WellLinked) (h : s.Inv prc)
    (fuel : ℕ) : sccpLoop prc fuel s ≠ .assertFailed := by
  induction fuel generalizing s with
  | zero => simp [sccpLoop]
  | succ fuel ih =>
    unfold sccpLoop
    cases hq : s.queue with
    | nil => simp [h.verify hq]
    | cons n queue =>
      have hlive := live_of_mem_collectNodes (h.queue_sub n (hq ▸ List.mem_cons_self))
      obtain ⟨s', hs', hinv, -⟩ := h.visit hT hK hq
      simp only [hlive, hs', Bool.true_eq_false, ↓reduceIte]
      exact ih hinv

end SccpState.Inv

/-- A loop that has ended stays so with more rounds to go. -/
theorem sccpLoop_mono {prc : Proc} {s : SccpState} {L : Lattices} {fuel fuel' : ℕ}
    (h : sccpLoop prc fuel s = .ok L) (hle : fuel ≤ fuel') : sccpLoop prc fuel' s = .ok L := by
  induction fuel generalizing s fuel' with
  | zero => simp [sccpLoop] at h
  | succ fuel ih =>
    obtain ⟨k, rfl⟩ : ∃ k, fuel' = k + 1 := ⟨fuel' - 1, by omega⟩
    unfold sccpLoop at h ⊢
    cases hq : s.queue with
    | nil =>
      rw [hq] at h
      exact h
    | cons n queue =>
      simp only [hq] at h ⊢
      split_ifs at h ⊢ with hlive
      · exact ih h (by omega)
      · cases hv : sccpVisit prc s n queue with
        | none => simp [hv] at h
        | some s' =>
          simp only [hv] at h ⊢
          exact ih h (by omega)

theorem inv_sccpInit {prc : Proc} (hT : prc.WellTyped) : (sccpInit prc).Inv prc := by
  have hfits : ∀ id, Fits (prc.getNode id) ((sccpInit prc).lattices id) := by
    intro id
    by_cases hid : id = 0
    · subst hid
      exact ⟨.ctlr true, by simp [sccpInit, Lattice.ofCtrl], fun _ => .inr rfl⟩
    · simp only [sccpInit, if_neg hid]
      exact fits_top _
  have hall (n : NodeId) (hn : n ∈ collectNodes prc) : n ∈ (sccpInit prc).queue :=
    List.mem_reverse.2 hn
  constructor
  case nodup => exact List.nodup_reverse.2 nodup_collectNodes
  case queue_sub => exact fun n hn => List.mem_reverse.1 hn
  case trig_sub => exact fun t n hn => absurd hn List.not_mem_nil
  case fits => exact hfits
  case below =>
    intro id
    by_cases hid : id = 0
    · subst hid
      have e : sccpCompute prc (sccpInit prc).lattices 0 = .ofCtrl true := by
        simp [sccpCompute, forwards]
      rw [Below, if_neg (by simp), e]
      exact .refl (.ctlr true)
    · unfold Below
      have e : (sccpInit prc).lattices id = {} := if_neg hid
      rw [e]
      split_ifs
      · exact .inl (isa_top _)
      · exact .top (fits_sccpCompute hT hfits id).canon
  case zero => rfl
  case done => exact fun n hn hq => absurd (hall n hn) hq
  case trig => exact fun n hn hq => absurd (hall n hn) hq

/-- **`compute_latices` ends in a fixpoint, and no assertion of it fails**: after enough rounds it
is done, and then no lattice changes when it is computed again. -/
theorem computeLatices_fixpoint {prc : Proc} (hT : prc.WellTyped) (hK : prc.WellLinked) :
    (∀ fuel, computeLatices prc fuel ≠ .assertFailed) ∧
      ∃ fuel₀ L, (∀ fuel, fuel₀ ≤ fuel → computeLatices prc fuel = .ok L) ∧
        ∀ n ∈ collectNodes prc, sccpCompute prc L n = L n := by
  have hinv := inv_sccpInit hT
  obtain ⟨s, hs, hq, hL⟩ := hinv.loop hT hK (Nat.lt_succ_self _)
  refine ⟨hinv.loop_ne_assertFailed hT hK, _, s.lattices, fun fuel => sccpLoop_mono hL, ?_⟩
  exact fun n hn => hs.done n hn (by simp [hq])

/-- The graph of `for i := 0; ; i += 1{}`: the node `4` is the `Phi` of `i`. -/
def countUp : Proc where
  mem := fun id => [
    {},
    { itype := .entry, outs := [⟨3, 0⟩] },
    { itype := .cInt, dt := .i64, extra := [0, 0], outs := [⟨4, 1⟩] },
    { itype := .loop, inps := [1, 5], outs := [⟨4, 0⟩, ⟨5, 0⟩] },
    { itype := .phi, dt := .i64, inps := [3, 2, 6], outs := [⟨6, 0⟩] },
    { itype := .jump, inps := [3], outs := [⟨3, 1⟩] },
    { itype := .bin .add, dt := .i64, inps := [4, 7], outs := [⟨4, 2⟩] },
    { itype := .cInt, dt := .i64, extra := [1, 0], outs := [⟨6, 1⟩] },
    { itype := .end_ }].getD id { itype := .dead }
  pos := 9
  entry := 1
  end_ := 8

theorem countUp_dead {id : ℕ} (h : 9 ≤ id) : countUp.getNode id = { itype := .dead } :=
  Proc.getNode_of_length_le _ h (by decide) rfl rfl

theorem wellTyped_countUp : countUp.WellTyped where
  cfg_inp := by
    intro (id : ℕ) h
    rcases lt_or_ge id 9 with hid | hid
    · revert h
      interval_cases id <;> decide
    · simp [countUp_dead hid, forwards, NodeType.isCfg] at h
  region_inp := by
    intro (id : ℕ) h
    rcases lt_or_ge id 9 with hid | hid
    · revert h
      interval_cases id <;> decide
    · simp [countUp_dead hid] at h
  bin_left := by
    intro (id : ℕ) op h
    rcases lt_or_ge id 9 with hid | hid
    · interval_cases id <;> cases h
      decide
    · simp [countUp_dead hid] at h
  bin_right := by
    intro (id : ℕ) op h
    rcases lt_or_ge id 9 with hid | hid
    · interval_cases id <;> cases h
      decide
    · simp [countUp_dead hid] at h
  bin_dt := by
    intro (id : ℕ) op h
    rcases lt_or_ge id 9 with hid | hid
    · interval_cases id <;> cases h
      decide
    · simp [countUp_dead hid] at h
  select_inp := by
    intro (id : ℕ) h
    rcases lt_or_ge id 9 with hid | hid
    · interval_cases id <;> cases h
    · simp [countUp_dead hid] at h
  phi_inp := by
    intro (id : ℕ) h
    rcases lt_or_ge id 9 with hid | hid
    · interval_cases id <;> cases h
      decide
    · simp [countUp_dead hid] at h

theorem wellLinked_countUp : countUp.WellLinked where
  dead_of_le := by
    intro (id : ℕ) h
    simp [Proc.live, countUp_dead h]
  entry_live := rfl
  end_live := rfl
  inps_live := by
    intro (id : ℕ) h
    rcases lt_or_ge id 9 with hid | hid
    · revert h
      interval_cases id <;> decide
    · simp [Proc.live, countUp_dead hid] at h
  outs_live := by
    intro (id : ℕ) h
    rcases lt_or_ge id 9 with hid | hid
    · revert h
      interval_cases id <;> decide
    · simp [Proc.live, countUp_dead hid] at h
  mem_outs := by
    intro (id : ℕ) h
    rcases lt_or_ge id 9 with hid | hid
    · revert h
      interval_cases id <;> decide
    · simp [Proc.live, countUp_dead hid] at h

theorem computeLatices_fixpoint_countUp :
    (∀ fuel, computeLatices countUp fuel ≠ .assertFailed) ∧
      ∃ fuel₀ L, (∀ fuel, fuel₀ ≤ fuel → computeLatices countUp fuel = .ok L) ∧
        ∀ n ∈ collectNodes countUp, sccpCompute countUp L n = L n :=
  computeLatices_fixpoint wellTyped_countUp wellLinked_countUp

end OdinSon
