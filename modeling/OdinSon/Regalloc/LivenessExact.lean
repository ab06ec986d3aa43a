import OdinSon.Regalloc.Liveness
import Mathlib.Algebra.Order.BigOperators.Group.Finset
import Mathlib.Tactic.Linarith

/-!
# The liveness is exact

The worklist of `Regalloc.Liveness` walks a block only with what is new at its end, and takes its
uses along the first time.  Two walks make one (`Done.union`), so the ends of the blocks become
closed under the flow; nothing comes to them that is not live (`LiveInv`).  An entry comes to a
block only once, which bounds the rounds (`potential`).

## Main results

* `walkInstrs_spec` : the walk over a block finds what is live before it.
* `visitBlock_spec` : a round keeps the invariant, and fewer are left.
* `liveness_exact` : **the liveness and the interference are exact** with fewer than `65536` live
  ranges.
* `liveness_inexact` : with `65536` there is no interference at all.
-/

namespace OdinSon.Regalloc

/-! ### Masks get smaller, the matrix gets fuller -/

/-- What happens to the live ranges. -/
structure Ranges.Shrinks (r r' : Ranges) : Prop where
  kind : ∀ l, (r'.lrgs.mask l).kind = (r.lrgs.mask l).kind
  bitLength : ∀ l, (r'.lrgs.mask l).bitLength = (r.lrgs.mask l).bitLength
  regs : ∀ l, (r'.lrgs.mask l).regs ⊆ (r.lrgs.mask l).regs
  interference : ∀ k, r.interference k = true → r'.interference k = true

namespace Ranges.Shrinks

variable {r r' r'' : Ranges}

theorem refl (r : Ranges) : r.Shrinks r :=
  ⟨fun _ => rfl, fun _ => rfl, fun _ => Finset.Subset.refl _, fun _ h => h⟩

theorem trans (h : r.Shrinks r') (h' : r'.Shrinks r'') : r.Shrinks r'' where
  kind := fun l => (h'.kind l).trans (h.kind l)
  bitLength := fun l => (h'.bitLength l).trans (h.bitLength l)
  regs := fun l => (h'.regs l).trans (h.regs l)
  interference := fun k hk => h'.interference k (h.interference k hk)

/-- A live range with a smaller mask. -/
theorem narrow {l : ℕ} {m : RegMask} (hk : m.kind = (r.lrgs.mask l).kind)
    (hb : m.bitLength = (r.lrgs.mask l).bitLength) (hr : m.regs ⊆ (r.lrgs.mask l).regs) :
    r.Shrinks { r with lrgs := r.lrgs.narrow l m } := by
  have hmask (k : ℕ) : (r.lrgs.narrow l m).mask k = if k = l then m else r.lrgs.mask k :=
    Function.update_apply ..
  constructor
  · intro k
    simp only [hmask]
    split_ifs with h
    · rw [hk, h]
    · rfl
  · intro k
    simp only [hmask]
    split_ifs with h
    · rw [hb, h]
    · rfl
  · intro k
    simp only [hmask]
    split_ifs with h
    · rw [h]
      exact hr
    · exact Finset.Subset.refl _
  · exact fun _ h => h

end Ranges.Shrinks

namespace LiveCtx

variable {ctx : LiveCtx} {lrgs : Lrgs} {r r' : Ranges}

/-- The two have no register in common, or interfere. -/
def Separated (ctx : LiveCtx) (r : Ranges) (d l : ℕ) : Prop :=
  Share (r.lrgs.mask d) (r.lrgs.mask l) → ctx.Interferes r d l

theorem Separated.mono {d l : ℕ} (h : ctx.Separated r d l) (hs : r.Shrinks r') :
    ctx.Separated r' d l := by
  rintro ⟨hk, hne⟩
  rw [hs.kind, hs.kind] at hk
  refine hs.interference _ (h ⟨hk, fun he => hne ?_⟩)
  exact Finset.subset_empty.1 (he ▸ Finset.inter_subset_inter (hs.regs d) (hs.regs l))

/-- The invariant of the live ranges. -/
structure RangesOk (ctx : LiveCtx) (lrgs : Lrgs) (r : Ranges) : Prop where
  shrinks : Ranges.Shrinks ⟨lrgs, [], fun _ => false⟩ r
  symm : ∀ a < ctx.usedLrgs, ∀ b < ctx.usedLrgs, ctx.Interferes r a b → ctx.Interferes r b a
  /-- Only a live range of several nodes can be in conflict with itself. -/
  quiet : (∀ a b, a ≠ 0 → b ≠ 0 → ctx.lrgTable a = ctx.lrgTable b → a = b) → r.selfConflicts = []
  /-- Without a matrix, only calls take registers away. -/
  untouched : ctx.bitLength = 0 → r.interference = (fun _ => false) ∧
    ((∀ bb ∈ ctx.bbs, ∀ id ∈ bb.instrs, ctx.clobbers id = some []) → r.lrgs.mask = lrgs.mask)

/-- Entries for different live ranges, each with one of its nodes. -/
structure LoutsOk (ctx : LiveCtx) (louts : List Liveout) : Prop where
  nodup : (louts.map Liveout.lrg).Nodup
  lt : ∀ l ∈ louts, l.lrg < ctx.usedLrgs
  node_ne : ∀ l ∈ louts, l.node ≠ 0
  lrgTable : ∀ l ∈ louts, ctx.lrgTable l.node = l.lrg

/-- The places in the matrix are counted right. -/
def Countable (ctx : LiveCtx) : Prop := ctx.bitLength = 0 ∨ ctx.usedLrgs < 2 ^ 16

theorem mul_self_usedLrgs_lt (hn : ctx.usedLrgs < 2 ^ 16) :
    ctx.usedLrgs * ctx.usedLrgs < 2 ^ 32 := by
  calc ctx.usedLrgs * ctx.usedLrgs < 2 ^ 16 * 2 ^ 16 := Nat.mul_lt_mul'' hn hn
    _ = 2 ^ 32 := by norm_num

theorem pairIndex_eq (hn : ctx.usedLrgs < 2 ^ 16) {a b : ℕ} (ha : a < ctx.usedLrgs)
    (hb : b < ctx.usedLrgs) : ctx.pairIndex a b = a * ctx.usedLrgs + b ∧
      a * ctx.usedLrgs + b < ctx.usedLrgs * ctx.usedLrgs := by
  have h1 : a * ctx.usedLrgs + b < ctx.usedLrgs * ctx.usedLrgs := by
    calc a * ctx.usedLrgs + b < a * ctx.usedLrgs + ctx.usedLrgs := by omega
      _ = (a + 1) * ctx.usedLrgs := by ring
      _ ≤ ctx.usedLrgs * ctx.usedLrgs := Nat.mul_le_mul_right _ ha
  exact ⟨Nat.mod_eq_of_lt (h1.trans (mul_self_usedLrgs_lt hn)), h1⟩

theorem pairIndex_lt (hc : ctx.Countable) (h0 : ctx.bitLength ≠ 0) {a b : ℕ}
    (ha : a < ctx.usedLrgs) (hb : b < ctx.usedLrgs) : ctx.pairIndex a b < ctx.bitLength := by
  have hn := hc.resolve_left h0
  obtain ⟨h1, h2⟩ := pairIndex_eq hn ha hb
  unfold bitLength at h0 ⊢
  split at h0
  · exact absurd rfl h0
  · rw [Nat.mod_eq_of_lt (mul_self_usedLrgs_lt hn), h1]
    exact h2

theorem pairIndex_inj (hc : ctx.Countable) (h0 : ctx.bitLength ≠ 0) {a b c d : ℕ}
    (ha : a < ctx.usedLrgs) (hb : b < ctx.usedLrgs) (hc' : c < ctx.usedLrgs)
    (hd : d < ctx.usedLrgs) (h : ctx.pairIndex a b = ctx.pairIndex c d) : a = c ∧ b = d := by
  have hn := hc.resolve_left h0
  rw [(pairIndex_eq hn ha hb).1, (pairIndex_eq hn hc' hd).1] at h
  have hpos : 0 < ctx.usedLrgs := by omega
  constructor
  · have := congrArg (· / ctx.usedLrgs) h
    simpa [Nat.mul_comm _ ctx.usedLrgs, Nat.mul_add_div hpos, Nat.div_eq_of_lt hb,
      Nat.div_eq_of_lt hd] using this
  · have := congrArg (· % ctx.usedLrgs) h
    simpa [Nat.mul_comm _ ctx.usedLrgs, Nat.mul_add_mod, Nat.mod_eq_of_lt hb,
      Nat.mod_eq_of_lt hd] using this

/-! ### Entries -/

theorem RangesOk.addConflict (hr : ctx.RangesOk lrgs r) {lrg : ℕ} {a b : NodeId} (ha : a ≠ 0)
    (hb : b ≠ 0) (hab : ctx.lrgTable a = ctx.lrgTable b) :
    ∃ r', r.addConflict lrg a b = some (r', decide (a = b)) ∧ ctx.RangesOk lrgs r' ∧
      r.Shrinks r' := by
  unfold Ranges.addConflict
  rw [if_neg (by tauto)]
  split_ifs with h
  · exact ⟨r, by rw [decide_eq_true h], hr, .refl r⟩
  · rw [decide_eq_false h]
    refine ⟨_, rfl, ⟨⟨hr.shrinks.kind, hr.shrinks.bitLength, hr.shrinks.regs,
      hr.shrinks.interference⟩, hr.symm, fun hinj => absurd (hinj a b ha hb hab) h,
      hr.untouched⟩, ?_⟩
    exact ⟨fun _ => rfl, fun _ => rfl, fun _ => Finset.Subset.refl _, fun _ h => h⟩

theorem RangesOk.endRange (hr : ctx.RangesOk lrgs r) {lrg : ℕ} {v id : NodeId} (hid : id ≠ 0)
    (hv : v ≠ 0 → ctx.lrgTable v = ctx.lrgTable id) :
    ∃ r', r.endRange lrg v id = some r' ∧ ctx.RangesOk lrgs r' ∧ r.Shrinks r' := by
  unfold Ranges.endRange
  split_ifs with h
  · obtain ⟨r', h', hr', hs'⟩ := @RangesOk.addConflict ctx lrgs r hr lrg v id h hid (hv h)
    exact ⟨r', by rw [h']; rfl, hr', hs'⟩
  · exact ⟨r, rfl, hr, .refl r⟩

theorem findIdx_lrg {louts : List Liveout} {lrg idx : ℕ}
    (h : louts.findIdx? (·.lrg = lrg) = some idx) : ∃ hi : idx < louts.length,
      louts[idx].lrg = lrg ∧ (louts.map Liveout.lrg).idxOf? lrg = some idx ∧
      (louts.map Liveout.node).getD idx 0 = louts[idx].node := by
  obtain ⟨hi, hp, hlt⟩ := List.findIdx?_eq_some_iff_getElem.1 h
  refine ⟨hi, by simpa using hp, ?_, by simp [hi]⟩
  rw [List.idxOf?_eq_some_iff]
  refine ⟨by simpa using hi, by simpa using hp, fun j hj => ?_⟩
  simpa using hlt j hj

theorem findIdx_lrg_none {louts : List Liveout} {lrg : ℕ}
    (h : louts.findIdx? (·.lrg = lrg) = none) : lrg ∉ louts.map Liveout.lrg := by
  rw [List.findIdx?_eq_none_iff] at h
  rintro hmem
  obtain ⟨l, hl, rfl⟩ := List.mem_map.1 hmem
  simpa using h l hl

/-- One more entry; nothing changes if there is one for the live range. -/
theorem addLiveout_spec (hr : ctx.RangesOk lrgs r) {louts : List Liveout}
    (hl : ctx.LoutsOk louts) {n : Liveout} (hn : ctx.LoutsOk [n]) :
    ∃ r' louts', r.addLiveout louts n =
        some (r', louts', decide (n.lrg ∉ louts.map Liveout.lrg)) ∧
      ctx.RangesOk lrgs r' ∧ r.Shrinks r' ∧ ctx.LoutsOk louts' ∧
      louts'.map Liveout.lrg = louts.map Liveout.lrg ++
        if n.lrg ∈ louts.map Liveout.lrg then [] else [n.lrg] := by
  have hn0 := hn.node_ne n (List.mem_singleton_self n)
  have hnt := hn.lrgTable n (List.mem_singleton_self n)
  unfold Ranges.addLiveout
  rw [if_neg hn0]
  split
  · next hnone =>
    have hnot := findIdx_lrg_none hnone
    rw [if_neg hnot, decide_eq_true hnot]
    refine ⟨r, louts ++ [n], rfl, hr, .refl r, ⟨?_, ?_, ?_, ?_⟩, by simp⟩
    · rw [List.map_append]
      exact hl.nodup.append hn.nodup (by simpa using hnot)
    · exact fun l h => (List.mem_append.1 h).elim (hl.lt l) (hn.lt l)
    · exact fun l h => (List.mem_append.1 h).elim (hl.node_ne l) (hn.node_ne l)
    · exact fun l h => (List.mem_append.1 h).elim (hl.lrgTable l) (hn.lrgTable l)
  · next idx hsome =>
    obtain ⟨hi, hlrg, hidx, hnode⟩ := findIdx_lrg hsome
    have hmem : n.lrg ∈ louts.map Liveout.lrg :=
      List.mem_map.2 ⟨louts[idx], List.getElem_mem hi, hlrg⟩
    rw [if_pos hmem, List.append_nil, decide_eq_false (not_not.2 hmem), hnode]
    have hv := hl.node_ne _ (List.getElem_mem hi)
    obtain ⟨r', hr', hok, hsh⟩ := @RangesOk.addConflict ctx lrgs r hr n.lrg _ _ hn0 hv
      (by rw [hnt, hl.lrgTable _ (List.getElem_mem hi), hlrg])
    dsimp only
    rw [hr']
    by_cases hsame : n.node = louts[idx].node
    · have hset : louts.set idx n = louts := by
        have : n = louts[idx] := by
          cases n
          cases hle : louts[idx]
          simp_all
        rw [this, List.set_getElem_self]
      refine ⟨r', louts, ?_, hok, hsh, hl, rfl⟩
      simp [hsame.symm, hset]
    · refine ⟨r', louts, ?_, hok, hsh, hl, rfl⟩
      simp [hsame]

/-- What a loop of these does. -/
theorem addLiveouts_spec (ns : List Liveout) : ∀ {r : Ranges} {louts : List Liveout},
    ctx.RangesOk lrgs r → ctx.LoutsOk louts → (∀ n ∈ ns, ctx.LoutsOk [n]) →
    ∃ r' louts' changed, r.addLiveouts louts ns = some (r', louts', changed) ∧
      ctx.RangesOk lrgs r' ∧ r.Shrinks r' ∧ ctx.LoutsOk louts' ∧
      louts.map Liveout.lrg <+: louts'.map Liveout.lrg ∧
      (∀ l, l ∈ louts'.map Liveout.lrg ↔
        l ∈ louts.map Liveout.lrg ∨ l ∈ ns.map Liveout.lrg) ∧
      (changed = true → louts.length < louts'.length) ∧
      (changed = false → louts'.map Liveout.lrg = louts.map Liveout.lrg) := by
  induction ns with
  | nil =>
    intro r louts hr hl _
    exact ⟨r, louts, false, rfl, hr, .refl r, hl, List.prefix_rfl, by simp, by simp, fun _ => rfl⟩
  | cons n ns ih =>
    intro r louts hr hl hns
    obtain ⟨r₁, louts₁, h₁, hr₁, hs₁, hl₁, hkeys⟩ :=
      addLiveout_spec hr hl (hns n List.mem_cons_self)
    obtain ⟨r₂, louts₂, ch, h₂, hr₂, hs₂, hl₂, hpre, hmem, hgrow, hsame⟩ :=
      ih hr₁ hl₁ fun m hm => hns m (List.mem_cons_of_mem n hm)
    have hlen : louts₁.length =
        louts.length + if n.lrg ∈ louts.map Liveout.lrg then 0 else 1 := by
      have := congrArg List.length hkeys
      split_ifs at this ⊢ <;> simpa using this
    have hlen₂ : louts₁.length ≤ louts₂.length := by simpa using hpre.length_le
    have hpre₁ : louts.map Liveout.lrg <+: louts₁.map Liveout.lrg :=
      hkeys ▸ List.prefix_append _ _
    refine ⟨r₂, louts₂, decide (n.lrg ∉ louts.map Liveout.lrg) || ch, ?_, hr₂, hs₁.trans hs₂, hl₂,
      hpre₁.trans hpre, ?_, ?_, ?_⟩
    · rw [Ranges.addLiveouts, h₁]
      dsimp only [Option.bind_eq_bind, Option.bind_some]
      rw [h₂]
      rfl
    · intro l
      rw [hmem, hkeys, List.map_cons, List.mem_cons, List.mem_append]
      split_ifs with hin
      · constructor
        · rintro ((h | h) | h)
          · exact .inl h
          · cases h
          · exact .inr (.inr h)
        · rintro (h | rfl | h)
          · exact .inl (.inl h)
          · exact .inl (.inl hin)
          · exact .inr h
      · rw [List.mem_singleton]
        tauto
    · intro hch
      by_cases hin : n.lrg ∈ louts.map Liveout.lrg
      · rw [decide_eq_false (not_not.2 hin), Bool.false_or] at hch
        rw [if_pos hin] at hlen
        have := hgrow hch
        omega
      · rw [if_neg hin] at hlen
        omega
    · intro hch
      rw [Bool.or_eq_false_iff, decide_eq_false_iff_not, not_not] at hch
      rw [hsame hch.2, hkeys, if_pos hch.1, List.append_nil]

/-- The entry of a live range is gone afterwards. -/
theorem liveoutsDelete_spec {louts : List Liveout} (hl : ctx.LoutsOk louts) (lrg : ℕ) :
    ctx.LoutsOk (liveoutsDelete louts lrg).2 ∧
      (∀ l, l ∈ (liveoutsDelete louts lrg).2.map Liveout.lrg ↔
        l ∈ louts.map Liveout.lrg ∧ l ≠ lrg) ∧
      ((liveoutsDelete louts lrg).1 ≠ 0 → ctx.lrgTable (liveoutsDelete louts lrg).1 = lrg) := by
  unfold liveoutsDelete
  split
  · next hnone =>
    have hnot := findIdx_lrg_none hnone
    refine ⟨hl, fun l => ⟨fun h => ⟨h, ?_⟩, And.left⟩, fun h => absurd rfl h⟩
    rintro rfl
    exact hnot h
  · next idx hsome =>
    obtain ⟨hi, hlrg, hidx, hnode⟩ := findIdx_lrg hsome
    have hmap : ((swapRemove louts idx).map Liveout.lrg).Perm
        (swapRemove (louts.map Liveout.lrg) idx) := by
      refine ((swapRemove_perm hi).map _).trans ?_
      refine List.Perm.trans ?_ (swapRemove_perm (by simpa using hi)).symm
      rw [List.eraseIdx_map]
    have hsub : ∀ l ∈ swapRemove louts idx, l ∈ louts := fun l h =>
      List.mem_of_mem_eraseIdx ((swapRemove_perm hi).mem_iff.1 h)
    refine ⟨⟨?_, ?_, ?_, ?_⟩, fun l => ?_, fun _ => ?_⟩
    · exact hmap.nodup_iff.2 (nodup_swapRemove hl.nodup (by simpa using hi))
    · exact fun l h => hl.lt l (hsub l h)
    · exact fun l h => hl.node_ne l (hsub l h)
    · exact fun l h => hl.lrgTable l (hsub l h)
    · rw [hmap.mem_iff]
      exact mem_swapRemove_iff hl.nodup hidx
    · dsimp only
      rw [hnode, hl.lrgTable _ (List.getElem_mem hi), hlrg]

/-! ### The walk -/

section Walk

variable (hw : ctx.WellScheduled lrgs) (hc : ctx.Countable)
include hw

theorem RangesOk.mask (hr : ctx.RangesOk lrgs r) {l : ℕ} (hl : l < ctx.usedLrgs) :
    (r.lrgs.mask l).bitLength = (lrgs.mask l).bitLength ∧
      (r.lrgs.mask l).kind = (lrgs.mask l).kind ∧
      ∀ reg ∈ (r.lrgs.mask l).regs, reg < (lrgs.mask l).bitLength :=
  ⟨hr.shrinks.bitLength l, hr.shrinks.kind l,
    fun reg h => (hw.mask l hl).2 reg (hr.shrinks.regs l h)⟩

include hc

/-- Only the bit of the pair and the mask of `rl` change. -/
theorem interfereWith_spec (h0 : ctx.bitLength ≠ 0)
    (hr : Ranges.Shrinks ⟨lrgs, [], fun _ => false⟩ r) {ll rl : ℕ}
    (hll : ll < ctx.usedLrgs) (hrl : rl < ctx.usedLrgs) :
    ∃ r', ctx.interfereWith r ll rl = some r' ∧ r.Shrinks r' ∧
      r'.selfConflicts = r.selfConflicts ∧
      r'.interference = Function.update r.interference (ctx.pairIndex rl ll) true := by
  have hidx := pairIndex_lt hc h0 hrl hll
  have hbits (ls : Lrgs) (hls : r.Shrinks { r with lrgs := ls }) : r.Shrinks
      { r with lrgs := ls, interference :=
        Function.update r.interference (ctx.pairIndex rl ll) true } := by
    refine ⟨hls.kind, hls.bitLength, hls.regs, fun k hk => ?_⟩
    dsimp only
    rw [Function.update_apply]
    split_ifs
    · rfl
    · exact hk
  unfold interfereWith
  split_ifs with hcard
  · obtain ⟨reg, hreg⟩ := Finset.card_pos.1 (by omega : 0 < (r.lrgs.mask ll).regs.card)
    have hlt := (hw.mask ll hll).2 reg (hr.regs ll hreg)
    have hfirst : (r.lrgs.mask ll).firstSet = some reg := by
      obtain ⟨a, ha⟩ := Finset.card_eq_one.1 hcard
      obtain rfl : reg = a := by simpa [ha] using hreg
      have hsome : ((r.lrgs.mask ll).firstSet).isSome := by
        rw [RegMask.firstSet, List.find?_isSome]
        refine ⟨reg, List.mem_range.2 ?_, decide_eq_true hreg⟩
        rw [hr.bitLength ll]
        exact hlt
      obtain ⟨x, hx⟩ := Option.isSome_iff_exists.1 hsome
      have := List.find?_some hx
      rw [hx]
      simpa [ha] using this
    have hclear : (r.lrgs.mask rl).clear reg =
        some { r.lrgs.mask rl with regs := (r.lrgs.mask rl).regs.erase reg } := by
      rw [RegMask.clear, if_pos]
      rw [hr.bitLength rl]
      exact (hw.bitLength ll hll rl hrl) ▸ hlt
    rw [hfirst]
    dsimp only [Option.bind_eq_bind, Option.bind_some]
    rw [hclear]
    dsimp only [Option.bind_some]
    rw [if_pos hidx]
    refine ⟨_, rfl, hbits _ (.narrow rfl rfl (Finset.erase_subset _ _)), rfl, rfl⟩
  · dsimp only [Option.bind_eq_bind, Option.bind_some]
    rw [if_pos hidx]
    exact ⟨_, rfl, hbits _ (.refl r), rfl, rfl⟩

/-- After a definition, it and a live range that is live are kept apart. -/
theorem interfere_spec (h0 : ctx.bitLength ≠ 0) (hr : ctx.RangesOk lrgs r) {d : ℕ} {l : Liveout}
    (hd : d < ctx.usedLrgs) (hl : l.lrg < ctx.usedLrgs) :
    ∃ r', ctx.interfere d r l = some r' ∧ ctx.RangesOk lrgs r' ∧ r.Shrinks r' ∧
      ctx.Separated r' d l.lrg := by
  have hlen : (r.lrgs.mask l.lrg).bitLength = (r.lrgs.mask d).bitLength := by
    rw [hr.shrinks.bitLength, hr.shrinks.bitLength]
    exact hw.bitLength _ hl _ hd
  unfold interfere RegMask.intersects
  by_cases hshare : Share (r.lrgs.mask d) (r.lrgs.mask l.lrg)
  · have hne : (r.lrgs.mask l.lrg).regs ∩ (r.lrgs.mask d).regs ≠ ∅ := by
      rw [Finset.inter_comm]
      exact hshare.2
    rw [if_neg (not_not.2 hshare.1.symm), if_pos hlen, decide_eq_true hne]
    dsimp only [Option.bind_eq_bind, Option.bind_some]
    rw [if_pos rfl]
    obtain ⟨r₁, h₁, hs₁, hq₁, hi₁⟩ := interfereWith_spec hw hc h0 hr.shrinks hd hl
    obtain ⟨r₂, h₂, hs₂, hq₂, hi₂⟩ :=
      interfereWith_spec hw hc h0 (hr.shrinks.trans hs₁) hl hd
    rw [h₁]
    dsimp only [Option.bind_some]
    have hiff {a b : ℕ} : ctx.Interferes r₂ a b ↔ ctx.pairIndex a b = ctx.pairIndex d l.lrg ∨
        ctx.pairIndex a b = ctx.pairIndex l.lrg d ∨ ctx.Interferes r a b := by
      unfold Interferes
      rw [hi₂, hi₁, Function.update_apply, Function.update_apply]
      split_ifs <;> tauto
    refine ⟨r₂, h₂, ⟨hr.shrinks.trans (hs₁.trans hs₂), fun a ha b hb hab => ?_, fun hinj => ?_,
      fun h => absurd h h0⟩, hs₁.trans hs₂, fun _ => hiff.2 (.inl rfl)⟩
    · rw [hiff] at hab ⊢
      rcases hab with h | h | h
      · obtain ⟨rfl, rfl⟩ := pairIndex_inj hc h0 ha hb hd hl h
        exact .inr (.inl rfl)
      · obtain ⟨rfl, rfl⟩ := pairIndex_inj hc h0 ha hb hl hd h
        exact .inl rfl
      · exact .inr (.inr (hr.symm a ha b hb h))
    · rw [hq₂, hq₁, hr.quiet hinj]
  · refine ⟨r, ?_, hr, .refl r, fun h => absurd h hshare⟩
    split_ifs with hk
    · rfl
    · have he : (r.lrgs.mask l.lrg).regs ∩ (r.lrgs.mask d).regs = ∅ := by
        by_contra hne
        refine hshare ⟨(not_not.1 hk).symm, ?_⟩
        rwa [Finset.inter_comm]
      rw [decide_eq_false (not_not.2 he)]
      rfl

/-- All that is live after the definition. -/
theorem foldlM_interfere_spec (h0 : ctx.bitLength ≠ 0) {d : ℕ} (hd : d < ctx.usedLrgs)
    (cur : List Liveout) : ∀ {r : Ranges}, ctx.RangesOk lrgs r →
    (∀ l ∈ cur, l.lrg < ctx.usedLrgs) →
    ∃ r', cur.foldlM (ctx.interfere d) r = some r' ∧ ctx.RangesOk lrgs r' ∧ r.Shrinks r' ∧
      ∀ l ∈ cur, ctx.Separated r' d l.lrg := by
  induction cur with
  | nil => exact fun {r} hr _ => ⟨r, rfl, hr, .refl r, by simp⟩
  | cons l cur ih =>
    intro r hr hlt
    obtain ⟨r₁, h₁, hr₁, hs₁, hsep⟩ := interfere_spec hw hc h0 hr hd (hlt l List.mem_cons_self)
    obtain ⟨r₂, h₂, hr₂, hs₂, hseps⟩ := ih hr₁ fun k hk => hlt k (List.mem_cons_of_mem l hk)
    refine ⟨r₂, ?_, hr₂, hs₁.trans hs₂, fun k hk => ?_⟩
    · rw [List.foldlM_cons, h₁]
      exact h₂
    · rcases List.mem_cons.1 hk with rfl | hk
      · exact hsep.mono hs₂
      · exact hseps k hk

theorem interfereAll_spec {d : ℕ} (hd : d < ctx.usedLrgs) {cur : List Liveout}
    (hr : ctx.RangesOk lrgs r) (hcur : ∀ l ∈ cur, l.lrg < ctx.usedLrgs) :
    ∃ r', ctx.interfereAll d cur r = some r' ∧ ctx.RangesOk lrgs r' ∧ r.Shrinks r' ∧
      (ctx.bitLength ≠ 0 → ∀ l ∈ cur, ctx.Separated r' d l.lrg) := by
  unfold interfereAll
  split_ifs with h0
  · obtain ⟨r', h', hr', hs', hsep⟩ := foldlM_interfere_spec hw hc h0 hd cur hr hcur
    exact ⟨r', h', hr', hs', fun _ => hsep⟩
  · exact ⟨r, rfl, hr, .refl r, fun h => absurd h h0⟩

variable {bb : BasicBlock} (hbb : bb ∈ ctx.bbs)
include hbb

/-- A definition ends its live range; the others have to stay away from it. -/
theorem walkDef_spec {id : NodeId} (hid : id ∈ bb.instrs) {cur : List Liveout}
    (hr : ctx.RangesOk lrgs r) (hcur : ctx.LoutsOk cur) :
    ∃ cur' r', ctx.walkDef id cur r = some (cur', r') ∧ ctx.RangesOk lrgs r' ∧ r.Shrinks r' ∧
      ctx.LoutsOk cur' ∧ (∀ l, l ∈ cur'.map Liveout.lrg ↔
        l ∈ cur.map Liveout.lrg ∧ ctx.flow.defs id ≠ some l) ∧
      (ctx.bitLength ≠ 0 → ∀ d, ctx.flow.defs id = some d → ∀ l ∈ cur'.map Liveout.lrg,
        ctx.Separated r' d l) := by
  have hdefs : ctx.flow.defs id =
      if (ctx.gmetas id).isDef then some (ctx.lrgTable id) else none := rfl
  unfold walkDef
  by_cases hdef : (ctx.gmetas id).isDef = true
  · rw [if_pos hdef] at hdefs ⊢
    have hd := hw.def_lt bb hbb id hid hdef
    obtain ⟨hcur', hmem, hnode⟩ := liveoutsDelete_spec hcur (ctx.lrgTable id)
    dsimp only
    generalize liveoutsDelete cur (ctx.lrgTable id) = p at hcur' hmem hnode ⊢
    obtain ⟨v, cur'⟩ := p
    dsimp only at hcur' hmem hnode ⊢
    obtain ⟨r₁, h₁, hr₁, hs₁⟩ := hr.endRange (hw.id_ne bb hbb id hid) hnode
    obtain ⟨r₂, h₂, hr₂, hs₂, hsep⟩ := interfereAll_spec hw hc hd hr₁ hcur'.lt
    rw [h₁]
    dsimp only [Option.bind_eq_bind, Option.bind_some]
    rw [h₂]
    refine ⟨cur', r₂, rfl, hr₂, hs₁.trans hs₂, hcur', fun l => ?_, fun h0 d hd l hl => ?_⟩
    · rw [hmem, hdefs, ne_comm, Ne, Ne, Option.some.injEq]
    · obtain ⟨e, he, rfl⟩ := List.mem_map.1 hl
      rw [hdefs, Option.some.injEq] at hd
      exact hd ▸ hsep h0 e he
  · rw [if_neg hdef] at hdefs ⊢
    refine ⟨cur, r, rfl, hr, .refl r, hcur, fun l => ?_, fun _ d hd => ?_⟩
    · rw [hdefs]
      exact ⟨fun h => ⟨h, nofun⟩, And.left⟩
    · rw [hdefs] at hd
      cases hd

omit hc hbb in
theorem foldlM_clobberLive_spec {cs : List (Finset ℕ)}
    (hcs : ∀ l < ctx.usedLrgs, (lrgs.mask l).kind < cs.length)
    (hne : ¬ ∀ bb ∈ ctx.bbs, ∀ id ∈ bb.instrs, ctx.clobbers id = some []) (cur : List Liveout) :
    ∀ {r : Ranges}, ctx.RangesOk lrgs r → (∀ l ∈ cur, l.lrg < ctx.usedLrgs) →
    ∃ ls, cur.foldlM (clobberLive cs) r.lrgs = some ls ∧
      ctx.RangesOk lrgs { r with lrgs := ls } ∧ r.Shrinks { r with lrgs := ls } := by
  induction cur with
  | nil => exact fun {r} hr _ => ⟨r.lrgs, rfl, hr, .refl r⟩
  | cons l cur ih =>
    intro r hr hlt
    have hl := hlt l List.mem_cons_self
    obtain ⟨hlen, hkind, -⟩ := hr.mask hw hl
    have hword : cs[(r.lrgs.mask l.lrg).kind]? = some (cs.getD (r.lrgs.mask l.lrg).kind ∅) := by
      have := hcs l.lrg hl
      rw [List.getD_eq_getElem?_getD, List.getElem?_eq_getElem (hkind ▸ this), Option.getD_some]
    have hstep : clobberLive cs r.lrgs l = some (r.lrgs.narrow l.lrg
        { r.lrgs.mask l.lrg with regs := (r.lrgs.mask l.lrg).regs.filter fun reg =>
          ¬ (reg < 64 ∧ reg ∈ cs.getD (r.lrgs.mask l.lrg).kind ∅) }) := by
      rw [clobberLive, RegMask.clobber, hword]
      dsimp only [Option.bind_eq_bind, Option.bind_some]
      rw [if_pos (hlen ▸ (hw.mask l.lrg hl).1)]
      rfl
    generalize hm : ({ r.lrgs.mask l.lrg with
      regs := (r.lrgs.mask l.lrg).regs.filter fun reg =>
        ¬ (reg < 64 ∧ reg ∈ cs.getD (r.lrgs.mask l.lrg).kind ∅) } : RegMask) = m at hstep
    have hs : r.Shrinks { r with lrgs := r.lrgs.narrow l.lrg m } := by
      refine .narrow ?_ ?_ ?_ <;> rw [← hm]
      exact Finset.filter_subset _ _
    have hr₁ : ctx.RangesOk lrgs { r with lrgs := r.lrgs.narrow l.lrg m } :=
      ⟨hr.shrinks.trans hs, hr.symm, hr.quiet, fun h => ⟨(hr.untouched h).1, fun h => absurd h hne⟩⟩
    obtain ⟨ls, h₂, hr₂, hs₂⟩ := ih hr₁ fun k hk => hlt k (List.mem_cons_of_mem l hk)
    refine ⟨ls, ?_, hr₂, hs.trans hs₂⟩
    rw [List.foldlM_cons, hstep]
    exact h₂

/-- One instruction: what it defines goes, what it uses comes. -/
theorem walkInstr_spec {id : NodeId} (hid : id ∈ bb.instrs) (visited : Bool) {cur : List Liveout}
    (hr : ctx.RangesOk lrgs r) (hcur : ctx.LoutsOk cur) :
    ∃ cur' r', ctx.walkInstr visited id cur r = some (cur', r') ∧ ctx.RangesOk lrgs r' ∧
      r.Shrinks r' ∧ ctx.LoutsOk cur' ∧ (∀ l, l ∈ cur'.map Liveout.lrg ↔
        visited = false ∧ l ∈ ctx.flow.uses id ∨
          ctx.flow.defs id ≠ some l ∧ l ∈ cur.map Liveout.lrg) ∧
      (ctx.bitLength ≠ 0 → ∀ d, ctx.flow.defs id = some d → ∀ l ∈ cur.map Liveout.lrg, l ≠ d →
        ctx.Separated r' d l) := by
  obtain ⟨cur₁, r₁, h₁, hr₁, hs₁, hcur₁, hmem₁, hsep₁⟩ := walkDef_spec hw hc hbb hid hr hcur
  obtain ⟨cs, hcs, hkinds⟩ := hw.clobbers bb hbb id hid
  obtain ⟨ls, h₂, hr₂, hs₂⟩ : ∃ ls, clobberAll cs cur₁ r₁.lrgs = some ls ∧
      ctx.RangesOk lrgs { r₁ with lrgs := ls } ∧ r₁.Shrinks { r₁ with lrgs := ls } := by
    unfold clobberAll
    split_ifs with hlen
    · have hne : cs ≠ [] := fun h => hlen (by rw [h]; rfl)
      refine foldlM_clobberLive_spec hw (hkinds.resolve_left hne) (fun h => hne ?_) cur₁ hr₁
        hcur₁.lt
      exact Option.some.inj (hcs.symm.trans (h bb hbb id hid))
    · exact ⟨r₁.lrgs, rfl, hr₁, .refl r₁⟩
  -- what interferes after the definition still does, since the ranges only shrink
  have hsep (r' : Ranges) (hs : Ranges.Shrinks { r₁ with lrgs := ls } r') :
      ctx.bitLength ≠ 0 → ∀ d, ctx.flow.defs id = some d → ∀ l ∈ cur.map Liveout.lrg, l ≠ d →
        ctx.Separated r' d l := by
    intro h0 d hd l hl hne
    refine (hsep₁ h0 d hd l ((hmem₁ l).2 ⟨hl, ?_⟩)).mono (hs₂.trans hs)
    rw [hd]
    exact fun h => hne (Option.some.inj h).symm
  have huses : ctx.flow.uses id = if (ctx.prc.getNode id).itype = .phi then []
      else ((ctx.dataDeps id).getD []).map ctx.lrgTable := rfl
  unfold walkInstr
  rw [h₁]
  dsimp only [Option.bind_eq_bind, Option.bind_some]
  rw [hcs]
  dsimp only [Option.bind_some]
  rw [h₂]
  dsimp only [Option.bind_some]
  split_ifs with hvis
  · rw [Bool.and_eq_true, Bool.not_eq_true', decide_eq_true_eq] at hvis
    -- the first visit adds the operands, which no `Phi` has here
    obtain ⟨hv, hphi⟩ := hvis
    obtain ⟨deps, hdeps, hok⟩ := hw.deps bb hbb id hid hphi
    rw [hdeps]
    dsimp only [Option.bind_some]
    obtain ⟨r₃, cur₃, ch, h₃, hr₃, hs₃, hcur₃, -, hmem₃, -⟩ :=
      addLiveouts_spec (deps.map fun inp => ⟨ctx.lrgTable inp, inp⟩) hr₂ hcur₁ (by
        intro n hn
        obtain ⟨inp, hinp, rfl⟩ := List.mem_map.1 hn
        obtain ⟨h1, h2⟩ := hok inp hinp
        refine ⟨List.nodup_singleton _, ?_, ?_, ?_⟩ <;> intro l hl <;>
          obtain rfl := List.mem_singleton.1 hl
        · exact h2
        · exact h1
        · rfl)
    rw [h₃]
    refine ⟨cur₃, r₃, rfl, hr₃, hs₁.trans (hs₂.trans hs₃), hcur₃, fun l => ?_, hsep r₃ hs₃⟩
    rw [hmem₃, hmem₁, huses, if_neg hphi, hdeps, List.map_map, Option.getD_some]
    simp only [hv, true_and, Function.comp_def]
    tauto
  · refine ⟨cur₁, _, rfl, hr₂, hs₁.trans hs₂, hcur₁, fun l => ?_, hsep _ (.refl _)⟩
    rw [hmem₁, huses]
    simp only [Bool.and_eq_true, Bool.not_eq_true', decide_eq_true_eq, not_and] at hvis
    constructor
    · rintro ⟨h1, h2⟩
      exact .inr ⟨h2, h1⟩
    · rintro (⟨hv, h⟩ | ⟨h1, h2⟩)
      · rw [if_pos (not_not.1 (hvis hv))] at h
        cases h
      · exact ⟨h2, h1⟩

/-- **The walk over the end of a block** finds what is live before it. -/
theorem walkInstrs_spec (visited : Bool) {cur : List Liveout} (hr : ctx.RangesOk lrgs r)
    (hcur : ctx.LoutsOk cur) (s : List NodeId) : (∀ id ∈ s, id ∈ bb.instrs) →
    ∃ cur' r', ctx.walkInstrs visited cur r s = some (cur', r') ∧ ctx.RangesOk lrgs r' ∧
      r.Shrinks r' ∧ ctx.LoutsOk cur' ∧ (∀ l, l ∈ cur'.map Liveout.lrg ↔
        ctx.flow.LiveBefore (visited = false) (· ∈ cur.map Liveout.lrg) s l) ∧
      (ctx.bitLength ≠ 0 → ∀ before id after d l, s = before ++ id :: after →
        ctx.flow.defs id = some d → l ≠ d →
        ctx.flow.LiveBefore (visited = false) (· ∈ cur.map Liveout.lrg) after l →
        ctx.Separated r' d l) := by
  induction s with
  | nil =>
    intro _
    refine ⟨cur, r, rfl, hr, .refl r, hcur, fun l => FlowGraph.liveBefore_nil.symm, ?_⟩
    intro _ before id after d l h
    exact absurd h.symm (by simp)
  | cons id s ih =>
    intro hs
    obtain ⟨cur₁, r₁, h₁, hr₁, hs₁, hcur₁, hmem₁, hsep₁⟩ :=
      ih fun k hk => hs k (List.mem_cons_of_mem id hk)
    obtain ⟨cur₂, r₂, h₂, hr₂, hs₂, hcur₂, hmem₂, hsep₂⟩ :=
      walkInstr_spec hw hc hbb (hs id List.mem_cons_self) visited hr₁ hcur₁
    refine ⟨cur₂, r₂, ?_, hr₂, hs₁.trans hs₂, hcur₂, fun l => ?_, ?_⟩
    · rw [walkInstrs, h₁]
      exact h₂
    · rw [hmem₂, FlowGraph.liveBefore_cons, hmem₁]
    · intro h0 before id' after d l heq hd hne hlive
      rcases before with - | ⟨x, before⟩
      · obtain ⟨rfl, rfl⟩ := List.cons.inj heq
        exact hsep₂ h0 d hd l ((hmem₁ l).2 hlive) hne
      · obtain ⟨rfl, rfl⟩ := List.cons.inj heq
        exact (hsep₁ h0 before id' after d l rfl hd hne hlive).mono hs₂

end Walk

/-! ### The way to the blocks before -/

/-- The live ranges at the end of a block. -/
def keys (st : LiveState) (b : ℕ) : List ℕ := (st.liveouts b).data.map Liveout.lrg

/-- The number of rounds that are left at most: an entry can come to a block only once. -/
def potential (ctx : LiveCtx) (st : LiveState) : ℕ :=
  st.worklist.length + ∑ b ∈ Finset.range ctx.bbs.length,
    (ctx.usedLrgs - (st.liveouts b).data.length)

/-- The state `st'` after `sent` has gone to the blocks of `ps`. -/
structure Flowed (ctx : LiveCtx) (lrgs : Lrgs) (sent : ℕ → List ℕ) (ps : List (NodeId × ℕ))
    (st st' : LiveState) : Prop where
  ranges : ctx.RangesOk lrgs st'.ranges
  shrinks : st.ranges.Shrinks st'.ranges
  louts : ∀ c, ctx.LoutsOk (st'.liveouts c).data
  old : ∀ c, (st'.liveouts c).old = (st.liveouts c).old
  grows : ∀ c, keys st c <+: keys st' c
  got : ∀ q ∈ ps, ∀ p, ctx.predBlock q.1 = some p → ∀ l ∈ sent q.2, l ∈ keys st' p
  only : ∀ c, ∀ l ∈ keys st' c,
    l ∈ keys st c ∨ ∃ q ∈ ps, ctx.predBlock q.1 = some c ∧ l ∈ sent q.2
  worklist : ∀ c ∈ st.worklist, c ∈ st'.worklist
  worklist_lt : (∀ c ∈ st.worklist, c < ctx.bbs.length) → ∀ c ∈ st'.worklist, c < ctx.bbs.length
  changed : ∀ c, keys st' c = keys st c ∨ c ∈ st'.worklist
  potential : ctx.potential st' ≤ ctx.potential st

theorem LoutsOk.sublist {louts later : List Liveout} (h : ctx.LoutsOk louts)
    (hsub : later.Sublist louts) : ctx.LoutsOk later where
  nodup := (hsub.map _).nodup h.nodup
  lt l hl := h.lt l (hsub.subset hl)
  node_ne l hl := h.node_ne l (hsub.subset hl)
  lrgTable l hl := h.lrgTable l (hsub.subset hl)

theorem LoutsOk.length_le {louts : List Liveout} (h : ctx.LoutsOk louts) :
    louts.length ≤ ctx.usedLrgs := by
  have hsub : louts.map Liveout.lrg ⊆ List.range ctx.usedLrgs := by
    intro l hl
    obtain ⟨e, he, rfl⟩ := List.mem_map.1 hl
    exact List.mem_range.2 (h.lt e he)
  simpa using (h.nodup.subperm hsub).length_le

theorem predBlock_lt {pred : NodeId} {p : ℕ} (h : ctx.predBlock pred = some p) :
    p < ctx.bbs.length := by
  obtain ⟨head, -, h⟩ := Option.bind_eq_some_iff.1 h
  exact (List.findIdx?_eq_some_iff_getElem.1 h).1

/-- A block that gets entries can be in the worklist once more for it. -/
theorem potential_update {st : LiveState} {p : ℕ} (hp : p < ctx.bbs.length) {louts : Liveouts}
    {r : Ranges} {worklist : List ℕ} {k : ℕ} (hk : worklist.length ≤ st.worklist.length + k)
    (hlen : (st.liveouts p).data.length + k ≤ louts.data.length)
    (hle : louts.data.length ≤ ctx.usedLrgs) :
    ctx.potential ⟨r, Function.update st.liveouts p louts, worklist⟩ ≤ ctx.potential st := by
  unfold potential
  have hmem := Finset.mem_range.2 hp
  rw [← Finset.add_sum_erase _ _ hmem, ← Finset.add_sum_erase _ _ hmem]
  have hsum : ∑ b ∈ (Finset.range ctx.bbs.length).erase p,
      (ctx.usedLrgs - (Function.update st.liveouts p louts b).data.length) =
      ∑ b ∈ (Finset.range ctx.bbs.length).erase p,
        (ctx.usedLrgs - (st.liveouts b).data.length) := by
    refine Finset.sum_congr rfl fun b hb => ?_
    rw [Function.update_of_ne (Finset.ne_of_mem_erase hb)]
  dsimp only
  rw [hsum, Function.update_self]
  omega

variable {st st' st'' : LiveState} {sent : ℕ → List ℕ}

theorem Flowed.refl (hr : ctx.RangesOk lrgs st.ranges)
    (hl : ∀ c, ctx.LoutsOk (st.liveouts c).data) : ctx.Flowed lrgs sent [] st st where
  ranges := hr
  shrinks := .refl _
  louts := hl
  old := fun _ => rfl
  grows := fun _ => List.prefix_rfl
  got := fun _ hq => absurd hq List.not_mem_nil
  only := fun _ _ h => .inl h
  worklist := fun _ h => h
  worklist_lt := fun h => h
  changed := fun _ => .inl rfl
  potential := le_rfl

theorem Flowed.trans {q : NodeId × ℕ} {ps : List (NodeId × ℕ)}
    (h : ctx.Flowed lrgs sent [q] st st') (h' : ctx.Flowed lrgs sent ps st' st'') :
    ctx.Flowed lrgs sent (q :: ps) st st'' where
  ranges := h'.ranges
  shrinks := h.shrinks.trans h'.shrinks
  louts := h'.louts
  old := fun c => (h'.old c).trans (h.old c)
  grows := fun c => (h.grows c).trans (h'.grows c)
  got := by
    intro x hx p hp l hl
    rcases List.mem_cons.1 hx with rfl | hx
    · exact (h'.grows p).subset (h.got x (List.mem_singleton_self x) p hp l hl)
    · exact h'.got x hx p hp l hl
  only := by
    intro c l hl
    rcases h'.only c l hl with hl | ⟨x, hx, hp, hl⟩
    · rcases h.only c l hl with hl | ⟨x, hx, hp, hl⟩
      · exact .inl hl
      · obtain rfl := List.mem_singleton.1 hx
        exact .inr ⟨x, List.mem_cons_self, hp, hl⟩
    · exact .inr ⟨x, List.mem_cons_of_mem q hx, hp, hl⟩
  worklist := fun c hc => h'.worklist c (h.worklist c hc)
  worklist_lt := fun hlt => h'.worklist_lt (h.worklist_lt hlt)
  changed := by
    intro c
    rcases h'.changed c with h1 | h1
    · rcases h.changed c with h2 | h2
      · exact .inl (h1.trans h2)
      · exact .inr (h'.worklist c h2)
    · exact .inr h1
  potential := h'.potential.trans h.potential

/-- What goes to the `j`-th block before. -/
def sentTo (ctx : LiveCtx) (visited : Bool) (head : Node) (cur : List Liveout) (j : ℕ) : List ℕ :=
  (cur ++ if visited then [] else ctx.phiUses head j).map Liveout.lrg

theorem flowTo_spec {visited : Bool} {head : Node} {cur : List Liveout} {q : NodeId × ℕ}
    (hr : ctx.RangesOk lrgs st.ranges) (hl : ∀ c, ctx.LoutsOk (st.liveouts c).data)
    (hcur : ctx.LoutsOk cur) (hphi : visited = false → ∀ n ∈ ctx.phiUses head q.2, ctx.LoutsOk [n])
    (hp : ∃ p, ctx.predBlock q.1 = some p) :
    ∃ st', ctx.flowTo visited head cur st q = some st' ∧
      ctx.Flowed lrgs (ctx.sentTo visited head cur) [q] st st' := by
  obtain ⟨p, hp⟩ := hp
  have hplt := predBlock_lt hp
  obtain ⟨r', data, ch, h', hr', hs', hl', hpre, hmem, hgrow, hsame⟩ :=
    -- what the `Phi`s use is sent at the first visit of the block only
    addLiveouts_spec (cur ++ if visited then [] else ctx.phiUses head q.2) hr (hl p) (by
      intro n hn
      rcases List.mem_append.1 hn with hn | hn
      · exact ⟨List.nodup_singleton _, fun l h => hcur.lt l (List.mem_singleton.1 h ▸ hn),
          fun l h => hcur.node_ne l (List.mem_singleton.1 h ▸ hn),
          fun l h => hcur.lrgTable l (List.mem_singleton.1 h ▸ hn)⟩
      · split_ifs at hn with hv
        · cases hn
        · exact hphi (Bool.eq_false_of_not_eq_true hv) n hn)
  unfold flowTo
  rw [hp]
  dsimp only [Option.bind_eq_bind, Option.bind_some]
  rw [h']
  refine ⟨_, rfl, ?_⟩
  generalize hwl : (if ch then Worklist.push (fun _ => true) st.worklist p else st.worklist) = wl
  -- the block is queued exactly when its live-outs have changed
  have hwmem {c : ℕ} : c ∈ wl ↔ c ∈ st.worklist ∨ ch = true ∧ c = p := by
    rw [← hwl]
    split_ifs with hch
    · simp [Worklist.mem_push, hch]
    · simp [hch]
  -- only the live-outs of `p` are written
  have hkeys (c : ℕ) : keys ⟨r', Function.update st.liveouts p
      { st.liveouts p with data }, wl⟩ c = if c = p then data.map Liveout.lrg else keys st c := by
    unfold keys
    dsimp only
    rw [Function.update_apply]
    split_ifs <;> rfl
  constructor
  · exact hr'
  · exact hs'
  · intro c
    dsimp only
    rw [Function.update_apply]
    split_ifs
    · exact hl'
    · exact hl c
  · intro c
    dsimp only
    rw [Function.update_apply]
    split_ifs with hcp
    · rw [hcp]
    · rfl
  · intro c
    rw [hkeys]
    split_ifs with hcp
    · exact hcp ▸ hpre
    · exact List.prefix_rfl
  · intro x hx p' hp' l hl
    obtain rfl := List.mem_singleton.1 hx
    obtain rfl : p = p' := Option.some.inj (hp.symm.trans hp')
    rw [hkeys, if_pos rfl]
    exact (hmem l).2 (.inr hl)
  · intro c l hl
    rw [hkeys] at hl
    split_ifs at hl with hcp
    · rcases (hmem l).1 hl with hl | hl
      · exact .inl (hcp ▸ hl)
      · exact .inr ⟨q, List.mem_singleton_self q, hcp ▸ hp, hl⟩
    · exact .inl hl
  · exact fun c hc => hwmem.2 (.inl hc)
  · intro hlt c hc
    rcases hwmem.1 hc with hc | ⟨-, rfl⟩
    · exact hlt c hc
    · exact hplt
  · intro c
    rw [hkeys]
    split_ifs with hcp
    · cases ch with
      | false => exact .inl (hcp ▸ hsame rfl)
      | true => exact .inr (hwmem.2 (.inr ⟨rfl, hcp⟩))
    · exact .inl rfl
  · -- a push pays for itself: the live-outs of `p` have grown
    have hdata : (st.liveouts p).data.length ≤ data.length := by simpa using hpre.length_le
    cases ch with
    | false =>
      exact potential_update hplt (k := 0) (by rw [← hwl]; exact le_rfl) hdata hl'.length_le
    | true =>
      refine potential_update hplt (k := 1) ?_ (hgrow rfl) hl'.length_le
      rw [← hwl, if_pos rfl]
      exact Worklist.length_push_le

theorem foldlM_flowTo_spec {visited : Bool} {head : Node} {cur : List Liveout}
    (hcur : ctx.LoutsOk cur) (ps : List (NodeId × ℕ)) : ∀ {st : LiveState},
    ctx.RangesOk lrgs st.ranges → (∀ c, ctx.LoutsOk (st.liveouts c).data) →
    (∀ q ∈ ps, (∃ p, ctx.predBlock q.1 = some p) ∧
      (visited = false → ∀ n ∈ ctx.phiUses head q.2, ctx.LoutsOk [n])) →
    ∃ st', ps.foldlM (ctx.flowTo visited head cur) st = some st' ∧
      ctx.Flowed lrgs (ctx.sentTo visited head cur) ps st st' := by
  induction ps with
  | nil => exact fun {st} hr hl _ => ⟨st, rfl, .refl hr hl⟩
  | cons q ps ih =>
    intro st hr hl hps
    obtain ⟨hp, hphi⟩ := hps q List.mem_cons_self
    obtain ⟨st₁, h₁, hf₁⟩ := flowTo_spec hr hl hcur hphi hp
    obtain ⟨st₂, h₂, hf₂⟩ := ih hf₁.ranges hf₁.louts fun x hx =>
      hps x (List.mem_cons_of_mem q hx)
    refine ⟨st₂, ?_, hf₁.trans hf₂⟩
    rw [List.foldlM_cons, h₁]
    exact h₂

/-! ### The invariant of the loop -/

/-- The block `b` has been walked, with `S` live at its end; `u` says whether its uses went with
it. -/
structure Done (ctx : LiveCtx) (st : LiveState) (b : ℕ) (u : Prop) (S : ℕ → Prop) : Prop where
  edgeUse : u → ∀ {p us}, (p, us) ∈ ctx.flow.preds b → ∀ l ∈ us, l ∈ keys st p
  edge : ∀ {p us}, (p, us) ∈ ctx.flow.preds b → ∀ l,
    ctx.flow.LiveBefore u S (ctx.flow.instrs b) l → l ∈ keys st p
  separated : ctx.bitLength ≠ 0 → ∀ before id after d l,
    ctx.flow.instrs b = before ++ id :: after → ctx.flow.defs id = some d → l ≠ d →
    ctx.flow.LiveBefore u S after l → ctx.Separated st.ranges d l

namespace Done

variable {b : ℕ} {u u' : Prop} {S S' : ℕ → Prop}

theorem mono (h : ctx.Done st b u S) (hk : ∀ c, keys st c ⊆ keys st' c)
    (hs : st.ranges.Shrinks st'.ranges) : ctx.Done st' b u S where
  edgeUse := fun hu _ _ hp l hl => hk _ (h.edgeUse hu hp l hl)
  edge := fun hp l hl => hk _ (h.edge hp l hl)
  separated := fun h0 before id after d l hi hd hne hl =>
    (h.separated h0 before id after d l hi hd hne hl).mono hs

theorem weaken (h : ctx.Done st b u S) (hu : u' → u) (hS : ∀ l, S' l → S l) :
    ctx.Done st b u' S' where
  edgeUse := fun h' => h.edgeUse (hu h')
  edge := fun hp l hl => h.edge hp l (hl.mono hu hS)
  separated := fun h0 before id after d l hi hd hne hl =>
    h.separated h0 before id after d l hi hd hne (hl.mono hu hS)

/-- Two walks make one. -/
theorem union (h : ctx.Done st b u S) (h' : ctx.Done st b u' S') :
    ctx.Done st b (u ∨ u') fun l => S l ∨ S' l where
  edgeUse := fun hu _ _ hp => hu.elim (fun hu => h.edgeUse hu hp) fun hu => h'.edgeUse hu hp
  edge := fun hp l hl => (FlowGraph.liveBefore_or.1 hl).elim (h.edge hp l) (h'.edge hp l)
  separated := fun h0 before id after d l hi hd hne hl => (FlowGraph.liveBefore_or.1 hl).elim
    (h.separated h0 before id after d l hi hd hne)
    (h'.separated h0 before id after d l hi hd hne)

end Done

/-- The invariant of the loop. -/
structure LiveInv (ctx : LiveCtx) (lrgs : Lrgs) (st : LiveState) : Prop where
  ranges : ctx.RangesOk lrgs st.ranges
  louts : ∀ b, ctx.LoutsOk (st.liveouts b).data
  old_le : ∀ b, (st.liveouts b).old ≤ (st.liveouts b).data.length
  sound : ∀ b, ∀ l ∈ keys st b, ctx.flow.Live l b []
  worklist_lt : ∀ b ∈ st.worklist, b < ctx.bbs.length
  settled : ∀ b < ctx.bbs.length,
    b ∈ st.worklist ∨ (st.liveouts b).old = (st.liveouts b).data.length
  /-- A block is taken to be visited once it has old entries. -/
  uses : ∀ b < ctx.bbs.length, b ∈ st.worklist ∧ (st.liveouts b).old = 0 ∨
    ctx.Done st b True fun _ => False
  walked : ∀ b < ctx.bbs.length,
    ctx.Done st b False (· ∈ (keys st b).take (st.liveouts b).old)

/-- A round, which visits `b` and leaves `rest`: each block before `b` has what is live on its way,
and what has grown is to be visited again. -/
structure Visit (ctx : LiveCtx) (lrgs : Lrgs) (b : ℕ) (rest : List ℕ) (st st' : LiveState) :
    Prop where
  ranges : ctx.RangesOk lrgs st'.ranges
  louts : ∀ c, ctx.LoutsOk (st'.liveouts c).data
  /-- All that `b` had is old now. -/
  old : ∀ c, (st'.liveouts c).old =
    if c = b then (st.liveouts b).data.length else (st.liveouts c).old
  grows : ∀ c, keys st c <+: keys st' c
  shrinks : st.ranges.Shrinks st'.ranges
  live : ∀ c, ∀ l ∈ keys st' c, ctx.flow.Live l c []
  /-- `b` has been walked with its new entries. -/
  done : ctx.Done st' b ((st.liveouts b).old = 0) (· ∈ (keys st b).drop (st.liveouts b).old)
  changed : ∀ c, keys st' c = keys st c ∨ c ∈ st'.worklist
  worklist : ∀ c ∈ rest, c ∈ st'.worklist
  worklist_lt : ∀ c ∈ st'.worklist, c < ctx.bbs.length
  potential : ctx.potential st' < ctx.potential st

theorem mem_flow_preds {b p : ℕ} {us : List ℕ} {bb : BasicBlock} (hbb : ctx.bbs[b]? = some bb) :
    (p, us) ∈ ctx.flow.preds b ↔ ∃ q ∈ (ctx.prc.getNode bb.head).inps.zipIdx,
      ctx.predBlock q.1 = some p ∧ us = ctx.edgeUses bb q.2 := by
  have hpreds : ctx.flow.preds b = (ctx.prc.getNode bb.head).inps.zipIdx.filterMap fun pred =>
      (ctx.predBlock pred.1).map fun p => (p, ctx.edgeUses bb pred.2) := by
    simp only [flow, hbb]
  rw [hpreds, List.mem_filterMap]
  simp only [Option.map_eq_some_iff, Prod.mk.injEq]
  constructor
  · rintro ⟨q, hq, p', hp', rfl, rfl⟩
    exact ⟨q, hq, hp', rfl⟩
  · rintro ⟨q, hq, hp', rfl⟩
    exact ⟨q, hq, p, hp', rfl, rfl⟩

theorem mem_zipIdx_inps {inps : List NodeId} {q : NodeId × ℕ} (h : q ∈ inps.zipIdx) :
    q.1 ∈ inps ∧ q.2 < inps.length := by
  obtain ⟨x, i⟩ := q
  rw [List.mem_zipIdx_iff_getElem?] at h
  exact ⟨List.mem_of_getElem? h, (List.getElem?_eq_some_iff.1 h).1⟩

section Loop

variable (hw : ctx.WellScheduled lrgs)
include hw

/-- The phis that the code finds at the head use what those of the block use. -/
theorem phiUses_spec {bb : BasicBlock} (hbb : bb ∈ ctx.bbs) {j : ℕ}
    (hj : j < (ctx.prc.getNode bb.head).inps.length) :
    (∀ n ∈ ctx.phiUses (ctx.prc.getNode bb.head) j, ctx.LoutsOk [n]) ∧
      ∀ l, l ∈ (ctx.phiUses (ctx.prc.getNode bb.head) j).map Liveout.lrg ↔
        l ∈ ctx.edgeUses bb j := by
  have hphi {id : NodeId} {idx : ℕ}
      (hout : (⟨id, idx⟩ : NodeOutput) ∈ (ctx.prc.getNode bb.head).outs)
      (h1 : (ctx.prc.getNode id).itype = .phi) (h2 : isData (ctx.prc.getNode id) = true) :
      id ∈ bb.instrs := (hw.phi_mem bb hbb id h1 h2).2 ⟨idx, hout⟩
  constructor
  · intro n hn
    simp only [phiUses, List.mem_map, List.mem_filter, Bool.and_eq_true, decide_eq_true_eq] at hn
    obtain ⟨out, ⟨hout, ⟨h1, h2⟩, h3⟩, rfl⟩ := hn
    obtain ⟨hlt, hops⟩ := hw.phi bb hbb out.id (hphi hout h1 h2) h1 h2
    obtain ⟨hne, hsame⟩ := hops j hj
    refine ⟨List.nodup_singleton _, ?_, ?_, ?_⟩ <;> intro l hl <;>
      obtain rfl := List.mem_singleton.1 hl
    · exact hlt
    · exact hne
    · exact hsame h3
  · intro l
    simp only [phiUses, edgeUses, List.mem_map, List.mem_filter, List.mem_filterMap,
      Bool.and_eq_true, decide_eq_true_eq]
    constructor
    · rintro ⟨-, ⟨out, ⟨hout, ⟨h1, h2⟩, h3⟩, rfl⟩, rfl⟩
      have hmem := hphi hout h1 h2
      refine ⟨_, ⟨out.id, ⟨hmem, h1, h2⟩, rfl⟩, ?_⟩
      rw [if_neg h3, ((hw.phi bb hbb out.id hmem h1 h2).2 j hj).2 h3]
    · rintro ⟨-, ⟨id, ⟨hmem, h1, h2⟩, rfl⟩, h⟩
      obtain ⟨idx, hout⟩ := (hw.phi_mem bb hbb id h1 h2).1 hmem
      split_ifs at h with h3
      refine ⟨_, ⟨⟨id, idx⟩, ⟨hout, ⟨h1, h2⟩, h3⟩, rfl⟩, ?_⟩
      rw [← ((hw.phi bb hbb id hmem h1 h2).2 j hj).2 h3]
      exact Option.some.inj h

theorem mem_sentTo {bb : BasicBlock} (hbb : bb ∈ ctx.bbs) (visited : Bool) (cur : List Liveout)
    {q : NodeId × ℕ} (hq : q ∈ (ctx.prc.getNode bb.head).inps.zipIdx) (l : ℕ) :
    l ∈ ctx.sentTo visited (ctx.prc.getNode bb.head) cur q.2 ↔
      l ∈ cur.map Liveout.lrg ∨ visited = false ∧ l ∈ ctx.edgeUses bb q.2 := by
  rw [sentTo, List.map_append, List.mem_append, ← (phiUses_spec hw hbb (mem_zipIdx_inps hq).2).2]
  cases visited <;> simp

variable (hc : ctx.Countable)
include hc

/-- What a round gives each block before the visited one, and that there are fewer left. -/
theorem visitBlock_visit {b : ℕ} {rest : List ℕ} (hi : ctx.LiveInv lrgs st)
    (hb : st.worklist = b :: rest) :
    ∃ st', ctx.visitBlock b { st with worklist := rest } = some st' ∧
      ctx.Visit lrgs b rest st st' := by
  have hblt := hi.worklist_lt b (hb ▸ List.mem_cons_self)
  obtain ⟨bb, hbb⟩ : ∃ bb, ctx.bbs[b]? = some bb := ⟨_, List.getElem?_eq_getElem hblt⟩
  have hmem : bb ∈ ctx.bbs := List.mem_of_getElem? hbb
  have hinstrs : ctx.flow.instrs b = bb.instrs := by
    show (ctx.bbs[b]?.map BasicBlock.instrs).getD [] = _
    rw [hbb]
    rfl
  generalize hvis : decide ((st.liveouts b).old ≠ 0) = visited
  -- the new entries, with which the block is walked
  have hnew : ctx.LoutsOk ((st.liveouts b).data.drop (st.liveouts b).old) :=
    (hi.louts b).sublist (List.drop_sublist _ _)
  have hnewKeys : ((st.liveouts b).data.drop (st.liveouts b).old).map Liveout.lrg =
      (keys st b).drop (st.liveouts b).old := List.map_drop ..
  obtain ⟨cur, r, hwalk, hr, hs, hcur, hlive, hsep⟩ :=
    walkInstrs_spec hw hc hmem visited hi.ranges hnew bb.instrs fun _ h => h
  rw [hnewKeys] at hlive hsep
  -- the state before the entries go to the blocks before
  generalize hst₁ : (⟨r, Function.update st.liveouts b
    { st.liveouts b with old := (st.liveouts b).data.length }, rest⟩ : LiveState) = st₁
  have hlouts₁ (c : ℕ) : (st₁.liveouts c).data = (st.liveouts c).data := by
    rw [← hst₁]
    dsimp only
    rw [Function.update_apply]
    split_ifs with h
    · rw [h]
    · rfl
  have hold₁ (c : ℕ) : (st₁.liveouts c).old =
      if c = b then (st.liveouts b).data.length else (st.liveouts c).old := by
    rw [← hst₁]
    dsimp only
    rw [Function.update_apply]
    split_ifs <;> rfl
  have hkeys₁ (c : ℕ) : keys st₁ c = keys st c := congrArg (List.map Liveout.lrg) (hlouts₁ c)
  obtain ⟨st', hflow, hf⟩ := @foldlM_flowTo_spec ctx lrgs visited (ctx.prc.getNode bb.head) cur
    hcur (ctx.prc.getNode bb.head).inps.zipIdx st₁ (by rw [← hst₁]; exact hr)
    (fun c => hlouts₁ c ▸ hi.louts c) (by
      intro q hq
      obtain ⟨hq1, hq2⟩ := mem_zipIdx_inps hq
      exact ⟨hw.preds bb hmem q.1 hq1, fun _ => (phiUses_spec hw hmem hq2).1⟩)
  have hsent {q : NodeId × ℕ} := mem_sentTo hw hmem visited cur (q := q)
  have hgrow (c : ℕ) : keys st c <+: keys st' c := hkeys₁ c ▸ hf.grows c
  have hshrink : st.ranges.Shrinks st'.ranges := hs.trans (by rw [← hst₁] at hf; exact hf.shrinks)
  refine ⟨st', ?_, {
    ranges := hf.ranges
    louts := hf.louts
    old := fun c => by rw [hf.old, hold₁]
    grows := hgrow
    shrinks := hshrink
    live := fun c l hl => ?live
    done := ?done
    changed := fun c => (hf.changed c).imp_left (·.trans (hkeys₁ c))
    worklist := fun c hc => hf.worklist c (by rw [← hst₁]; exact hc)
    worklist_lt := hf.worklist_lt ?worklist_lt
    potential := ?potential }⟩
  · unfold visitBlock
    rw [hbb]
    dsimp only [Option.bind_eq_bind, Option.bind_some]
    rw [hvis, hwalk]
    dsimp only [Option.bind_some]
    rw [hst₁]
    exact hflow
  case live =>
    rcases hf.only c l hl with hl | ⟨q, hq, hpq, hl⟩
    · exact hi.sound c l (hkeys₁ c ▸ hl)
    · have hedge : (c, ctx.edgeUses bb q.2) ∈ ctx.flow.preds b :=
        (mem_flow_preds hbb).2 ⟨q, hq, hpq, rfl⟩
      rcases (hsent hq l).1 hl with hl | ⟨-, hl⟩
      · refine .edge hedge (.of_liveBefore ?_ (hinstrs ▸ (hlive l).1 hl))
        exact fun k hk => hi.sound b k (List.mem_of_mem_drop hk)
      · exact .edgeUse hedge hl
  case done =>
    have hfirst : (st.liveouts b).old = 0 → visited = false := fun h0 => by rw [← hvis, h0]; rfl
    constructor
    · intro h0 p us hp l hl
      obtain ⟨q, hq, hpq, rfl⟩ := (mem_flow_preds hbb).1 hp
      exact hf.got q hq p hpq l ((hsent hq l).2 (.inr ⟨hfirst h0, hl⟩))
    · intro p us hp l hl
      obtain ⟨q, hq, hpq, rfl⟩ := (mem_flow_preds hbb).1 hp
      have hl := hl.mono hfirst fun _ h => h
      exact hf.got q hq p hpq l ((hsent hq l).2 (.inl ((hlive l).2 (hinstrs ▸ hl))))
    · intro h0 before id after d l hsplit hd hne hl
      have hl := hl.mono hfirst fun _ h => h
      refine (hsep h0 before id after d l (hinstrs ▸ hsplit) hd hne hl).mono ?_
      rw [← hst₁] at hf
      exact hf.shrinks
  case worklist_lt =>
    rw [← hst₁]
    exact fun c hc => hi.worklist_lt c (hb ▸ List.mem_cons_of_mem b hc)
  case potential =>
    have hpot : ctx.potential st₁ + 1 = ctx.potential st := by
      have hrest : st₁.worklist = rest := by rw [← hst₁]
      unfold potential
      simp only [hlouts₁, hrest, hb, List.length_cons]
      omega
    have := hf.potential
    omega

omit hw hc in
/-- A round keeps the invariant. -/
theorem LiveInv.visit {b : ℕ} {rest : List ℕ} (hi : ctx.LiveInv lrgs st)
    (hb : st.worklist = b :: rest) (hv : ctx.Visit lrgs b rest st st') : ctx.LiveInv lrgs st' := by
  have hmono {c : ℕ} {u : Prop} {S : ℕ → Prop} (h : ctx.Done st c u S) : ctx.Done st' c u S :=
    h.mono (fun k => (hv.grows k).subset) hv.shrinks
  have hlen (c : ℕ) : (st.liveouts c).data.length ≤ (st'.liveouts c).data.length := by
    simpa only [keys, List.length_map] using (hv.grows c).length_le
  -- only `b` leaves the queue
  have hrest {c : ℕ} (hne : c ≠ b) (hin : c ∈ st.worklist) : c ∈ st'.worklist := by
    rw [hb, List.mem_cons] at hin
    exact hv.worklist c (hin.resolve_left hne)
  refine {
    ranges := hv.ranges
    louts := hv.louts
    old_le := ?old_le
    sound := hv.live
    worklist_lt := hv.worklist_lt
    settled := ?settled
    uses := ?uses
    walked := ?walked }
  case old_le =>
    intro c
    rw [hv.old]
    split_ifs with h
    · exact h ▸ hlen c
    · exact (hi.old_le c).trans (hlen c)
  case settled =>
    intro c hclt
    obtain hsame | hin := hv.changed c
    · have hdata : (st'.liveouts c).data.length = (st.liveouts c).data.length := by
        simpa [keys] using congrArg List.length hsame
      rw [hv.old, hdata]
      split_ifs with h
      · exact .inr (by rw [h])
      · exact (hi.settled c hclt).imp_left (hrest h)
    · exact .inl hin
  case uses =>
    intro c hclt
    rw [hv.old]
    by_cases h : c = b
    · subst h
      refine .inr ?_
      -- the uses are added at the first visit and stay afterwards
      by_cases h0 : (st.liveouts c).old = 0
      · exact hv.done.weaken (fun _ => h0) fun _ h => h.elim
      · exact hmono ((hi.uses c hclt).resolve_left fun h => h0 h.2)
    · rw [if_neg h]
      exact (hi.uses c hclt).imp (fun hin => ⟨hrest h hin.1, hin.2⟩) hmono
  case walked =>
    intro c hclt
    rw [hv.old]
    have htake {k : ℕ} (hk : k ≤ (st.liveouts c).data.length) :
        (keys st' c).take k = (keys st c).take k := by
      obtain ⟨t, ht⟩ := hv.grows c
      rw [← ht, List.take_append_of_le_length (by simpa [keys] using hk)]
    have hwalked := hmono (hi.walked c hclt)
    split_ifs with h
    · subst h
      -- this round walks what came since the last one, and the rest was walked then
      rw [htake le_rfl, List.take_of_length_le (by simp [keys])]
      refine (hwalked.union hv.done).weaken False.elim fun l hl => ?_
      rw [← List.take_append_drop (st.liveouts c).old (keys st c), List.mem_append] at hl
      exact hl
    · rw [htake (hi.old_le c)]
      exact hwalked

/-- **One round keeps the invariant**, and there are fewer left. -/
theorem visitBlock_spec {b : ℕ} {rest : List ℕ} (hi : ctx.LiveInv lrgs st)
    (hb : st.worklist = b :: rest) :
    ∃ st', ctx.visitBlock b { st with worklist := rest } = some st' ∧ ctx.LiveInv lrgs st' ∧
      ctx.potential st' < ctx.potential st := by
  obtain ⟨st', h, hv⟩ := visitBlock_visit hw hc hi hb
  exact ⟨st', h, hi.visit hb hv, hv.potential⟩

/-- A run keeps the invariant. -/
theorem LiveInv.livenessLoop {fuel : ℕ} (hi : ctx.LiveInv lrgs st)
    (h : ctx.livenessLoop fuel st = some st') : ctx.LiveInv lrgs st' ∧ st'.worklist = [] := by
  induction fuel generalizing st with
  | zero => cases h
  | succ fuel ih =>
    unfold LiveCtx.livenessLoop at h
    split at h
    · next hnil =>
      obtain rfl := Option.some.inj h
      exact ⟨hi, hnil⟩
    · next b rest hcons =>
      obtain ⟨st₁, h₁, hi₁, -⟩ := visitBlock_spec hw hc hi hcons
      rw [h₁] at h
      exact ih hi₁ h

/-- **The loop comes to its end.** -/
theorem exists_livenessLoop (fuel : ℕ) : ∀ {st : LiveState}, ctx.LiveInv lrgs st →
    ctx.potential st < fuel → ∃ st', ctx.livenessLoop fuel st = some st' := by
  induction fuel with
  | zero => exact fun _ h => absurd h (Nat.not_lt_zero _)
  | succ fuel ih =>
    intro st hi hfuel
    unfold LiveCtx.livenessLoop
    split
    · exact ⟨st, rfl⟩
    · next b rest hcons =>
      obtain ⟨st₁, h₁, hi₁, hlt⟩ := visitBlock_spec hw hc hi hcons
      rw [h₁]
      exact ih hi₁ (by omega)

omit hw hc in
theorem liveInv_start : ctx.LiveInv lrgs (ctx.livenessStart lrgs) where
  ranges := ⟨.refl _, fun _ _ _ _ h => absurd h Bool.false_ne_true, fun _ => rfl,
    fun _ => ⟨rfl, fun _ => rfl⟩⟩
  louts := fun _ => ⟨List.nodup_nil, nofun, nofun, nofun⟩
  old_le := fun _ => le_rfl
  sound := nofun
  worklist_lt := fun b hb => by simpa [livenessStart] using hb
  settled := fun _ _ => .inr rfl
  uses := fun b hb => .inl ⟨by simpa [livenessStart] using hb, rfl⟩
  walked := by
    have hnot {b l : ℕ} {s : List NodeId} :
        ¬ ctx.flow.LiveBefore False (· ∈ (keys (ctx.livenessStart lrgs) b).take 0) s l := by
      rintro (⟨h, -⟩ | ⟨h, -⟩)
      · exact h
      · cases h
    exact fun b _ => ⟨False.elim, fun _ l hl => absurd hl hnot,
      fun _ _ _ _ _ _ _ _ _ hl => absurd hl hnot⟩

omit hw hc in
/-- At the end all is as it should be. -/
theorem LiveInv.exact (hi : ctx.LiveInv lrgs st) (hend : st.worklist = []) :
    (∀ b < ctx.bbs.length, ∀ l, l ∈ keys st b ↔ ctx.flow.Live l b []) ∧
    (ctx.bitLength ≠ 0 → ∀ b < ctx.bbs.length, ∀ before id after d l,
      ctx.flow.instrs b = before ++ id :: after → ctx.flow.defs id = some d → l ≠ d →
      ctx.flow.Live l b after → ctx.Separated st.ranges d l) := by
  have hdone (b : ℕ) (hb : b < ctx.bbs.length) : ctx.Done st b True (· ∈ keys st b) := by
    have hold : (st.liveouts b).old = (st.liveouts b).data.length :=
      (hi.settled b hb).resolve_left (by simp [hend])
    have huses := (hi.uses b hb).resolve_left (by simp [hend])
    have hwalked := hi.walked b hb
    rw [hold, List.take_of_length_le (by simp [keys])] at hwalked
    exact (huses.union hwalked).weaken .inl fun _ => .inr
  have hpreds {b c : ℕ} {us : List ℕ} (h : (b, us) ∈ ctx.flow.preds c) : c < ctx.bbs.length := by
    by_contra hge
    have hnone : ctx.bbs[c]? = none := List.getElem?_eq_none_iff.2 (not_lt.1 hge)
    have hnil : ctx.flow.preds c = [] := by simp only [flow, hnone]
    rw [hnil] at h
    cases h
  have hclosed : ctx.flow.Closed fun b l => l ∈ keys st b :=
    ⟨fun hp => (hdone _ (hpreds hp)).edgeUse trivial hp, fun hp => (hdone _ (hpreds hp)).edge hp⟩
  refine ⟨fun b _ l => ⟨hi.sound b l, fun h => FlowGraph.liveBefore_nil.1 (hclosed.of_live h)⟩, ?_⟩
  intro h0 b hb before id after d l hsplit hd hne hl
  exact (hdone b hb).separated h0 before id after d l hsplit hd hne (hclosed.of_live hl)

end Loop

/-- **The liveness is exact**: the loop ends with the live ranges that are live at the end of each
block, and all that get in each other's way interfere. -/
theorem liveness_exact (hw : ctx.WellScheduled lrgs)
    (hn : ctx.mode = .withColoring → ctx.usedLrgs < 2 ^ 16) :
    ∃ fuel st, ctx.livenessLoop fuel (ctx.livenessStart lrgs) = some st ∧ ctx.Exact st := by
  have hc : ctx.Countable := by
    cases hm : ctx.mode with
    | withScan => exact .inl (by rw [bitLength, hm])
    | withColoring => exact .inr (hn hm)
  obtain ⟨st, hst⟩ := exists_livenessLoop hw hc _ liveInv_start (Nat.lt_succ_self _)
  obtain ⟨hi, hend⟩ := liveInv_start.livenessLoop hw hc hst
  obtain ⟨hout, hsep⟩ := hi.exact hend
  refine ⟨_, st, hst, hout, hi.ranges.symm, ?_⟩
  intro hm b hb before id after d l hsplit hd hne hl
  refine hsep (fun h0 => ?_) b hb before id after d l hsplit hd hne hl
  -- there is a live range, so the matrix is not empty
  have hpos : d < ctx.usedLrgs := by
    have hdefs : ctx.flow.defs id =
        if (ctx.gmetas id).isDef then some (ctx.lrgTable id) else none := rfl
    rw [hdefs] at hd
    split_ifs at hd with hdef
    have hbb : ctx.flow.instrs b = ctx.bbs[b].instrs := by
      show (ctx.bbs[b]?.map BasicBlock.instrs).getD [] = _
      rw [List.getElem?_eq_getElem hb]
      rfl
    have hid : id ∈ ctx.bbs[b].instrs := by
      rw [← hbb, hsplit]
      simp
    exact Option.some.inj hd ▸ hw.def_lt _ (List.getElem_mem hb) id hid hdef
  rw [bitLength, hm] at h0
  dsimp only at h0
  rw [Nat.mod_eq_of_lt (mul_self_usedLrgs_lt (hn hm)), Nat.mul_eq_zero, or_self] at h0
  omega

/-! ### A chain of conversions -/

/-- A parameter, `n - 1` conversions of it one after another, and a return of the first and the last
value.  The values are the nodes `1` to `n`. -/
@[grind =] def chain (n : ℕ) : LiveCtx where
  prc :=
    { mem := fun id =>
        if id = n + 1 then { itype := .entry }
        else if id = n + 2 then { itype := .mem, dt := .mem, inps := [n + 1] }
        else if id = n + 3 then { itype := .return_, inps := [n + 1, n + 2, 1, n] }
        else if id = 1 then { itype := .param, dt := .i64, inps := [n + 1] }
        else { itype := .conv, dt := .i64, inps := [id - 1] }
      pos := n + 4
      entry := n + 1
      end_ := n + 3 }
  bbs := [⟨n + 1, (n + 2) :: (List.range' 1 n ++ [n + 3])⟩]
  gmetas := fun id =>
    if id = n + 3 then ⟨false, 2, 2, []⟩
    else if n < id then ⟨false, 0, 0, []⟩
    else if id = 1 then ⟨true, 1, 0, []⟩
    else ⟨true, 0, 1, []⟩
  callClobbers := []
  lrgTable := fun id => id - 1
  usedLrgs := n
  mode := .withColoring

/-- Two registers for each of them. -/
def chainLrgs : Lrgs where
  parent := fun _ => none
  rank := fun _ => 0
  mask := fun _ => ⟨0, 64, {0, 1}⟩
  fails := fun _ => ∅

section Chain

variable {n : ℕ}

theorem mem_chain_instrs {bb : BasicBlock} (hbb : bb ∈ (chain n).bbs) {id : ℕ} :
    id ∈ bb.instrs ↔ id = n + 2 ∨ (1 ≤ id ∧ id ≤ n) ∨ id = n + 3 := by
  obtain rfl := List.mem_singleton.1 hbb
  simp only [List.mem_cons, List.mem_append, List.mem_range'_1, List.not_mem_nil, or_false]
  have : id < 1 + n ↔ id ≤ n := by omega
  rw [this]

theorem chain_node {id : ℕ} (h1 : 1 < id) (h2 : id ≤ n) :
    (chain n).prc.getNode id = { itype := .conv, dt := .i64, inps := [id - 1] } := by
  have h0 : id ≠ 0 := by omega
  have hne : id ≠ n + 1 ∧ id ≠ n + 2 ∧ id ≠ n + 3 ∧ id ≠ 1 := by omega
  simp [Proc.getNode, chain, h0, hne]

theorem chain_param (hn : 0 < n) :
    (chain n).prc.getNode 1 = { itype := .param, dt := .i64, inps := [n + 1] } := by
  simp [Proc.getNode, chain, hn.ne']

theorem chain_entry (n : ℕ) : (chain n).prc.getNode (n + 1) = { itype := .entry } := by
  simp [Proc.getNode, chain]

theorem chain_mem (n : ℕ) :
    (chain n).prc.getNode (n + 2) = { itype := .mem, dt := .mem, inps := [n + 1] } := by
  simp [Proc.getNode, chain]

theorem chain_return (n : ℕ) :
    (chain n).prc.getNode (n + 3) = { itype := .return_, inps := [n + 1, n + 2, 1, n] } := by
  simp [Proc.getNode, chain]

theorem chain_dataDeps (hn : 0 < n) {bb : BasicBlock} (hbb : bb ∈ (chain n).bbs) {id : ℕ}
    (hid : id ∈ bb.instrs) : (chain n).dataDeps id = some
      (if id = n + 3 then [1, n] else if 1 < id ∧ id ≤ n then [id - 1] else []) := by
  unfold dataDeps
  rcases (mem_chain_instrs hbb).1 hid with rfl | ⟨h1, h2⟩ | rfl
  · rw [chain_mem]
    simp [chain]
  · rcases Nat.eq_or_lt_of_le h1 with rfl | h1
    · rw [chain_param hn]
      have hne : ¬ n < 1 := by omega
      simp [chain, hne]
    · rw [chain_node h1 h2]
      have hne : id ≠ n + 3 ∧ ¬ n < id ∧ id ≠ 1 := by omega
      simp [chain, hne, h1, h2]
  · rw [chain_return]
    simp [chain]

theorem chain_itype (hn : 0 < n) {bb : BasicBlock} (hbb : bb ∈ (chain n).bbs) {id : ℕ}
    (hid : id ∈ bb.instrs) : ((chain n).prc.getNode id).itype ∈
      [NodeType.mem, .return_, .param, .conv] := by
  rcases (mem_chain_instrs hbb).1 hid with rfl | ⟨h1, h2⟩ | rfl
  · rw [chain_mem]
    simp
  · rcases Nat.eq_or_lt_of_le h1 with rfl | h1
    · rw [chain_param hn]
      simp
    · rw [chain_node h1 h2]
      simp
  · rw [chain_return]
    simp

theorem chain_clobbers (hn : 0 < n) {bb : BasicBlock} (hbb : bb ∈ (chain n).bbs) {id : ℕ}
    (hid : id ∈ bb.instrs) : (chain n).clobbers id = some [] := by
  have hmeta : ((chain n).gmetas id).clobbers = [] := by
    dsimp only [chain]
    split_ifs <;> rfl
  have hty := chain_itype hn hbb hid
  simp only [List.mem_cons, List.not_mem_nil, or_false] at hty
  unfold clobbers
  rcases hty with h | h | h | h <;> (dsimp only; rw [h]; exact congrArg some hmeta)

theorem chain_wellScheduled (hn : 0 < n) : (chain n).WellScheduled chainLrgs where
  id_ne := by
    intro bb hbb (id : ℕ) hid
    show ¬ (id : ℕ) = 0
    rcases (mem_chain_instrs hbb).1 hid with h | h | h <;> omega
  def_lt := by
    intro bb hbb (id : ℕ) hid hdef
    rcases (mem_chain_instrs hbb).1 hid with rfl | h | rfl
    · simp [chain] at hdef
    · show id - 1 < n
      omega
    · simp [chain] at hdef
  deps := by
    intro bb hbb (id : ℕ) hid _
    refine ⟨_, chain_dataDeps hn hbb hid, ?_⟩
    intro (inp : ℕ) hinp
    show inp ≠ 0 ∧ inp - 1 < n
    split_ifs at hinp with h1 h2
    · rcases List.mem_pair.1 hinp with rfl | rfl <;> omega
    · obtain rfl := List.mem_singleton.1 hinp
      omega
    · cases hinp
  clobbers := fun bb hbb id hid => ⟨[], chain_clobbers hn hbb hid, .inl rfl⟩
  preds := by
    intro bb hbb pred hpred
    obtain rfl := List.mem_singleton.1 hbb
    rw [chain_entry] at hpred
    cases hpred
  phi_mem := by
    intro bb hbb phi hphi _
    constructor
    · intro hid
      have hty := chain_itype hn hbb hid
      rw [hphi] at hty
      exact absurd hty (by decide)
    · rintro ⟨idx, h⟩
      obtain rfl := List.mem_singleton.1 hbb
      rw [chain_entry] at h
      cases h
  phi := by
    intro bb hbb phi hid hphi
    have hty := chain_itype hn hbb hid
    rw [hphi] at hty
    exact absurd hty (by decide)
  bitLength := fun _ _ _ _ => rfl
  mask := by
    refine fun _ _ => ⟨?_, ?_⟩
    · show 64 ≠ 0
      decide
    · show ∀ reg ∈ ({0, 1} : Finset ℕ), reg < 64
      decide

/-- The liveness of a short chain. -/
theorem liveness_exact_chain : ∃ fuel st,
    (chain 3).livenessLoop fuel ((chain 3).livenessStart chainLrgs) = some st ∧
      (chain 3).Exact st :=
  liveness_exact (chain_wellScheduled (by decide)) (fun _ => by decide)

/-- The parameter is live after the first conversion. -/
theorem chain_live (hn : 2 ≤ n) : ∃ before after,
    (chain n).flow.instrs 0 = before ++ 2 :: after ∧ (chain n).flow.Live 0 0 after := by
  refine ⟨[n + 2, 1], List.range' 3 (n - 2) ++ [n + 3], ?_, .of_exposed ?_⟩
  · obtain ⟨k, rfl⟩ := Nat.exists_eq_add_of_le' hn
    show (k + 2 + 2) :: (List.range' 1 (k + 2) ++ [k + 2 + 3]) = _
    simp [List.range'_succ]
  · refine .append ?_ (.inl ?_)
    · rintro ⟨(id : ℕ), hid, hdef⟩
      have hid' := List.mem_range'_1.1 hid
      have hdefs : (chain n).flow.defs id =
          if ((chain n).gmetas id).isDef then some (id - 1) else none := rfl
      rw [hdefs] at hdef
      split_ifs at hdef
      have hsub : id - 1 = 0 := Option.some.inj hdef
      omega
    · have huses : (chain n).flow.uses (n + 3) =
          if ((chain n).prc.getNode (n + 3)).itype = .phi then []
          else (((chain n).dataDeps (n + 3)).getD []).map (chain n).lrgTable := rfl
      rw [huses, chain_return, if_neg NodeType.noConfusion,
        chain_dataDeps (by omega) List.mem_cons_self (by simp), if_pos rfl]
      exact List.mem_cons_self

/-- **With `65536` live ranges there is no interference**: the number of bits does not fit. -/
theorem liveness_inexact : ¬ ∀ (ctx : LiveCtx) (lrgs : Lrgs), ctx.WellScheduled lrgs →
    ∃ fuel st, ctx.livenessLoop fuel (ctx.livenessStart lrgs) = some st ∧
      (st.ranges.selfConflicts = [] → ctx.Exact st) := by
  intro h
  have hpos : 0 < 2 ^ 16 := by decide
  have hlen : (chain (2 ^ 16)).bitLength = 0 := rfl
  obtain ⟨fuel, st, hst, hex⟩ := h (chain (2 ^ 16)) chainLrgs (chain_wellScheduled hpos)
  obtain ⟨hi, -⟩ := liveInv_start.livenessLoop (chain_wellScheduled hpos) (.inl hlen) hst
  have hquiet : st.ranges.selfConflicts = [] := by
    refine hi.ranges.quiet ?_
    intro (a : ℕ) (b : ℕ) (ha : ¬ (a : ℕ) = 0) (hb : ¬ (b : ℕ) = 0) (hab : a - 1 = b - 1)
    show (a : ℕ) = b
    omega
  obtain ⟨hint, hmask⟩ := hi.ranges.untouched hlen
  specialize hmask fun bb hbb id hid => chain_clobbers hpos hbb hid
  obtain ⟨before, after, hsplit, hlive⟩ := @chain_live (2 ^ 16) (by decide)
  have hbad := (hex hquiet).interferes rfl 0 (by decide) before 2 after 1 0 hsplit rfl (by decide)
    hlive (by rw [hmask]; exact ⟨rfl, by decide⟩)
  rw [Interferes, hint] at hbad
  cases hbad

end Chain

end LiveCtx

end OdinSon.Regalloc
