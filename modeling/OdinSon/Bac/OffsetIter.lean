import OdinSon.Bac.Alias

/-!
# Going through the uses of an address

`offset_iter_next` (`bac/graph.odin`) goes depth first through the uses of an address and of what
additions of constants make of it.  It has no stack: an addition has its parent as input `0`, and
the place to go on with is looked up among the parent's outputs.

The uses that it has still to come to are `Pending`.  It leaves none of them out
(`offsetIterNext_some`, `offsetIterNext_none`).
-/

namespace OdinSon

open MachInt

/-- `Offset_Iter`. -/
structure OffsetIter where
  /-- The node whose uses are gone through. -/
  curr : NodeId
  /-- What has been added up to `curr`. -/
  offset : ℤ := 0
  /-- The next output of `curr`. -/
  outIdx : ℕ := 0

namespace Proc

variable (prc : Proc)

/-- The constant that the node adds to an address, if it is such an addition. -/
def constAdd (id : NodeId) : Option ℤ :=
  let node := prc.getNode id
  if node.itype = .bin .add ∧ node.dt.isInt = true then prc.cInt (node.inp 1) else none

/-- `offset_iter_next`, for at most `fuel` rounds: the next use, if there is one. -/
@[grind =] def offsetIterNext : ℕ → OffsetIter → Option (Option (NodeOutput × OffsetIter))
  | 0, _ => none
  | fuel + 1, iter =>
    let curr := prc.getNode iter.curr
    match curr.outs[iter.outIdx]? with
    | none =>
      match prc.constAdd iter.curr with
      | none => some none
      | some off => do
        let i ← (prc.getNode (curr.inp 0)).outs.idxOf? ⟨iter.curr, 0⟩
        offsetIterNext fuel ⟨curr.inp 0, wrap 64 (iter.offset - off), i + 1⟩
    | some next =>
      match prc.constAdd next.id with
      | some off => offsetIterNext fuel ⟨next.id, wrap 64 (iter.offset + off), 0⟩
      | none => some (some (next, { iter with outIdx := iter.outIdx + 1 }))

/-- What additions of constants make of the address `a`, at `off`. -/
inductive DerivedAddr (a : NodeId) (off : ℤ) : NodeId → ℤ → Prop
  | self : DerivedAddr a off a off
  | add {c : NodeId} {o v : ℤ} {e : NodeOutput} : DerivedAddr a off c o →
      e ∈ (prc.getNode c).outs → prc.constAdd e.id = some v →
      DerivedAddr a off e.id (wrap 64 (o + v))

/-- A use of such an address, other than to add a constant. -/
def DerivedUse (a : NodeId) (off : ℤ) (out : NodeOutput) (o : ℤ) : Prop :=
  ∃ c, prc.DerivedAddr a off c o ∧ out ∈ (prc.getNode c).outs ∧ prc.constAdd out.id = none

/-- An addition has two inputs. -/
def AddsBinary : Prop := ∀ id, (prc.getNode id).itype = .bin .add → (prc.getNode id).inps.length = 2

/-- The uses that come from the entry `e` of an address at `off`: itself, or those of the sum. -/
def EntryUse (e : NodeOutput) (off : ℤ) (out : NodeOutput) (o : ℤ) : Prop :=
  prc.constAdd e.id = none ∧ out = e ∧ o = off ∨
    ∃ v, prc.constAdd e.id = some v ∧ prc.DerivedUse e.id (wrap 64 (off + v)) out o

/-- The uses that the iterator has still to come to. -/
inductive Pending : OffsetIter → NodeOutput → ℤ → Prop
  | here {it : OffsetIter} {j : ℕ} {e out : NodeOutput} {o : ℤ} : it.outIdx ≤ j →
      (prc.getNode it.curr).outs[j]? = some e → prc.EntryUse e it.offset out o → Pending it out o
  | up {it : OffsetIter} {v : ℤ} {k : ℕ} {out : NodeOutput} {o : ℤ} :
      prc.constAdd it.curr = some v →
      (prc.getNode ((prc.getNode it.curr).inp 0)).outs.idxOf? ⟨it.curr, 0⟩ = some k →
      Pending ⟨(prc.getNode it.curr).inp 0, wrap 64 (it.offset - v), k + 1⟩ out o → Pending it out o

variable {prc}

theorem DerivedAddr.cons {a d : NodeId} {off o v : ℤ} {e : NodeOutput}
    (he : e ∈ (prc.getNode a).outs) (hv : prc.constAdd e.id = some v)
    (h : prc.DerivedAddr e.id (wrap 64 (off + v)) d o) : prc.DerivedAddr a off d o := by
  induction h with
  | self => exact .add .self he hv
  | add _ he' hv' ih => exact .add ih he' hv'

theorem DerivedAddr.cases_head {a d : NodeId} {off o : ℤ} (h : prc.DerivedAddr a off d o) :
    d = a ∧ o = off ∨ ∃ e ∈ (prc.getNode a).outs, ∃ v, prc.constAdd e.id = some v ∧
      prc.DerivedAddr e.id (wrap 64 (off + v)) d o := by
  induction h with
  | self => exact .inl ⟨rfl, rfl⟩
  | @add c o v e _ he hv ih =>
    right
    rcases ih with ⟨rfl, rfl⟩ | ⟨e', he', v', hv', hd⟩
    · exact ⟨e, he, v, hv, .self⟩
    · exact ⟨e', he', v', hv', hd.add he hv⟩

/-- The uses of an address are those of its entries. -/
theorem derivedUse_iff {a : NodeId} {off o : ℤ} {out : NodeOutput} :
    prc.DerivedUse a off out o ↔ ∃ e ∈ (prc.getNode a).outs, prc.EntryUse e off out o := by
  constructor
  · rintro ⟨c, hc, hout, hn⟩
    rcases hc.cases_head with ⟨rfl, rfl⟩ | ⟨e, he, v, hv, hd⟩
    · exact ⟨out, hout, .inl ⟨hn, rfl, rfl⟩⟩
    · exact ⟨e, he, .inr ⟨v, hv, c, hd, hout, hn⟩⟩
  · rintro ⟨e, he, ⟨hn, rfl, rfl⟩ | ⟨v, hv, c, hc, hout, hn⟩⟩
    · exact ⟨a, .self, he, hn⟩
    · exact ⟨c, .cons he hv hc, hout, hn⟩

/-! ### The iterator comes to every use -/

/-- The address that the iterator starts from. -/
structure IsRoot (prc : Proc) (a : NodeId) : Prop where
  ne_zero : a ≠ 0
  live : prc.live a = true
  constAdd : prc.constAdd a = none
  cInt : prc.cInt a = none

theorem constAdd_spec {id : NodeId} {v : ℤ} (h : prc.constAdd id = some v) :
    (prc.getNode id).itype = .bin .add ∧ prc.cInt ((prc.getNode id).inp 1) = some v := by
  unfold constAdd at h
  dsimp only at h
  split_ifs at h with hadd
  exact ⟨hadd.1, h⟩

section Root

variable (hD : prc.DefUse) (hB : prc.AddsBinary) {a : NodeId} (ha : prc.IsRoot a)

include hD ha

theorem DerivedAddr.live {c : NodeId} {o : ℤ} (h : prc.DerivedAddr a 0 c o) :
    c ≠ 0 ∧ prc.live c = true ∧ prc.cInt c = none := by
  induction h with
  | self => exact ⟨ha.ne_zero, ha.live, ha.cInt⟩
  | @add c o v e _ he hv ih =>
    have hadd := (constAdd_spec hv).1
    refine ⟨?_, ((hD.mem_outs_iff c ih.1 ih.2.1 e.id e.idx).1 he).1, ?_⟩
    · intro h0
      rw [h0] at hadd
      cases hadd
    · unfold Proc.cInt
      dsimp only
      rw [if_neg (by rw [hadd]; decide)]

include hB

/-- An address that a sum is made from is its input `0`, and listed as such. -/
theorem DerivedAddr.parent {c : NodeId} {o v : ℤ} {e : NodeOutput} (h : prc.DerivedAddr a 0 c o)
    (he : e ∈ (prc.getNode c).outs) (hv : prc.constAdd e.id = some v) :
    e = ⟨e.id, 0⟩ ∧ (prc.getNode e.id).inp 0 = c := by
  obtain ⟨h0, hl, hc⟩ := h.live hD ha
  have hi := ((hD.mem_outs_iff c h0 hl e.id e.idx).1 he).2
  obtain ⟨hadd, hcv⟩ := constAdd_spec hv
  have hlt : e.idx < 2 := hB e.id hadd ▸ (List.getElem?_eq_some_iff.1 hi).1
  have hinp : (prc.getNode e.id).inp e.idx = c := by
    unfold Node.inp
    rw [List.getD_eq_getElem?_getD, hi]
    rfl
  have h1 : e.idx ≠ 1 := by
    intro h1
    rw [h1] at hinp
    rw [hinp, hc] at hcv
    cases hcv
  obtain ⟨n, i⟩ := e
  obtain rfl : i = 0 := by
    dsimp only at hlt h1
    omega
  exact ⟨rfl, hinp⟩

end Root

theorem DerivedAddr.inS {a c : NodeId} {o : ℤ} (h : prc.DerivedAddr a 0 c o) : InS 64 o := by
  cases h with
  | self => exact ⟨by norm_num, by norm_num⟩
  | add => exact wrap_mem (by norm_num) _

theorem wrap_add_sub {o v : ℤ} (ho : InS 64 o) : wrap 64 (wrap 64 (o + v) - v) = o := by
  have h : wrap 64 (wrap 64 (o + v) - v) = wrap 64 (o + v - v) := Int.bmod_sub_bmod
  rw [h, add_sub_cancel_right, wrap_eq_self (by norm_num) ho]

section Root

variable (hD : prc.DefUse) (hB : prc.AddsBinary) {a : NodeId} (ha : prc.IsRoot a)

include hD hB ha

/-- From a sum the iterator comes back to the address it was made from. -/
theorem DerivedAddr.up {c : NodeId} {o v : ℤ} (h : prc.DerivedAddr a 0 c o)
    (hv : prc.constAdd c = some v) :
    prc.DerivedAddr a 0 ((prc.getNode c).inp 0) (wrap 64 (o - v)) := by
  cases h with
  | self =>
    rw [ha.constAdd] at hv
    cases hv
  | @add c o v' e hc he hv' =>
    rw [hv'] at hv
    cases hv
    rw [(hc.parent hD hB ha he hv').2, wrap_add_sub hc.inS]
    exact hc

end Root

/-! ### One round of the iterator -/

section Pending

variable {it : OffsetIter} {e u : NodeOutput} {v o : ℤ} {k : ℕ}

/-- What is pending comes from the current entry or from a later one. -/
theorem Pending.next (h : prc.Pending it u o)
    (he : (prc.getNode it.curr).outs[it.outIdx]? = some e) :
    prc.EntryUse e it.offset u o ∨ prc.Pending { it with outIdx := it.outIdx + 1 } u o := by
  cases h with
  | @here _ j e' _ _ hj hj' hu =>
    rcases Nat.lt_or_eq_of_le hj with hlt | rfl
    · exact .inr (.here hlt hj' hu)
    · rw [he] at hj'
      cases hj'
      exact .inl hu
  | up hv hk hp => exact .inr (.up hv hk hp)

/-- At the end of a list all that is pending is pending at the parent. -/
theorem Pending.up_of_none (h : prc.Pending it u o)
    (he : (prc.getNode it.curr).outs[it.outIdx]? = none) :
    ∃ v k, prc.constAdd it.curr = some v ∧
      (prc.getNode ((prc.getNode it.curr).inp 0)).outs.idxOf? ⟨it.curr, 0⟩ = some k ∧
      prc.Pending ⟨(prc.getNode it.curr).inp 0, wrap 64 (it.offset - v), k + 1⟩ u o := by
  cases h with
  | @here _ j e' _ _ hj hj' hu =>
    have hlt := (List.getElem?_eq_some_iff.1 hj').1
    have hle := List.getElem?_eq_none_iff.1 he
    omega
  | @up _ v k _ _ hv hk hp => exact ⟨v, k, hv, hk, hp⟩

theorem pending_of_derivedUse {c : NodeId} (h : prc.DerivedUse c v u o) :
    prc.Pending ⟨c, v, 0⟩ u o := by
  obtain ⟨e, he, hu⟩ := derivedUse_iff.1 h
  obtain ⟨j, hj⟩ := List.mem_iff_getElem?.1 he
  exact .here (Nat.zero_le j) hj hu

theorem idxOf?_of_nodup {l : List NodeOutput} (hl : l.Nodup) (h : l[k]? = some e) :
    l.idxOf? e = some k := by
  obtain ⟨hk, rfl⟩ := List.getElem?_eq_some_iff.1 h
  refine List.idxOf?_eq_some_iff.2 ⟨hk, rfl, fun j hj => ?_⟩
  rw [hl.getElem_inj_iff]
  exact hj.ne

variable (hD : prc.DefUse) (hB : prc.AddsBinary) {a : NodeId} (ha : prc.IsRoot a)

include hD hB ha

/-- Going down to a sum keeps what is pending. -/
theorem Pending.down (h : prc.Pending it u o) (hit : prc.DerivedAddr a 0 it.curr it.offset)
    (he : (prc.getNode it.curr).outs[it.outIdx]? = some e) (hv : prc.constAdd e.id = some v) :
    prc.Pending ⟨e.id, wrap 64 (it.offset + v), 0⟩ u o := by
  rcases h.next he with (⟨hn, -⟩ | ⟨v', hv', hu⟩) | hrest
  · rw [hn] at hv
    cases hv
  · rw [hv] at hv'
    cases hv'
    exact pending_of_derivedUse hu
  · obtain ⟨h0, hl, -⟩ := hit.live hD ha
    obtain ⟨hid, hinp⟩ := hit.parent hD hB ha (List.mem_of_getElem? he) hv
    have hk : (prc.getNode ((prc.getNode e.id).inp 0)).outs.idxOf? ⟨e.id, 0⟩ = some it.outIdx := by
      rw [hinp, ← hid]
      exact idxOf?_of_nodup (hD.nodup it.curr h0 hl) he
    refine .up hv hk ?_
    dsimp only
    rw [hinp, wrap_add_sub hit.inS]
    exact hrest

/-- **The next use, and nothing is left out**: what was pending is it or still pending. -/
theorem offsetIterNext_some {fuel : ℕ} {out : NodeOutput} {it' : OffsetIter}
    (hit : prc.DerivedAddr a 0 it.curr it.offset)
    (h : prc.offsetIterNext fuel it = some (some (out, it'))) :
    prc.DerivedAddr a 0 it'.curr it'.offset ∧ prc.DerivedUse a 0 out it'.offset ∧
      ∀ u o, prc.Pending it u o → u = out ∧ o = it'.offset ∨ prc.Pending it' u o := by
  induction fuel generalizing it with
  | zero => cases h
  | succ fuel ih =>
    unfold offsetIterNext at h
    dsimp only at h
    split at h
    · next he =>
      split at h
      · cases h
      · next v hv =>
        obtain ⟨k, hk, h⟩ := Option.bind_eq_some_iff.1 h
        obtain ⟨hit', huse, hp⟩ := ih (hit.up hD hB ha hv) h
        refine ⟨hit', huse, fun u o hu => hp u o ?_⟩
        obtain ⟨v', k', hv', hk', hu'⟩ := hu.up_of_none he
        rw [hv] at hv'
        cases hv'
        rw [hk] at hk'
        cases hk'
        exact hu'
    · next e he =>
      split at h
      · next v hv =>
        obtain ⟨hit', huse, hp⟩ := ih (hit.add (List.mem_of_getElem? he) hv) h
        exact ⟨hit', huse, fun u o hu => hp u o (hu.down hD hB ha hit he hv)⟩
      · next hn =>
        cases h
        refine ⟨hit, ⟨it.curr, hit, List.mem_of_getElem? he, hn⟩, fun u o hu => ?_⟩
        rcases hu.next he with (⟨-, hu, ho⟩ | ⟨v', hv', -⟩) | hrest
        · exact .inl ⟨hu, ho⟩
        · rw [hn] at hv'
          cases hv'
        · exact .inr hrest

/-- At its end nothing is pending. -/
theorem offsetIterNext_none {fuel : ℕ} (hit : prc.DerivedAddr a 0 it.curr it.offset)
    (h : prc.offsetIterNext fuel it = some none) : ¬ prc.Pending it u o := by
  induction fuel generalizing it with
  | zero => cases h
  | succ fuel ih =>
    intro hu
    unfold offsetIterNext at h
    dsimp only at h
    split at h
    · next he =>
      obtain ⟨v', k', hv', hk', hu'⟩ := hu.up_of_none he
      split at h
      · next hn =>
        rw [hn] at hv'
        cases hv'
      · next v hv =>
        rw [hv] at hv'
        cases hv'
        rw [hk'] at h
        exact ih (hit.up hD hB ha hv) h hu'
    · next e he =>
      split at h
      · next v hv =>
        exact ih (hit.add (List.mem_of_getElem? he) hv) h (hu.down hD hB ha hit he hv)
      · cases h

end Pending

end Proc

end OdinSon
