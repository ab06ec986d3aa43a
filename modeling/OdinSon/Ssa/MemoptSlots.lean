import OdinSon.Bac.OffsetIter
import Mathlib.Tactic.IntervalCases

/-!
# Which locals leave the memory

The first part of `memopt` (`bac/ssa/memopt.odin`): it goes through the uses of the address of a
local, and decides whether the local is renamed to values (`Place.ssa`), gets a memory thread of its
own (`Place.thread`) or stays where it is (`Place.memory`).

For the first two, all uses of the address should be as the address of a load, a store or a set.  A
use that reaches beyond the end of the local is not looked at any further, so that there it may be
anything that `mem_op_size` knows but a copy: also the value of a store (`memoptPlace_uses_iff`).
-/

namespace OdinSon

open MachInt

/-- `Slot`: the bytes of a local that are used together. -/
structure Slot where
  /-- The first byte. -/
  start : ℤ
  /-- The first byte behind. -/
  end_ : ℤ
  deriving DecidableEq

/-- What `collect_slot` keeps while it goes through the uses. -/
structure CollectState where
  /-- The slots so far. -/
  slots : List Slot := []
  /-- The slots do not become values. -/
  failedSroa : Bool := false
  /-- The local is not split into its slots. -/
  failedSplit : Bool := false

/-- How `collect_slot` goes on after a use. -/
inductive CollectStep where
  | next (st : CollectState)
  | break_ (st : CollectState)
  /-- `continue sroa`. -/
  | abandon

/-- Where a local is kept. -/
inductive Place where
  | ssa (slots : List Slot)
  | thread
  | memory
  deriving DecidableEq

/-- The loop over the slots: a slot is used by accesses to the same bytes, and there are at most
eight. -/
def CollectState.addSlot (st : CollectState) (newSlot : Slot) : CollectState :=
  match st.slots.find? fun slot => !(slot.end_ ≤ newSlot.start || newSlot.end_ ≤ slot.start) with
  | some slot => if slot ≠ newSlot then { st with failedSroa := true } else st
  | none =>
    if st.slots.length < 8 then { st with slots := st.slots ++ [newSlot] }
    else { st with failedSroa := true }

section Code

variable (prc : Proc)

/-- The end of a use of the address at `offset`, as an `i32`. -/
def useEnd (offset size : ℤ) : ℤ := wrap 32 (wrap 64 (offset + size))

/-- The body of `collect_slot`. -/
@[grind =] def collectStep (slotSize : ℤ) (out : NodeOutput) (offset : ℤ) (st : CollectState) : CollectStep :=
  let onode := prc.getNode out.id
  match prc.memOpSize out.id with
  | none => .break_ { st with failedSroa := true, failedSplit := true }
  | some size =>
    let st := if onode.itype = .copy then { st with failedSplit := true } else st
    if useEnd offset size > slotSize then .next { st with failedSroa := true }
    else if out.idx ≠ 2 then .abandon
    else if onode.itype = .copy ∨ onode.itype = .set then .next { st with failedSroa := true }
    else .next (st.addSlot ⟨wrap 32 offset, useEnd offset size⟩)

/-- `collect_slot`; the inner `none` when the local is abandoned. -/
def collectSlot (slotSize : ℤ) : ℕ → OffsetIter → CollectState → Option (Option CollectState)
  | 0, _, _ => none
  | fuel + 1, iter, st => do
    match ← prc.offsetIterNext fuel iter with
    | none => some (some st)
    | some (out, iter) =>
      match collectStep prc slotSize out iter.offset st with
      | .next st => collectSlot slotSize fuel iter st
      | .break_ st => some (some st)
      | .abandon => some none

/-- All uses that the iterator comes to. -/
def offsetUses : ℕ → OffsetIter → Option (List NodeId)
  | 0, _ => none
  | fuel + 1, iter => do
    match ← prc.offsetIterNext fuel iter with
    | none => some []
    | some (out, iter) => return out.id :: (← offsetUses fuel iter)

/-- A user of a memory that belongs to no other thread. -/
def outLoose (ops : List NodeId) (opout : NodeId) : Bool :=
  if ops.contains opout then true
  else
    let oponode := prc.getNode opout
    let oponode :=
      if oponode.itype = .mergeMem ∧ oponode.outs.length = 1 then
        prc.getNode (oponode.outs.getD 0 default).id
      else oponode
    oponode.itype = .always || oponode.itype = .trap || oponode.itype = .return_ ||
      oponode.itype = .phi

/-- The block `inp_restricted`. -/
def inpLoose (ops : List NodeId) (inp : NodeId) : Bool :=
  if ops.contains inp then true
  else
    let opinode := prc.getNode inp
    if opinode.itype = .mem then
      let opinode := prc.getNode (opinode.inp 0)
      let opinode := if opinode.itype = .splitMem then prc.getNode (opinode.inp 0) else opinode
      let opinode := if opinode.itype = .mem then prc.getNode (opinode.inp 0) else opinode
      opinode.itype = .entry || opinode.itype = .phi
    else opinode.itype = .phi

/-- `already_loose`: the operations of the thread are on a memory of their own already; `none` when
there is an operation other than a load, a store or a set. -/
def alreadyLoose (ops : List NodeId) : Option Bool :=
  ops.foldrM (fun op loose =>
    let opnode := prc.getNode op
    match opnode.itype with
    | .load => some (loose && inpLoose prc ops (opnode.inp 1))
    | .store | .set =>
      some (loose && opnode.outs.all (fun out => outLoose prc ops out.id) &&
        inpLoose prc ops (opnode.inp 1))
    | _ => none) true

end Code

/-- What becomes of a local, with the address `addr`.  The threads are looked at once all locals have
been, in `prc'`. -/
def memoptPlaceAt (prc prc' : Proc) (fuel : ℕ) (slotSize : ℤ) (addr : NodeId) : Option Place := do
  match ← collectSlot prc slotSize fuel ⟨addr, 0, 0⟩ {} with
  | none => some .memory
  | some st =>
    if st.failedSroa then
      if st.failedSplit then some .memory
      else if ← alreadyLoose prc' (← offsetUses prc' fuel ⟨addr, 0, 0⟩) then some .memory
      else some .thread
    else some (.ssa st.slots)

/-- The size of a local, from its extra. -/
def localSize (prc : Proc) (local_ : NodeId) : ℤ := wrap 32 ((prc.getNode local_).extra.getD 0 0 : ℕ)

/-- The loop `sroa`, for one local; `none` also when its assertions fail. -/
def memoptPlace (prc prc' : Proc) (fuel : ℕ) (local_ : NodeId) : Option Place :=
  match (prc.getNode local_).outs with
  | [out] =>
    if (prc.getNode out.id).itype = .localAddr then
      memoptPlaceAt prc prc' fuel (localSize prc local_) out.id
    else none
  | _ => none

/-! ### What the scan has seen -/

section Scan

variable (prc : Proc)

/-- The use is as the address of a load, a store or a set. -/
def AddrOperand (out : NodeOutput) : Prop :=
  out.idx = 2 ∧ ((prc.getNode out.id).itype = .load ∨ (prc.getNode out.id).itype = .store ∨
    (prc.getNode out.id).itype = .set)

/-- A use that keeps the local where it is. -/
def Rejected (slotSize : ℤ) (out : NodeOutput) (off : ℤ) : Prop :=
  prc.memOpSize out.id = none ∨ (prc.getNode out.id).itype = .copy ∨
    out.idx ≠ 2 ∧ ∃ size, prc.memOpSize out.id = some size ∧ useEnd off size ≤ slotSize

/-- An escape that the scan does not notice: it reaches beyond the end of the local. -/
def Unnoticed (slotSize : ℤ) (out : NodeOutput) (off : ℤ) : Prop :=
  out.idx ≠ 2 ∧ (prc.getNode out.id).itype ≠ .copy ∧
    ∃ size, prc.memOpSize out.id = some size ∧ slotSize < useEnd off size

/-- What the flags say about a use that the scan has come to. -/
structure Scanned (slotSize : ℤ) (st : CollectState) (out : NodeOutput) (off : ℤ) : Prop where
  memOp : (prc.memOpSize out.id).isSome = true
  copy : (prc.getNode out.id).itype = .copy → st.failedSroa = true ∧ st.failedSplit = true
  beyond : ∀ size, prc.memOpSize out.id = some size → slotSize < useEnd off size →
    st.failedSroa = true
  within : ∀ size, prc.memOpSize out.id = some size → useEnd off size ≤ slotSize → out.idx = 2

end Scan

/-- Flags are only ever set. -/
structure CollectState.Le (st st' : CollectState) : Prop where
  sroa : st.failedSroa = true → st'.failedSroa = true
  split : st.failedSplit = true → st'.failedSplit = true

section Collect

variable {prc : Proc} {slotSize off : ℤ} {out : NodeOutput} {st st' st'' : CollectState}

theorem CollectState.Le.trans (h : st.Le st') (h' : st'.Le st'') : st.Le st'' :=
  ⟨fun hs => h'.sroa (h.sroa hs), fun hs => h'.split (h.split hs)⟩

theorem Scanned.mono (h : Scanned prc slotSize st out off) (hle : st.Le st') :
    Scanned prc slotSize st' out off where
  memOp := h.memOp
  copy := fun hc => ⟨hle.sroa (h.copy hc).1, hle.split (h.copy hc).2⟩
  beyond := fun size hs hlt => hle.sroa (h.beyond size hs hlt)
  within := h.within

theorem addSlot_failedSplit (st : CollectState) (slot : Slot) :
    (st.addSlot slot).failedSplit = st.failedSplit := by
  unfold CollectState.addSlot
  split
  · split_ifs <;> rfl
  · split_ifs <;> rfl

theorem addSlot_failedSroa (st : CollectState) (slot : Slot) (h : st.failedSroa = true) :
    (st.addSlot slot).failedSroa = true := by
  unfold CollectState.addSlot
  split
  · split_ifs <;> first | rfl | exact h
  · split_ifs <;> first | rfl | exact h

theorem addSlot_le (st : CollectState) (slot : Slot) : st.Le (st.addSlot slot) :=
  ⟨addSlot_failedSroa st slot, fun h => by rwa [addSlot_failedSplit]⟩

/-- A use after which the scan goes on. -/
theorem collectStep_next (h : collectStep prc slotSize out off st = .next st') :
    st.Le st' ∧ Scanned prc slotSize st' out off ∧
      (st'.failedSplit = true → st.failedSplit = true ∨ (prc.getNode out.id).itype = .copy) := by
  unfold collectStep at h
  dsimp only at h
  split at h
  · cases h
  next size hs =>
  have hsize {size'} (h' : prc.memOpSize out.id = some size') : size' = size := by
    rw [hs] at h'
    exact (Option.some.inj h').symm
  have hmem : (prc.memOpSize out.id).isSome = true := by rw [hs]; rfl
  -- the state once a copy has been noticed
  generalize hst₁ : (if (prc.getNode out.id).itype = .copy then
    { st with failedSplit := true } else st) = st₁ at h
  have hle : st.Le st₁ := by
    rw [← hst₁]
    split_ifs
    · exact ⟨id, fun _ => rfl⟩
    · exact ⟨id, id⟩
  have hcopy : (prc.getNode out.id).itype = .copy → st₁.failedSplit = true := by
    intro hc
    rw [← hst₁, if_pos hc]
  have hsplit : st₁.failedSplit = true →
      st.failedSplit = true ∨ (prc.getNode out.id).itype = .copy := by
    rw [← hst₁]
    split_ifs with hc
    · exact fun _ => .inr hc
    · exact .inl
  split_ifs at h with hover hidx hset
  · cases h
    refine ⟨hle.trans ⟨fun _ => rfl, id⟩, ⟨hmem, fun hc => ⟨rfl, hcopy hc⟩, fun _ _ _ => rfl, ?_⟩,
      hsplit⟩
    intro size' h' hwithin
    rw [hsize h'] at hwithin
    omega
  · cases h
    exact ⟨hle.trans ⟨fun _ => rfl, id⟩, ⟨hmem, fun hc => ⟨rfl, hcopy hc⟩, fun _ _ _ => rfl,
      fun _ _ _ => not_not.1 hidx⟩, hsplit⟩
  · cases h
    refine ⟨hle.trans (addSlot_le st₁ _), ⟨hmem, fun hc => absurd (.inl hc) hset, ?_,
      fun _ _ _ => not_not.1 hidx⟩, ?_⟩
    · intro size' h' hlt
      rw [hsize h'] at hlt
      exact absurd hlt hover
    · rw [addSlot_failedSplit]
      exact hsplit

theorem collectStep_break (h : collectStep prc slotSize out off st = .break_ st') :
    prc.memOpSize out.id = none ∧ st'.failedSroa = true ∧ st'.failedSplit = true := by
  unfold collectStep at h
  dsimp only at h
  split at h
  · next hs =>
    cases h
    exact ⟨hs, rfl, rfl⟩
  · split_ifs at h

theorem collectStep_abandon (h : collectStep prc slotSize out off st = .abandon) :
    Rejected prc slotSize out off := by
  unfold collectStep at h
  dsimp only at h
  split at h
  · cases h
  next size hs =>
  generalize (if (prc.getNode out.id).itype = .copy then
    { st with failedSplit := true } else st) = st₁ at h
  split_ifs at h with hover hidx hset
  exact .inr (.inr ⟨hidx, size, hs, not_lt.1 hover⟩)

variable (hD : prc.DefUse) (hB : prc.AddsBinary) {a : NodeId} (ha : prc.IsRoot a)

include hD hB ha

/-- **The scan comes to every use**, unless both flags are set before. -/
theorem collectSlot_some {fuel : ℕ} {it : OffsetIter}
    (hit : prc.DerivedAddr a 0 it.curr it.offset)
    (h : collectSlot prc slotSize fuel it st = some (some st')) :
    st.Le st' ∧ (st'.failedSplit = true → st.failedSplit = true ∨
        ∃ out off, prc.DerivedUse a 0 out off ∧ Rejected prc slotSize out off) ∧
      (st'.failedSroa = true ∧ st'.failedSplit = true ∨
        ∀ out off, prc.Pending it out off → Scanned prc slotSize st' out off) := by
  induction fuel generalizing it st with
  | zero => cases h
  | succ fuel ih =>
    obtain ⟨r, hr, h⟩ := Option.bind_eq_some_iff.1 h
    match r, hr with
    | none, hr =>
      cases h
      exact ⟨⟨id, id⟩, .inl, .inr fun out off hp =>
        absurd hp (Proc.offsetIterNext_none hD hB ha hit hr)⟩
    | some (out, it'), hr =>
      obtain ⟨hit', huse, hp⟩ := Proc.offsetIterNext_some hD hB ha hit hr
      dsimp only at h
      split at h
      · next st₁ hst =>
        obtain ⟨hle, hscan, hsplit⟩ := collectStep_next hst
        obtain ⟨hle', hsplit', hrest⟩ := ih hit' h
        refine ⟨hle.trans hle', fun hs => ?_, hrest.imp id fun hall u o hu => ?_⟩
        · rcases hsplit' hs with hs | hs
          · exact (hsplit hs).imp id fun hc => ⟨out, it'.offset, huse, .inr (.inl hc)⟩
          · exact .inr hs
        · rcases hp u o hu with ⟨rfl, rfl⟩ | hu
          · exact hscan.mono hle'
          · exact hall u o hu
      · next st₁ hst =>
        cases h
        obtain ⟨hn, hsroa, hsplit⟩ := collectStep_break hst
        exact ⟨⟨fun _ => hsroa, fun _ => hsplit⟩, fun _ => .inr ⟨out, it'.offset, huse, .inl hn⟩,
          .inl ⟨hsroa, hsplit⟩⟩
      · cases h

theorem collectSlot_none {fuel : ℕ} {it : OffsetIter}
    (hit : prc.DerivedAddr a 0 it.curr it.offset)
    (h : collectSlot prc slotSize fuel it st = some none) :
    ∃ out off, prc.DerivedUse a 0 out off ∧ Rejected prc slotSize out off := by
  induction fuel generalizing it st with
  | zero => cases h
  | succ fuel ih =>
    obtain ⟨r, hr, h⟩ := Option.bind_eq_some_iff.1 h
    match r, hr with
    | none, _ => cases h
    | some (out, it'), hr =>
      obtain ⟨hit', huse, -⟩ := Proc.offsetIterNext_some hD hB ha hit hr
      dsimp only at h
      split at h
      · exact ih hit' h
      · cases h
      · next hst => exact ⟨out, it'.offset, huse, collectStep_abandon hst⟩

end Collect

/-! ### Where the local ends up -/

section Place

variable {prc prc' : Proc} {fuel : ℕ} {slotSize : ℤ} {addr : NodeId} {place : Place}

/-- The thread of the local is on a memory of its own already, and stays as it is. -/
def Loose (prc' : Proc) (fuel : ℕ) (addr : NodeId) : Prop :=
  (offsetUses prc' fuel ⟨addr, 0, 0⟩).bind (alreadyLoose prc') = some true

theorem isRoot_of_localAddr (h : (prc.getNode addr).itype = .localAddr) : prc.IsRoot addr where
  ne_zero := by
    rintro rfl
    cases h
  live := by simp [Proc.live, h]
  constAdd := by simp [Proc.constAdd, h]
  cInt := by simp [Proc.cInt, h]

/-- The ways to end up where. -/
theorem memoptPlaceAt_cases (h : memoptPlaceAt prc prc' fuel slotSize addr = some place) :
    (collectSlot prc slotSize fuel ⟨addr, 0, 0⟩ {} = some none ∧ place = .memory) ∨
      ∃ st, collectSlot prc slotSize fuel ⟨addr, 0, 0⟩ {} = some (some st) ∧
        (st.failedSroa = true ∧ st.failedSplit = true ∧ place = .memory ∨
          st.failedSroa = true ∧ st.failedSplit = false ∧
            (Loose prc' fuel addr ∧ place = .memory ∨ ¬ Loose prc' fuel addr ∧ place = .thread) ∨
          st.failedSroa = false ∧ place = .ssa st.slots) := by
  obtain ⟨r, hr, h⟩ := Option.bind_eq_some_iff.1 h
  cases r with
  | none =>
    cases h
    exact .inl ⟨hr, rfl⟩
  | some st =>
    refine .inr ⟨st, hr, ?_⟩
    dsimp only at h
    cases hsroa : st.failedSroa with
    | false =>
      rw [hsroa, if_neg (by decide)] at h
      exact .inr (.inr ⟨rfl, (Option.some.inj h).symm⟩)
    | true =>
      rw [hsroa, if_pos rfl] at h
      cases hsplit : st.failedSplit with
      | true =>
        rw [hsplit, if_pos rfl] at h
        exact .inl ⟨rfl, rfl, (Option.some.inj h).symm⟩
      | false =>
        rw [hsplit, if_neg (by decide)] at h
        obtain ⟨ops, hops, h⟩ := Option.bind_eq_some_iff.1 h
        obtain ⟨loose, hloose, h⟩ := Option.bind_eq_some_iff.1 h
        have hl : Loose prc' fuel addr ↔ loose = true := by
          unfold Loose
          rw [hops, Option.bind_some, hloose, Option.some.injEq]
        refine .inr (.inl ⟨rfl, rfl, ?_⟩)
        rw [hl]
        split_ifs at h with hc
        · exact .inl ⟨hc, (Option.some.inj h).symm⟩
        · exact .inr ⟨hc, (Option.some.inj h).symm⟩

theorem Scanned.addrOperand {st : CollectState} {out : NodeOutput} {off : ℤ}
    (h : Scanned prc slotSize st out off) (hcopy : (prc.getNode out.id).itype ≠ .copy)
    (hun : ¬ Unnoticed prc slotSize out off) : AddrOperand prc out := by
  obtain ⟨size, hs⟩ := Option.isSome_iff_exists.1 h.memOp
  constructor
  · by_contra hidx
    refine hun ⟨hidx, hcopy, size, hs, not_le.1 fun hle => hidx (h.within size hs hle)⟩
  · unfold Proc.memOpSize at hs
    cases ht : (prc.getNode out.id).itype <;> simp [ht] at hs hcopy ⊢

theorem Scanned.not_rejected {st : CollectState} {out : NodeOutput} {off : ℤ}
    (h : Scanned prc slotSize st out off) (hst : st.failedSroa = false ∨ st.failedSplit = false) :
    ¬ Rejected prc slotSize out off := by
  rintro (hn | hc | ⟨hidx, size, hs, hle⟩)
  · have := h.memOp
    rw [hn] at this
    cases this
  · obtain ⟨h1, h2⟩ := h.copy hc
    rw [h1, h2] at hst
    simp at hst
  · exact hidx (h.within size hs hle)

/-- **Only locals whose address does not escape leave the memory**, exactly unless there is a use
beyond the end of the local that the scan does not look at, no other use keeps the local where it is
and the thread has still to be moved. -/
theorem memoptPlace_uses_iff (hD : prc.DefUse) (hB : prc.AddsBinary) {local_ : NodeId}
    {i : ℕ} (hout : (prc.getNode local_).outs = [⟨addr, i⟩])
    (h : memoptPlace prc prc' fuel local_ = some place) :
    (place ≠ .memory → ∀ out off, prc.DerivedUse addr 0 out off → AddrOperand prc out) ↔
      (∀ out off, prc.DerivedUse addr 0 out off → ¬ Unnoticed prc (localSize prc local_) out off) ∨
      (∃ out off, prc.DerivedUse addr 0 out off ∧ Rejected prc (localSize prc local_) out off) ∨
      Loose prc' fuel addr := by
  unfold memoptPlace at h
  rw [hout] at h
  dsimp only at h
  split_ifs at h with haddr
  have ha := isRoot_of_localAddr haddr
  generalize localSize prc local_ = slotSize at *
  rcases memoptPlaceAt_cases h with ⟨hr, rfl⟩ | ⟨st, hr, hplace⟩
  · exact ⟨fun _ => .inr (.inl (collectSlot_none hD hB ha .self hr)), fun _ hne => absurd rfl hne⟩
  obtain ⟨-, hsplit, hscan⟩ := collectSlot_some hD hB ha .self hr
  have hrej : st.failedSplit = true →
      ∃ out off, prc.DerivedUse addr 0 out off ∧ Rejected prc slotSize out off :=
    fun hs => (hsplit hs).resolve_left (by decide)
  rcases hplace with ⟨-, hs, rfl⟩ | hplace
  · exact ⟨fun _ => .inr (.inl (hrej hs)), fun _ hne => absurd rfl hne⟩
  -- from here on one of the flags is not set, so that the scan has come to every use
  have hflag : st.failedSroa = false ∨ st.failedSplit = false := by
    rcases hplace with ⟨-, hs, -⟩ | ⟨hs, -⟩
    · exact .inr hs
    · exact .inl hs
  have hall (out : NodeOutput) (off : ℤ) (hu : prc.DerivedUse addr 0 out off) :
      Scanned prc slotSize st out off := by
    rcases hscan with ⟨h1, h2⟩ | hscan
    · rw [h1, h2] at hflag
      simp at hflag
    · exact hscan out off (Proc.pending_of_derivedUse hu)
  have hcopy (out : NodeOutput) (off : ℤ) (hu : prc.DerivedUse addr 0 out off) :
      (prc.getNode out.id).itype ≠ .copy :=
    fun hc => (hall out off hu).not_rejected hflag (.inr (.inl hc))
  constructor
  · intro hP
    by_contra hc
    push Not at hc
    obtain ⟨⟨out, off, hu, hun⟩, -, hloose⟩ := hc
    obtain ⟨hidx, -, size, hs, hlt⟩ := hun
    have hsroa := (hall out off hu).beyond size hs hlt
    rcases hplace with ⟨-, -, ⟨hl, -⟩ | ⟨-, rfl⟩⟩ | ⟨hs, -⟩
    · exact hloose hl
    · exact hidx (hP (by simp) out off hu).1
    · rw [hsroa] at hs
      cases hs
  · intro hcond hne out off hu
    refine (hall out off hu).addrOperand (hcopy out off hu) ?_
    rcases hcond with hun | ⟨out', off', hu', hr'⟩ | hl
    · exact hun out off hu
    · exact absurd hr' ((hall out' off' hu').not_rejected hflag)
    · rintro ⟨-, -, size, hs, hlt⟩
      have hsroa := (hall out off hu).beyond size hs hlt
      rcases hplace with ⟨-, -, ⟨-, rfl⟩ | ⟨hn, -⟩⟩ | ⟨hs, -⟩
      · exact hne rfl
      · exact hn hl
      · rw [hsroa] at hs
        cases hs

end Place

/-! ### The address of a small local -/

/-- `x: i32`, a store with the address of `x` as its input `i` and the pointer `q` as the other
operand, and a call: for `i = 3`, `q^ = &x`. -/
def storeAddr (i : ℕ) : Proc where
  mem := fun id => [
    {},
    { itype := .entry, outs := [⟨2, 0⟩, ⟨5, 0⟩, ⟨6, 0⟩, ⟨7, 0⟩] },
    { itype := .mem, dt := .mem, isStore := true, inps := [1], outs := [⟨3, 0⟩, ⟨6, 1⟩] },
    { itype := .local, extra := [4, 0], inps := [2], outs := [⟨4, 0⟩] },
    { itype := .localAddr, dt := .i64, inps := [3], outs := [⟨6, i⟩] },
    { itype := .param, dt := .i64, inps := [1], outs := [⟨6, 5 - i⟩] },
    { itype := .store, dt := .mem, isStore := true,
      inps := if i = 2 then [1, 2, 4, 5] else [1, 2, 5, 4], outs := [⟨7, 1⟩] },
    { itype := .call, inps := [1, 6], outs := [⟨8, 0⟩] },
    { itype := .callEnd, inps := [7], outs := [⟨9, 0⟩, ⟨10, 0⟩] },
    { itype := .mem, dt := .mem, isStore := true, inps := [8], outs := [⟨10, 1⟩] },
    { itype := .return_, inps := [8, 9] }].getD id { itype := .dead }
  pos := 11
  entry := 1
  end_ := 0

theorem storeAddr_dead (i : ℕ) {id : ℕ} (h : 11 ≤ id) :
    (storeAddr i).getNode id = { itype := .dead } :=
  Proc.getNode_of_length_le _ h (by decide) rfl rfl

theorem addsBinary_storeAddr (i : ℕ) : (storeAddr i).AddsBinary := by
  intro (id : ℕ) h
  rcases lt_or_ge id 11 with hid | hid
  · interval_cases id <;> cases h
  · simp [storeAddr_dead i hid] at h

theorem defUse_storeAddr {i : ℕ} (hi : i = 2 ∨ i = 3) : (storeAddr i).DefUse := by
  refine .of_bounded (k := 11) (fun id hid => by simp [Proc.live, storeAddr_dead i hid]) ?_ ?_
  · rcases hi with rfl | rfl <;> decide
  · rcases hi with rfl | rfl <;> decide

theorem derivedUse_storeAddr {i : ℕ} {out : NodeOutput} {off : ℤ} :
    (storeAddr i).DerivedUse 4 0 out off ↔ out = ⟨6, i⟩ ∧ off = 0 := by
  have hstore : (storeAddr i).constAdd 6 = none := rfl
  rw [Proc.derivedUse_iff]
  constructor
  · rintro ⟨e, he, hu⟩
    obtain rfl : e = ⟨6, i⟩ := List.mem_singleton.1 he
    rcases hu with ⟨-, rfl, rfl⟩ | ⟨v, hv, -⟩
    · exact ⟨rfl, rfl⟩
    · rw [hstore] at hv
      cases hv
  · rintro ⟨rfl, rfl⟩
    exact ⟨⟨6, i⟩, List.mem_singleton_self _, .inl ⟨hstore, rfl, rfl⟩⟩

/-- A store to the local, of more bytes than it has, moves it to a thread. -/
theorem memoptPlace_uses_storeAddr : AddrOperand (storeAddr 2) ⟨6, 2⟩ := by
  have hplace : memoptPlace (storeAddr 2) (storeAddr 2) 4 3 = some .thread := by decide
  refine (memoptPlace_uses_iff (defUse_storeAddr (.inl rfl)) (addsBinary_storeAddr 2) rfl
    hplace).2 (.inl ?_) (by simp) ⟨6, 2⟩ 0 (derivedUse_storeAddr.2 ⟨rfl, rfl⟩)
  rintro out off hu ⟨hidx, -⟩
  obtain ⟨rfl, -⟩ := derivedUse_storeAddr.1 hu
  exact hidx rfl

/-- A store of its address does so as well. -/
theorem memoptPlace_unsound :
    ¬ ∀ (prc prc' : Proc) (fuel : ℕ) (local_ addr : NodeId) (i : ℕ) (place : Place), prc.DefUse →
      prc.AddsBinary → (prc.getNode local_).outs = [⟨addr, i⟩] →
      memoptPlace prc prc' fuel local_ = some place → place ≠ .memory →
      ∀ out off, prc.DerivedUse addr 0 out off → AddrOperand prc out := by
  intro h
  have hplace : memoptPlace (storeAddr 3) (storeAddr 3) 4 3 = some .thread := by decide
  have hout := h (storeAddr 3) (storeAddr 3) 4 3 4 0 .thread (defUse_storeAddr (.inr rfl))
    (addsBinary_storeAddr 3) rfl hplace (by simp) ⟨6, 3⟩ 0 (derivedUse_storeAddr.2 ⟨rfl, rfl⟩)
  exact absurd hout.1 (by decide)

end OdinSon
