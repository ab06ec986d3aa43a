import OdinSon.Ssa.LocalForward

/-!
# The uses of a local that is replaced

The scan goes through every use of the local's address (`scanUses_spec`), and the walk back from the
copy stops when it has met as many operations on the local as the scan has counted.  So all of its
uses are on the way (`forward_uses`).
-/

namespace OdinSon

open MachInt

/-! ### What the scan has seen -/

section Scan

variable {prc : Proc}

/-- What a use is for the scan. -/
def ScanKind (prc : Proc) (scan : ForwardScan) (use : NodeOutput) : Prop :=
  prc.isStoreOp use.id = true ∧ use.idx = 2 ∨
    scan.forwardCandidate ≠ 0 ∧ use = ⟨scan.forwardCandidate, 3⟩ ∨ scan.loadBase ≠ 0 ∧
      (prc.getNode use.id).itype = .load ∧ (prc.getNode use.id).inp 1 = scan.loadBase

/-- What the scan has come to after the uses `ys`. -/
structure ForwardScanned (prc : Proc) (scan : ForwardScan) (ys : List NodeOutput) : Prop where
  count : scan.opCount = ys.length
  kind : ∀ y ∈ ys, ScanKind prc scan y
  forward : scan.forwardCandidate ≠ 0 →
    (prc.getNode scan.forwardCandidate).itype = .copy ∧ ⟨scan.forwardCandidate, 3⟩ ∈ ys
  rev : scan.revForwardCandidate ≠ 0 →
    (prc.getNode scan.revForwardCandidate).itype = .copy ∧ ⟨scan.revForwardCandidate, 2⟩ ∈ ys
  load : scan.loadBase ≠ 0 → ∃ y ∈ ys, (prc.getNode y.id).itype = .load

theorem ForwardScanned.step {scan scan' : ForwardScan} {ys : List NodeOutput} {y : NodeOutput}
    (h : ForwardScanned prc scan ys) (hs : scanUse prc scan y = some scan')
    (hload : (prc.getNode y.id).itype = .load → (prc.getNode y.id).inp 1 ≠ 0) :
    ForwardScanned prc scan' (ys ++ [y]) := by
  have hlen : scan.opCount + 1 = (ys ++ [y]).length := by
    rw [h.count, List.length_append, List.length_singleton]
  have hy : y ∈ ys ++ [y] := List.mem_append_right _ (List.mem_singleton_self y)
  have hys {x : NodeOutput} (hx : x ∈ ys) : x ∈ ys ++ [y] := List.mem_append_left _ hx
  unfold scanUse at hs
  dsimp only at hs
  split_ifs at hs with h1 h2 h3 h4
  · obtain rfl := Option.some.inj hs
    refine ⟨hlen, fun x hx => ?_, fun hf => (h.forward hf).imp_right hys, fun _ => ⟨h1.1, ?_⟩,
      fun hl => ?_⟩
    · rcases List.mem_append.1 hx with hx | hx
      · exact h.kind x hx
      · obtain rfl := List.mem_singleton.1 hx
        exact .inl ⟨by rw [Proc.isStoreOp, h1.1], h1.2.1⟩
    · rw [← h1.2.1]
      exact hy
    · obtain ⟨x, hx, hl⟩ := h.load hl
      exact ⟨x, hys hx, hl⟩
  · obtain rfl := Option.some.inj hs
    refine ⟨hlen, fun x hx => ?_, fun hf => (h.forward hf).imp_right hys,
      fun hr => (h.rev hr).imp_right hys, fun hl => ?_⟩
    · rcases List.mem_append.1 hx with hx | hx
      · exact h.kind x hx
      · obtain rfl := List.mem_singleton.1 hx
        exact .inl h2
    · obtain ⟨x, hx, hl⟩ := h.load hl
      exact ⟨x, hys hx, hl⟩
  · obtain rfl := Option.some.inj hs
    have hye : y = ⟨y.id, 3⟩ := by rw [← h3.2.1]
    refine ⟨hlen, fun x hx => ?_, fun _ => ⟨h3.1, hye ▸ hy⟩, fun hr => (h.rev hr).imp_right hys,
      fun hl => ?_⟩
    · rcases List.mem_append.1 hx with hx | hx
      · rcases h.kind x hx with hk | hk | hk
        · exact .inl hk
        · exact absurd h3.2.2 hk.1
        · exact .inr (.inr hk)
      · obtain rfl := List.mem_singleton.1 hx
        refine .inr (.inl ⟨?_, hye⟩)
        intro h0
        have hcopy := h3.1
        rw [show x.id = 0 from h0] at hcopy
        cases hcopy
    · obtain ⟨x, hx, hl⟩ := h.load hl
      exact ⟨x, hys hx, hl⟩
  · obtain rfl := Option.some.inj hs
    refine ⟨hlen, fun x hx => ?_, fun hf => (h.forward hf).imp_right hys,
      fun hr => (h.rev hr).imp_right hys, fun _ => ⟨y, hy, h4.1⟩⟩
    rcases List.mem_append.1 hx with hx | hx
    · rcases h.kind x hx with hk | hk | hk
      · exact .inl hk
      · exact .inr (.inl hk)
      · exact absurd h4.2 hk.1
    · obtain rfl := List.mem_singleton.1 hx
      exact .inr (.inr ⟨hload h4.1, h4.1, rfl⟩)

variable {id : NodeId} (hok : ForwardOk prc id)

include hok

theorem ForwardOk.inp_one_ne_zero {u : NodeId} (hu : prc.isMemOp u = true) :
    (prc.getNode u).inp 1 ≠ 0 := by
  intro h0
  have := hok.mem u hu
  rw [h0] at this
  cases this

theorem ForwardOk.isRoot : prc.IsRoot id := isRoot_of_localAddr hok.itype

/-- **The scan has seen every use** of the address. -/
theorem scanUses_spec {fuel : ℕ} {it : OffsetIter} {scan scan' : ForwardScan}
    {ys : List NodeOutput} (hit : prc.DerivedAddr id 0 it.curr it.offset)
    (hscan : ForwardScanned prc scan ys) (hyd : ∀ y ∈ ys, ∃ o, prc.DerivedUse id 0 y o)
    (h : scanUses prc fuel it scan = some (some scan')) :
    ∃ ys', ForwardScanned prc scan' ys' ∧ ys ⊆ ys' ∧ (∀ y ∈ ys', ∃ o, prc.DerivedUse id 0 y o) ∧
      ∀ u o, prc.Pending it u o → u ∈ ys' := by
  induction fuel generalizing it scan ys with
  | zero => cases h
  | succ fuel ih =>
    unfold scanUses at h
    obtain ⟨r, hr, h⟩ := Option.bind_eq_some_iff.1 h
    cases r with
    | none =>
      obtain rfl := Option.some.inj (Option.some.inj h)
      refine ⟨ys, hscan, fun _ h => h, hyd, fun u o hp => ?_⟩
      exact absurd hp (Proc.offsetIterNext_none hok.defUse hok.addsBinary hok.isRoot hit hr)
    | some next =>
      obtain ⟨user, it'⟩ := next
      dsimp only at h
      obtain ⟨hit', huse, hp⟩ :=
        Proc.offsetIterNext_some hok.defUse hok.addsBinary hok.isRoot hit hr
      split at h
      · cases h
      · next scan₁ hs =>
        have hstep := hscan.step hs fun hl =>
          hok.inp_one_ne_zero (by rw [Proc.isMemOp, hl])
        obtain ⟨ys', hscan', hsub, hyd', hpend⟩ := ih hit' hstep (fun y hy => by
          rcases List.mem_append.1 hy with hy | hy
          · exact hyd y hy
          · obtain rfl := List.mem_singleton.1 hy
            exact ⟨_, huse⟩) h
        refine ⟨ys', hscan', fun y hy => hsub (List.mem_append_left _ hy), hyd',
          fun u o hu => ?_⟩
        rcases hp u o hu with ⟨rfl, -⟩ | hu
        · exact hsub (List.mem_append_right _ (List.mem_singleton_self u))
        · exact hpend u o hu

/-- A local that is not marked dead is used by something else than a store to it. -/
theorem onlyStored_spec {fuel : ℕ} {it : OffsetIter}
    (hit : prc.DerivedAddr id 0 it.curr it.offset) (h : onlyStored prc fuel it = some false) :
    ∃ u o, prc.DerivedUse id 0 u o ∧ ¬ (prc.isStoreOp u.id = true ∧ u.idx = 2) := by
  induction fuel generalizing it with
  | zero => cases h
  | succ fuel ih =>
    unfold onlyStored at h
    obtain ⟨r, hr, h⟩ := Option.bind_eq_some_iff.1 h
    cases r with
    | none => cases h
    | some next =>
      obtain ⟨user, it'⟩ := next
      dsimp only at h
      obtain ⟨hit', huse, -⟩ := Proc.offsetIterNext_some hok.defUse hok.addsBinary hok.isRoot hit hr
      split_ifs at h with hs
      · exact ih hit' h
      · exact ⟨user, _, huse, hs⟩

end Scan

/-! ### The walk -/

/-- Each of the nodes is the memory of the one before it. -/
def BackChain (prc : Proc) : NodeId → List NodeId → Prop
  | _, [] => True
  | c, x :: xs => x = c ∧ BackChain prc ((prc.getNode c).inp 1) xs

/-- The address of the operation is a sum of the local's. -/
def OnLocal (prc : Proc) (fuel : ℕ) (id c : NodeId) : Prop :=
  ∃ o, prc.baseAndOffset fuel ((prc.getNode c).inp 2) = some (id, o)

section Walk

variable {prc : Proc} {fuel : ℕ} {id fc : NodeId}

/-- What the walk has gone through. -/
theorem forwardWalk_spec {rounds opCount : ℕ} {cursor : NodeId}
    (h : forwardWalk prc fuel id fc rounds cursor opCount = some true) :
    BackChain prc cursor (walked prc id fuel rounds cursor opCount) ∧
      (∀ c ∈ walked prc id fuel rounds cursor opCount, prc.isStoreOp c = true ∧
        (OnLocal prc fuel id c ∨ prc.isNoaliasOps fuel c fc = some true)) ∧
      ∃ loc : List NodeId, loc.Sublist (walked prc id fuel rounds cursor opCount) ∧
        loc.length = opCount ∧ ∀ c ∈ loc, OnLocal prc fuel id c := by
  induction rounds generalizing cursor opCount with
  | zero =>
    cases opCount with
    | zero => exact ⟨trivial, by simp [walked], [], List.Sublist.refl _, rfl, by simp⟩
    | succ n => cases h
  | succ rounds ih =>
    cases opCount with
    | zero => exact ⟨trivial, by simp [walked], [], List.nil_sublist _, rfl, by simp⟩
    | succ n =>
      unfold forwardWalk at h
      dsimp only at h
      split_ifs at h with hst
      swap
      · cases h
      obtain ⟨⟨base, o⟩, hb, h⟩ := Option.bind_eq_some_iff.1 h
      dsimp only at h
      unfold walked
      dsimp only
      rw [hb]
      dsimp only
      split_ifs at h with hbase
      · subst hbase
        rw [if_pos rfl]
        obtain ⟨hchain, hops, loc, hsub, hlen, hloc⟩ := ih h
        refine ⟨⟨rfl, hchain⟩, fun c hc => ?_, cursor :: loc, hsub.cons_cons _, by simp [hlen],
          fun c hc => ?_⟩
        · rcases List.mem_cons.1 hc with rfl | hc
          · exact ⟨hst, .inl ⟨o, hb⟩⟩
          · exact hops c hc
        · rcases List.mem_cons.1 hc with rfl | hc
          · exact ⟨o, hb⟩
          · exact hloc c hc
      · rw [if_neg hbase]
        obtain ⟨na, hna, h⟩ := Option.bind_eq_some_iff.1 h
        split_ifs at h with hnt
        swap
        · cases h
        subst hnt
        obtain ⟨hchain, hops, loc, hsub, hlen, hloc⟩ := ih h
        refine ⟨⟨rfl, hchain⟩, fun c hc => ?_, loc, hsub.cons _, hlen, hloc⟩
        rcases List.mem_cons.1 hc with rfl | hc
        · exact ⟨hst, .inr hna⟩
        · exact hops c hc

theorem BackChain.inp {c : NodeId} {cs : List NodeId} (h : BackChain prc c cs) :
    ∀ (i : ℕ) x, cs[i]? = some x → (i = 0 → x = c) ∧
      ∀ y, cs[i + 1]? = some y → (prc.getNode x).inp 1 = y := by
  induction cs generalizing c with
  | nil => exact fun i x hx => by simp at hx
  | cons a cs ih =>
    obtain ⟨rfl, hcs⟩ := h
    intro i x hx
    cases i with
    | zero =>
      obtain rfl := Option.some.inj hx
      refine ⟨fun _ => rfl, fun y hy => ?_⟩
      exact (((ih hcs) 0 y (by simpa using hy)).1 rfl).symm
    | succ i =>
      exact ⟨fun h => absurd h (Nat.succ_ne_zero i),
        ((ih hcs) i x (by simpa using hx)).2⟩

/-- The memory of the copy and of the operations before it. -/
theorem BackChain.cons_inp {cs : List NodeId} (h : BackChain prc ((prc.getNode fc).inp 1) cs)
    {i : ℕ} {u s : NodeId} (hu : (fc :: cs)[i]? = some u) (hs : cs[i]? = some s) :
    (prc.getNode u).inp 1 = s := by
  cases i with
  | zero =>
    obtain rfl := Option.some.inj hu
    exact ((h.inp 0 s hs).1 rfl).symm
  | succ i => exact (h.inp i u (by simpa using hu)).2 s hs

variable (hok : ForwardOk prc id)

include hok

/-- What leads down to the local is a sum of it. -/
theorem derivedAddr_of_baseAndOffset {n : NodeId} {off o : ℤ} (hl : prc.live n = true)
    (h : prc.baseAndOffsetFrom fuel n off = some (id, o)) : ¬ prc.NotFrom id n := by
  induction fuel generalizing n off with
  | zero => cases h
  | succ fuel ih =>
    unfold Proc.baseAndOffsetFrom at h
    dsimp only at h
    have hself : ¬ prc.NotFrom id id := fun hn => hn 0 .self
    split_ifs at h with hadd
    swap
    · rw [(Prod.mk.inj (Option.some.inj h)).1]
      exact hself
    split at h
    · rw [(Prod.mk.inj (Option.some.inj h)).1]
      exact hself
    · next v hv =>
      have hlen := hok.addsBinary n hadd.1
      have hmem : (prc.getNode n).inps[0]? = some ((prc.getNode n).inp 0) := by
        rw [Node.inp, List.getD_eq_getElem _ _ (by omega)]
        exact List.getElem?_eq_getElem _
      have hinl := hok.defUse.inps_live n hl _ (List.mem_of_getElem? hmem)
      have hinp := ih hinl h
      simp only [Proc.NotFrom, not_forall, not_not] at hinp ⊢
      obtain ⟨o', ho'⟩ := hinp
      have h0 := (ho'.live hok.defUse hok.isRoot).1
      have hc : prc.constAdd n = some v := by rw [Proc.constAdd, if_pos hadd, hv]
      exact ⟨_, ho'.add ((hok.defUse.mem_outs_iff _ h0 hinl n 0).2 ⟨hl, hmem⟩) hc⟩

omit hok in
theorem live_of_isMemOp {u : NodeId} (hu : prc.isMemOp u = true) : prc.live u = true := by
  unfold Proc.isMemOp at hu
  rw [Proc.live, decide_eq_true_eq]
  intro hd
  rw [hd] at hu
  cases hu

/-- An operand that comes from the local is a use of its address. -/
theorem derivedUse_of_inp {u n : NodeId} {i : ℕ} (hu : prc.isMemOp u = true)
    (hi : (prc.getNode u).inp i = n) (hn : ¬ prc.NotFrom id n) :
    ∃ o, prc.DerivedUse id 0 ⟨u, i⟩ o := by
  simp only [Proc.NotFrom, not_forall, not_not] at hn
  obtain ⟨o, ho⟩ := hn
  obtain ⟨h0, hl, -⟩ := ho.live hok.defUse hok.isRoot
  have hul := live_of_isMemOp hu
  have hinp : (prc.getNode u).inps[i]? = some n := by
    rw [Node.inp, List.getD_eq_getElem?_getD] at hi
    cases hg : (prc.getNode u).inps[i]? with
    | none =>
      rw [hg] at hi
      exact absurd hi.symm h0
    | some x =>
      rw [hg] at hi
      exact congrArg some hi
  refine ⟨o, n, ho, (hok.defUse.mem_outs_iff n h0 hl u i).2 ⟨hul, hinp⟩, ?_⟩
  unfold Proc.constAdd
  dsimp only
  rw [if_neg]
  rintro ⟨hadd, -⟩
  rw [Proc.isMemOp, hadd] at hu
  cases hu

/-- The nodes of a chain are different ones. -/
theorem BackChain.nodup {c : NodeId} {cs : List NodeId} (h : BackChain prc c cs)
    (hst : ∀ x ∈ cs, prc.isStoreOp x = true) : cs.Nodup ∧ ∀ x ∈ cs, Relation.ReflTransGen
      (fun a b => prc.isStoreOp a = true ∧ (prc.getNode a).inp 1 = b) c x := by
  induction cs generalizing c with
  | nil => exact ⟨List.nodup_nil, by simp⟩
  | cons a cs ih =>
    obtain ⟨rfl, hcs⟩ := h
    have ha := hst a (List.mem_cons_self ..)
    obtain ⟨hnd, hre⟩ := ih hcs fun x hx => hst x (List.mem_cons_of_mem _ hx)
    refine ⟨List.nodup_cons.2 ⟨fun hmem => ?_, hnd⟩, fun x hx => ?_⟩
    · exact hok.acyclic a (.head' ⟨ha, rfl⟩ (hre a hmem))
    · rcases List.mem_cons.1 hx with rfl | hx
      · exact .refl
      · exact .head ⟨ha, rfl⟩ (hre x hx)

omit hok in
theorem isMemOp_of_isStoreOp {u : NodeId} (h : prc.isStoreOp u = true) :
    prc.isMemOp u = true := by
  unfold Proc.isStoreOp at h
  unfold Proc.isMemOp
  cases hty : (prc.getNode u).itype <;> simp [hty] at h ⊢

theorem OnLocal.not_notFrom {c : NodeId} (hc : prc.isMemOp c = true) (h : OnLocal prc fuel id c) :
    ¬ prc.NotFrom id ((prc.getNode c).inp 2) := by
  obtain ⟨o, ho⟩ := h
  refine derivedAddr_of_baseAndOffset hok ?_ ho
  have h0 : (prc.getNode c).inp 2 ≠ 0 := by
    intro h0
    have := hok.addr.addr c hc
    rw [h0] at this
    cases this
  rcases List.mem_cons.1 (inp_mem_cons (prc.getNode c) 2) with h | h
  · exact absurd h h0
  · exact hok.defUse.inps_live c (live_of_isMemOp hc) _ h

/-- **All uses of the local are on the way**, but for the copy that reads it. -/
theorem forward_uses {scan : ForwardScan} {ys : List NodeOutput} {rounds : ℕ}
    (hs : ForwardScanned prc scan ys) (hys : ∀ u o, prc.DerivedUse id 0 u o → u ∈ ys)
    (hf : scan.forwardCandidate ≠ 0)
    (hw : forwardWalk prc fuel id scan.forwardCandidate rounds
      ((prc.getNode scan.forwardCandidate).inp 1) (scan.opCount - 1) = some true)
    {y : NodeOutput} {o : ℤ} (hy : prc.DerivedUse id 0 y o) :
    y = ⟨scan.forwardCandidate, 3⟩ ∨ y.idx = 2 ∧ y.id ∈ walked prc id fuel rounds
      ((prc.getNode scan.forwardCandidate).inp 1) (scan.opCount - 1) := by
  obtain ⟨hchain, hops, loc, hsub, hlen, hloc⟩ := forwardWalk_spec hw
  have hnd := (hchain.nodup hok fun x hx => (hops x hx).1).1
  by_contra hcon
  rw [not_or] at hcon
  let zs : List NodeOutput := y :: ⟨scan.forwardCandidate, 3⟩ :: loc.map fun c => ⟨c, 2⟩
  have hzs : zs.Nodup := by
    refine List.nodup_cons.2 ⟨?_, List.nodup_cons.2 ⟨?_, ?_⟩⟩
    · rw [List.mem_cons, not_or]
      refine ⟨hcon.1, fun hm => hcon.2 ?_⟩
      obtain ⟨c, hc, rfl⟩ := List.mem_map.1 hm
      exact ⟨rfl, hsub.subset hc⟩
    · intro hm
      obtain ⟨c, -, hc⟩ := List.mem_map.1 hm
      exact absurd (NodeOutput.mk.inj hc).2 (by decide)
    · exact (hnd.sublist hsub).map fun a b h => (NodeOutput.mk.inj h).1
  have hsubset : zs ⊆ ys := by
    intro z hz
    rcases List.mem_cons.1 hz with rfl | hz
    · exact hys _ o hy
    rcases List.mem_cons.1 hz with rfl | hz
    · exact (hs.forward hf).2
    · obtain ⟨c, hc, rfl⟩ := List.mem_map.1 hz
      have hm := isMemOp_of_isStoreOp (hops c (hsub.subset hc)).1
      obtain ⟨o, ho⟩ := derivedUse_of_inp hok hm rfl ((hloc c hc).not_notFrom hok hm)
      exact hys _ o ho
  have hle := (List.subperm_of_subset hzs hsubset).length_le
  have hpos : 0 < ys.length := List.length_pos_of_mem (hs.forward hf).2
  simp only [zs, List.length_cons, List.length_map, hlen, hs.count] at hle
  omega

end Walk

end OdinSon
