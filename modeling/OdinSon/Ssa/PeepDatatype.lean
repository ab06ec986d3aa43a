import OdinSon.Ssa.Peep
import OdinSon.Ssa.LocalForwardSound

/-!
# What the peephole does to datatypes

What takes the place of a node has its datatype, so that a store of it writes as many bytes as
before.  There are two exceptions (`peep_datatype_iff`): an operator on one node twice becomes a
constant of 64 bits, whatever its datatype is, and `normalize_ctz` leaves the wide count where the
narrow one was.
-/

namespace OdinSon

open MachInt

/-- The datatype of what takes the place of a node. -/
def Rewrite.dt (prc : Proc) : Rewrite → Datatype
  | .node id => (prc.getNode id).dt
  | .cInt dt _ | .unOp _ dt _ | .binOp _ dt _ _ | .select dt _ _ _ => dt
  | .store .. => .mem

/-- A node keeps its datatype, and a store of it the bytes that it writes. -/
def Rewrite.Keeps (prc : Proc) (id : NodeId) (new : Rewrite) : Prop :=
  new.dt prc = (prc.getNode id).dt ∧
    ∀ s, (prc.getNode s).itype = .store → (prc.getNode s).inp 3 = id →
      prc.memOpSize s = some ((new.dt prc).size : ℤ)

/-- So do the node and the phis that go with it. -/
def PeepResult.Keeps (prc : Proc) (id : NodeId) (r : PeepResult) : Prop :=
  (∀ new, r.new = some new → new.Keeps prc id) ∧
    ∀ p ∈ r.phis, (Rewrite.node p.2).Keeps prc p.1

/-- The kinds of nodes that have no datatype. -/
def NodeType.isVoid (t : NodeType) : Bool :=
  t.isCfg || t = .dbgSymUpdate || t = .dbgScope

/-- The kinds of nodes that are a memory. -/
def NodeType.isMemory : NodeType → Bool
  | .mem | .splitMem | .mergeMem | .copy | .set | .store => true
  | _ => false

/-- The datatypes that nodes are made with. -/
structure Proc.DtTyped (prc : Proc) : Prop where
  void : ∀ id, (prc.getNode id).itype.isVoid = true → (prc.getNode id).dt = .void
  memory : ∀ id, (prc.getNode id).itype.isMemory = true → (prc.getNode id).dt = .mem
  localAddr : ∀ id, (prc.getNode id).itype = .localAddr →
    (prc.getNode id).dt = .i64 ∧ ForwardOk prc id
  ctrl : ∀ id, (prc.getNode id).itype = .then_ ∨ (prc.getNode id).itype = .else_ ∨
    (prc.getNode id).itype = .if_ ∨ (prc.getNode id).itype = .loop →
    (prc.getNode ((prc.getNode id).inp 0)).dt = .void
  region : ∀ id, (prc.getNode id).itype = .region →
    ∀ inp ∈ (prc.getNode id).inps, (prc.getNode inp).dt = .void
  dbgSymUpdate : ∀ id, (prc.getNode id).itype = .dbgSymUpdate →
    (prc.getNode ((prc.getNode id).inp 1)).dt = .void
  splitMem : ∀ id, (prc.getNode id).itype = .splitMem →
    (prc.getNode ((prc.getNode id).inp 0)).dt = .mem
  mergeMem : ∀ id, (prc.getNode id).itype = .mergeMem →
    ∀ inp ∈ (prc.getNode id).inps, (prc.getNode inp).dt = .mem
  store : ∀ id, prc.isStoreOp id = true → (prc.getNode ((prc.getNode id).inp 1)).dt = .mem
  phi : ∀ id, (prc.getNode id).itype = .phi →
    ∀ inp ∈ (prc.getNode id).inps.tail, (prc.getNode inp).dt = (prc.getNode id).dt
  /-- A region and a loop have an edge for every operand of their phis. -/
  phiInps : ∀ id, (prc.getNode id).itype = .region ∨ (prc.getNode id).itype = .loop →
    ∀ phi ∈ phisOf prc (prc.getNode id),
      (prc.getNode phi).inps.length = (prc.getNode id).inps.length + 1
  loop : ∀ id, (prc.getNode id).itype = .loop → (prc.getNode id).inps ≠ []
  select : ∀ id, (prc.getNode id).itype = .select → ∀ i < 2,
    (prc.getNode ((prc.getNode id).inp i)).dt = (prc.getNode id).dt
  bin : ∀ id op, (prc.getNode id).itype = .bin op → op.isComparison = false →
    (prc.getNode ((prc.getNode id).inp 0)).dt = (prc.getNode id).dt

/-- An operator on one node twice that becomes a constant of another datatype: the operand is no
constant, the lattice has not found the value, and the node has not 64 bits. -/
structure FoldsSymmetric (ctx : PeepCtx) (prc : Proc) (id : NodeId) (op : BinOp) : Prop where
  itype : (prc.getNode id).itype = .bin op
  lattice : ¬((ctx.lattices id).type = .int ∧ (ctx.lattices id).min = (ctx.lattices id).max)
  op : op.symmetryIsZero = true ∨ op.symmetryIsOne = true
  int : (prc.operationDatatype (prc.getNode id)).isInt = true
  same : (prc.getNode id).inp 0 = (prc.getNode id).inp 1
  notConst : prc.cInt ((prc.getNode id).inp 0) = none
  dt : (prc.getNode id).dt ≠ .i64

section Keeps

variable {ctx : PeepCtx} {prc : Proc} {fuel : ℕ} {id : NodeId} {new : Rewrite} {op : BinOp}

/-- The bytes that a store writes go with the datatype. -/
theorem Rewrite.keeps_iff : new.Keeps prc id ↔ new.dt prc = (prc.getNode id).dt := by
  refine ⟨And.left, fun h => ⟨h, fun s hs hid => ?_⟩⟩
  simp only [Proc.memOpSize, hs, hid, h]

theorem keeps_node {n : NodeId} (h : (prc.getNode n).dt = (prc.getNode id).dt) :
    (Rewrite.node n).Keeps prc id := Rewrite.keeps_iff.2 h

theorem keeps_new {r : Option Rewrite} (h : ∀ new, r = some new → new.Keeps prc id) :
    ({ new := r } : PeepResult).Keeps prc id := by
  refine ⟨h, fun p hp => ?_⟩
  cases hp

/-! ### Control and memory -/

theorem mem_phisOf {phi : NodeId} (h : phi ∈ phisOf prc (prc.getNode id)) :
    (prc.getNode phi).itype = .phi := by
  simpa using (List.mem_filter.1 h).2

theorem isMemory_of_isStoreOp (h : prc.isStoreOp id = true) :
    (prc.getNode id).itype.isMemory = true := by
  unfold Proc.isStoreOp at h
  split at h
  · next hk => rw [hk]; rfl
  · next hk => rw [hk]; rfl
  · next hk => rw [hk]; rfl
  · cases h

variable (hT : prc.DtTyped)

include hT

/-- The operands of a phi have its datatype. -/
theorem dt_phi_inp (hphi : (prc.getNode id).itype = .phi) {i : ℕ}
    (hi : i + 1 < (prc.getNode id).inps.length) :
    (prc.getNode ((prc.getNode id).inp (i + 1))).dt = (prc.getNode id).dt := by
  refine hT.phi id hphi _ ?_
  have htail : (prc.getNode id).inps.tail[i]? = some ((prc.getNode id).inp (i + 1)) := by
    rw [List.getElem?_tail, Node.inp, List.getD_eq_getElem?_getD, List.getElem?_eq_getElem hi,
      Option.getD_some]
  exact List.mem_of_getElem? htail

theorem dt_ctrl (h : (prc.getNode id).itype.isVoid = true) {n : NodeId}
    (hn : (prc.getNode n).dt = .void) : (Rewrite.node n).Keeps prc id :=
  keeps_node (hn.trans (hT.void id h).symm)

theorem dt_memory (h : (prc.getNode id).itype.isMemory = true) {n : NodeId}
    (hn : (prc.getNode n).dt = .mem) : (Rewrite.node n).Keeps prc id :=
  keeps_node (hn.trans (hT.memory id h).symm)

theorem peepDbgSymUpdate_keeps (hk : (prc.getNode id).itype = .dbgSymUpdate)
    (h : peepDbgSymUpdate prc (prc.getNode id) = some new) : new.Keeps prc id := by
  have hkeep : (Rewrite.node ((prc.getNode id).inp 1)).Keeps prc id :=
    dt_ctrl hT (by rw [hk]; rfl) (hT.dbgSymUpdate id hk)
  unfold peepDbgSymUpdate at h
  dsimp only at h
  split_ifs at h
  · cases h
    exact hkeep
  · cases h
    exact hkeep

theorem peepMem_keeps (hk : (prc.getNode id).itype = .mem)
    (h : peepMem prc (prc.getNode id) = some new) : new.Keeps prc id := by
  have hmem : (prc.getNode id).itype.isMemory = true := by rw [hk]; rfl
  unfold peepMem at h
  dsimp only at h
  split_ifs at h with hinp hsplit
  · cases h
    exact dt_memory hT hmem (hT.memory _ (by rw [hinp]; rfl))
  · cases h
    exact dt_memory hT hmem (hT.splitMem _ hsplit.1)

theorem peepMergeMem_keeps (hk : (prc.getNode id).itype = .mergeMem)
    (h : peepMergeMem prc (prc.getNode id) = some new) : new.Keeps prc id := by
  have hmem : (prc.getNode id).itype.isMemory = true := by rw [hk]; rfl
  unfold peepMergeMem at h
  split at h
  · next inp hinp =>
    cases h
    exact dt_memory hT hmem (hT.mergeMem id hk inp (List.mem_of_find?_eq_some hinp))
  · split_ifs at h with hlen
    cases h
    obtain ⟨inp, hinps⟩ := List.length_eq_one_iff.1 hlen
    refine dt_memory hT hmem (hT.mergeMem id hk _ ?_)
    rw [Node.inp, hinps]
    simp

/-- The `If` of a diamond has control. -/
theorem dt_selectDiamond {region if_ : NodeId} {inps : List NodeId}
    (h : selectDiamond prc region inps = some if_) :
    (prc.getNode ((prc.getNode if_).inp 0)).dt = .void := by
  unfold selectDiamond at h
  split at h
  · dsimp only at h
    split_ifs at h with hc
    cases h
    exact hT.ctrl _ (.inr (.inr (.inl hc.2.2.2.1)))
  · cases h

omit hT in
theorem peepDiamond_keeps {inps : List NodeId}
    (h : peepDiamond prc (prc.getNode id) inps = some new) : new.Keeps prc id := by
  unfold peepDiamond at h
  dsimp only at h
  split at h
  · cases h
  · split_ifs at h
    · cases h
      exact Rewrite.keeps_iff.2 rfl
    · cases h
      exact Rewrite.keeps_iff.2 rfl

theorem peepPhi_keeps (hk : (prc.getNode id).itype = .phi)
    (h : peepPhi ctx prc id (prc.getNode id) = some new) : new.Keeps prc id := by
  -- the first operand is not the one that goes
  have hvalue (l : List NodeId) : (l.eraseIdx 2).getD 1 0 = l.getD 1 0 := by
    rw [List.getD_eq_getElem?_getD, List.getElem?_eraseIdx_of_lt (by norm_num),
      List.getD_eq_getElem?_getD]
  have hkeep (hlen : 2 ≤ (prc.getNode id).inps.length) :
      (Rewrite.node ((prc.getNode id).inps.getD 1 0)).Keeps prc id :=
    keeps_node (dt_phi_inp hT hk hlen)
  unfold peepPhi at h
  dsimp only at h
  set inps := if (prc.getNode id).inp 0 = 0 ∧ 2 < (prc.getNode id).inps.length then
    (prc.getNode id).inps.eraseIdx 2 else (prc.getNode id).inps with hinps
  have hgetD : inps.getD 1 0 = (prc.getNode id).inps.getD 1 0 := by
    rw [hinps]
    split_ifs
    · exact hvalue _
    · rfl
  have hle : inps.length ≤ (prc.getNode id).inps.length := by
    rw [hinps]
    split_ifs
    · exact List.length_eraseIdx_le _ _
    · exact le_rfl
  rw [hgetD] at h
  split_ifs at h with h2 hself h3 hsel
  · cases h
    exact hkeep (by omega)
  · cases h
    have := (List.getElem?_eq_some_iff.1 hself).1
    exact hkeep (by omega)
  · cases h
    exact hkeep (by omega)
  · exact peepDiamond_keeps h

theorem peepSelect_keeps (hk : (prc.getNode id).itype = .select)
    (h : peepSelect prc (prc.getNode id) = some new) : new.Keeps prc id := by
  unfold peepSelect at h
  split_ifs at h
  · cases h
    exact keeps_node (hT.select id hk 0 (by norm_num))
  · split at h
    · cases h
      split_ifs
      · exact keeps_node (hT.select id hk 1 (by norm_num))
      · exact keeps_node (hT.select id hk 0 (by norm_num))
    · cases h

theorem peepBranch_keeps (hk : (prc.getNode id).itype = .then_ ∨ (prc.getNode id).itype = .else_)
    (h : peepBranch prc (prc.getNode id) = some new) : new.Keeps prc id := by
  have hvoid : (prc.getNode id).itype.isVoid = true := by
    rcases hk with hk | hk
    · rw [hk]
      rfl
    · rw [hk]
      rfl
  unfold peepBranch at h
  dsimp only at h
  split_ifs at h with hif
  rw [not_not] at hif
  split at h
  · split_ifs at h
    · cases h
      exact dt_ctrl hT hvoid rfl
    · cases h
      exact dt_ctrl hT hvoid (hT.ctrl _ (.inr (.inr (.inl hif))))
  · cases h

theorem peepLoop_keeps (hk : (prc.getNode id).itype = .loop) :
    (peepLoop prc id (prc.getNode id)).Keeps prc id := by
  unfold peepLoop
  split
  · exact keeps_new fun _ h => by cases h
  · split_ifs
    · refine ⟨fun new h => ?_, fun p hp => ?_⟩
      · cases h
        exact dt_ctrl hT (by rw [hk]; rfl) (hT.ctrl _ (.inr (.inr (.inr hk))))
      · obtain ⟨phi, hphi, rfl⟩ := List.mem_map.1 hp
        have hlen := hT.phiInps id (.inr hk) phi hphi
        have hne := List.length_pos_iff.2 (hT.loop id hk)
        exact keeps_node (dt_phi_inp hT (mem_phisOf hphi) (i := 0) (by omega))
    · exact keeps_new fun _ h => by cases h

theorem peepRegion_keeps (hk : (prc.getNode id).itype = .region) :
    (peepRegion prc id (prc.getNode id)).Keeps prc id := by
  have hvoid : (prc.getNode id).itype.isVoid = true := by rw [hk]; rfl
  unfold peepRegion
  split
  · refine keeps_new fun new h => ?_
    cases h
    exact dt_ctrl hT hvoid rfl
  · next inp hinps =>
    have hinp : inp ∈ (prc.getNode id).inps.filter (· ≠ 0) := by
      rw [hinps]
      exact List.mem_singleton_self inp
    refine ⟨fun new h => ?_, fun p hp => ?_⟩
    · cases h
      exact dt_ctrl hT hvoid (hT.region id hk inp (List.mem_filter.1 hinp).1)
    · obtain ⟨phi, hphi, rfl⟩ := List.mem_map.1 hp
      have hlen := hT.phiInps id (.inl hk) phi hphi
      have hfirst : (prc.getNode id).inps.findIdx (· ≠ 0) < (prc.getNode id).inps.length :=
        List.findIdx_lt_length_of_exists ⟨inp, (List.mem_filter.1 hinp).1,
          (List.mem_filter.1 hinp).2⟩
      exact keeps_node (dt_phi_inp hT (mem_phisOf hphi) (by omega))
  · split
    · next if_ hif =>
      split_ifs
      · refine keeps_new fun new h => ?_
        cases h
        exact dt_ctrl hT hvoid (dt_selectDiamond hT hif)
      · exact keeps_new fun _ h => by cases h
    · exact keeps_new fun _ h => by cases h

/-! ### Operators -/

omit hT in
theorem peepUnary_keeps (h : peepUnary ctx prc (prc.getNode id) = some (some new)) :
    new.Keeps prc id := by
  unfold peepUnary at h
  dsimp only at h
  split_ifs at h with hconv hwide hcast
  · cases h
    exact keeps_node hconv.2
  · cases h
    exact Rewrite.keeps_iff.2 rfl
  · cases h
    exact keeps_node hcast.2
  · split at h
    · obtain ⟨v, -, h⟩ := Option.map_eq_some_iff.1 h
      cases h
      exact Rewrite.keeps_iff.2 rfl
    · cases h

theorem peepRightConst_keeps (hk : (prc.getNode id).itype = .bin op) {opTy : Datatype} {value : ℤ}
    (h : peepRightConst prc op (prc.getNode id) opTy value = some new) : new.Keeps prc id := by
  have hleft (hop : op.isComparison = false) :
      (Rewrite.node ((prc.getNode id).inp 0)).Keeps prc id := keeps_node (hT.bin id op hk hop)
  unfold peepRightConst at h
  dsimp only at h
  split_ifs at h with hshift hshr hzero hone
  · cases h
    exact Rewrite.keeps_iff.2 rfl
  · cases h
    exact Rewrite.keeps_iff.2 rfl
  · cases h
    exact hleft (by revert hzero; cases op <;> simp [BinOp.zeroIsNeutral, BinOp.isComparison])
  · cases h
    exact hleft (by revert hone; cases op <;> simp [BinOp.oneIsNeutral, BinOp.isComparison])

omit hT in
theorem peepAssociative_keeps {opTy : Datatype} {value : ℤ}
    (h : peepAssociative ctx prc op (prc.getNode id) opTy value = some (some new)) :
    new.Keeps prc id := by
  unfold peepAssociative at h
  dsimp only at h
  split_ifs at h
  · cases h
  · split at h
    · obtain ⟨v, -, h⟩ := Option.map_eq_some_iff.1 h
      cases h
      exact Rewrite.keeps_iff.2 rfl
    · cases h

omit hT in
theorem peepSwap_keeps (h : peepSwap prc op id (prc.getNode id) = some new) : new.Keeps prc id := by
  unfold peepSwap at h
  dsimp only at h
  split_ifs at h
  cases h
  exact keeps_node rfl

omit hT in
/-- An operator on one node twice keeps its datatype only if it has 64 bits. -/
theorem peepSymmetric_keeps_iff (h : peepSymmetric op (prc.getNode id) = some new) :
    new.Keeps prc id ↔ (prc.getNode id).dt = .i64 := by
  have hdt : new.dt prc = .i64 := by
    unfold peepSymmetric at h
    split_ifs at h
    · cases h
      rfl
    · cases h
      rfl
  rw [Rewrite.keeps_iff, hdt]
  exact eq_comm

/-- Of the binary operators, only one on one node twice changes its datatype. -/
theorem peepBinary_keeps_iff (hk : (prc.getNode id).itype = .bin op)
    (hlat : ¬((ctx.lattices id).type = .int ∧ (ctx.lattices id).min = (ctx.lattices id).max))
    {r : Option Rewrite} (h : peepBinary ctx prc op id (prc.getNode id) = some r) :
    (∀ new, r = some new → new.Keeps prc id) ↔ ¬FoldsSymmetric ctx prc id op := by
  unfold peepBinary at h
  dsimp only at h
  split at h
  · next l _ hl _ =>
    obtain ⟨v, -, h⟩ := Option.map_eq_some_iff.1 h
    cases h
    refine iff_of_true (fun new h => ?_) fun hs => ?_
    · cases h
      exact Rewrite.keeps_iff.2 rfl
    · rw [hs.notConst] at hl
      cases hl
  · next hnot =>
    split_ifs at h with hint
    · cases h
      refine iff_of_true (fun new h => peepSwap_keeps h) fun hs => ?_
      rw [hs.int] at hint
      cases hint
    rw [Bool.not_eq_false] at hint
    cases hright : (prc.cInt ((prc.getNode id).inp 1)).bind
        (peepRightConst prc op (prc.getNode id) (prc.operationDatatype (prc.getNode id))) with
    | some new =>
      rw [hright] at h
      cases h
      obtain ⟨value, hvalue, hnew⟩ := Option.bind_eq_some_iff.1 hright
      refine iff_of_true (fun new h => ?_) fun hs => ?_
      · cases h
        exact peepRightConst_keeps hT hk hnew
      · -- with one node twice the right operand would be no constant either
        rw [← hs.same, hs.notConst] at hvalue
        cases hvalue
    | none =>
      rw [hright] at h
      cases hsym : peepSymmetric op (prc.getNode id) with
      | some new =>
        rw [hsym] at h
        cases h
        have hiff := peepSymmetric_keeps_iff hsym
        unfold peepSymmetric at hsym
        split_ifs at hsym with hsame hzero hone
        all_goals
          rw [not_not] at hsame
          -- both operands are one node, and two constants have been folded above
          have hconst : prc.cInt ((prc.getNode id).inp 0) = none := by
            rw [Option.eq_none_iff_forall_ne_some]
            exact fun v hv => hnot v v hv (hsame ▸ hv)
          constructor
          · exact fun hkeep hs => hs.dt (hiff.1 (hkeep _ rfl))
          · intro hs new h
            cases h
            refine hiff.2 ?_
            by_contra hdt
            exact hs ⟨hk, hlat, by simp [*], hint, hsame, hconst, hdt⟩
      | none =>
        rw [hsym] at h
        obtain ⟨assoc, hassoc, h⟩ := Option.map_eq_some_iff.1 h
        cases h
        refine iff_of_true (fun new h => ?_) fun hs => ?_
        · rcases (Option.orElse_eq_some _ _ _).1 h with h | ⟨-, h⟩
          · split at hassoc
            · exact peepAssociative_keeps (hassoc.trans (congrArg some h))
            · cases hassoc
              cases h
          · exact peepSwap_keeps h
        · unfold peepSymmetric at hsym
          split_ifs at hsym with hsame hzero hone
          · exact hsame hs.same
          · exact hs.op.elim hzero hone

/-! ### Memory operations -/

theorem peepStore_keeps (hk : (prc.getNode id).itype = .store)
    (h : peepStore prc fuel id = some (some new)) : new.Keeps prc id := by
  have hstore : prc.isStoreOp id = true := by rw [Proc.isStoreOp, hk]
  have hmem := isMemory_of_isStoreOp hstore
  obtain ⟨r, -, h⟩ := Option.bind_eq_some_iff.1 h
  cases r with
  | some w =>
    cases h
    exact Rewrite.keeps_iff.2 (hT.memory id hmem).symm
  | none =>
    obtain ⟨m, hm, h⟩ := Option.bind_eq_some_iff.1 h
    obtain ⟨n, rfl, rfl⟩ := Option.map_eq_some_iff.1 (Option.some.inj h)
    unfold storeEliminate at hm
    obtain ⟨b, -, hm⟩ := Option.bind_eq_some_iff.1 hm
    split_ifs at hm
    · cases hm
      exact dt_memory hT hmem (hT.store id hstore)
    · cases hm

omit hT in
theorem forwardLoad_keeps {rounds : ℕ} {n : NodeId}
    (h : forwardLoad prc fuel rounds id = some (some n)) : (Rewrite.node n).Keeps prc id := by
  unfold forwardLoad at h
  obtain ⟨c, -, h⟩ := Option.bind_eq_some_iff.1 h
  dsimp only at h
  split_ifs at h with hc
  · cases h
    exact keeps_node hc.2.2.2
  · cases h

theorem localForward_keeps (hk : (prc.getNode id).itype = .localAddr) {d : NodeId}
    (h : localForward prc fuel id = some (some d)) : (Rewrite.node d).Keeps prc id := by
  obtain ⟨hdt, hok⟩ := hT.localAddr id hk
  obtain ⟨scan, -, ⟨-, rfl, hw⟩ | ⟨-, rfl, hw⟩⟩ := localForward_cases hok h
  · exact keeps_node ((hok.addr.src _ hw.itype).trans hdt.symm)
  · have hop : prc.isMemOp scan.forwardCandidate = true := by rw [Proc.isMemOp, hw.itype]
    exact keeps_node ((hok.addr.addr _ hop).trans hdt.symm)

omit hT in
/-- Every zero store is a memory. -/
theorem dt_zeroStores {slots : List (ℤ × Datatype)}
    (hmem : (prc.getNode ((prc.getNode id).inp 1)).dt = .mem) :
    (zeroStores (prc.getNode id) slots).dt prc = .mem := by
  unfold zeroStores
  cases slots using List.reverseRecOn with
  | nil => exact hmem
  | append_singleton slots slot =>
    rw [List.foldl_append]
    rfl

/-- What takes the place of a node that is no binary operator has its datatype. -/
theorem peepKind_keeps (hk : ∀ op, (prc.getNode id).itype ≠ .bin op)
    (h : peepKind ctx prc fuel id (prc.getNode id) = some (some new)) : new.Keeps prc id := by
  unfold peepKind at h
  split at h
  · next hkind =>
    simp only [Option.some.injEq] at h
    split_ifs at h
    cases h
    exact dt_ctrl hT (by rw [hkind]; rfl) rfl
  · next hkind => exact peepDbgSymUpdate_keeps hT hkind (Option.some.inj h)
  · next hkind =>
    simp only [Option.some.injEq] at h
    split_ifs at h
    cases h
    exact dt_memory hT (by rw [hkind]; rfl) (hT.splitMem id hkind)
  · next hkind => exact peepMem_keeps hT hkind (Option.some.inj h)
  · next hkind => exact peepMergeMem_keeps hT hkind (Option.some.inj h)
  · next hkind =>
    split_ifs at h
    · obtain ⟨r, hr, h⟩ := Option.map_eq_some_iff.1 h
      obtain ⟨d, rfl, rfl⟩ := Option.map_eq_some_iff.1 h
      exact localForward_keeps hT hkind hr
    · cases h
  · next hkind => exact peepPhi_keeps hT hkind (Option.some.inj h)
  · next hkind => exact peepSelect_keeps hT hkind (Option.some.inj h)
  · next hkind => exact peepBranch_keeps hT (.inl hkind) (Option.some.inj h)
  · next hkind => exact peepBranch_keeps hT (.inr hkind) (Option.some.inj h)
  iterate 5 exact peepUnary_keeps h
  · next op hkind => exact absurd hkind (hk op)
  · next hkind =>
    obtain ⟨r, hr, h⟩ := Option.map_eq_some_iff.1 h
    obtain ⟨n, rfl, rfl⟩ := Option.map_eq_some_iff.1 h
    exact forwardLoad_keeps hr
  · next hkind => exact peepStore_keeps hT hkind h
  · next hkind =>
    have hstore : prc.isStoreOp id = true := by rw [Proc.isStoreOp, hkind]
    split_ifs at h
    · obtain ⟨r, -, h⟩ := Option.map_eq_some_iff.1 h
      obtain ⟨slots, rfl, rfl⟩ := Option.map_eq_some_iff.1 h
      exact Rewrite.keeps_iff.2 ((dt_zeroStores (hT.store id hstore)).trans
        (hT.memory id (isMemory_of_isStoreOp hstore)).symm)
    · cases h
  · next hkind =>
    have hstore : prc.isStoreOp id = true := by rw [Proc.isStoreOp, hkind]
    simp only [Option.some.injEq] at h
    split_ifs at h
    cases h
    exact dt_memory hT (isMemory_of_isStoreOp hstore) (hT.store id hstore)
  · cases h

omit hT in
theorem not_foldsSymmetric (hk : ∀ op, (prc.getNode id).itype ≠ .bin op) (op : BinOp) :
    ¬FoldsSymmetric ctx prc id op := fun hs => hk op hs.itype

omit hT in
/-- What the lattice has to say of a node. -/
theorem peepLattice_spec {L : Lattices} {new : Option Replacement}
    (h : peepLattice prc L id = new) :
    (new = some .nil ∧ prc.isCfg id = true) ∨
      (new = some (.cInt (prc.getNode id).dt (L id).min) ∧ (L id).type = .int ∧
        (L id).min = (L id).max) ∨
      new = none ∧ ((prc.getNode id).itype ≠ .cInt →
        ¬((L id).type = .int ∧ (L id).min = (L id).max)) := by
  unfold peepLattice at h
  dsimp only at h
  split_ifs at h with hcfg hint
  · exact .inl ⟨h.symm, hcfg.1⟩
  · exact .inr (.inl ⟨h.symm, hint.1, hint.2.1⟩)
  · exact .inr (.inr ⟨h.symm, fun hk hc => hint ⟨hc.1, hc.2, hk⟩⟩)

/-- What takes the place of a node has its datatype, but for an operator on one node twice. -/
theorem peep_keeps_iff {r : PeepResult} (h : peep ctx prc fuel id = some r) :
    r.Keeps prc id ↔ ∀ op, ¬FoldsSymmetric ctx prc id op := by
  unfold peep at h
  dsimp only at h
  rcases peepLattice_spec (L := ctx.lattices) rfl with
    ⟨hlat, hcfg⟩ | ⟨hlat, hint⟩ | ⟨hlat, hint⟩
  · rw [hlat] at h
    cases h
    refine iff_of_true (keeps_new fun new h => ?_) (not_foldsSymmetric fun op hk => ?_)
    · cases h
      have hvoid : (prc.getNode id).itype.isCfg = true := hcfg
      exact dt_ctrl hT (by simp [NodeType.isVoid, hvoid]) rfl
    · rw [Proc.isCfg, hk] at hcfg
      cases hcfg
  · rw [hlat] at h
    cases h
    refine iff_of_true (keeps_new fun new h => ?_) fun op hs => hs.lattice hint
    cases h
    exact Rewrite.keeps_iff.2 rfl
  rw [hlat] at h
  obtain ⟨gone, hgone, h⟩ := Option.bind_eq_some_iff.1 h
  cases gone with
  | true =>
    have hstore : prc.isStoreOp id = true := by
      unfold storesToDeadLocal at hgone
      split_ifs at hgone with hs
      · exact hs
      · cases hgone
    cases h
    refine iff_of_true (keeps_new fun new h => ?_) (not_foldsSymmetric fun op hk => ?_)
    · cases h
      exact dt_memory hT (isMemory_of_isStoreOp hstore) (hT.store id hstore)
    · rw [Proc.isStoreOp, hk] at hstore
      cases hstore
  | false =>
    rw [if_neg Bool.false_ne_true] at h
    split at h
    · next hk =>
      cases h
      exact iff_of_true (peepLoop_keeps hT hk) (not_foldsSymmetric fun op hop => by
        rw [hk] at hop
        cases hop)
    · next hk =>
      cases h
      exact iff_of_true (peepRegion_keeps hT hk) (not_foldsSymmetric fun op hop => by
        rw [hk] at hop
        cases hop)
    · obtain ⟨new, hnew, h⟩ := Option.bind_eq_some_iff.1 h
      cases h
      by_cases hbin : ∃ op, (prc.getNode id).itype = .bin op
      · obtain ⟨op, hk⟩ := hbin
        have hbinary : peepBinary ctx prc op id (prc.getNode id) = some new := by
          rw [← hnew, peepKind, hk]
        have hiff := peepBinary_keeps_iff hT hk (hint (by simp [hk])) hbinary
        constructor
        · intro hkeep op' hs
          obtain rfl : op' = op := by
            have := hs.itype.symm.trans hk
            cases this
            rfl
          exact hiff.1 hkeep.1 hs
        · exact fun hnot => keeps_new (hiff.2 (hnot op))
      · rw [not_exists] at hbin
        refine iff_of_true (keeps_new fun new h => ?_) (not_foldsSymmetric hbin)
        rw [h] at hnew
        exact peepKind_keeps hT hbin hnew

end Keeps

/-- `normalize_ctz` keeps the datatype only where it does nothing. -/
theorem normalizeCtz_keeps_iff {prc : Proc} {minWidth : Datatype} {id : NodeId} :
    (∀ new, normalizeCtz prc minWidth id = some new → new.Keeps prc id) ↔
      minWidth.rank ≤ (prc.getNode id).dt.rank := by
  unfold normalizeCtz
  dsimp only
  split_ifs with hlt
  · refine iff_of_false (fun h => ?_) (not_le.2 hlt)
    have hdt : minWidth = (prc.getNode id).dt := Rewrite.keeps_iff.1 (h _ rfl)
    rw [hdt] at hlt
    exact lt_irrefl _ hlt
  · exact iff_of_true (fun new h => by cases h) (not_lt.1 hlt)

/-- **A rewrite keeps the datatype of every node that it replaces, and the bytes of every store of
them, if and only if** it is not that of an operator on one node twice that has not 64 bits; and
`normalize_ctz` does if and only if the count is not narrower than the instruction. -/
theorem peep_datatype_iff {ctx : PeepCtx} {prc : Proc} {fuel : ℕ} (hT : prc.DtTyped) :
    (∀ id r, peep ctx prc fuel id = some r →
      (r.Keeps prc id ↔ ∀ op, ¬FoldsSymmetric ctx prc id op)) ∧
    ∀ minWidth id, (∀ new, normalizeCtz prc minWidth id = some new → new.Keeps prc id) ↔
      minWidth.rank ≤ (prc.getNode id).dt.rank :=
  ⟨fun _ _ h => peep_keeps_iff hT h, fun _ _ => normalizeCtz_keeps_iff⟩

/-- A byte `x ^ y` that is stored; `y` is `x`, or zero. -/
def xorStore (rhs : NodeId) : Proc where
  mem
    | 1 => { itype := .entry }
    | 2 => { itype := .mem, dt := .mem, inps := [1] }
    | 3 => { itype := .param, dt := .i8, inps := [1] }
    | 4 => { itype := .cInt, dt := .i8, extra := [0, 0] }
    | 5 => { itype := .bin .xor, dt := .i8, inps := [3, rhs] }
    | 6 => { itype := .param, dt := .i64, inps := [1] }
    | 7 => { itype := .store, dt := .mem, isStore := true, inps := [0, 2, 6, 5] }
    | _ => { itype := .dead }
  pos := 8
  entry := 1
  end_ := 0

theorem dtTyped_xorStore {rhs : NodeId} : (xorStore rhs).DtTyped := by
  constructor
  all_goals
    rintro (_ | _ | _ | _ | _ | _ | _ | _ | id) <;>
      simp [Proc.getNode, xorStore, NodeType.isVoid, NodeType.isMemory, NodeType.isCfg,
        Proc.isStoreOp, BinOp.isComparison, Node.inp]

/-- Nothing is known of the values, and there are no floats. -/
def noFacts : PeepCtx where
  lattices _ := { type := .bot }
  complete := true
  selectTypes _ := false
  floats := ⟨id, id, id, fun _ _ => id, fun _ _ => id, fun _ _ _ _ => none⟩

theorem peep_datatype_xorStore :
    ({ new := some (.node 3) } : PeepResult).Keeps (xorStore 4) 5 := by
  refine ((peep_datatype_iff dtTyped_xorStore).1 5 _ (by decide : peep noFacts (xorStore 4) 1 5 =
    some { new := some (.node 3) })).2 fun op hs => ?_
  have hsame := hs.same
  revert hsame
  decide

/-- `x ^ x` becomes a constant of eight bytes. -/
theorem peep_not_datatype : ¬ ∀ (ctx : PeepCtx) (prc : Proc) (fuel : ℕ) (id : NodeId)
    (r : PeepResult), prc.DtTyped → peep ctx prc fuel id = some r → r.Keeps prc id := by
  intro h
  have hkeep := h noFacts (xorStore 3) 1 5 { new := some (.cInt .i64 0) } dtTyped_xorStore
    (by decide)
  have hdt := (hkeep.1 _ rfl).1
  revert hdt
  decide

end OdinSon
