import OdinSon.Ssa.LoopIdiom

/-!
# The memory after a loop that sets or copies it

A run of a loop that `loopopt` rewrites leaves in memory what the new operation before the loop
writes (`LoopRun.memory`), if `IdiomFits`; the rewritten loop leaves the memory as it is.  So the
two end with the same memory (`loopIdiom_memory`).

The pass does not look at whether the bound has been passed before the loop: its body runs once all
the same, and the new operation is given the size of a negative number of rounds
(`loopIdiom_unsound`).
-/

namespace OdinSon

open MachInt

/-! ### Writing in steps -/

/-- Writing goes on where it has stopped. -/
theorem write_append (m : Memory) (a : BitVec 64) {n k : ℕ} (f g : ℕ → BitVec 8)
    (h : n + k < 2 ^ 64) : (m.write a n f).write (a + BitVec.ofNat 64 n) k g =
      m.write a (n + k) fun i => if i < n then f i else g (i - n) := by
  funext x
  unfold Memory.write
  have hx := x.isLt
  have ha := a.isLt
  have h1 : (x - (a + BitVec.ofNat 64 n)).toNat =
      (2 ^ 64 - (a.toNat + n) % 2 ^ 64 + x.toNat) % 2 ^ 64 := by
    rw [BitVec.toNat_sub, BitVec.toNat_add, BitVec.toNat_ofNat, Nat.add_mod_mod]
  have h2 : (x - a).toNat = (2 ^ 64 - a.toNat + x.toNat) % 2 ^ 64 := BitVec.toNat_sub ..
  have h3 : (x - a).toNat < n → ¬ (x - (a + BitVec.ofNat 64 n)).toNat < k := by
    rw [h1, h2]
    omega
  have h4 : ¬ (x - a).toNat < n → (x - (a + BitVec.ofNat 64 n)).toNat = (x - a).toNat - n := by
    rw [h1, h2]
    omega
  dsimp only
  by_cases hn : (x - a).toNat < n
  · rw [if_neg (h3 hn), if_pos hn, if_pos (by omega), if_pos hn]
  · rw [h4 hn, if_neg hn, if_neg hn]
    by_cases hk : (x - a).toNat - n < k
    · rw [if_pos hk, if_pos (by omega)]
    · rw [if_neg hk, if_neg (by omega)]

/-- **A loop of writes is one write**: steps of `z` bytes, from `a` on. -/
theorem write_steps {m : ℕ → Memory} {a : BitVec 64} {z rounds : ℕ} {f : ℕ → BitVec 8}
    {g : ℕ → ℕ → BitVec 8} (hz : rounds * z < 2 ^ 64)
    (hstep : ∀ t < rounds, m t = (m 0).write a (t * z) f →
      m (t + 1) = (m t).write (a + BitVec.ofNat 64 (t * z)) z (g t) ∧
        ∀ i < z, g t i = f (t * z + i)) : m rounds = (m 0).write a (rounds * z) f := by
  induction rounds with
  | zero =>
    funext x
    unfold Memory.write
    rw [Nat.zero_mul, if_neg (Nat.not_lt_zero _)]
  | succ t ih =>
    have hlt : t * z + z < 2 ^ 64 := by
      rwa [Nat.succ_mul] at hz
    have hm := ih (by omega) fun s hs => hstep s (by omega)
    obtain ⟨hnext, hg⟩ := hstep t (Nat.lt_succ_self t) hm
    rw [hnext, hm, write_append _ _ _ _ hlt, Nat.succ_mul]
    funext x
    unfold Memory.write
    dsimp only
    split_ifs with h1 h2
    · rfl
    · rw [hg _ (by omega)]
      congr 1
      omega
    · rfl

/-! ### The addresses -/

section Ops

variable {prc : Proc} {bb : BasicBlock} {ind : Inductor}

/-- A sum of the base of an operation and of the index, which is used by it. -/
structure IsAddress (prc : Proc) (bb : BasicBlock) (ind : Inductor) (op : LoopOp)
    (conode : NodeId) : Prop where
  itype : (prc.getNode conode).itype = .bin .add
  isInt : (prc.getNode conode).dt.isInt = true
  base : op.base ∉ bb.instrs
  used : ∃ j : ℕ, (prc.getNode op.node).inps[j]? = some conode
  computedFrom : prc.ComputedFrom conode ind.phy
  phy_dt : (prc.getNode conode).dt = .i64 → (prc.getNode ind.phy).dt = .i64
  word : (prc.getNode conode).dt = .i64 → ∀ rt : Runtime, rt.Arith prc →
    rt.word conode = rt.word op.base + rt.word ind.phy * BitVec.ofInt 64 op.stride

/-- The two operands of a node that uses `n`. -/
theorem operands_of_out (hok : LoopOk prc bb) {n : NodeId} {out : NodeOutput} {op : BinOp}
    (hn : n ≠ 0) (hl : prc.live n = true) (hout : out ∈ (prc.getNode n).outs)
    (hop : (prc.getNode out.id).itype = .bin op) :
    (prc.getNode out.id).inp out.idx = n ∧ n ∈ (prc.getNode out.id).inps ∧
      (out.idx = 0 ∨ out.idx = 1) := by
  obtain ⟨-, hi⟩ := (hok.defUse.mem_outs_iff n hn hl out.id out.idx).1 hout
  refine ⟨inp_of_getElem? hi, List.mem_of_getElem? hi, ?_⟩
  have hlt := (List.getElem?_eq_some_iff.1 hi).1
  rw [hok.bin_inps _ _ hop] at hlt
  omega

theorem live_of_itype {n : NodeId} {ty : NodeType} (h : (prc.getNode n).itype = ty)
    (hty : ty ≠ .dead) : prc.live n = true := by
  rw [Proc.live, h]
  exact decide_eq_true hty

theorem ne_zero_of_itype {n : NodeId} {ty : NodeType} (h : (prc.getNode n).itype = ty)
    (hty : ty ≠ .nil) : n ≠ 0 := by
  rintro rfl
  exact hty h.symm

/-- Both operands of a sum, or of a product, that is `64` bits wide. -/
theorem operands_word {n : NodeId} {out : NodeOutput}
    (hn : (prc.getNode out.id).inp out.idx = n)
    (hidx : out.idx = 0 ∨ out.idx = 1) (f : BitVec 64 → BitVec 64 → BitVec 64)
    (hf : ∀ x y, f x y = f y x) {rt : Runtime}
    (hw : rt.word out.id =
      f (rt.word ((prc.getNode out.id).inp 0)) (rt.word ((prc.getNode out.id).inp 1))) :
    rt.word out.id = f (rt.word ((prc.getNode out.id).inp (1 - out.idx))) (rt.word n) := by
  rcases hidx with h | h
  · rw [h] at hn
    rw [hw, hn, h, hf]
  · rw [h] at hn
    rw [hw, hn, h]

/-- The sums that `x` goes into, which is a multiple of the index. -/
theorem isAddress_of_indexedOps (hok : LoopOk prc bb) {x : NodeId} {cout : NodeOutput}
    {stride : Option ℤ} {op : LoopOp} (hx : x ≠ 0) (hl : prc.live x = true)
    (hcout : cout ∈ (prc.getNode x).outs) (hop : op ∈ indexedOps prc bb stride cout)
    (hfrom : x = ind.phy ∨ prc.ComputedFrom x ind.phy)
    (hdt : (prc.getNode x).dt = .i64 → (prc.getNode ind.phy).dt = .i64)
    (hword : (prc.getNode x).dt = .i64 → ∀ s, stride = some s → ∀ rt : Runtime, rt.Arith prc →
      rt.word x = rt.word ind.phy * BitVec.ofInt 64 s) :
    ∃ conode, IsAddress prc bb ind op conode := by
  unfold indexedOps at hop
  dsimp only at hop
  split_ifs at hop with h
  swap
  · cases hop
  obtain ⟨hty, hint, hbase⟩ := h
  rw [List.contains_eq_mem, decide_eq_true_eq] at hbase
  cases stride with
  | none => cases hop
  | some s =>
    obtain ⟨out, hout, rfl⟩ := List.mem_map.1 hop
    obtain ⟨hinp, hmem, hidx⟩ := operands_of_out hok hx hl hcout hty
    have hrel : x ∈ (prc.getNode cout.id).inps ∧ (prc.getNode cout.id).itype ≠ .phi ∧
        prc.isCfg cout.id = false := by
      refine ⟨hmem, ?_, ?_⟩
      · rw [hty]
        exact fun h => by cases h
      · rw [Proc.isCfg, hty]
        rfl
    have hxdt : (prc.getNode x).dt = (prc.getNode cout.id).dt :=
      hok.bin_dt _ _ hty (.inl rfl) x hmem
    refine ⟨cout.id, hty, hint, hbase, ⟨out.idx, ?_⟩, ?_, fun h => hdt (hxdt.trans h), ?_⟩
    · exact ((hok.defUse.mem_outs_iff cout.id (ne_zero_of_itype hty (by simp))
        (live_of_itype hty (by simp)) out.id out.idx).1 (List.mem_filter.1 hout).1).2
    · rcases hfrom with rfl | hfrom
      · exact .single hrel
      · exact .head hrel hfrom
    · intro h64 rt hrt
      rw [operands_word hinp hidx (· + ·) BitVec.add_comm (hrt.add _ hty h64),
        hword (hxdt.trans h64) s rfl rt hrt]

/-- **What the pass has found**: the operations are at the base and a multiple of the index. -/
theorem isAddress_of_loopOps (hok : LoopOk prc bb) {op : LoopOp}
    (hphi : (prc.getNode ind.phy).itype = .phi) (hop : op ∈ loopOps prc bb ind) :
    ∃ conode, IsAddress prc bb ind op conode := by
  obtain ⟨out, hout, hop⟩ := List.mem_flatMap.1 hop
  have hphy : ind.phy ≠ 0 := ne_zero_of_itype hphi (by simp)
  have hlive : prc.live ind.phy = true := live_of_itype hphi (by simp)
  unfold candidates at hop
  dsimp only at hop
  split_ifs at hop with h1 hmul h2
  · cases hop
  · cases hop
  · obtain ⟨hty, -⟩ := hmul
    obtain ⟨hinp, hmem, hidx⟩ := operands_of_out hok hphy hlive hout hty
    obtain ⟨cout, hcout, hop⟩ := List.mem_flatMap.1 hop
    have hdt : (prc.getNode ind.phy).dt = (prc.getNode out.id).dt :=
      hok.bin_dt _ _ hty (.inr rfl) _ hmem
    refine isAddress_of_indexedOps hok (ne_zero_of_itype hty (by simp))
      (live_of_itype hty (by simp)) hcout hop (.inr (.single ⟨hmem, ?_, ?_⟩))
      (fun h => hdt.trans h) fun h64 s hs rt hrt => ?_
    · rw [hty]
      exact fun h => by cases h
    · rw [Proc.isCfg, hty]
      rfl
    · rw [operands_word hinp hidx (· * ·) BitVec.mul_comm (hrt.mul _ hty h64),
        word_of_cInt hrt.toConsistent hs, BitVec.mul_comm]
  · refine isAddress_of_indexedOps hok hphy hlive hout hop (.inl rfl) id
      fun _ s hs rt _ => ?_
    obtain rfl := Option.some.inj hs
    rw [show BitVec.ofInt 64 1 = 1#64 from rfl, BitVec.mul_one]

/-- An operation uses the sum as its address, or stores it. -/
theorem IsAddress.inp (hok : LoopOk prc bb) {op : LoopOp} {conode : NodeId}
    (h : IsAddress prc bb ind op conode)
    (hty : (prc.getNode op.node).itype = .store ∨ (prc.getNode op.node).itype = .load) :
    (prc.getNode op.node).inp 2 = conode ∨
      (prc.getNode op.node).itype = .store ∧ (prc.getNode op.node).inp 3 = conode := by
  obtain ⟨j, hj⟩ := h.used
  obtain ⟨hcfg, hmem, hlen⟩ := hok.mem_op _ hty
  have hlt := (List.getElem?_eq_some_iff.1 hj).1
  have hinp := inp_of_getElem? hj
  rw [hlen] at hlt
  have hj4 : j < 4 := by
    split_ifs at hlt <;> omega
  interval_cases j
  · rw [hinp, Proc.isCfg, h.itype] at hcfg
    cases hcfg
  · have hint := h.isInt
    rw [← hinp, hmem] at hint
    cases hint
  · exact .inl hinp
  · refine .inr ⟨?_, hinp⟩
    by_contra hs
    rw [if_neg hs] at hlt
    omega

end Ops

section Index

variable {prc : Proc} {bb : BasicBlock} {info : LoopInfo} {ind : Inductor}

/-- What makes a phi an index. -/
structure IsInductor (prc : Proc) (bb : BasicBlock) (ind : Inductor) : Prop where
  phi : isLoopPhi prc bb ind.phy = true
  isInt : (prc.getNode ind.phy).dt.isInt = true
  add : (prc.getNode ((prc.getNode ind.phy).inp 2)).itype = .bin .add
  lhs : (prc.getNode ((prc.getNode ind.phy).inp 2)).inp 0 = ind.phy
  strideVl : ind.strideVl =
    (prc.cInt ((prc.getNode ((prc.getNode ind.phy).inp 2)).inp 1)).getD 0
  bound : ind.bound = 0 ∨ ind.bound ∉ bb.instrs

theorem IsInductor.itype (h : IsInductor prc bb ind) : (prc.getNode ind.phy).itype = .phi := by
  have := h.phi
  simp only [isLoopPhi, Bool.and_eq_true, decide_eq_true_eq] at this
  exact this.1

theorem loopInfo_spec (h : loopInfo prc bb = some info) :
    ∃ op rev, (prc.getNode ((prc.getNode (latch prc bb)).inp 1)).itype = .bin op ∧
      op.cmpReverse = some rev ∧ info.effectiveOp = (if info.inverted then rev else op) ∧
      info.inductors = ((prc.getNode bb.head).outs.filterMap fun out => inductorOf prc bb out.id) ∧
      (prc.getNode bb.head).itype = .loop ∧ (prc.getNode (latch prc bb)).itype = .if_ := by
  unfold loopInfo at h
  dsimp only at h
  by_cases hif : (prc.getNode bb.head).itype = .loop ∧ (prc.getNode (latch prc bb)).itype = .if_ ∧
      (prc.getNode (latch prc bb)).inp 0 = bb.head ∧ (prc.operationDatatype
        (prc.getNode ((prc.getNode (latch prc bb)).inp 1))).isInt = true
  · rw [if_pos hif] at h
    split at h
    · obtain ⟨rev, hrev, rfl⟩ := Option.map_eq_some_iff.1 h
      exact ⟨_, rev, by assumption, hrev, rfl, rfl, hif.1, hif.2.1⟩
    · cases h
  · rw [if_neg hif] at h
    cases h

theorem isInductor_of_mem (hok : LoopOk prc bb) (hinfo : loopInfo prc bb = some info)
    (hind : ind ∈ info.inductors) : IsInductor prc bb ind := by
  obtain ⟨-, -, -, -, -, hinds, -⟩ := loopInfo_spec hinfo
  rw [hinds] at hind
  obtain ⟨out, hout, hof⟩ := List.mem_filterMap.1 hind
  unfold inductorOf at hof
  dsimp only at hof
  split at hof
  swap
  · cases hof
  rename_i h
  obtain ⟨hphi, hint, hadd, hlhs, -⟩ := h
  obtain rfl := Option.some.inj hof
  refine ⟨?_, hint, hadd, hlhs, rfl, ?_⟩
  · simp [isLoopPhi, hphi, hok.phi_head out hout hphi]
  · dsimp only
    split_ifs with hb
    · exact .inl rfl
    · rw [List.contains_eq_mem, decide_eq_true_eq] at hb
      exact .inr hb

theorem boolToInt_inj {p q : Bool} : boolToInt p = boolToInt q ↔ p = q := by
  revert p q
  decide

/-- The loop goes on as long as the comparison holds. -/
theorem anotherRound_iff {rt : Runtime} (hinfo : loopInfo prc bb = some info)
    (hlt : info.effectiveOp = .lt)
    (hbits : (prc.operationDatatype
      (prc.getNode ((prc.getNode (latch prc bb)).inp 1))).bits = 64) :
    AnotherRound prc bb info rt ↔
      (rt.word ((prc.getNode ((prc.getNode (latch prc bb)).inp 1)).inp 0)).toInt <
        (rt.word ((prc.getNode ((prc.getNode (latch prc bb)).inp 1)).inp 1)).toInt := by
  obtain ⟨op, rev, hop, hrev, heff, -⟩ := loopInfo_spec hinfo
  have hops : info.inverted = false ∧ op = .lt ∨ info.inverted = true ∧ op = .ge := by
    rw [hlt] at heff
    cases hinv : info.inverted with
    | false =>
      rw [hinv, if_neg Bool.false_ne_true] at heff
      exact .inl ⟨rfl, heff.symm⟩
    | true =>
      rw [hinv, if_pos rfl] at heff
      subst heff
      refine .inr ⟨rfl, ?_⟩
      cases op <;> first | rfl | cases hrev
  unfold AnotherRound
  dsimp only
  rw [hbits, hop]
  generalize rt.word _ = x
  generalize rt.word _ = y
  rcases hops with ⟨hinv, rfl⟩ | ⟨hinv, rfl⟩
  · simp only [NodeType.bin.injEq, exists_eq_left', machine, BitVec.ofInt_toInt, hinv,
      Option.some.injEq, boolToInt_inj, Bool.not_false, BitVec.slt_iff_toInt_lt]
  · simp only [NodeType.bin.injEq, exists_eq_left', machine, BitVec.ofInt_toInt, hinv,
      Option.some.injEq, boolToInt_inj, Bool.not_true, ← Bool.not_eq_true,
      BitVec.sle_iff_toInt_le, not_le]

theorem toInt_add_ofInt (a : BitVec 64) {k : ℤ} (h1 : -2 ^ 63 ≤ a.toInt + k)
    (h2 : a.toInt + k < 2 ^ 63) : (a + BitVec.ofInt 64 k).toInt = a.toInt + k := by
  rw [BitVec.toInt_add, BitVec.toInt_ofInt, Int.add_bmod_bmod]
  exact Int.bmod_eq_of_le (by omega) (by omega)

theorem computeIndexOffset_word {base index : NodeId} {stride : ℤ} (rt : Runtime)
    (h : 0 < stride) : (computeIndexOffset base index stride).word rt =
      rt.word base + rt.word index * BitVec.ofInt 64 stride := by
  unfold computeIndexOffset
  rw [if_neg (by omega)]
  split_ifs with h1
  · rfl
  · obtain rfl : stride = 1 := by omega
    rw [show BitVec.ofInt 64 1 = 1#64 from rfl, BitVec.mul_one]
    rfl

theorem idiomSize_word (prc : Proc) (ind : Inductor) (store : LoopOp) (rt : Runtime) :
    (idiomSize prc ind store).word rt =
      BitVec.ofInt 64 (idiomLength prc ind rt * store.stride) := by
  have hsub (x y : BitVec 64) : x - y = BitVec.ofInt 64 (x.toInt - y.toInt) := by
    apply BitVec.eq_of_toInt_eq
    rw [BitVec.toInt_sub, BitVec.toInt_ofInt]
  rw [BitVec.ofInt_mul]
  unfold idiomSize idiomLength
  cases ind.delayed with
  | false =>
    show (rt.word ind.bound - rt.word ((prc.getNode ind.phy).inp 1)) * BitVec.ofInt 64 _ = _
    rw [hsub, if_neg Bool.false_ne_true, Int.add_zero]
  | true =>
    show (rt.word ind.bound - rt.word ((prc.getNode ind.phy).inp 1) + BitVec.ofInt 64 1) *
      BitVec.ofInt 64 _ = _
    rw [hsub, if_pos rfl, ← BitVec.ofInt_add]

section Run

variable {memPhi : NodeId} {rt : ℕ → Runtime} {m : ℕ → Memory} {last : ℕ}

variable (hok : LoopOk prc bb) (hind : IsInductor prc bb ind)
  (hrun : LoopRun prc bb info memPhi rt m last) (hs : ind.strideVl ≠ 0)
  (h64 : (prc.getNode ind.phy).dt = .i64)

include hok hind hrun hs h64

/-- The step of the index. -/
theorem LoopRun.next (t : ℕ) : (rt t).word ((prc.getNode ind.phy).inp 2) =
    (rt t).word ind.phy + BitVec.ofInt 64 ind.strideVl := by
  have hadd := (hrun.arith t).add _ hind.add ((hok.phi_dt _ hind.phi 2 (.inr rfl)).trans h64)
  cases hc : prc.cInt ((prc.getNode ((prc.getNode ind.phy).inp 2)).inp 1) with
  | none =>
    rw [hind.strideVl, hc] at hs
    exact absurd rfl hs
  | some x =>
    rw [hadd, hind.lhs, word_of_cInt (hrun.arith t).toConsistent hc, hind.strideVl, hc,
      Option.getD_some]

/-- The index in round `t`. -/
theorem LoopRun.index (t : ℕ) : (rt t).word ind.phy =
    (rt 0).word ((prc.getNode ind.phy).inp 1) + BitVec.ofInt 64 (t * ind.strideVl) := by
  induction t with
  | zero =>
    rw [hrun.phi_zero _ hind.phi hind.isInt, Nat.cast_zero, Int.zero_mul]
    exact (BitVec.add_zero _).symm
  | succ t ih =>
    rw [hrun.phi_succ t _ hind.phi hind.isInt, hrun.next hok hind hs h64, ih, BitVec.add_assoc,
      ← BitVec.ofInt_add]
    congr 2
    push_cast
    ring

omit hrun hs in
theorem bits_latch (hinfo : loopInfo prc bb = some info)
    (hleft : (prc.getNode ((prc.getNode (latch prc bb)).inp 1)).inp 0 =
      if ind.delayed then ind.phy else (prc.getNode ind.phy).inp 2) :
    (prc.operationDatatype (prc.getNode ((prc.getNode (latch prc bb)).inp 1))).bits = 64 := by
  obtain ⟨op, rev, hop, hrev, -⟩ := loopInfo_spec hinfo
  have hcmp : op.isComparison = true := by
    cases op <;> first | rfl | cases hrev
  have hdt : (prc.getNode ((prc.getNode
      ((prc.getNode (latch prc bb)).inp 1)).inp 0)).dt = .i64 := by
    rw [hleft]
    split_ifs
    · exact h64
    · exact (hok.phi_dt _ hind.phi 2 (.inr rfl)).trans h64
  unfold Proc.operationDatatype
  rw [hop]
  dsimp only
  rw [if_pos hcmp, hdt]
  rfl

/-- **The number of rounds** of a loop that counts up to its bound. -/
theorem LoopRun.rounds (hinfo : loopInfo prc bb = some info) (hlt : info.effectiveOp = .lt)
    (hb : ind.bound ∉ bb.instrs) {R : ℕ} (hR : 0 < R) (hpos : 0 < ind.strideVl)
    (hlen : idiomLength prc ind (rt 0) = R * ind.strideVl)
    (hdel : ind.strideVl = 1 ∨ ind.delayed = false)
    (hleft : (prc.getNode ((prc.getNode (latch prc bb)).inp 1)).inp 0 =
        (if ind.delayed then ind.phy else (prc.getNode ind.phy).inp 2) ∧
      (prc.getNode ((prc.getNode (latch prc bb)).inp 1)).inp 1 = ind.bound) : last + 1 = R := by
  have hround (t : ℕ) (ht : t < R) : AnotherRound prc bb info (rt t) ↔ t + 1 < R := by
    rw [anotherRound_iff hinfo hlt (bits_latch hok hind h64 hinfo hleft.1), hleft.1, hleft.2,
      (hrun.outside t _ hb).1]
    have hlow := BitVec.le_toInt ((rt 0).word ((prc.getNode ind.phy).inp 1))
    have hhigh := @BitVec.toInt_lt 64 ((rt 0).word ind.bound)
    unfold idiomLength at hlen
    cases hd : ind.delayed with
    | false =>
      rw [hd, if_neg Bool.false_ne_true, Int.add_zero] at hlen
      have hle : ((t + 1 : ℕ) : ℤ) * ind.strideVl ≤ R * ind.strideVl :=
        Int.mul_le_mul_of_nonneg_right (by omega) hpos.le
      have hnn : 0 ≤ ((t + 1 : ℕ) : ℤ) * ind.strideVl := Int.mul_nonneg (by omega) hpos.le
      have hword : (rt t).word ((prc.getNode ind.phy).inp 2) =
          (rt 0).word ((prc.getNode ind.phy).inp 1) +
            BitVec.ofInt 64 ((t + 1 : ℕ) * ind.strideVl) := by
        rw [hrun.next hok hind hs h64, hrun.index hok hind hs h64, BitVec.add_assoc,
          ← BitVec.ofInt_add]
        congr 2
        push_cast
        ring
      rw [if_neg Bool.false_ne_true, hword, toInt_add_ofInt _ (by omega) (by omega)]
      have hcmp : ((t + 1 : ℕ) : ℤ) * ind.strideVl < R * ind.strideVl ↔ t + 1 < R := by
        rw [Int.mul_lt_mul_right hpos, Nat.cast_lt]
      rw [← hcmp]
      omega
    | true =>
      have hone : ind.strideVl = 1 := hdel.resolve_right (by simp [hd])
      rw [hd, if_pos rfl, hone, Int.mul_one] at hlen
      rw [if_pos rfl, hrun.index hok hind hs h64, hone, Int.mul_one,
        toInt_add_ofInt _ (by omega) (by omega)]
      omega
  -- the last round is the first one after which the comparison fails
  rcases Nat.lt_trichotomy (last + 1) R with h | h | h
  · exact absurd ((hround last (by omega)).2 h) hrun.leaves
  · exact h
  · have := (hround (R - 1) (by omega)).1 (hrun.stays (R - 1) (by omega))
    omega

/-- **The address in round `t`** is that of the new operation, and `t` steps of `z` bytes. -/
theorem LoopRun.address {op : LoopOp} {conode : NodeId} (h : IsAddress prc bb ind op conode)
    (hdt : (prc.getNode conode).dt = .i64) {z : ℕ}
    (hz : (z : ℤ) = wrap 64 (ind.strideVl * op.stride)) (hz0 : 0 < z)
    (hstart : ind.strideVl = 1 ∨ (rt 0).word ((prc.getNode ind.phy).inp 1) = 0)
    (t : ℕ) : (rt t).word conode =
      (computeIndexOffset op.base ((prc.getNode ind.phy).inp 1)
        (wrap 64 (ind.strideVl * op.stride))).word (rt 0) + BitVec.ofNat 64 (t * z) := by
  have hstep : BitVec.ofInt 64 (ind.strideVl * op.stride) = BitVec.ofInt 64 z := by
    rw [hz, ofInt_wrap]
  have hfirst : (rt 0).word ((prc.getNode ind.phy).inp 1) * BitVec.ofInt 64 op.stride =
      (rt 0).word ((prc.getNode ind.phy).inp 1) * BitVec.ofInt 64 z := by
    rcases hstart with h1 | h0
    · rw [← hstep, h1, Int.one_mul]
    · rw [show (rt 0).word _ = 0#64 from h0, BitVec.zero_mul, BitVec.zero_mul]
  have hmul : BitVec.ofInt 64 (t * ind.strideVl) * BitVec.ofInt 64 op.stride =
      BitVec.ofNat 64 (t * z) := by
    rw [← BitVec.ofInt_mul, Int.mul_assoc, BitVec.ofInt_mul, hstep, ← BitVec.ofInt_mul,
      ← Int.natCast_mul, BitVec.ofInt_natCast]
  rw [h.word hdt _ (hrun.arith t), (hrun.outside t _ h.base).1, hrun.index hok hind hs h64,
    BitVec.add_mul, hfirst, hmul, ← hz, computeIndexOffset_word _ (by omega), BitVec.add_assoc]

end Run

/-! ### The memory -/

variable {req : NodeId → Bool} {store : LoopOp} {new : NewOp}

/-- The two ways in which `memIdiom` comes to an operation. -/
theorem memIdiom_spec (h : memIdiom prc bb info req ind store = some new) :
    let snode := prc.getNode store.node
    let stride := wrap 64 (ind.strideVl * store.stride)
    let init := (prc.getNode ind.phy).inp 1
    ((prc.getNode (snode.inp 1)).itype = .phi ∧ (prc.getNode (snode.inp 1)).inp 0 = bb.head ∧
      (valueSize prc store : ℤ) = stride ∧ info.effectiveOp = .lt ∧ ind.bound ≠ 0) ∧
    ((∃ load ∈ loopLoads prc bb ind, load.node = snode.inp 3 ∧
        (prc.getNode (snode.inp 3)).inp 1 = snode.inp 1 ∧ load.stride = store.stride ∧
        new = .copy (computeIndexOffset store.base init stride)
          (computeIndexOffset load.base init stride) (idiomSize prc ind store)) ∨
      snode.inp 3 ∉ bb.instrs ∧ stride = 1 ∧
        new = .set (computeIndexOffset store.base init stride) (snode.inp 3)
          (idiomSize prc ind store)) := by
  unfold memIdiom at h
  dsimp only at h ⊢
  split at h
  swap
  · cases h
  rename_i hc
  refine ⟨hc, ?_⟩
  have hset {x : Option NewOp}
      (h : (if ¬ bb.instrs.contains ((prc.getNode store.node).inp 3) = true ∧
      wrap 64 (ind.strideVl * store.stride) = 1 ∧ reqLoadCount prc bb req = 0 then x else none) =
        some new) : (prc.getNode store.node).inp 3 ∉ bb.instrs ∧
          wrap 64 (ind.strideVl * store.stride) = 1 ∧ x = some new := by
    split at h
    · rename_i hc
      refine ⟨?_, hc.2.1, h⟩
      simpa using hc.1
    · cases h
  split at h
  · rename_i load hload
    split at h
    · rename_i hcopy
      exact .inl ⟨load, List.mem_of_find?_eq_some hload, by simpa using List.find?_some hload,
        hcopy.1, hcopy.2.1, (Option.some.inj h).symm⟩
    · obtain ⟨h1, h2, h3⟩ := hset h
      exact .inr ⟨h1, h2, (Option.some.inj h3).symm⟩
  · obtain ⟨h1, h2, h3⟩ := hset h
    exact .inr ⟨h1, h2, (Option.some.inj h3).symm⟩

theorem computedFrom_of_inp {i n : NodeId} {ty : NodeType} (h : (prc.getNode i).itype = ty)
    (hphi : ty ≠ .phi) (hcfg : ty.isCfg = false) (hn : n ∈ (prc.getNode i).inps) :
    prc.ComputedFrom i n :=
  .single ⟨hn, fun hp => hphi (h ▸ hp), by rw [Proc.isCfg, h, hcfg]⟩

theorem inp_mem_of_lt {node : Node} {i : ℕ} (h : i < node.inps.length) :
    node.inp i ∈ node.inps := by
  rw [Node.inp, List.getD_eq_getElem _ _ h]
  exact List.getElem_mem h

/-- What the loop does with the store and its memory. -/
structure StoreFacts (prc : Proc) (bb : BasicBlock) (ind : Inductor) (store : LoopOp) : Prop where
  itype : (prc.getNode store.node).itype = .store
  address : IsAddress prc bb ind store ((prc.getNode store.node).inp 2)
  addr_dt : (prc.getNode ((prc.getNode store.node).inp 2)).dt = .i64
  phy_dt : (prc.getNode ind.phy).dt = .i64
  size_pos : 0 < valueSize prc store

theorem storeFacts (hok : LoopOk prc bb) (hind : IsInductor prc bb ind)
    (hstore : store ∈ loopStores prc bb ind) (h : memIdiom prc bb info req ind store = some new)
    (hmem : store.node ∈ bb.instrs) : StoreFacts prc bb ind store := by
  obtain ⟨hop, hty⟩ := List.mem_filter.1 hstore
  rw [decide_eq_true_eq] at hty
  obtain ⟨conode, haddr⟩ := isAddress_of_loopOps hok hind.itype hop
  have hinp : (prc.getNode store.node).inp 2 = conode := by
    refine (haddr.inp hok (.inl hty)).resolve_right fun ⟨_, h3⟩ => ?_
    rcases (memIdiom_spec h).2 with ⟨load, hload, hl3, -⟩ | ⟨hout, -⟩
    · -- the value is a load and not a sum
      have hlty := (List.mem_filter.1 hload).2
      rw [decide_eq_true_eq, hl3, h3, haddr.itype] at hlty
      cases hlty
    · -- a sum of the index is in the loop
      rw [h3] at hout
      refine hout (hok.convex _ hmem _ ?_ _ (hok.phi_mem _ hind.phi) haddr.computedFrom)
      refine computedFrom_of_inp hty (by simp) rfl (h3 ▸ inp_mem_of_lt ?_)
      rw [(hok.mem_op _ (.inl hty)).2.2, if_pos hty]
      decide
  subst hinp
  have hdt := hok.addr.addr store.node (by rw [Proc.isMemOp, hty])
  exact ⟨hty, haddr, hdt, haddr.phy_dt hdt, (hok.store_dt _ hty).2⟩

/-- The rounds that the pass counts. -/
theorem IdiomFits.rounds {rt : Runtime} (h : IdiomFits prc bb ind store new rt) :
    ∃ R : ℕ, 0 < R ∧ 0 < ind.strideVl ∧ idiomLength prc ind rt = R * ind.strideVl ∧
      R * valueSize prc store < 2 ^ 64 := by
  have hpos : 0 < ind.strideVl := by
    rcases h.stride with h1 | h1
    · omega
    · exact h1.1
  have hdvd : ind.strideVl ∣ idiomLength prc ind rt := by
    rcases h.stride with h1 | h1
    · exact h1 ▸ Int.one_dvd _
    · exact h1.2.2.2
  obtain ⟨k, hk⟩ := hdvd
  have hk0 : 0 < k := by
    by_contra hc
    have := h.entered
    rw [hk] at this
    exact absurd this (not_lt.2 (Int.mul_nonpos_of_nonneg_of_nonpos hpos.le (not_lt.1 hc)))
  have hfits := h.fits
  rw [hk, Int.mul_ediv_cancel_left _ hpos.ne'] at hfits
  refine ⟨k.toNat, by omega, hpos, ?_, ?_⟩
  · rw [Int.toNat_of_nonneg hk0.le, hk, Int.mul_comm]
  · have : ((k.toNat * valueSize prc store : ℕ) : ℤ) < 2 ^ 64 := by
      rwa [Nat.cast_mul, Int.toNat_of_nonneg hk0.le]
    exact_mod_cast this

section Memory

variable {rt : ℕ → Runtime} {m : ℕ → Memory} {last : ℕ}

/-- A round stores the value. -/
theorem LoopRun.mem_step
    (hrun : LoopRun prc bb info ((prc.getNode store.node).inp 1) rt m last)
    (hty : (prc.getNode store.node).itype = .store)
    (hphi : (prc.getNode ((prc.getNode store.node).inp 1)).itype = .phi)
    (hback : (prc.getNode ((prc.getNode store.node).inp 1)).inp 2 = store.node) {t : ℕ}
    (ht : t ≤ last) : m (t + 1) = (m t).write ((rt t).word ((prc.getNode store.node).inp 2))
      (valueSize prc store) ((rt t).byte ((prc.getNode store.node).inp 3)) := by
  obtain ⟨fuel, h⟩ := hrun.mem_succ t ht
  have hne : store.node ≠ (prc.getNode store.node).inp 1 := by
    intro he
    rw [← he, hty] at hphi
    cases hphi
  rw [hback] at h
  cases fuel with
  | zero => cases h
  | succ fuel =>
    unfold memAfter at h
    rw [if_neg hne] at h
    split at h
    swap
    · cases h
    obtain ⟨mem, hmem, hrest⟩ := Option.map_eq_some_iff.1 h
    cases fuel with
    | zero => cases hmem
    | succ fuel =>
      unfold memAfter at hmem
      rw [if_pos rfl] at hmem
      obtain rfl := Option.some.inj hmem
      rw [← hrest, runOp, hty]
      dsimp only
      rw [opSize, hty]
      rfl

/-- **The loop sets or copies**: what it leaves in memory is what the new operation writes. -/
theorem LoopRun.memory (hok : LoopOk prc bb) (hinfo : loopInfo prc bb = some info)
    (hind : IsInductor prc bb ind) (hstore : store ∈ loopStores prc bb ind)
    (h : memIdiom prc bb info req ind store = some new)
    (hrun : LoopRun prc bb info ((prc.getNode store.node).inp 1) rt m last)
    (hfit : IdiomFits prc bb ind store new (rt 0)) : m (last + 1) = new.run (rt 0) (m 0) := by
  obtain ⟨⟨hphi, -, hz, hlt, hb0⟩, hnew⟩ := memIdiom_spec h
  have hf := storeFacts hok hind hstore h hfit.store_mem
  obtain ⟨R, hR, hpos, hlen, hR64⟩ := hfit.rounds
  have hstart : ind.strideVl = 1 ∨ (rt 0).word ((prc.getNode ind.phy).inp 1) = 0 :=
    hfit.stride.imp_right fun h => h.2.2.1
  -- the loop leaves when the bound is reached, so the trip count is the length
  have hlast : last + 1 = R :=
    hrun.rounds hok hind hpos.ne' hf.phy_dt hinfo hlt (hind.bound.resolve_left hb0) hR hpos hlen
      (hfit.stride.imp_right fun h => h.2.1) hfit.left
  have hsize : ((idiomSize prc ind store).word (rt 0)).toNat = R * valueSize prc store := by
    rw [idiomSize_word, hlen, Int.mul_assoc, BitVec.ofInt_mul, ← ofInt_wrap 64 (_ * _), ← hz,
      ← BitVec.ofInt_mul, ← Int.natCast_mul, BitVec.ofInt_natCast, BitVec.toNat_ofNat,
      Nat.mod_eq_of_lt hR64]
  have hdst := hrun.address hok hind hpos.ne' hf.phy_dt hf.address hf.addr_dt hz hf.size_pos hstart
  have hstep (t : ℕ) (ht : t < R) :=
    hrun.mem_step hf.itype hphi hfit.back (t := t) (by omega)
  rw [hlast]
  rcases hnew with ⟨load, hload, hl3, hl1, hls, rfl⟩ | ⟨hout, hone, rfl⟩
  · obtain ⟨hlop, hlty⟩ := List.mem_filter.1 hload
    rw [decide_eq_true_eq] at hlty
    -- a copy: each round reads what no earlier round has written
    obtain ⟨conode, haddr⟩ := isAddress_of_loopOps hok hind.itype hlop
    have hinp : (prc.getNode load.node).inp 2 = conode :=
      (haddr.inp hok (.inr hlty)).resolve_right fun ⟨hs, _⟩ => by
        rw [hlty] at hs
        cases hs
    subst hinp
    have hldt := hok.addr.addr load.node (by rw [Proc.isMemOp, hlty])
    rw [← hls] at hz
    have hsrc := hrun.address hok hind hpos.ne' hf.phy_dt haddr hldt hz hf.size_pos hstart
    rw [hls] at hsrc
    have hmem : load.node ∈ bb.instrs := by
      refine hok.convex _ hfit.store_mem _ ?_ _ (hok.phi_mem _ hind.phi)
        (.trans (computedFrom_of_inp hlty (by simp) rfl (inp_mem_of_lt ?_)) haddr.computedFrom)
      · refine computedFrom_of_inp hf.itype (by simp) rfl (hl3 ▸ inp_mem_of_lt ?_)
        rw [(hok.mem_op _ (.inl hf.itype)).2.2, if_pos hf.itype]
        decide
      · rw [(hok.mem_op _ (.inr hlty)).2.2]
        split_ifs <;> decide
    unfold NewOp.run
    dsimp only
    rw [hsize]
    refine write_steps hR64 fun t ht hm => ⟨hdst t ▸ hstep t ht, fun i hi => ?_⟩
    have hsource := hfit.source _ _ _ rfl (t * valueSize prc store + i) (by
      rw [hsize]
      nlinarith)
    rw [Nat.add_comm, Nat.add_mul_div_right _ _ hf.size_pos, Nat.div_eq_of_lt hi, Nat.zero_add,
      Nat.add_comm i] at hsource
    have hbyte := hrun.load t _ hmem hlty 1 (m t) (by
      rw [hl3, hl1]
      exact if_pos rfl) i (by rwa [hl3])
    rw [← hl3, hbyte, hsrc, BitVec.add_assoc, ← BitVec.ofNat_add, hm, write_of_notMem hsource]
  · unfold NewOp.run
    dsimp only
    rw [hsize]
    refine write_steps hR64 fun t ht _ => ⟨hdst t ▸ hstep t ht, fun i hi => ?_⟩
    -- a fill: one byte a round, the same in each
    obtain rfl : i = 0 := by
      rw [hone] at hz
      omega
    rw [(hrun.outside t _ hout).2]

end Memory

/-! ### The rewritten loop -/

section Rewritten

variable {id : NodeId}

theorem getNode_withoutStore (h : id ≠ store.node) :
    (withoutStore prc store.node).getNode id = { prc.getNode id with
      inps := (prc.getNode id).inps.map fun i =>
        if i = store.node then (prc.getNode store.node).inp 1 else i } :=
  Peeped.getNode_replaceUses prc h

theorem inp_withoutStore (h0 : store.node ≠ 0) (h : id ≠ store.node) (i : ℕ) :
    ((withoutStore prc store.node).getNode id).inp i =
      if (prc.getNode id).inp i = store.node then (prc.getNode store.node).inp 1
      else (prc.getNode id).inp i :=
  Peeped.inp_replaceUses prc h0 h i

/-- A node of another kind than `dead` is what it was, but for its inputs. -/
theorem ne_of_itype_withoutStore (h0 : store.node ≠ 0) {ty : NodeType}
    (h : ((withoutStore prc store.node).getNode id).itype = ty) (hty : ty ≠ .dead) :
    id ≠ store.node := by
  rintro rfl
  rw [withoutStore, Peeped.getNode_replaceUses_self prc h0] at h
  exact hty h.symm

/-- Nothing but the phi is left of the memory of the loop. -/
theorem memAfter_withoutStore (h0 : store.node ≠ 0) (honly : OnlyStore prc bb store.node)
    {rt : Runtime} {n : NodeId} {m mem : Memory} {fuel : ℕ}
    (h : memAfter (withoutStore prc store.node) bb rt ((prc.getNode store.node).inp 1) m fuel n =
      some mem) : n = (prc.getNode store.node).inp 1 ∧ mem = m := by
  induction fuel generalizing n mem with
  | zero => cases h
  | succ fuel ih =>
    unfold memAfter at h
    split_ifs at h with h1 h2
    · exact ⟨h1, (Option.some.inj h).symm⟩
    · have hne : n ≠ store.node := by
        rintro rfl
        have := h2.2
        rw [Proc.isStoreOp, withoutStore, Peeped.getNode_replaceUses_self prc h0] at this
        cases this
      obtain ⟨mem', hmem, -⟩ := Option.map_eq_some_iff.1 h
      -- what it writes would be the memory of the phi or of the store
      have hinp := (ih hmem).1
      rw [inp_withoutStore h0 hne] at hinp
      refine absurd (honly n h2.1 ?_ ?_) hne
      · have := h2.2
        rwa [Proc.isStoreOp, getNode_withoutStore hne] at this
      · split_ifs at hinp with hs
        · exact .inr hs
        · exact .inl hinp

section Run

variable {rt : ℕ → Runtime} {m : ℕ → Memory} {last : ℕ}

/-- The rewritten loop leaves its memory alone. -/
theorem LoopRun.memory_withoutStore (h0 : store.node ≠ 0)
    (honly : OnlyStore prc bb store.node)
    (hrun : LoopRun (withoutStore prc store.node) bb info ((prc.getNode store.node).inp 1) rt m
      last) {t : ℕ} (ht : t ≤ last + 1) : m t = m 0 := by
  induction t with
  | zero => rfl
  | succ t ih =>
    obtain ⟨fuel, h⟩ := hrun.mem_succ t (by omega)
    rw [(memAfter_withoutStore h0 honly h).2, ih (by omega)]

/-- The comparison of the loop is what it was. -/
theorem anotherRound_withoutStore (hinfo : loopInfo prc bb = some info)
    (hind : IsInductor prc bb ind) (hty : (prc.getNode store.node).itype = .store)
    (hb0 : ind.bound ≠ 0) (hfit : IdiomFits prc bb ind store new (rt 0)) {rt' : Runtime} {t : ℕ}
    (hword : rt'.word = (rt t).word) :
    AnotherRound (withoutStore prc store.node) bb info rt' ↔ AnotherRound prc bb info (rt t) := by
  obtain ⟨op, rev, hop, hrev, -, -, hhead, hlatch⟩ := loopInfo_spec hinfo
  have h0 := ne_zero_of_itype hty (by simp)
  have hne {n : NodeId} {ty : NodeType} (h : (prc.getNode n).itype = ty) (hne : ty ≠ .store) :
      n ≠ store.node := by
    rintro rfl
    exact hne (h.symm.trans hty)
  have hl : latch (withoutStore prc store.node) bb = latch prc bb := by
    rw [latch, inp_withoutStore h0 (hne hhead (by simp))]
    exact if_neg (hne hlatch (by simp))
  have hc : ((withoutStore prc store.node).getNode (latch prc bb)).inp 1 =
      (prc.getNode (latch prc bb)).inp 1 := by
    rw [inp_withoutStore h0 (hne hlatch (by simp)), if_neg (hne hop (by simp))]
  have hcond := hne hop (by simp)
  have hlhs : (prc.getNode ((prc.getNode (latch prc bb)).inp 1)).inp 0 ≠ store.node := by
    rw [hfit.left.1]
    split_ifs
    · exact hne hind.itype (by simp)
    · exact hne hind.add (by simp)
  have hrhs : (prc.getNode ((prc.getNode (latch prc bb)).inp 1)).inp 1 ≠ store.node := by
    rw [hfit.left.2]
    intro he
    exact hind.bound.resolve_left hb0 (he ▸ hfit.store_mem)
  have hdt : (withoutStore prc store.node).operationDatatype
      ((withoutStore prc store.node).getNode ((prc.getNode (latch prc bb)).inp 1)) =
        prc.operationDatatype (prc.getNode ((prc.getNode (latch prc bb)).inp 1)) := by
    unfold Proc.operationDatatype
    rw [inp_withoutStore h0 hcond, if_neg hlhs, getNode_withoutStore hlhs,
      getNode_withoutStore hcond]
  unfold AnotherRound
  dsimp only
  rw [hl, hc, hdt, inp_withoutStore h0 hcond, inp_withoutStore h0 hcond, if_neg hlhs, if_neg hrhs,
    getNode_withoutStore hcond, hword]

theorem arith_withoutStore (hok : LoopOk prc bb)
    (hty : (prc.getNode store.node).itype = .store) {rt rt' : Runtime} (h : rt.Arith prc)
    (hword : rt'.word = rt.word) :
    rt'.Arith (withoutStore prc store.node) := by
  have h0 := ne_zero_of_itype hty (by simp)
  have hbin {id : NodeId} {op : BinOp} (hop : op = .add ∨ op = .mul)
      (hid : ((withoutStore prc store.node).getNode id).itype = .bin op)
      (hdt : ((withoutStore prc store.node).getNode id).dt = .i64) :
      (prc.getNode id).itype = .bin op ∧ (prc.getNode id).dt = .i64 ∧
        ∀ i < 2, ((withoutStore prc store.node).getNode id).inp i = (prc.getNode id).inp i := by
    have hne := ne_of_itype_withoutStore h0 hid (by simp)
    rw [getNode_withoutStore hne] at hid hdt
    refine ⟨hid, hdt, fun i hi => ?_⟩
    rw [inp_withoutStore h0 hne, if_neg]
    intro hs
    have hi := hok.bin_dt id op hid hop _ (inp_mem_of_lt (hok.bin_inps id op hid ▸ hi))
    rw [hs, (hok.store_dt _ hty).1] at hi
    rw [← hi] at hdt
    cases hdt
  refine ⟨⟨fun id hid => ?_, fun id hid hdt => ?_⟩, fun id hid hdt => ?_⟩
  · have hne := ne_of_itype_withoutStore h0 hid (by simp)
    rw [getNode_withoutStore hne] at hid ⊢
    rw [hword]
    exact h.cInt id hid
  · obtain ⟨hid, hdt, hinp⟩ := hbin (.inl rfl) hid hdt
    rw [hinp 0 (by omega), hinp 1 (by omega), hword]
    exact h.add id hid hdt
  · obtain ⟨hid, hdt, hinp⟩ := hbin (.inr rfl) hid hdt
    rw [hinp 0 (by omega), hinp 1 (by omega), hword]
    exact h.mul id hid hdt

/-- A phi of the rewritten loop with a number. -/
theorem phi_withoutStore (hok : LoopOk prc bb) (hinfo : loopInfo prc bb = some info)
    (hty : (prc.getNode store.node).itype = .store)
    (hphi : (prc.getNode ((prc.getNode store.node).inp 1)).itype = .phi)
    (hp : isLoopPhi (withoutStore prc store.node) bb id = true)
    (hint : ((withoutStore prc store.node).getNode id).dt.isInt = true) :
    isLoopPhi prc bb id = true ∧ (prc.getNode id).dt.isInt = true ∧ ∀ i, i = 1 ∨ i = 2 →
      ((withoutStore prc store.node).getNode id).inp i = (prc.getNode id).inp i := by
  have h0 := ne_zero_of_itype hty (by simp)
  simp only [isLoopPhi, Bool.and_eq_true, decide_eq_true_eq] at hp
  have hne := ne_of_itype_withoutStore h0 hp.1 (by simp)
  rw [inp_withoutStore h0 hne, getNode_withoutStore hne] at hp
  rw [getNode_withoutStore hne] at hint
  have hp' : isLoopPhi prc bb id = true := by
    simp only [isLoopPhi, Bool.and_eq_true, decide_eq_true_eq]
    refine ⟨hp.1, ?_⟩
    have hhead := hp.2
    split_ifs at hhead
    · -- the memory of the loop is no block
      obtain ⟨-, -, -, -, -, -, hloop, -⟩ := loopInfo_spec hinfo
      rw [← hhead, hphi] at hloop
      cases hloop
    · exact hhead
  refine ⟨hp', hint, fun i hi => ?_⟩
  rw [inp_withoutStore h0 hne, if_neg]
  intro hs
  have hdt := hok.phi_dt id hp' i hi
  rw [hs, (hok.store_dt _ hty).1] at hdt
  rw [← show _ = (prc.getNode id).dt from hdt] at hint
  cases hint

/-- The values in the rewritten loop: what is loaded comes from the memory `mem`. -/
def rewrittenRuntime (prc : Proc) (bb : BasicBlock) (memPhi : NodeId) (mem : Memory)
    (rt : Runtime) : Runtime where
  word := rt.word
  byte := fun n i =>
    let node := prc.getNode n
    if n ∈ bb.instrs ∧ node.itype = .load ∧ node.inp 1 = memPhi then
      mem (rt.word (node.inp 2) + BitVec.ofNat 64 i)
    else rt.byte n i

/-- **The rewritten loop runs** as often as the loop did. -/
theorem LoopRun.rewritten (hok : LoopOk prc bb) (hinfo : loopInfo prc bb = some info)
    (hind : IsInductor prc bb ind) (hty : (prc.getNode store.node).itype = .store)
    (hphi : (prc.getNode ((prc.getNode store.node).inp 1)).itype = .phi) (hb0 : ind.bound ≠ 0)
    (hfit : IdiomFits prc bb ind store new (rt 0))
    (hrun : LoopRun prc bb info ((prc.getNode store.node).inp 1) rt m last) :
    RewrittenRun prc bb info store.node new (rt 0) (m 0)
      (fun t => rewrittenRuntime (withoutStore prc store.node) bb
        ((prc.getNode store.node).inp 1) (new.run (rt 0) (m 0)) (rt t))
      (fun _ => new.run (rt 0) (m 0)) last := by
  have h0 := ne_zero_of_itype hty (by simp)
  have hround (t : ℕ) : AnotherRound (withoutStore prc store.node) bb info
      (rewrittenRuntime (withoutStore prc store.node) bb ((prc.getNode store.node).inp 1)
        (new.run (rt 0) (m 0)) (rt t)) ↔ AnotherRound prc bb info (rt t) :=
    anotherRound_withoutStore hinfo hind hty hb0 hfit rfl
  have hbyte {n : NodeId} (hn : n ∉ bb.instrs) (t : ℕ) :
      (rewrittenRuntime (withoutStore prc store.node) bb ((prc.getNode store.node).inp 1)
        (new.run (rt 0) (m 0)) (rt t)).byte n = (rt t).byte n :=
    funext fun i => if_neg fun h => hn h.1
  refine ⟨⟨fun t => arith_withoutStore hok hty (hrun.arith t) rfl, fun t n hn => ?_,
    fun p hp hint => ?_, fun t p hp hint => ?_, fun t n hn hld fuel mem hmem i _ => ?_,
    fun t _ => ⟨1, ?_⟩, fun t ht => (hround t).2 (hrun.stays t ht),
    fun h => hrun.leaves ((hround last).1 h)⟩, fun n hn => ⟨rfl, hbyte hn 0⟩, rfl⟩
  · obtain ⟨h1, h2⟩ := hrun.outside t n hn
    exact ⟨h1, (hbyte hn t).trans (h2.trans (hbyte hn 0).symm)⟩
  · obtain ⟨hp', hint', hinp⟩ := phi_withoutStore hok hinfo hty hphi hp hint
    rw [hinp 1 (.inl rfl)]
    exact hrun.phi_zero p hp' hint'
  · obtain ⟨hp', hint', hinp⟩ := phi_withoutStore hok hinfo hty hphi hp hint
    rw [hinp 2 (.inr rfl)]
    exact hrun.phi_succ t p hp' hint'
  · obtain ⟨h1, rfl⟩ := memAfter_withoutStore h0 hfit.only hmem
    exact if_pos ⟨hn, hld, h1⟩
  · -- the phi has become its own operand
    have hne : (prc.getNode store.node).inp 1 ≠ store.node := by
      intro he
      rw [he, hty] at hphi
      cases hphi
    rw [inp_withoutStore h0 hne, if_pos hfit.back]
    exact if_pos rfl

/-- **Setting and copying in one go**: if the loop is what the pass takes it for, then the memory is
the same with the new operation before the loop and without the store in it. -/
theorem loopIdiom_memory (hok : LoopOk prc bb) (hinfo : loopInfo prc bb = some info)
    (hind : ind ∈ info.inductors) {fuel : ℕ} (h : loopIdiom prc bb fuel info ind store = some new)
    (hrun : LoopRun prc bb info ((prc.getNode store.node).inp 1) rt m last)
    (hfit : IdiomFits prc bb ind store new (rt 0)) :
    EndsWith prc bb info store.node new (rt 0) (m 0) (m (last + 1)) := by
  unfold loopIdiom at h
  split_ifs at h with hstore
  obtain ⟨req, -, h⟩ := Option.bind_eq_some_iff.1 h
  have hind := isInductor_of_mem hok hinfo hind
  obtain ⟨⟨hphi, -, -, -, hb0⟩, -⟩ := memIdiom_spec h
  have hf := storeFacts hok hind hstore h hfit.store_mem
  refine ⟨⟨_, _, _, hrun.rewritten hok hinfo hind hf.itype hphi hb0 hfit⟩, ?_⟩
  intro rt' m' last' hrun'
  rw [hrun'.run.memory_withoutStore (ne_zero_of_itype hf.itype (by simp)) hfit.only le_rfl,
    hrun'.memory, hrun.memory hok hinfo hind hstore h hfit]

end Run

end Rewritten

end Index

/-! ### Filling from the sixth byte on -/

/-- `i := 5; for { p[i] = 7; i += 1; if !(i < n) do break }`, where `n` is `3` or `8`. -/
def fillBytes (passed : Bool) : Proc where
  mem := fun id =>
    [{},
      { itype := .entry, outs := [⟨2, 0⟩, ⟨3, 0⟩, ⟨6, 0⟩] },
      { itype := .mem, dt := .mem, inps := [1], outs := [⟨10, 1⟩] },
      { itype := .param, dt := .i64, inps := [1], outs := [⟨11, 0⟩] },
      { itype := .cInt, dt := .i64, extra := [5, 0], outs := [⟨7, 1⟩] },
      { itype := .cInt, dt := .i64, extra := [if passed then 3 else 8, 0], outs := [⟨14, 1⟩] },
      { itype := .loop, inps := [1, 15], outs := [⟨7, 0⟩, ⟨10, 0⟩, ⟨13, 0⟩, ⟨15, 0⟩] },
      { itype := .phi, dt := .i64, inps := [6, 4, 9], outs := [⟨9, 0⟩, ⟨11, 1⟩] },
      { itype := .cInt, dt := .i64, extra := [1, 0], outs := [⟨9, 1⟩] },
      { itype := .bin .add, dt := .i64, inps := [7, 8], outs := [⟨7, 2⟩, ⟨14, 0⟩] },
      { itype := .phi, dt := .mem, inps := [6, 2, 13], outs := [⟨13, 1⟩] },
      { itype := .bin .add, dt := .i64, inps := [3, 7], outs := [⟨13, 2⟩] },
      { itype := .cInt, dt := .i8, extra := [7, 0], outs := [⟨13, 3⟩] },
      { itype := .store, dt := .mem, inps := [6, 10, 11, 12], outs := [⟨10, 2⟩, ⟨17, 1⟩] },
      { itype := .bin .lt, dt := .i8, inps := [9, 5], outs := [⟨15, 1⟩] },
      { itype := .if_, inps := [6, 14], outs := [⟨6, 1⟩, ⟨16, 0⟩] },
      { itype := .else_, inps := [15], outs := [⟨17, 0⟩] },
      { itype := .return_, inps := [16, 13] }].getD id { itype := .dead }
  pos := 18
  entry := 1
  end_ := 17

/-- Its loop. -/
def fillBytesBlock : BasicBlock := ⟨6, [7, 10, 9, 11, 13, 14, 15]⟩

/-- The values in round `t`, where `p` is `0`. -/
def fillBytesRun (passed : Bool) (t : ℕ) : Runtime where
  word := fun n =>
    if n = 7 ∨ n = 11 then BitVec.ofNat 64 (5 + t)
    else if n = 9 then BitVec.ofNat 64 (6 + t)
    else [0, 0, 0, 0, 5, if passed then 3 else 8, 0, 0, 1, 0, 0, 0, 7].getD n 0
  byte := fun _ _ => 7

/-- The memory at the start of round `t`. -/
def fillBytesMemory : ℕ → Memory
  | 0 => fun _ => 0
  | t + 1 => (fillBytesMemory t).write (BitVec.ofNat 64 (5 + t)) 1 fun _ => 7

section Example

variable {passed : Bool}

theorem fillBytes_dead (id : ℕ) (h : 18 ≤ id) :
    (fillBytes passed).getNode id = { itype := .dead } :=
  Proc.getNode_of_length_le _ h (by decide) rfl rfl

theorem fillBytes_forall (passed : Bool) {P : NodeId → Node → Prop}
    (hdead : ∀ id, P id { itype := .dead })
    (h : ∀ id < 18, P id ((fillBytes passed).getNode id)) :
    ∀ id, P id ((fillBytes passed).getNode id) :=
  Proc.forall_getNode fillBytes_dead hdead h

theorem loopOk_fillBytes : LoopOk (fillBytes passed) fillBytesBlock where
  defUse := by
    refine .of_bounded (k := 18) (fun id hid => ?_) ?_ ?_
    · simp [Proc.live, fillBytes_dead id hid]
    · cases passed <;> decide
    · cases passed <;> decide
  phi_mem := by
    intro p
    refine fillBytes_forall passed (P := fun id node => (decide (node.itype = .phi) &&
      decide (node.inp 0 = fillBytesBlock.head)) = true → id ∈ fillBytesBlock.instrs)
      (fun id h => absurd h (by simp)) ?_ p
    cases passed <;> decide
  phi_head := by
    cases passed <;> decide
  convex := by
    have hstep := fillBytes_forall passed (P := fun id node => node.itype ≠ .phi →
      node.itype.isCfg = false → ∀ j ∈ node.inps, j ∈ fillBytesBlock.instrs →
        id ∈ fillBytesBlock.instrs) (fun id _ _ j h => by simp at h)
      (by cases passed <;> decide)
    rintro i - n - j hj hn
    -- what is computed from a node of the loop is in the loop
    induction hn using Relation.TransGen.head_induction_on with
    | single h => exact hstep _ h.2.1 h.2.2 _ h.1 hj
    | head h _ ih => exact hstep _ h.2.1 h.2.2 _ h.1 ih
  addr := by
    refine .of_bounded fillBytes_dead ?_ ?_ ?_ <;> cases passed <;> decide
  bin_dt := by
    have h := fillBytes_forall passed (P := fun _ node =>
      node.itype = .bin .add ∨ node.itype = .bin .mul → ∀ n ∈ node.inps,
        ((fillBytes passed).getNode n).dt = node.dt) (fun _ h => by simp at h)
      (by cases passed <;> decide)
    rintro id op hop (rfl | rfl)
    · exact h id (.inl hop)
    · exact h id (.inr hop)
  phi_dt := by
    have h := fillBytes_forall passed (P := fun _ node => node.itype = .phi →
      ((fillBytes passed).getNode (node.inp 1)).dt = node.dt ∧
        ((fillBytes passed).getNode (node.inp 2)).dt = node.dt) (fun _ h => by simp at h)
      (by cases passed <;> decide)
    intro p hp i hi
    simp only [isLoopPhi, Bool.and_eq_true, decide_eq_true_eq] at hp
    rcases hi with rfl | rfl
    · exact (h p hp.1).1
    · exact (h p hp.1).2
  bin_inps := by
    refine fillBytes_forall passed (P := fun _ node => ∀ op, node.itype = .bin op →
      node.inps.length = 2) (fun _ _ h => by simp at h) ?_
    intro (id : ℕ) hid
    interval_cases id <;> intro op hop <;> first | rfl | cases hop
  mem_op := by
    refine fillBytes_forall passed (P := fun _ node => node.itype = .store ∨ node.itype = .load →
      (fillBytes passed).isCfg (node.inp 0) = true ∧
        ((fillBytes passed).getNode (node.inp 1)).dt = .mem ∧
          node.inps.length = if node.itype = .store then 4 else 3) (fun _ h => by simp at h) ?_
    cases passed <;> decide
  store_dt := by
    refine fillBytes_forall passed (P := fun _ node => node.itype = .store → node.dt = .mem ∧
      0 < ((fillBytes passed).getNode (node.inp 3)).dt.size) (fun _ h => by simp at h) ?_
    cases passed <;> decide

/-- The loop goes on while `i < n`. -/
theorem loopInfo_fillBytes : loopInfo (fillBytes passed) fillBytesBlock =
    some ⟨false, .lt, [⟨7, 8, 5, 1, false⟩]⟩ := by
  cases passed <;> decide +kernel

theorem fillBytesRun_outside (t : ℕ) {n : NodeId} (h : n ∉ fillBytesBlock.instrs) :
    (fillBytesRun passed t).word n = (fillBytesRun passed 0).word n := by
  have h7 : ¬ (n = 7 ∨ n = 11) := by
    rintro (rfl | rfl) <;> exact h (by decide)
  have h9 : n ≠ 9 := by
    rintro rfl
    exact h (by decide)
  simp only [fillBytesRun, if_neg h7, if_neg h9]

theorem arith_fillBytes (t : ℕ) : (fillBytesRun passed t).Arith (fillBytes passed) := by
  refine ⟨⟨fun id => ?_, fun id => ?_⟩, fun id => ?_⟩
  · refine fillBytes_forall passed (P := fun id node => node.itype = .cInt →
      (fillBytesRun passed t).word id = BitVec.ofInt 64 node.cIntValue)
      (fun _ h => by simp at h) ?_ id
    have h0 : ∀ id < 18, ((fillBytes passed).getNode id).itype = .cInt →
        id ∉ fillBytesBlock.instrs ∧ (fillBytesRun passed 0).word id =
          BitVec.ofInt 64 ((fillBytes passed).getNode id).cIntValue := by
      cases passed <;> decide
    intro id hid hc
    rw [fillBytesRun_outside t (h0 id hid hc).1, (h0 id hid hc).2]
  · refine fillBytes_forall passed (P := fun id node => node.itype = .bin .add → node.dt = .i64 →
      (fillBytesRun passed t).word id = (fillBytesRun passed t).word (node.inp 0) +
        (fillBytesRun passed t).word (node.inp 1)) (fun _ h => by simp at h) ?_ id
    have h0 : ∀ id < 18, ((fillBytes passed).getNode id).itype = .bin .add → id = 9 ∨ id = 11 := by
      cases passed <;> decide
    intro id hid hc _
    rcases h0 id hid hc with rfl | rfl
    · show BitVec.ofNat 64 (6 + t) = BitVec.ofNat 64 (5 + t) + BitVec.ofNat 64 1
      rw [← BitVec.ofNat_add]
      congr 1
      omega
    · exact (BitVec.zero_add _).symm
  · refine fillBytes_forall passed (P := fun id node => node.itype = .bin .mul → node.dt = .i64 →
      (fillBytesRun passed t).word id = (fillBytesRun passed t).word (node.inp 0) *
        (fillBytesRun passed t).word (node.inp 1)) (fun _ h => by simp at h) ?_ id
    have h0 : ∀ id < 18, ((fillBytes passed).getNode id).itype ≠ .bin .mul := by
      cases passed <;> decide
    exact fun id hid hc => absurd hc (h0 id hid)

theorem loopRun_fillBytes : LoopRun (fillBytes passed) fillBytesBlock
    ⟨false, .lt, [⟨7, 8, 5, 1, false⟩]⟩ 10 (fillBytesRun passed) fillBytesMemory
      (if passed then 0 else 2) := by
  have hphi (p : NodeId) (hp : isLoopPhi (fillBytes passed) fillBytesBlock p = true)
      (hint : ((fillBytes passed).getNode p).dt.isInt = true) : p = 7 := by
    have h : ∀ p ∈ fillBytesBlock.instrs, isLoopPhi (fillBytes passed) fillBytesBlock p = true →
        ((fillBytes passed).getNode p).dt.isInt = true → p = 7 := by
      cases passed <;> decide
    exact h p (loopOk_fillBytes.phi_mem p hp) hp hint
  refine ⟨arith_fillBytes, fun t n hn => ⟨fillBytesRun_outside t hn, rfl⟩, fun p hp hint => ?_,
    fun t p hp hint => ?_, fun t n hn hld => ?_, fun t _ => ⟨2, rfl⟩, ?_, ?_⟩
  · obtain rfl := hphi p hp hint
    rfl
  · obtain rfl := hphi p hp hint
    show BitVec.ofNat 64 (5 + (t + 1)) = BitVec.ofNat 64 (6 + t)
    congr 1
    omega
  · have h : ∀ n ∈ fillBytesBlock.instrs, ((fillBytes passed).getNode n).itype ≠ .load := by
      cases passed <;> decide
    exact absurd hld (h n hn)
  · intro t ht
    cases passed with
    | true => exact absurd ht (Nat.not_lt_zero t)
    | false =>
      have h : ∀ t < 2, machine .lt 64 ((fillBytesRun false t).word 9).toInt
          ((fillBytesRun false t).word 5).toInt = some 1 := by decide
      exact ⟨.lt, rfl, h t ht⟩
  · rintro ⟨op, hop, h⟩
    obtain rfl := NodeType.bin.inj hop
    revert h
    cases passed <;> decide

theorem only_fillBytes : OnlyStore (fillBytes passed) fillBytesBlock 13 := by
  cases passed <;> decide

/-- What takes the place of the loop. -/
def fillBytesOp : NewOp :=
  .set (.bin .add (.node 3) (.node 4)) 12 (.bin .mul (.bin .sub (.node 5) (.node 4)) (.const 1))

theorem loopIdiom_fillBytes : loopIdiom (fillBytes passed) fillBytesBlock 5
    ⟨false, .lt, [⟨7, 8, 5, 1, false⟩]⟩ ⟨7, 8, 5, 1, false⟩ ⟨13, 3, 1⟩ = some fillBytesOp := by
  cases passed <;> decide

theorem idiomFits_fillBytes : IdiomFits (fillBytes false) fillBytesBlock ⟨7, 8, 5, 1, false⟩
    ⟨13, 3, 1⟩ fillBytesOp (fillBytesRun false 0) where
  store_mem := by decide
  back := by decide
  only := only_fillBytes
  left := by decide
  stride := by decide
  entered := by decide
  fits := by decide
  source := fun _ _ _ h => by cases h

end Example

/-- With the bound at `8`, three bytes are set. -/
theorem loopIdiom_memory_fillBytes : EndsWith (fillBytes false) fillBytesBlock
    ⟨false, .lt, [⟨7, 8, 5, 1, false⟩]⟩ 13 fillBytesOp (fillBytesRun false 0) (fillBytesMemory 0)
    (fillBytesMemory 3) :=
  loopIdiom_memory loopOk_fillBytes loopInfo_fillBytes (List.mem_singleton_self _)
    loopIdiom_fillBytes loopRun_fillBytes idiomFits_fillBytes

/-- With the bound at `3` the loop stores one byte; the pass sets all of the memory but for the two
bytes before it. -/
theorem loopIdiom_unsound : ¬ ∀ (prc : Proc) (bb : BasicBlock) (info : LoopInfo) (ind : Inductor)
    (store : LoopOp) (new : NewOp) (fuel : ℕ) (rt : ℕ → Runtime) (m : ℕ → Memory) (last : ℕ),
    LoopOk prc bb → loopInfo prc bb = some info → ind ∈ info.inductors →
    loopIdiom prc bb fuel info ind store = some new →
    LoopRun prc bb info ((prc.getNode store.node).inp 1) rt m last →
    EndsWith prc bb info store.node new (rt 0) (m 0) (m (last + 1)) := by
  intro h
  obtain ⟨⟨rt', m', last', hrun'⟩, hend⟩ := h (fillBytes true) fillBytesBlock _ _ ⟨13, 3, 1⟩ _ 5
    _ _ _ loopOk_fillBytes loopInfo_fillBytes (List.mem_singleton_self _) loopIdiom_fillBytes
    loopRun_fillBytes
  have hm := hend rt' m' last' hrun'
  rw [hrun'.run.memory_withoutStore (by decide) only_fillBytes le_rfl, hrun'.memory] at hm
  have hbyte := congrFun hm 6
  revert hbyte
  decide

end OdinSon
