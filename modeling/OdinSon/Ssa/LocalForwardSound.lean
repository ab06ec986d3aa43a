import OdinSon.Ssa.LocalForwardWalk

/-!
# The memory when a local is replaced by what it is copied to

`localForward_observations`: a run of the graph in which the local has been replaced sees what a run
of the graph with it sees, if the local fits (`LocalFits`).

The peephole counts the uses of the local and goes back along the memory over stores until it has
found them all.  It does not look at where in the local the copy starts, at which of its bytes have
been written, or at what else uses a memory on the way.  A load of the destination there reads what
has been copied to it later (`localForward_unsound`).
-/

namespace OdinSon

open MachInt Footprint

/-! ### Two memories, one with the bytes elsewhere -/

/-- The bytes `written` of what is at `src` in `m` are at `dst` in `m'`; elsewhere the memories are
the same, but for the bytes `w`. -/
structure MovedBytes (w : Set (BitVec 64)) (src dst : BitVec 64) (n : ℕ) (written : Set (BitVec 64))
    (m m' : Memory) : Prop where
  off : AgreeOff (w ∪ range dst n) m m'
  moved : ∀ x ∈ written, m' (dst + (x - src)) = m x
  rest : ∀ y ∈ range dst n, src + (y - dst) ∉ written → m' y = m y

section MovedBytes

variable {w W : Set (BitVec 64)} {src dst : BitVec 64} {n : ℕ} {m m' : Memory}

theorem MovedBytes.init (h : AgreeOff w m m') (hd : Disjoint (range dst n) w) :
    MovedBytes w src dst n ∅ m m' where
  off := fun x hx => h x fun hw => hx (.inl hw)
  moved := fun _ hx => absurd hx (Set.notMem_empty _)
  rest := fun y hy _ => (h y (Set.disjoint_left.1 hd hy)).symm

theorem sub_move (x y z o : BitVec 64) : y + (x - z) - (y + o) = x - (z + o) := by
  rw [← BitVec.sub_sub, BitVec.add_comm, BitVec.add_sub_cancel, ← BitVec.sub_sub]

/-- Writing to both. -/
theorem MovedBytes.write (h : MovedBytes w src dst n W m m') (hd : Disjoint (range dst n) w)
    {o : BitVec 64} {s : ℕ} (hin : range (src + o) s ⊆ range src n) (hw : range src n ⊆ w)
    {b b' : ℕ → BitVec 8} (hb : ∀ i < s, b i = b' i) :
    MovedBytes w src dst n (W ∪ range (src + o) s) (m.write (src + o) s b)
      (m'.write (dst + o) s b') := by
  have hmove {y : BitVec 64} : y ∈ range (dst + o) s ↔ src + (y - dst) ∈ range (src + o) s := by
    rw [mem_range, mem_range, sub_move]
  refine ⟨fun x hx => ?_, fun x hx => ?_, fun y hy hn => ?_⟩
  · have h1 : x ∉ range (src + o) s := fun hc => hx (.inl (hw (hin hc)))
    have h2 : x ∉ range (dst + o) s := by
      intro hc
      refine hx (.inr ?_)
      have := hin (hmove.1 hc)
      rwa [mem_range, BitVec.add_comm, BitVec.add_sub_cancel] at this
    rw [write_of_notMem h1, write_of_notMem h2, h.off x hx]
  · by_cases hc : x ∈ range (src + o) s
    · have hc' : dst + (x - src) ∈ range (dst + o) s := by
        rw [mem_range, sub_move]
        exact hc
      rw [write_of_mem hc, write_of_mem hc', sub_move, hb _ hc]
    · have hc' : dst + (x - src) ∉ range (dst + o) s := by
        rw [mem_range, sub_move]
        exact hc
      rw [write_of_notMem hc, write_of_notMem hc', h.moved x (hx.resolve_right hc)]
  · have h1 : y ∉ range (src + o) s := fun hc =>
      Set.disjoint_left.1 hd hy (hw (hin hc))
    have h2 : y ∉ range (dst + o) s := fun hc => hn (.inr (hmove.1 hc))
    rw [write_of_notMem h1, write_of_notMem h2, h.rest y hy fun hc => hn (.inl hc)]

/-- An operation on something else. -/
theorem MovedBytes.touches (h : MovedBytes w src dst n W m m') (hW : W ⊆ range src n)
    (hsrc : range src n ⊆ w) {R : Type} {op : Memory → Memory × R} {rd wr : Set (BitVec 64)}
    (ht : Touches op rd wr) (hrd : Disjoint rd (w ∪ range dst n))
    (hwr : Disjoint wr (w ∪ range dst n)) :
    (op m).2 = (op m').2 ∧ MovedBytes w src dst n W (op m).1 (op m').1 := by
  have hself {x : BitVec 64} (m : Memory) (hx : x ∈ w ∪ range dst n) : (op m).1 x = m x :=
    ht.agreeOff_self m x fun hc => Set.disjoint_left.1 hwr hc hx
  refine ⟨ht.result m m' (h.off.on hrd), ⟨fun x hx => ?_, fun x hx => ?_, fun y hy hn => ?_⟩⟩
  · exact ht.agreeOff h.off hrd x fun hc => hx hc.1
  · have hin : dst + (x - src) ∈ range dst n := by
      rw [mem_range, BitVec.add_comm, BitVec.add_sub_cancel]
      exact hW hx
    rw [hself m (.inl (hsrc (hW hx))), hself m' (.inr hin), h.moved x hx]
  · rw [hself m (.inr hy), hself m' (.inr hy), h.rest y hy hn]

/-- The copy brings the memories together. -/
theorem MovedBytes.copy (h : MovedBytes w src dst n (range src n) m m') :
    AgreeOff w (m.write dst n fun i => m (src + BitVec.ofNat 64 i))
      (m'.write dst n fun i => m' (dst + BitVec.ofNat 64 i)) ∧ m.read src n = m'.read dst n := by
  have hbyte {i : ℕ} (hi : i < n) : m (src + BitVec.ofNat 64 i) = m' (dst + BitVec.ofNat 64 i) := by
    have := h.moved _ (add_mem_range src hi)
    rw [BitVec.add_comm src, BitVec.add_sub_cancel] at this
    rw [BitVec.add_comm src, this]
  refine ⟨fun x hx => ?_, ?_⟩
  · by_cases hc : x ∈ range dst n
    · rw [write_of_mem hc, write_of_mem hc, hbyte hc]
    · rw [write_of_notMem hc, write_of_notMem hc]
      exact h.off x fun hu => hu.elim hx hc
  · exact List.map_congr_left fun i hi => hbyte (List.mem_range.1 hi)

end MovedBytes

/-! ### The operations, before and after -/

/-- What an operation of the kind `ty` does. -/
def memOp (ty : NodeType) (size : ℕ) (addr src : BitVec 64) (bytes : ℕ → BitVec 8) (m : Memory) :
    Memory × List (BitVec 8) :=
  match ty with
  | .load => (m, m.read addr size)
  | .store => (m.write addr size bytes, [])
  | .set => (m.write addr size fun _ => bytes 0, [])
  | .copy => (m.write addr size fun i => m (src + BitVec.ofNat 64 i), m.read src size)
  | _ => (m, [])

theorem runOp_eq_memOp (prc : Proc) (rt : Runtime) (u : NodeId) (m : Memory) :
    runOp prc rt u m = memOp (prc.getNode u).itype (opSize prc rt u)
      (rt.word ((prc.getNode u).inp 2)) (rt.word ((prc.getNode u).inp 3))
      (rt.byte ((prc.getNode u).inp 3)) m := rfl

section Moved

variable {prc : Proc} {rt rt' : Runtime} {id d : NodeId}

variable (hok : ForwardOk prc id) (hmv : Moved prc id d rt rt')

include hok

theorem ForwardOk.ne_zero : id ≠ 0 := hok.isRoot.ne_zero

theorem ForwardOk.ne_of_isMemOp {u : NodeId} (hu : prc.isMemOp u = true) : u ≠ id := by
  rintro rfl
  rw [Proc.isMemOp, hok.itype] at hu
  cases hu

/-- The address of a sum. -/
theorem word_of_derivedAddr (hrt : rt.Consistent prc) {c : NodeId} {o : ℤ}
    (h : prc.DerivedAddr id 0 c o) (hdt : (prc.getNode c).dt = .i64) :
    rt.word c = rt.word id + BitVec.ofInt 64 o := by
  induction h with
  | self => exact (BitVec.add_zero _).symm
  | @add c o v e hc he hv ih =>
    obtain ⟨hadd, hcv⟩ := Proc.constAdd_spec hv
    obtain ⟨-, hinp⟩ := hc.parent hok.defUse hok.addsBinary hok.isRoot he hv
    have hcdt := hok.addr.add _ hadd hdt
    rw [hinp] at hcdt
    rw [hrt.add _ hadd hdt, hinp, ih hcdt, word_of_cInt hrt hcv, BitVec.add_assoc,
      ← BitVec.ofInt_add, ofInt_wrap]

include hmv

/-- The address of a sum when `d` has taken the place of the local. -/
theorem word_moved (hd : prc.NotFrom id d) {c : NodeId} {o : ℤ} (h : prc.DerivedAddr id 0 c o)
    (hdt : (prc.getNode c).dt = .i64) :
    rt'.word (if c = id then d else c) = rt.word d + BitVec.ofInt 64 o := by
  induction h with
  | self =>
    rw [if_pos rfl, hmv.word d hd]
    exact (BitVec.add_zero _).symm
  | @add c o v e hc he hv ih =>
    obtain ⟨hadd, hcv⟩ := Proc.constAdd_spec hv
    obtain ⟨-, hinp⟩ := hc.parent hok.defUse hok.addsBinary hok.isRoot he hv
    have hcdt := hok.addr.add _ hadd hdt
    rw [hinp] at hcdt
    have hne : e.id ≠ id := by
      intro he
      rw [he, hok.itype] at hadd
      cases hadd
    have hkne : (prc.getNode e.id).inp 1 ≠ id := by
      intro he
      rw [he, hok.isRoot.cInt] at hcv
      cases hcv
    have hk : (prc.replaceUses d id).cInt ((prc.getNode e.id).inp 1) = some v := by
      rw [← hcv]
      unfold Proc.cInt
      rw [Peeped.getNode_replaceUses prc hkne]
      rfl
    have hsum := hmv.consistent.add e.id (by rw [Peeped.getNode_replaceUses prc hne]; exact hadd)
      (by rw [Peeped.getNode_replaceUses prc hne]; exact hdt)
    rw [Peeped.inp_replaceUses prc hok.ne_zero hne, Peeped.inp_replaceUses prc hok.ne_zero hne,
      hinp, if_neg hkne, ih hcdt, word_of_cInt hmv.consistent hk] at hsum
    rw [if_neg hne, hsum, BitVec.add_assoc, ← BitVec.ofInt_add, ofInt_wrap]

section Op

variable {u : NodeId} (hu : prc.isMemOp u = true)

include hu

theorem word_inp_of_notFrom {i : ℕ} (h : prc.NotFrom id ((prc.getNode u).inp i)) :
    rt'.word (((prc.replaceUses d id).getNode u).inp i) = rt.word ((prc.getNode u).inp i) := by
  rw [Peeped.inp_replaceUses prc hok.ne_zero (hok.ne_of_isMemOp hu), if_neg, hmv.word _ h]
  intro he
  exact h 0 (he ▸ .self)

theorem word_inp_of_derived (hd : prc.NotFrom id d) {i : ℕ} {o : ℤ}
    (h : prc.DerivedAddr id 0 ((prc.getNode u).inp i) o)
    (hdt : (prc.getNode ((prc.getNode u).inp i)).dt = .i64) :
    rt'.word (((prc.replaceUses d id).getNode u).inp i) = rt.word d + BitVec.ofInt 64 o := by
  rw [Peeped.inp_replaceUses prc hok.ne_zero (hok.ne_of_isMemOp hu)]
  exact word_moved hok hmv hd h hdt

/-- An operation has the kind, the size and the value that it had. -/
theorem runOp_moved (h3 : (prc.getNode u).itype ≠ .copy → prc.NotFrom id ((prc.getNode u).inp 3))
    (h4 : prc.NotFrom id ((prc.getNode u).inp 4)) (m : Memory) :
    runOp (prc.replaceUses d id) rt' u m = memOp (prc.getNode u).itype (opSize prc rt u)
      (rt'.word (((prc.replaceUses d id).getNode u).inp 2))
      (rt'.word (((prc.replaceUses d id).getNode u).inp 3)) (rt.byte ((prc.getNode u).inp 3))
      m := by
  have hne := hok.ne_of_isMemOp hu
  have hnode := Peeped.getNode_replaceUses prc (k := d) hne
  have hty : ((prc.replaceUses d id).getNode u).itype = (prc.getNode u).itype := by rw [hnode]
  have h3' (hc : (prc.getNode u).itype ≠ .copy) :
      ((prc.replaceUses d id).getNode u).inp 3 = (prc.getNode u).inp 3 := by
    rw [Peeped.inp_replaceUses prc hok.ne_zero hne, if_neg]
    intro he
    exact h3 hc 0 (he ▸ .self)
  have hsize : opSize (prc.replaceUses d id) rt' u = opSize prc rt u := by
    unfold opSize
    dsimp only
    rw [hty, word_inp_of_notFrom hok hmv hu h4]
    cases ht : (prc.getNode u).itype <;> try rfl
    · have hc : (prc.getNode u).itype ≠ .copy := by
        rw [ht]
        exact fun h => by cases h
      dsimp only
      rw [h3' hc, Peeped.getNode_replaceUses prc]
      intro he
      exact h3 hc 0 (he ▸ .self)
    · dsimp only
      rw [hnode]
  rw [runOp_eq_memOp, hty, hsize, hmv.byte]
  by_cases hc : (prc.getNode u).itype = .copy
  · rw [hc]
    rfl
  · rw [h3' hc]

/-- An operation that has nothing to do with the local does what it did. -/
theorem runOp_of_notFrom (h2 : prc.NotFrom id ((prc.getNode u).inp 2))
    (h3 : prc.NotFrom id ((prc.getNode u).inp 3)) (h4 : prc.NotFrom id ((prc.getNode u).inp 4)) :
    runOp (prc.replaceUses d id) rt' u = runOp prc rt u := by
  funext m
  rw [runOp_moved hok hmv hu (fun _ => h3) h4, word_inp_of_notFrom hok hmv hu h2,
    word_inp_of_notFrom hok hmv hu h3, runOp_eq_memOp]

end Op

end Moved

/-! ### Runs, before and after -/

/-- **Two runs see the same** along a thread, if what relates them is kept by every step. -/
theorem observations_sim {prc prc' : Proc} {w : Set (BitVec 64)}
    {env env' : NodeId → Runtime → Memory → Runtime × Memory}
    {R : NodeId → Runtime → Runtime → Memory → Memory → Prop}
    (hop : ∀ u, prc'.isMemOp u = prc.isMemOp u)
    (hmem : ∀ s u rt rt' m m', R s rt rt' m m' → u ∈ prc.users s → prc.isMemOp u = true →
      (prc.getNode u).inp 1 = s → (runOp prc rt u m).2 = (runOp prc' rt' u m').2 ∧
        ((prc.getNode u).itype ≠ .load →
          R u rt rt' (runOp prc rt u m).1 (runOp prc' rt' u m').1))
    (hother : ∀ s u rt rt' m m', R s rt rt' m m' → u ∈ prc.users s → prc.isMemOp u = false →
      AgreeOff w m m' ∧
        R u (env u rt m).1 (env' u rt' m').1 (env u rt m).2 (env' u rt' m').2)
    {p : List NodeId} {s : NodeId} {rt rt' : Runtime} {m m' : Memory} (hR : R s rt rt' m m')
    (hp : MemThread prc s p) :
    List.Forall₂ (Observation.Agree w) (observations prc env p rt m)
      (observations prc' env' p rt' m') := by
  induction p generalizing s rt rt' m m' with
  | nil => exact .nil
  | cons u p ih =>
    obtain ⟨hu, hinp, hload, hp⟩ := hp
    cases hm : prc.isMemOp u with
    | true =>
      obtain ⟨hres, hnext⟩ := hmem s u rt rt' m m' hR hu hm (hinp hm)
      rw [observations, observations, if_pos hm, if_pos ((hop u).trans hm)]
      refine .cons hres ?_
      by_cases hl : (prc.getNode u).itype = .load
      · rw [hload hl]
        exact .nil
      · exact ih (hnext hl) hp
    | false =>
      obtain ⟨hag, hnext⟩ := hother s u rt rt' m m' hR hu hm
      rw [observations, observations, if_neg (by rw [hm]; exact Bool.false_ne_true),
        if_neg (by rw [hop, hm]; exact Bool.false_ne_true)]
      exact .cons hag (ih hnext hp)

theorem isMemOp_replaceUses {prc : Proc} {id d : NodeId} (hok : ForwardOk prc id) (u : NodeId) :
    (prc.replaceUses d id).isMemOp u = prc.isMemOp u := by
  by_cases hu : u = id
  · subst hu
    rw [Proc.isMemOp, Peeped.getNode_replaceUses_self prc hok.ne_zero, Proc.isMemOp, hok.itype]
  · rw [Proc.isMemOp, Peeped.getNode_replaceUses prc hu]
    rfl

section Step

variable {prc : Proc} {rt rt' : Runtime} {id d : NodeId} {w : Set (BitVec 64)} {m m' : Memory}

/-- An operation that has nothing to do with the local touches none of its bytes. -/
theorem LocalPrivate.disjoint (h : LocalPrivate prc rt id) {u : NodeId}
    (hu : prc.isMemOp u = true) (h2 : prc.NotFrom id ((prc.getNode u).inp 2))
    (h3 : prc.NotFrom id ((prc.getNode u).inp 3)) :
    Disjoint (opReads prc rt u) (localBytes prc rt id) ∧
      Disjoint (opWrites prc rt u) (localBytes prc rt id) := by
  refine ⟨?_, (h.addr u hu h2).mono_left (opWrites_subset prc rt u)⟩
  by_cases hc : (prc.getNode u).itype = .copy
  · rw [opReads_copy hc]
    exact h.src u hc h3
  · exact (h.addr u hu h2).mono_left (opReads_subset hc)

/-- A step that has nothing to do with the local. -/
theorem agreeOff_runOp (hok : ForwardOk prc id) (hmv : Moved prc id d rt rt')
    (hpr : LocalPrivate prc rt id) (hag : AgreeOff (localBytes prc rt id) m m') {u : NodeId}
    (hu : prc.isMemOp u = true) (h2 : prc.NotFrom id ((prc.getNode u).inp 2))
    (h3 : prc.NotFrom id ((prc.getNode u).inp 3)) (h4 : prc.NotFrom id ((prc.getNode u).inp 4)) :
    (runOp prc rt u m).2 = (runOp (prc.replaceUses d id) rt' u m').2 ∧
      AgreeOff (localBytes prc rt id) (runOp prc rt u m).1
        (runOp (prc.replaceUses d id) rt' u m').1 := by
  rw [runOp_of_notFrom hok hmv hu h2 h3 h4]
  have ht := touches_runOp prc rt u
  obtain ⟨hrd, -⟩ := hpr.disjoint hu h2 h3
  exact ⟨ht.result m m' (hag.on hrd), fun x hx => ht.agreeOff hag hrd x fun hc => hx hc.1⟩

end Step

section Forward

variable {prc : Proc} {rt rt' : Runtime} {id fc : NodeId} {fuel : ℕ} {cs : List NodeId}
  {m m' : Memory}

/-- What is known about the graph once the walk has come to its end. -/
structure ForwardWalked (prc : Proc) (fuel : ℕ) (id fc : NodeId) (cs : List NodeId) : Prop where
  itype : (prc.getNode fc).itype = .copy
  chain : BackChain prc ((prc.getNode fc).inp 1) cs
  ops : ∀ c ∈ cs, prc.isStoreOp c = true ∧
    (prc.NotFrom id ((prc.getNode c).inp 2) → prc.isNoaliasOps fuel c fc = some true)
  fresh : fc ∉ cs
  uses : ∀ u, prc.isMemOp u = true → ∀ i, ¬ (u = fc ∧ i = 3) → ¬ (i = 2 ∧ u ∈ cs) →
    prc.NotFrom id ((prc.getNode u).inp i)

theorem written_cons {c : NodeId} (h : ¬ prc.NotFrom id ((prc.getNode c).inp 2)) :
    written prc rt id (c :: cs) = written prc rt id cs ∪ opWrites prc rt c := by
  ext x
  constructor
  · rintro ⟨c', hc', hn, hx⟩
    rcases List.mem_cons.1 hc' with rfl | hc'
    · exact .inr hx
    · exact .inl ⟨c', hc', hn, hx⟩
  · rintro (⟨c', hc', hn, hx⟩ | hx)
    · exact ⟨c', List.mem_cons_of_mem _ hc', hn, hx⟩
    · exact ⟨c, List.mem_cons_self .., h, hx⟩

theorem written_cons_of_notFrom {c : NodeId} (h : prc.NotFrom id ((prc.getNode c).inp 2)) :
    written prc rt id (c :: cs) = written prc rt id cs := by
  ext x
  constructor
  · rintro ⟨c', hc', hn, hx⟩
    rcases List.mem_cons.1 hc' with rfl | hc'
    · exact absurd h hn
    · exact ⟨c', hc', hn, hx⟩
  · rintro ⟨c', hc', hn, hx⟩
    exact ⟨c', List.mem_cons_of_mem _ hc', hn, hx⟩

theorem written_mono {ds : List NodeId} (h : ds ⊆ cs) :
    written prc rt id ds ⊆ written prc rt id cs :=
  fun _ ⟨c, hc, hn, hx⟩ => ⟨c, h hc, hn, hx⟩

theorem opWrites_of_isStoreOp {u : NodeId} (h : prc.isStoreOp u = true) :
    opWrites prc rt u = range (rt.word ((prc.getNode u).inp 2)) (opSize prc rt u) := by
  unfold Proc.isStoreOp at h
  unfold opWrites
  cases ht : (prc.getNode u).itype <;> simp [ht] at h ⊢

/-- A copy onto something else than `fc` writes. -/
theorem disjoint_of_isNoaliasOps (hA : prc.AddrTyped) (hrt : rt.Consistent prc) {c : NodeId}
    (h : prc.isNoaliasOps fuel c fc = some true)
    (hfit : OpsFit prc rt fuel c fc) :
    Disjoint (opReads prc rt c) (opWrites prc rt fc) ∧
      Disjoint (opWrites prc rt c) (opWrites prc rt fc) := by
  unfold Proc.isNoaliasOps at h
  split_ifs at h with hc
  · obtain ⟨h1, h2, -⟩ := disjoint_of_isNoaliasSwapped hA hrt h hfit.addr.symm hfit.left
    exact ⟨h1.symm, h2.symm⟩
  · obtain ⟨-, h2, h3⟩ :=
      disjoint_of_isNoaliasSwapped hA hrt h hfit.addr fun hf => hfit.right hf hc
    exact ⟨(h3 hc).symm, h2⟩

variable (hok : ForwardOk prc id) (hw : ForwardWalked prc fuel id fc cs) (hrt : rt.Consistent prc)
  (hpr : LocalPrivate prc rt id) (hfit : ForwardFits prc rt id fuel fc cs)
  (hmv : Moved prc id ((prc.getNode fc).inp 2) rt rt')

include hok hw hrt hpr hfit hmv

/-- The relation of the memories after the operations `ds` of the walk. -/
abbrev AfterWalked (prc : Proc) (rt : Runtime) (id fc : NodeId) (ds : List NodeId)
    (m m' : Memory) : Prop :=
  MovedBytes (localBytes prc rt id) (rt.word id) (rt.word ((prc.getNode fc).inp 2))
    (opSize prc rt fc) (written prc rt id ds) m m'

/-- **An operation before the copy** goes to the local, or to its place. -/
theorem forward_step {i : ℕ} {c : NodeId} (hc : cs[i]? = some c)
    (h : AfterWalked prc rt id fc (cs.drop (i + 1)) m m') :
    (runOp prc rt c m).2 = (runOp (prc.replaceUses ((prc.getNode fc).inp 2) id) rt' c m').2 ∧
      AfterWalked prc rt id fc (cs.drop i) (runOp prc rt c m).1
        (runOp (prc.replaceUses ((prc.getNode fc).inp 2) id) rt' c m').1 := by
  have hmem : c ∈ cs := List.mem_of_getElem? hc
  obtain ⟨hst, hna⟩ := hw.ops c hmem
  have hm := isMemOp_of_isStoreOp hst
  have hne : c ≠ fc := by
    rintro rfl
    exact hw.fresh hmem
  have h3 := hw.uses c hm 3 (fun h => hne h.1) (fun h => absurd h.1 (by decide))
  have h4 := hw.uses c hm 4 (fun h => hne h.1) (fun h => absurd h.1 (by decide))
  have hdrop : cs.drop i = c :: cs.drop (i + 1) := by
    rw [List.drop_eq_getElem_cons (List.getElem?_eq_some_iff.1 hc).1,
      (List.getElem?_eq_some_iff.1 hc).2]
  have hfcw : opWrites prc rt fc =
      range (rt.word ((prc.getNode fc).inp 2)) (opSize prc rt fc) := opWrites_copy hw.itype
  have hfm : prc.isMemOp fc = true := by rw [Proc.isMemOp, hw.itype]
  have hdis := hpr.addr fc hfm hfit.dst
  rw [hdrop]
  by_cases h2 : prc.NotFrom id ((prc.getNode c).inp 2)
  · -- an operation on the destination, on bytes that are not copied to
    rw [runOp_of_notFrom hok hmv hm h2 h3 h4, AfterWalked, written_cons_of_notFrom h2]
    obtain ⟨hr, hwr⟩ := hpr.disjoint hm h2 h3
    obtain ⟨hr', hwr'⟩ := disjoint_of_isNoaliasOps hok.addr hrt (hna h2)
      (hfit.apart c hmem h2)
    rw [hfcw] at hr' hwr'
    refine h.touches ?_ hfit.size (touches_runOp prc rt c) (hr.union_right hr')
      (hwr.union_right hwr')
    rw [← hfit.covered]
    exact written_mono (List.drop_subset _ _)
  · rw [AfterWalked, written_cons h2, opWrites_of_isStoreOp hst]
    have hc2 := h2
    simp only [Proc.NotFrom, not_forall, not_not] at hc2
    obtain ⟨o, ho⟩ := hc2
    have hdt := hok.addr.addr c hm
    have hin : range (rt.word id + BitVec.ofInt 64 o) (opSize prc rt c) ⊆
        range (rt.word id) (opSize prc rt fc) := by
      rw [← hfit.covered, ← word_of_derivedAddr hok hrt ho hdt, ← opWrites_of_isStoreOp hst]
      exact fun x hx => ⟨c, hmem, h2, hx⟩
    rw [runOp_moved hok hmv hm (fun _ => h3) h4, word_inp_of_notFrom hok hmv hm h3,
      word_inp_of_derived hok hmv hm hfit.dst ho hdt, runOp_eq_memOp,
      word_of_derivedAddr hok hrt ho hdt]
    have hwrite {b b' : ℕ → BitVec 8} (hb : ∀ i < opSize prc rt c, b i = b' i) :=
      h.write hdis hin hfit.size hb
    unfold Proc.isStoreOp at hst
    cases ht : (prc.getNode c).itype <;> rw [ht] at hst <;> try cases hst
    · -- a copy to the local
      have hbytes (i : ℕ) (hi : i < opSize prc rt c) :
          m (rt.word ((prc.getNode c).inp 3) + BitVec.ofNat 64 i) =
            m' (rt.word ((prc.getNode c).inp 3) + BitVec.ofNat 64 i) := by
        have hx := add_mem_range (rt.word ((prc.getNode c).inp 3)) hi
        have hoff := Set.disjoint_left.1 (hpr.src c ht h3) hx
        by_cases hd : rt.word ((prc.getNode c).inp 3) + BitVec.ofNat 64 i ∈ opWrites prc rt fc
        · refine (h.rest _ (hfcw ▸ hd) ?_).symm
          exact hfit.source _ c hc ht h2 _ (by rwa [opReads_copy ht]) hd
        · exact h.off _ fun hu => hu.elim hoff (hfcw ▸ hd)
      exact ⟨List.map_congr_left fun i hi => hbytes i (List.mem_range.1 hi), hwrite hbytes⟩
    · exact ⟨rfl, @hwrite (fun _ => rt.byte _ 0) (fun _ => rt.byte _ 0) fun _ _ => rfl⟩
    · exact ⟨rfl, hwrite fun _ _ => rfl⟩

omit hpr in
/-- **The copy** brings the memories together. -/
theorem forward_copy (h : AfterWalked prc rt id fc cs m m') :
    (runOp prc rt fc m).2 = (runOp (prc.replaceUses ((prc.getNode fc).inp 2) id) rt' fc m').2 ∧
      AgreeOff (localBytes prc rt id) (runOp prc rt fc m).1
        (runOp (prc.replaceUses ((prc.getNode fc).inp 2) id) rt' fc m').1 := by
  have hfm : prc.isMemOp fc = true := by rw [Proc.isMemOp, hw.itype]
  have h4 := hw.uses fc hfm 4 (fun h => absurd h.2 (by decide)) (fun h => absurd h.1 (by decide))
  have hzero (x : BitVec 64) : x + BitVec.ofInt 64 0 = x := BitVec.add_zero x
  rw [AfterWalked, hfit.covered] at h
  rw [runOp_moved hok hmv hfm (fun hc => absurd hw.itype hc) h4,
    word_inp_of_notFrom hok hmv hfm hfit.dst,
    word_inp_of_derived hok hmv hfm hfit.dst hfit.src (hok.addr.src fc hw.itype), hzero,
    runOp_eq_memOp, word_of_derivedAddr hok hrt hfit.src (hok.addr.src fc hw.itype), hzero,
    hw.itype]
  exact h.copy.symm

end Forward

section Sim

variable {prc : Proc} {id d : NodeId} {fuel : ℕ} {w : Set (BitVec 64)} {K : Runtime → Prop}
  {env env' : NodeId → Runtime → Memory → Runtime × Memory}

/-- How the two runs are related after a node. -/
def ForwardRel (prc : Proc) (id fc : NodeId) (cs : List NodeId) (w : Set (BitVec 64))
    (K : Runtime → Prop) (s : NodeId) (rt rt' : Runtime) (m m' : Memory) : Prop :=
  K rt ∧ Moved prc id ((prc.getNode fc).inp 2) rt rt' ∧
    ((∃ i : ℕ, cs[i]? = some s ∧ AfterWalked prc rt id fc (cs.drop i) m m') ∨
      s ∉ cs ∧ AgreeOff w m m')

/-- Stores that go to the destination at once. -/
theorem forward_sim {fc : NodeId} {cs : List NodeId} (hok : ForwardOk prc id)
    (hw : ForwardWalked prc fuel id fc cs)
    (hruns : ForwardRuns prc id ((prc.getNode fc).inp 2) w K env env')
    (hfit : ∀ rt, K rt → ForwardFits prc rt id fuel fc cs) {p : List NodeId} {s : NodeId}
    {rt rt' : Runtime} {m m' : Memory} (hK : K rt)
    (hmv : Moved prc id ((prc.getNode fc).inp 2) rt rt') (hs : s ∉ cs) (hm : AgreeOff w m m')
    (hp : MemThread prc s p) :
    List.Forall₂ (Observation.Agree w) (observations prc env p rt m)
      (observations (prc.replaceUses ((prc.getNode fc).inp 2) id) env' p rt' m') := by
  refine observations_sim (R := ForwardRel prc id fc cs w K) (isMemOp_replaceUses hok)
    (fun s u rt rt' m m' hR hu hmem hinp => ?_) (fun s u rt rt' m m' hR hu hmem => ?_)
    ⟨hK, hmv, .inr ⟨hs, hm⟩⟩ hp
  · obtain ⟨hK, hmv, hR⟩ := hR
    have hrt := hruns.consistent rt hK
    have hpr := hruns.localPrivate rt hK
    have hf := hfit rt hK
    have hbytes := hruns.bytes rt hK
    have hfm : prc.isMemOp fc = true := by rw [Proc.isMemOp, hw.itype]
    -- the copy and the operations before it
    have hon {i : ℕ} (hi : (fc :: cs)[i]? = some u)
        (h : AfterWalked prc rt id fc (cs.drop i) m m') :
        (runOp prc rt u m).2 =
            (runOp (prc.replaceUses ((prc.getNode fc).inp 2) id) rt' u m').2 ∧
          ((prc.getNode u).itype ≠ .load → ForwardRel prc id fc cs w K u rt rt'
            (runOp prc rt u m).1
            (runOp (prc.replaceUses ((prc.getNode fc).inp 2) id) rt' u m').1) := by
      cases i with
      | zero =>
        obtain rfl := Option.some.inj hi
        obtain ⟨h1, h2⟩ := forward_copy hok hw hrt hf hmv h
        exact ⟨h1, fun _ => ⟨hK, hmv, .inr ⟨hw.fresh, hbytes ▸ h2⟩⟩⟩
      | succ i =>
        have hi : cs[i]? = some u := by simpa using hi
        obtain ⟨h1, h2⟩ := forward_step hok hw hrt hpr hf hmv hi h
        exact ⟨h1, fun _ => ⟨hK, hmv, .inl ⟨i, hi, h2⟩⟩⟩
    have hoff (huc : u ∉ fc :: cs) (i : ℕ) : prc.NotFrom id ((prc.getNode u).inp i) :=
      hw.uses u hmem i (fun h => huc (h.1 ▸ List.mem_cons_self ..))
        fun h => huc (List.mem_cons_of_mem _ h.2)
    rcases hR with ⟨i, hi, h⟩ | ⟨hs, hag⟩
    · rcases hf.alone i s hi u hu with hnext | ⟨hload, hdis⟩
      · exact hon hnext h
      · -- a load of something else, between the operations
        have huc : u ∉ fc :: cs := by
          intro hc
          rcases List.mem_cons.1 hc with rfl | hc
          · rw [hw.itype] at hload
            cases hload
          · have hst := (hw.ops u hc).1
            rw [Proc.isStoreOp, hload] at hst
            cases hst
        refine ⟨?_, fun hl => absurd hload hl⟩
        rw [runOp_of_notFrom hok hmv hmem (hoff huc 2) (hoff huc 3) (hoff huc 4)]
        refine (touches_runOp prc rt u).result m m' (h.off.on ?_)
        rw [opWrites_copy hw.itype] at hdis
        exact (hpr.disjoint hmem (hoff huc 2) (hoff huc 3)).1.union_right hdis
    · by_cases huc : u ∈ fc :: cs
      · obtain ⟨i, hi⟩ := List.mem_iff_getElem?.1 huc
        -- its memory is not one of them, so that it is the first
        have hnone : cs[i]? = none := by
          by_contra hsome
          obtain ⟨s', hs'⟩ := Option.ne_none_iff_exists'.1 hsome
          rw [hw.chain.cons_inp hi hs'] at hinp
          exact hs (hinp ▸ List.mem_of_getElem? hs')
        refine hon hi ?_
        rw [AfterWalked, List.drop_eq_nil_of_le (List.getElem?_eq_none_iff.1 hnone)]
        have hempty : written prc rt id [] = ∅ := by
          refine Set.eq_empty_of_forall_notMem ?_
          rintro x ⟨_, hc, -⟩
          cases hc
        rw [hempty]
        exact .init (hbytes ▸ hag) (hpr.addr fc hfm hf.dst)
      · rw [← hbytes] at hag
        obtain ⟨h1, h2⟩ :=
          agreeOff_runOp hok hmv hpr hag hmem (hoff huc 2) (hoff huc 3) (hoff huc 4)
        exact ⟨h1, fun _ => ⟨hK, hmv,
          .inr ⟨fun hc => huc (List.mem_cons_of_mem _ hc), hbytes ▸ h2⟩⟩⟩
  · obtain ⟨hK, hmv, hR⟩ := hR
    rcases hR with ⟨i, hi, h⟩ | ⟨hs, hag⟩
    · have hop : prc.isMemOp u = true := by
        rcases (hfit rt hK).alone i s hi u hu with hnext | ⟨hload, -⟩
        · rcases List.mem_cons.1 (List.mem_of_getElem? hnext) with rfl | hc
          · rw [Proc.isMemOp, hw.itype]
          · exact isMemOp_of_isStoreOp (hw.ops u hc).1
        · rw [Proc.isMemOp, hload]
      rw [hop] at hmem
      cases hmem
    · obtain ⟨h1, h2, h3⟩ := hruns.env u rt rt' m m' hK hmv hag
      refine ⟨hag, h1, h2, .inr ⟨fun hc => ?_, h3⟩⟩
      rw [isMemOp_of_isStoreOp (hw.ops u hc).1] at hmem
      cases hmem

/-- What is known about the graph when the local is filled by `r` and loaded from. -/
structure ReverseWalked (prc : Proc) (id r : NodeId) : Prop where
  itype : (prc.getNode r).itype = .copy
  uses : ∀ u, prc.isMemOp u = true → ∀ i, ¬ (u = r ∧ i = 2) →
    prc.NotFrom id ((prc.getNode u).inp i) ∨
      (prc.getNode u).itype = .load ∧ (prc.getNode u).inp 1 = r

/-- How the two runs are related after a node. -/
def ReverseRel (prc : Proc) (id r : NodeId) (w : Set (BitVec 64)) (K : Runtime → Prop)
    (s : NodeId) (rt rt' : Runtime) (m m' : Memory) : Prop :=
  K rt ∧ Moved prc id ((prc.getNode r).inp 3) rt rt' ∧ AgreeOff w m m' ∧
    (s = r → ∀ x ∈ range (rt.word id) (opSize prc rt r),
      m x = m' (rt.word ((prc.getNode r).inp 3) + (x - rt.word id)))

theorem notFrom_of_load (hok : ForwardOk prc id) {u : NodeId} (hu : (prc.getNode u).itype = .load)
    {i : ℕ} (hi : 3 ≤ i) : prc.NotFrom id ((prc.getNode u).inp i) := by
  rw [Node.inp, List.getD_eq_default _ _ (by rw [hok.load_inps u hu]; exact hi)]
  exact fun _ h => (h.live hok.defUse hok.isRoot).1 rfl

/-- **The copy to the local** becomes one of the source onto itself. -/
theorem reverse_copy {r : NodeId} {rt rt' : Runtime} {m m' : Memory} (hok : ForwardOk prc id)
    (hw : ReverseWalked prc id r) (hrt : rt.Consistent prc) (hpr : LocalPrivate prc rt id)
    (hfit : ReverseFits prc rt id r) (hmv : Moved prc id ((prc.getNode r).inp 3) rt rt')
    (hag : AgreeOff (localBytes prc rt id) m m') :
    (runOp prc rt r m).2 = (runOp (prc.replaceUses ((prc.getNode r).inp 3) id) rt' r m').2 ∧
      AgreeOff (localBytes prc rt id) (runOp prc rt r m).1
        (runOp (prc.replaceUses ((prc.getNode r).inp 3) id) rt' r m').1 ∧
      ∀ x ∈ range (rt.word id) (opSize prc rt r), (runOp prc rt r m).1 x =
        (runOp (prc.replaceUses ((prc.getNode r).inp 3) id) rt' r m').1
          (rt.word ((prc.getNode r).inp 3) + (x - rt.word id)) := by
  have hrm : prc.isMemOp r = true := by rw [Proc.isMemOp, hw.itype]
  have hnl : ¬ ((prc.getNode r).itype = .load ∧ (prc.getNode r).inp 1 = r) := by
    rw [hw.itype]
    exact fun h => by cases h.1
  have h3 := (hw.uses r hrm 3 fun h => absurd h.2 (by decide)).resolve_right hnl
  have h4 := (hw.uses r hrm 4 fun h => absurd h.2 (by decide)).resolve_right hnl
  have hzero (x : BitVec 64) : x + BitVec.ofInt 64 0 = x := BitVec.add_zero x
  have hsrc (i : ℕ) (hi : i < opSize prc rt r) :
      m (rt.word ((prc.getNode r).inp 3) + BitVec.ofNat 64 i) =
        m' (rt.word ((prc.getNode r).inp 3) + BitVec.ofNat 64 i) :=
    hag _ (Set.disjoint_left.1 (hpr.src r hw.itype h3) (add_mem_range _ hi))
  rw [runOp_moved hok hmv hrm (fun hc => absurd hw.itype hc) h4,
    word_inp_of_notFrom hok hmv hrm h3,
    word_inp_of_derived hok hmv hrm h3 hfit.dst (hok.addr.addr r hrm), hzero, runOp_eq_memOp,
    word_of_derivedAddr hok hrt hfit.dst (hok.addr.addr r hrm), hzero, hw.itype]
  unfold memOp
  dsimp only
  have hself : m'.write (rt.word ((prc.getNode r).inp 3)) (opSize prc rt r)
      (fun i => m' (rt.word ((prc.getNode r).inp 3) + BitVec.ofNat 64 i)) = m' := by
    funext x
    by_cases hx : x ∈ range (rt.word ((prc.getNode r).inp 3)) (opSize prc rt r)
    · rw [write_of_mem hx, add_ofNat_toNat_sub]
    · rw [write_of_notMem hx]
  rw [hself]
  refine ⟨List.map_congr_left fun i hi => hsrc i (List.mem_range.1 hi), fun x hx => ?_,
    fun x hx => ?_⟩
  · rw [write_of_notMem fun hc => hx (hfit.size hc), hag x hx]
  · rw [write_of_mem hx, hsrc _ hx, BitVec.ofNat_toNat, BitVec.setWidth_eq]

/-- **The load of the local** becomes one of the source. -/
theorem reverse_load {r u : NodeId} {rt rt' : Runtime} {m m' : Memory} (hok : ForwardOk prc id)
    (hrt : rt.Consistent prc) (hfit : ReverseFits prc rt id r) (hd : prc.NotFrom id d)
    (hmv : Moved prc id d rt rt') (hu : (prc.getNode u).itype = .load)
    (h2 : ¬ prc.NotFrom id ((prc.getNode u).inp 2))
    (hm : ∀ x ∈ range (rt.word id) (opSize prc rt r), m x = m' (rt.word d + (x - rt.word id))) :
    (runOp prc rt u m).2 = (runOp (prc.replaceUses d id) rt' u m').2 := by
  have hum : prc.isMemOp u = true := by rw [Proc.isMemOp, hu]
  have hreads := hfit.load u hu h2
  simp only [Proc.NotFrom, not_forall, not_not] at h2
  obtain ⟨o, ho⟩ := h2
  have hdt := hok.addr.addr u hum
  rw [runOp_moved hok hmv hum (fun _ => notFrom_of_load hok hu le_rfl)
    (notFrom_of_load hok hu (by decide)),
    word_inp_of_derived hok hmv hum hd ho hdt, runOp_eq_memOp, word_of_derivedAddr hok hrt ho hdt,
    hu]
  refine List.map_congr_left fun i hi => ?_
  have hx : rt.word id + BitVec.ofInt 64 o + BitVec.ofNat 64 i ∈
      range (rt.word id) (opSize prc rt r) := by
    refine hreads ?_
    rw [opReads, hu, word_of_derivedAddr hok hrt ho hdt]
    exact add_mem_range _ (List.mem_range.1 hi)
  rw [hm _ hx, BitVec.add_assoc, BitVec.add_comm (rt.word id), BitVec.add_sub_cancel,
    BitVec.add_assoc]

/-- A load that goes to the source at once. -/
theorem reverse_sim {r : NodeId} (hok : ForwardOk prc id) (hw : ReverseWalked prc id r)
    (hruns : ForwardRuns prc id ((prc.getNode r).inp 3) w K env env')
    (hfit : ∀ rt, K rt → ReverseFits prc rt id r) {p : List NodeId} {s : NodeId}
    {rt rt' : Runtime} {m m' : Memory} (hK : K rt)
    (hmv : Moved prc id ((prc.getNode r).inp 3) rt rt') (hs : s ≠ r) (hm : AgreeOff w m m')
    (hp : MemThread prc s p) :
    List.Forall₂ (Observation.Agree w) (observations prc env p rt m)
      (observations (prc.replaceUses ((prc.getNode r).inp 3) id) env' p rt' m') := by
  have hrm : prc.isMemOp r = true := by rw [Proc.isMemOp, hw.itype]
  refine observations_sim (R := ReverseRel prc id r w K) (isMemOp_replaceUses hok)
    (fun s u rt rt' m m' hR hu hmem hinp => ?_) (fun s u rt rt' m m' hR hu hmem => ?_)
    ⟨hK, hmv, hm, fun h => absurd h hs⟩ hp
  · obtain ⟨hK, hmv, hag, hbytes⟩ := hR
    have hrt := hruns.consistent rt hK
    have hpr := hruns.localPrivate rt hK
    have hf := hfit rt hK
    have hwb := hruns.bytes rt hK
    subst hwb
    by_cases hur : u = r
    · subst hur
      obtain ⟨h1, h2, h3⟩ := reverse_copy hok hw hrt hpr hf hmv hag
      exact ⟨h1, fun _ => ⟨hK, hmv, h2, fun _ => h3⟩⟩
    · have huse (i : ℕ) := hw.uses u hmem i fun h => hur h.1
      by_cases h2 : prc.NotFrom id ((prc.getNode u).inp 2)
      · have hoff (i : ℕ) (hi : 3 ≤ i) : prc.NotFrom id ((prc.getNode u).inp i) :=
          (huse i).elim (fun h => h) fun h => notFrom_of_load hok h.1 hi
        obtain ⟨h1, h2⟩ :=
          agreeOff_runOp hok hmv hpr hag hmem h2 (hoff 3 le_rfl) (hoff 4 (by decide))
        exact ⟨h1, fun _ => ⟨hK, hmv, h2, fun h => absurd h hur⟩⟩
      · obtain ⟨hl, hlr⟩ := (huse 2).resolve_left h2
        rw [hlr] at hinp
        have h3 := (hw.uses r hrm 3 fun h => absurd h.2 (by decide)).resolve_right fun h => by
          rw [hw.itype] at h
          cases h.1
        exact ⟨reverse_load hok hrt hf h3 hmv hl h2 (hbytes hinp.symm), fun h => absurd hl h⟩
  · obtain ⟨hK, hmv, hag, -⟩ := hR
    obtain ⟨h1, h2, h3⟩ := hruns.env u rt rt' m m' hK hmv hag
    refine ⟨hag, h1, h2, h3, fun he => ?_⟩
    rw [he, hrm] at hmem
    cases hmem

/-! ### The two ways in which the peephole comes to an address -/

theorem forwardWalked_of_scan {scan : ForwardScan} {ys : List NodeOutput} (hok : ForwardOk prc id)
    (hs : ForwardScanned prc scan ys) (hys : ∀ u o, prc.DerivedUse id 0 u o → u ∈ ys)
    (hf : scan.forwardCandidate ≠ 0) {rounds : ℕ}
    (hw : forwardWalk prc fuel id scan.forwardCandidate rounds
      ((prc.getNode scan.forwardCandidate).inp 1) (scan.opCount - 1) = some true) :
    ForwardWalked prc fuel id scan.forwardCandidate (walked prc id fuel rounds
      ((prc.getNode scan.forwardCandidate).inp 1) (scan.opCount - 1)) := by
  obtain ⟨hchain, hops, -⟩ := forwardWalk_spec hw
  have hcopy := (hs.forward hf).1
  refine ⟨hcopy, hchain, fun c hc => ⟨(hops c hc).1, fun hn => ?_⟩, fun hmem => ?_,
    fun u hu i h3 h2 => ?_⟩
  · exact (hops c hc).2.resolve_left fun hl =>
      hl.not_notFrom hok (isMemOp_of_isStoreOp (hops c hc).1) hn
  · have hre := (hchain.nodup hok fun x hx => (hops x hx).1).2 _ hmem
    exact hok.acyclic _ (.head' ⟨by rw [Proc.isStoreOp, hcopy], rfl⟩ hre)
  · by_contra hn
    obtain ⟨o, ho⟩ := derivedUse_of_inp hok hu rfl hn
    rcases forward_uses hok hs hys hf hw ho with h | ⟨h, hm⟩
    · exact h3 ⟨congrArg NodeOutput.id h, congrArg NodeOutput.idx h⟩
    · exact h2 ⟨h, hm⟩

theorem reverseWalked_of_scan {scan : ForwardScan} {ys : List NodeOutput} (hok : ForwardOk prc id)
    (hs : ForwardScanned prc scan ys) (hys : ∀ u o, prc.DerivedUse id 0 u o → u ∈ ys)
    (hf : scan.forwardCandidate = 0) (hl : scan.loadBase ≠ 0)
    (hr : scan.loadBase = scan.revForwardCandidate) (hcount : scan.opCount = 2) :
    ReverseWalked prc id scan.revForwardCandidate := by
  obtain ⟨hcopy, hmem⟩ := hs.rev (hr ▸ hl)
  obtain ⟨l, hlmem, hload⟩ := hs.load hl
  refine ⟨hcopy, fun u hu i hne => ?_⟩
  by_cases hn : prc.NotFrom id ((prc.getNode u).inp i)
  · exact .inl hn
  obtain ⟨o, ho⟩ := derivedUse_of_inp hok hu rfl hn
  have huys := hys _ o ho
  have hlr : l ≠ ⟨scan.revForwardCandidate, 2⟩ := by
    rintro rfl
    rw [hcopy] at hload
    cases hload
  have hur : (⟨u, i⟩ : NodeOutput) ≠ ⟨scan.revForwardCandidate, 2⟩ := fun h =>
    hne ⟨congrArg NodeOutput.id h, congrArg NodeOutput.idx h⟩
  -- there are two uses, the copy and the load
  have hul : (⟨u, i⟩ : NodeOutput) = l := by
    by_contra hul
    have hle := (List.subperm_of_subset
      (List.nodup_cons.2 ⟨by simp [hul, hur], List.nodup_cons.2 ⟨by simp [hlr],
        List.nodup_singleton _⟩⟩ : [(⟨u, i⟩ : NodeOutput), l, ⟨scan.revForwardCandidate, 2⟩].Nodup)
      (by simp [huys, hlmem, hmem] : _ ⊆ ys)).length_le
    rw [← hs.count, hcount] at hle
    simp at hle
  subst hul
  rcases hs.kind _ hlmem with hk | hk | hk
  · rw [Proc.isStoreOp, hload] at hk
    cases hk.1
  · exact absurd hf hk.1
  · exact .inr ⟨hk.2.1, hk.2.2.trans hr⟩

/-- What is known when the local is replaced. -/
theorem localForward_cases (hok : ForwardOk prc id)
    (h : localForward prc fuel id = some (some d)) :
    ∃ scan, scanUses prc fuel ⟨id, 0, 0⟩ {} = some (some scan) ∧
      (scan.forwardCandidate = 0 ∧ d = (prc.getNode scan.revForwardCandidate).inp 3 ∧
          ReverseWalked prc id scan.revForwardCandidate ∨
        scan.forwardCandidate ≠ 0 ∧ d = (prc.getNode scan.forwardCandidate).inp 2 ∧
          ForwardWalked prc fuel id scan.forwardCandidate (walked prc id fuel fuel
            ((prc.getNode scan.forwardCandidate).inp 1) (scan.opCount - 1))) := by
  unfold localForward at h
  dsimp only at h
  split_ifs at h
  swap
  · cases h
  obtain ⟨dead, hdead, h⟩ := Option.bind_eq_some_iff.1 h
  cases dead with
  | true => cases h
  | false =>
    rw [if_neg Bool.false_ne_true] at h
    obtain ⟨r, hr, h⟩ := Option.bind_eq_some_iff.1 h
    cases r with
    | none => cases h
    | some scan =>
      dsimp only at h
      have hinit : ForwardScanned prc {} [] :=
        ⟨rfl, by simp, fun h => absurd rfl h, fun h => absurd rfl h, fun h => absurd rfl h⟩
      obtain ⟨ys, hscan, -, -, hpend⟩ :=
        @scanUses_spec prc id hok fuel ⟨id, 0, 0⟩ {} scan [] .self hinit (by simp) hr
      have hys (u : NodeOutput) (o : ℤ) (hu : prc.DerivedUse id 0 u o) : u ∈ ys :=
        hpend u o (Proc.pending_of_derivedUse hu)
      refine ⟨scan, hr, ?_⟩
      by_cases hbase : scan.loadBase ≠ 0 ∧
          (scan.loadBase ≠ scan.revForwardCandidate ∧ scan.forwardCandidate = 0 ∨
            scan.forwardCandidate ≠ 0)
      · rw [if_pos hbase] at h
        cases h
      rw [if_neg hbase] at h
      -- no `MemCopy` out of the local: two uses, a store and the load of it
      by_cases hf : scan.forwardCandidate = 0
      · rw [if_neg (not_not.2 hf)] at h
        by_cases hcount : scan.opCount = 2
        swap
        · rw [if_neg hcount] at h
          cases h
        rw [if_pos hcount] at h
        -- the local is not only stored to, so one use is a load
        have hl : scan.loadBase ≠ 0 := by
          obtain ⟨u, o, hu, hnot⟩ := @onlyStored_spec prc id hok fuel ⟨id, 0, 0⟩ .self hdead
          rcases hscan.kind u (hys u o hu) with hk | hk | hk
          · exact absurd hk hnot
          · exact absurd hf hk.1
          · exact hk.1
        have hrev : scan.loadBase = scan.revForwardCandidate := by
          by_contra hne
          exact hbase ⟨hl, .inl ⟨hne, hf⟩⟩
        exact .inl ⟨hf, (Option.some.inj (Option.some.inj h)).symm,
          reverseWalked_of_scan hok hscan hys hf hl hrev hcount⟩
      · rw [if_pos hf, forwardTo] at h
        obtain ⟨⟨bse, o⟩, -, h⟩ := Option.bind_eq_some_iff.1 h
        dsimp only at h
        split_ifs at h
        swap
        · cases h
        obtain ⟨found, hfound, h⟩ := Option.bind_eq_some_iff.1 h
        cases found with
        | false => cases h
        | true =>
          exact .inr ⟨hf, (Option.some.inj (Option.some.inj h)).symm,
            forwardWalked_of_scan hok hscan hys hf hfound⟩

/-- **A run sees the same when the local is gone**: from any memory that is not that of an
operation, along every thread, every load and copy reads the bytes that it read, and every call,
return and join sees the memory that it saw, but for the bytes of the local. -/
theorem localForward_observations (hok : ForwardOk prc id)
    (h : localForward prc fuel id = some (some d)) (hruns : ForwardRuns prc id d w K env env')
    (hfit : ∀ rt, K rt → LocalFits prc rt id fuel) {p : List NodeId} {s : NodeId}
    {rt rt' : Runtime} {m m' : Memory} (hK : K rt) (hmv : Moved prc id d rt rt')
    (hs : prc.isMemOp s = false) (hm : AgreeOff w m m') (hp : MemThread prc s p) :
    List.Forall₂ (Observation.Agree w) (observations prc env p rt m)
      (observations (prc.replaceUses d id) env' p rt' m') := by
  obtain ⟨scan, hscan, ⟨hf, rfl, hw⟩ | ⟨hf, rfl, hw⟩⟩ := localForward_cases hok h
  · refine reverse_sim hok hw hruns (fun rt hK => ?_) hK hmv ?_ hm hp
    · have := hfit rt hK scan hscan
      rwa [if_pos hf] at this
    · rintro rfl
      rw [Proc.isMemOp, hw.itype] at hs
      cases hs
  · refine forward_sim hok hw hruns (fun rt hK => ?_) hK hmv (fun hc => ?_) hm hp
    · have := hfit rt hK scan hscan
      rwa [if_neg hf] at this
    · rw [isMemOp_of_isStoreOp (hw.ops s hc).1] at hs
      cases hs

end Sim

/-! ### Reading the destination between the store and the copy -/

/-- `t := 7; x := q^; p^ = t; return x`, where `q` is `p`, or the place after it. -/
def copyOut (same : Bool) : Proc where
  mem := fun id =>
    [{},
      { itype := .entry, outs := [⟨2, 0⟩, ⟨3, 0⟩, ⟨9, 0⟩, ⟨10, 0⟩, ⟨12, 0⟩, ⟨13, 0⟩] },
      { itype := .mem, dt := .mem, inps := [1], outs := [⟨5, 0⟩, ⟨9, 1⟩] },
      { itype := .param, dt := .i64, inps := [1],
        outs := if same then [⟨11, 0⟩, ⟨12, 2⟩, ⟨10, 2⟩] else [⟨11, 0⟩, ⟨12, 2⟩] },
      { itype := .dead },
      { itype := .local, extra := [8], inps := [2], outs := [⟨6, 0⟩] },
      { itype := .localAddr, dt := .i64, inps := [5], outs := [⟨9, 2⟩, ⟨12, 3⟩] },
      { itype := .cInt, dt := .i64, extra := [8, 0], outs := [⟨11, 1⟩, ⟨12, 4⟩] },
      { itype := .cInt, dt := .i64, extra := [7, 0], outs := [⟨9, 3⟩] },
      { itype := .store, dt := .mem, inps := [1, 2, 6, 8], outs := [⟨10, 1⟩, ⟨12, 1⟩] },
      { itype := .load, dt := .i64, inps := [1, 9, if same then 3 else 11], outs := [⟨13, 2⟩] },
      { itype := .bin .add, dt := .i64, inps := [3, 7],
        outs := if same then [] else [⟨10, 2⟩] },
      { itype := .copy, dt := .mem, inps := [1, 9, 3, 6, 7], outs := [⟨13, 1⟩] },
      { itype := .return_, inps := [1, 12, 10] }].getD id { itype := .dead }
  pos := 14
  entry := 1
  end_ := 13

/-- `p` is at `0x1000`, and the local at `0x2000`. -/
def copyOutRun : Runtime where
  word := fun n => [0, 0, 0, 0x1000, 0, 0, 0x2000, 8, 7, 0, 0, 0x1008].getD n 0
  byte := fun n _ => if n = 8 then 7 else 0

section Example

variable {same : Bool}

theorem copyOut_dead (id : ℕ) (h : 14 ≤ id) :
    (copyOut same).getNode id = { itype := .dead } :=
  Proc.getNode_of_length_le _ h (by decide) rfl rfl

theorem copyOut_forall (same : Bool) {P : NodeId → Node → Prop}
    (hdead : ∀ id, P id { itype := .dead }) (h : ∀ id < 14, P id ((copyOut same).getNode id)) :
    ∀ id, P id ((copyOut same).getNode id) :=
  Proc.forall_getNode copyOut_dead hdead h

theorem forwardOk_copyOut : ForwardOk (copyOut same) 6 where
  defUse := by
    refine .of_bounded (k := 14) (fun id hid => ?_) ?_ ?_
    · simp [Proc.live, copyOut_dead id hid]
    · cases same <;> decide
    · cases same <;> decide
  addsBinary := by
    refine copyOut_forall same (P := fun _ node => node.itype = .bin .add → node.inps.length = 2)
      (fun _ h => by simp at h) ?_
    cases same <;> decide
  addr := by
    refine .of_bounded copyOut_dead ?_ ?_ ?_ <;> cases same <;> decide
  itype := rfl
  mem := by
    have h : ∀ u < 14, (copyOut same).isMemOp u = true →
        ((copyOut same).getNode (((copyOut same).getNode u).inp 1)).dt = .mem := by
      cases same <;> decide
    exact fun u hu => h u (Proc.lt_of_isMemOp copyOut_dead hu) hu
  load_inps := by
    refine copyOut_forall same (P := fun _ node => node.itype = .load → node.inps.length = 3)
      (fun _ h => by simp at h) ?_
    cases same <;> decide
  acyclic := by
    -- the memory of an operation comes before it in the arena
    have hdec : ∀ u < 14, (copyOut same).isStoreOp u = true →
        ((copyOut same).getNode u).inp 1 < u := by
      cases same <;> decide
    have hlt (u : NodeId) (hu : (copyOut same).isStoreOp u = true) :
        ((copyOut same).getNode u).inp 1 < u :=
      hdec u (Proc.lt_of_isMemOp copyOut_dead (isMemOp_of_isStoreOp hu)) hu
    have htrans : ∀ a b, Relation.TransGen (fun a b => (copyOut same).isStoreOp a = true ∧
        ((copyOut same).getNode a).inp 1 = b) a b → b < a := by
      intro a b h
      induction h with
      | single h => exact h.2 ▸ hlt a h.1
      | tail _ h ih => exact lt_trans (h.2 ▸ hlt _ h.1) ih
    exact fun u h => lt_irrefl u (htrans u u h)

/-- Nothing is added to the address of the local. -/
theorem derivedAddr_copyOut {n : NodeId} {o : ℤ} (h : (copyOut same).DerivedAddr 6 0 n o) :
    n = 6 ∧ o = 0 := by
  induction h with
  | self => exact ⟨rfl, rfl⟩
  | @add c o v e _ he hv ih =>
    obtain ⟨rfl, -⟩ := ih
    have hno : ∀ e ∈ ((copyOut same).getNode 6).outs, (copyOut same).constAdd e.id = none := by
      cases same <;> decide
    rw [hno e he] at hv
    cases hv

theorem notFrom_copyOut {n : NodeId} (h : n ≠ 6) : (copyOut same).NotFrom 6 n :=
  fun _ ho => h (derivedAddr_copyOut ho).1

theorem consistent_copyOut : copyOutRun.Consistent (copyOut same) := by
  refine ⟨fun id => ?_, fun id => ?_⟩
  · refine copyOut_forall same (P := fun id node => node.itype = .cInt →
      copyOutRun.word id = BitVec.ofInt 64 node.cIntValue) (fun _ h => by simp at h) ?_ id
    cases same <;> decide
  · refine copyOut_forall same (P := fun id node => node.itype = .bin .add → node.dt = .i64 →
      copyOutRun.word id = copyOutRun.word (node.inp 0) + copyOutRun.word (node.inp 1))
      (fun _ h => by simp at h) ?_ id
    cases same <;> decide

/-- The values are the same in both graphs. -/
theorem moved_copyOut : Moved (copyOut same) 6 3 copyOutRun copyOutRun := by
  refine ⟨?_, fun _ _ => rfl, rfl⟩
  have hne {id : NodeId} {ty : NodeType}
      (h : (((copyOut same).replaceUses 3 6).getNode id).itype = ty) (hty : ty ≠ .dead) :
      id ≠ 6 := by
    rintro rfl
    exact hty h.symm
  refine ⟨fun id hid => ?_, fun id hid hdt => ?_⟩
  · have h := hne hid (by simp)
    rw [Peeped.getNode_replaceUses _ h] at hid ⊢
    exact consistent_copyOut.cInt id hid
  · have h := hne hid (by simp)
    rw [Peeped.getNode_replaceUses _ h] at hid hdt
    have hinp : ∀ id < 14, ((copyOut same).getNode id).itype = .bin .add → ∀ i < 2,
        (((copyOut same).replaceUses 3 6).getNode id).inp i =
          ((copyOut same).getNode id).inp i := by
      cases same <;> decide
    have hlt : id < 14 := by
      by_contra hge
      rw [copyOut_dead id (not_lt.1 hge)] at hid
      cases hid
    rw [hinp id hlt hid 0 (by decide), hinp id hlt hid 1 (by decide)]
    exact consistent_copyOut.add id hid hdt

theorem disjoint_range_of_lt {a b : BitVec 64} {n k : ℕ} (h : a.toNat + n ≤ b.toNat)
    (hk : b.toNat + k ≤ 2 ^ 64) : Disjoint (range a n) (range b k) := by
  refine Set.disjoint_left.2 fun x ha hb => ?_
  rw [mem_range, BitVec.toNat_sub] at ha hb
  have hx := x.isLt
  omega

theorem localBytes_copyOut : localBytes (copyOut same) copyOutRun 6 = range 0x2000 8 := by
  have hsize : (localSize (copyOut same) (((copyOut same).getNode 6).inp 0)).toNat = 8 := by
    cases same <;> decide
  rw [localBytes, hsize]
  rfl

theorem forwardRuns_copyOut : ForwardRuns (copyOut same) 6 3
    (localBytes (copyOut same) copyOutRun 6) (· = copyOutRun) (fun _ rt m => (rt, m))
    (fun _ rt m => (rt, m)) where
  consistent := by
    rintro rt rfl
    exact consistent_copyOut
  bytes := by
    rintro rt rfl
    rfl
  localPrivate := by
    rintro rt rfl
    have hne {n : NodeId} (h : (copyOut same).NotFrom 6 n) : n ≠ 6 := by
      rintro rfl
      exact h 0 .self
    refine ⟨fun u hu h2 => ?_, fun u hu h3 => ?_⟩
    · rw [localBytes_copyOut]
      have hlow : ∀ u < 14, (copyOut same).isMemOp u = true → ((copyOut same).getNode u).inp 2 ≠ 6 →
          (copyOutRun.word (((copyOut same).getNode u).inp 2)).toNat +
            opSize (copyOut same) copyOutRun u ≤ 0x2000 := by
        cases same <;> decide
      exact disjoint_range_of_lt (hlow u (Proc.lt_of_isMemOp copyOut_dead hu) hu (hne h2))
        (by decide)
    · have hu' : (copyOut same).isMemOp u = true := by rw [Proc.isMemOp, hu]
      have hno : ∀ u < 14, ((copyOut same).getNode u).itype = .copy →
          ((copyOut same).getNode u).inp 3 = 6 := by
        cases same <;> decide
      exact absurd (hno u (Proc.lt_of_isMemOp copyOut_dead hu') hu) (hne h3)
  env := by
    rintro n rt rt' m m' rfl hmv hm
    exact ⟨rfl, hmv, hm⟩

theorem localForward_copyOut : localForward (copyOut same) 5 6 = some (some 3) := by
  cases same <;> decide

/-- What is loaded in between is not what is copied to, when `q` is the place after `p`. -/
theorem localFits_copyOut : LocalFits (copyOut false) copyOutRun 6 5 := by
  intro scan hscan
  have hs : scanUses (copyOut false) 5 ⟨6, 0, 0⟩ {} = some (some ⟨12, 0, 0, 2⟩) := by decide
  rw [hs] at hscan
  obtain rfl := Option.some.inj (Option.some.inj hscan)
  have hw : walked (copyOut false) 6 5 5 (((copyOut false).getNode 12).inp 1) (2 - 1) = [9] := by
    decide
  have hsize : opSize (copyOut false) copyOutRun 12 = 8 := by decide
  have h9 : ¬ (copyOut false).NotFrom 6 (((copyOut false).getNode 9).inp 2) := fun h => h 0 .self
  rw [if_neg (by decide), hw]
  show ForwardFits (copyOut false) copyOutRun 6 5 12 [9]
  refine ⟨.self, notFrom_copyOut (by decide), ?_, ?_, fun i c hc hcopy => ?_, fun c hc h2 => ?_,
    fun i c hc u hu => ?_⟩
  · rw [localBytes_copyOut, hsize]
    exact fun _ h => h
  · rw [written_cons h9, hsize, opWrites_of_isStoreOp (by decide)]
    have hempty : written (copyOut false) copyOutRun 6 [] = ∅ :=
      Set.eq_empty_of_forall_notMem fun x ⟨_, hc, _⟩ => by simp at hc
    rw [hempty, Set.empty_union]
    rfl
  · obtain rfl := List.mem_singleton.1 (List.mem_of_getElem? hc)
    exact absurd hcopy (by decide)
  · obtain rfl := List.mem_singleton.1 hc
    exact absurd h2 h9
  · obtain rfl : i = 0 := by
      have := (List.getElem?_eq_some_iff.1 hc).1
      simpa using this
    obtain rfl := Option.some.inj hc
    have hu : u = 10 ∨ u = 12 := by
      have : ∀ u ∈ (copyOut false).users 9, u = 10 ∨ u = 12 := by decide
      exact this u hu
    rcases hu with rfl | rfl
    · refine .inr ⟨rfl, ?_⟩
      show Disjoint (range 0x1008 8) (range 0x1000 _)
      rw [hsize]
      exact (disjoint_range_of_lt (by decide) (by decide)).symm
    · exact .inl rfl

end Example

/-- With `q` behind `p` the load reads what it read. -/
theorem localForward_observations_copyOut :
    List.Forall₂ (Observation.Agree (range 0x2000 8))
      (observations (copyOut false) (fun _ rt m => (rt, m)) [9, 10] copyOutRun fun _ => 0)
      (observations ((copyOut false).replaceUses 3 6) (fun _ rt m => (rt, m)) [9, 10] copyOutRun
        fun _ => 0) := by
  rw [← @localBytes_copyOut false]
  refine localForward_observations forwardOk_copyOut localForward_copyOut forwardRuns_copyOut
    ?_ rfl moved_copyOut (s := 2) (by decide) (fun _ _ => rfl) ?_
  · rintro rt rfl
    exact localFits_copyOut
  · exact ⟨by decide, by decide, by decide, by decide, by decide, by decide, trivial⟩

/-- With `q` at `p` it reads what is going to be copied there. -/
theorem localForward_unsound : ¬ ∀ (prc : Proc) (id d : NodeId) (fuel : ℕ) (w : Set (BitVec 64))
    (K : Runtime → Prop) (env env' : NodeId → Runtime → Memory → Runtime × Memory)
    (p : List NodeId) (s : NodeId) (rt rt' : Runtime) (m m' : Memory), ForwardOk prc id →
    localForward prc fuel id = some (some d) → ForwardRuns prc id d w K env env' → K rt →
    Moved prc id d rt rt' → prc.isMemOp s = false → AgreeOff w m m' → MemThread prc s p →
    List.Forall₂ (Observation.Agree w) (observations prc env p rt m)
      (observations (prc.replaceUses d id) env' p rt' m') := by
  intro h
  have h := h (copyOut true) 6 3 5 _ _ _ _ [9, 10] 2 copyOutRun copyOutRun (fun _ => 0)
    (fun _ => 0) forwardOk_copyOut localForward_copyOut forwardRuns_copyOut rfl moved_copyOut
    (by decide) (fun _ _ => rfl)
    ⟨by decide, by decide, by decide, by decide, by decide, by decide, trivial⟩
  obtain _ | ⟨-, h⟩ := h
  obtain _ | ⟨h, -⟩ := h
  have hbytes : (runOp (copyOut true) copyOutRun 10
        (runOp (copyOut true) copyOutRun 9 fun _ => 0).1).2 =
      (runOp ((copyOut true).replaceUses 3 6) copyOutRun 10
        (runOp ((copyOut true).replaceUses 3 6) copyOutRun 9 fun _ => 0).1).2 := h
  exact absurd hbytes (by decide)

end OdinSon
