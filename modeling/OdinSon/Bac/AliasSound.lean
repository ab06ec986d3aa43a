import OdinSon.Bac.Alias
import Mathlib.Tactic.IntervalCases

/-!
# What `is_noalias` may be relied on for

The answer of `is_noalias_ptrs` is right when no operation touches more bytes than `mem_op_size`
says, and the ends of the ranges are `i64` numbers (`disjoint_of_isNoaliasPtrs`).  Operations that
do not meet can be swapped.  Of two copies, `is_noalias_ops` does not compare the bytes that the
first writes with those that the second reads, so that these have to be apart for another reason
(`isNoaliasOps_swaps_iff`).
-/

namespace OdinSon

open MachInt Footprint

/-! ### Footprints of the operations -/

section Touches

theorem mem_range {a x : BitVec 64} {n : ℕ} : x ∈ range a n ↔ (x - a).toNat < n := Iff.rfl

theorem add_mem_range (a : BitVec 64) {i n : ℕ} (h : i < n) : a + BitVec.ofNat 64 i ∈ range a n := by
  rw [mem_range, BitVec.add_comm, BitVec.add_sub_cancel, BitVec.toNat_ofNat]
  exact (Nat.mod_le _ _).trans_lt h

theorem read_congr {m m' : Memory} {a : BitVec 64} {n : ℕ} (h : ∀ x ∈ range a n, m x = m' x) :
    m.read a n = m'.read a n := by
  refine List.map_congr_left fun i hi => h _ (add_mem_range a (List.mem_range.1 hi))

theorem write_of_notMem {m : Memory} {a x : BitVec 64} {n : ℕ} {bytes : ℕ → BitVec 8}
    (h : x ∉ range a n) : m.write a n bytes x = m x := if_neg h

theorem write_of_mem {m : Memory} {a x : BitVec 64} {n : ℕ} {bytes : ℕ → BitVec 8}
    (h : x ∈ range a n) : m.write a n bytes x = bytes (x - a).toNat := if_pos h

theorem touches_write {a : BitVec 64} {n : ℕ} (bytes : Memory → ℕ → BitVec 8)
    (out : Memory → List (BitVec 8)) {rd : Set (BitVec 64)}
    (hb : ∀ m m', (∀ x ∈ rd, m x = m' x) → ∀ i < n, bytes m i = bytes m' i)
    (ho : ∀ m m', (∀ x ∈ rd, m x = m' x) → out m = out m') :
    Touches (fun m : Memory => (m.write a n (bytes m), out m)) rd (range a n) where
  frame := fun m x hx => write_of_notMem hx
  writes := fun m m' h x hx => by
    dsimp only
    rw [write_of_mem hx, write_of_mem hx]
    exact hb m m' h _ hx
  result := ho

theorem touches_read {out : Memory → List (BitVec 8)} {rd : Set (BitVec 64)}
    (ho : ∀ m m', (∀ x ∈ rd, m x = m' x) → out m = out m') :
    Touches (fun m : Memory => (m, out m)) rd ∅ where
  frame := fun _ _ _ => rfl
  writes := fun _ _ _ x hx => absurd hx (Set.notMem_empty x)
  result := ho

/-- An operation touches what `opReads` and `opWrites` say. -/
theorem touches_runOp (prc : Proc) (rt : Runtime) (id : NodeId) :
    Touches (runOp prc rt id) (opReads prc rt id) (opWrites prc rt id) := by
  unfold runOp opReads opWrites
  dsimp only
  cases (prc.getNode id).itype
  case load =>
    refine touches_read ?_
    exact fun m m' h => read_congr h
  case store | set =>
    refine touches_write (fun _ => _) (fun _ => []) ?_ ?_
    · exact fun m m' _ i _ => rfl
    · exact fun m m' _ => rfl
  case copy =>
    refine touches_write (fun m i => m (_ + BitVec.ofNat 64 i)) _ ?_ ?_
    · exact fun m m' h i hi => h _ (add_mem_range _ hi)
    · exact fun m m' h => read_congr h
  all_goals
    refine touches_read ?_
    exact fun m m' _ => rfl

end Touches

/-! ### Ranges -/

/-- Ranges at offsets from one base that are apart, also around the end of the address space. -/
theorem disjoint_range {base : BitVec 64} {oa ob : ℤ} {ra rb : ℕ} (h : ob + rb ≤ oa)
    (h' : oa + ra ≤ ob + 2 ^ 64) :
    Disjoint (range (base + BitVec.ofInt 64 oa) ra) (range (base + BitVec.ofInt 64 ob) rb) := by
  rw [Set.disjoint_left]
  intro x hx hx'
  rw [mem_range, BitVec.toNat_sub, BitVec.toNat_add, BitVec.toNat_ofInt] at hx hx'
  have hb := base.isLt
  have hxl := x.isLt
  omega

section Addresses

variable {prc : Proc} {rt : Runtime}

theorem word_of_cInt (hrt : rt.Consistent prc) {id : NodeId} {x : ℤ} (h : prc.cInt id = some x) :
    rt.word id = BitVec.ofInt 64 x := by
  unfold Proc.cInt at h
  dsimp only at h
  split_ifs at h with hc
  rw [← Option.some.inj h]
  exact hrt.cInt id hc

variable (hA : prc.AddrTyped) (hrt : rt.Consistent prc)

include hA hrt

/-- The loop of `base_and_offset` moves constants from the base to the offset. -/
theorem baseAndOffsetFrom_spec {fuel : ℕ} {id base : NodeId} {off o : ℤ}
    (hdt : (prc.getNode id).dt = .i64) (hoff : InS 64 off)
    (h : prc.baseAndOffsetFrom fuel id off = some (base, o)) :
    rt.word id + BitVec.ofInt 64 off = rt.word base + BitVec.ofInt 64 o ∧ InS 64 o := by
  induction fuel generalizing id off with
  | zero => cases h
  | succ fuel ih =>
    unfold Proc.baseAndOffsetFrom at h
    dsimp only at h
    split_ifs at h with hadd
    swap
    · cases h
      exact ⟨rfl, hoff⟩
    split at h
    · cases h
      exact ⟨rfl, hoff⟩
    · next x hx =>
      obtain ⟨he, ho⟩ := ih (hA.add id hadd.1 hdt) (wrap_mem (by norm_num) _) h
      refine ⟨?_, ho⟩
      rw [← he, ofInt_wrap, hrt.add id hadd.1 hdt, word_of_cInt hrt hx, BitVec.ofInt_add,
        BitVec.add_assoc, BitVec.add_comm (BitVec.ofInt 64 x)]

theorem baseAndOffset_spec {fuel : ℕ} {id base : NodeId} {o : ℤ}
    (hdt : (prc.getNode id).dt = .i64) (h : prc.baseAndOffset fuel id = some (base, o)) :
    rt.word id = rt.word base + BitVec.ofInt 64 o ∧ InS 64 o := by
  have hs := baseAndOffsetFrom_spec hA hrt hdt ⟨by norm_num, by norm_num⟩ h
  rwa [BitVec.ofInt_ofNat, BitVec.add_zero] at hs

end Addresses

/-! ### Swapping operations -/

/-- What the sizes that the code goes by have to do with those at run time: an operation touches no
more bytes than that, unless it lies above the other and does not come around to it. -/
structure SizesFit (oa ob as bs : ℤ) (ra rb : ℕ) : Prop where
  nonneg : 0 ≤ as ∧ 0 ≤ bs
  /-- The ends of the ranges are `i64` numbers. -/
  ends : oa + as < 2 ^ 63 ∧ ob + bs < 2 ^ 63
  left : ra ≤ as ∨ ob < oa ∧ oa + ra ≤ ob + 2 ^ 64
  right : rb ≤ bs ∨ oa < ob ∧ ob + rb ≤ oa + 2 ^ 64

/-- The same for the addresses `x` of the operation `a` and `y` of the operation `b`. -/
def PtrsFit (prc : Proc) (rt : Runtime) (fuel : ℕ) (a x b y : NodeId) : Prop :=
  ∀ base ox oy as bs, prc.baseAndOffset fuel x = some (base, ox) →
    prc.baseAndOffset fuel y = some (base, oy) → prc.memOpSize a = some as →
    prc.memOpSize b = some bs → SizesFit ox oy as bs (opSize prc rt a) (opSize prc rt b)

theorem PtrsFit.of_eq {prc : Proc} {rt : Runtime} {fuel : ℕ} {a x b y base base' : NodeId}
    {ox oy as bs : ℤ} (hx : prc.baseAndOffset fuel x = some (base, ox))
    (hy : prc.baseAndOffset fuel y = some (base', oy)) (ha : prc.memOpSize a = some as)
    (hb : prc.memOpSize b = some bs)
    (h : SizesFit ox oy as bs (opSize prc rt a) (opSize prc rt b)) :
    PtrsFit prc rt fuel a x b y := by
  intro base₁ ox₁ oy₁ as₁ bs₁ hx₁ hy₁ ha₁ hb₁
  rw [hx, Option.some.injEq, Prod.mk.injEq] at hx₁
  rw [hy, Option.some.injEq, Prod.mk.injEq] at hy₁
  rw [ha, Option.some.injEq] at ha₁
  rw [hb, Option.some.injEq] at hb₁
  rw [← hx₁.2, ← hy₁.2, ← ha₁, ← hb₁]
  exact h

theorem SizesFit.symm {oa ob as bs : ℤ} {ra rb : ℕ} (h : SizesFit oa ob as bs ra rb) :
    SizesFit ob oa bs as rb ra := ⟨h.nonneg.symm, h.ends.symm, h.right, h.left⟩

theorem SizesFit.disjoint {oa ob as bs : ℤ} {ra rb : ℕ} (h : SizesFit oa ob as bs ra rb)
    (hoa : InS 64 oa) (hob : InS 64 ob) (hlt : ob + bs ≤ oa) (base : BitVec 64) :
    Disjoint (range (base + BitVec.ofInt 64 oa) ra) (range (base + BitVec.ofInt 64 ob) rb) := by
  obtain ⟨hn, he, hl, hr⟩ := h
  obtain ⟨hoa1, hoa2⟩ := hoa
  obtain ⟨hob1, hob2⟩ := hob
  refine disjoint_range ?_ ?_ <;> omega

section Noalias

variable {prc : Proc} {rt : Runtime} (hA : prc.AddrTyped) (hrt : rt.Consistent prc) {fuel : ℕ}

include hA hrt

/-- **`is_noalias_ptrs` is right** about operations of the sizes it has been given. -/
theorem disjoint_of_isNoaliasPtrs {a x b y : NodeId} {as bs : ℤ}
    (hx : (prc.getNode x).dt = .i64) (hy : (prc.getNode y).dt = .i64)
    (has : prc.memOpSize a = some as) (hbs : prc.memOpSize b = some bs)
    (h : prc.isNoaliasPtrs fuel x y as bs = some true) (hfit : PtrsFit prc rt fuel a x b y) :
    Disjoint (range (rt.word x) (opSize prc rt a)) (range (rt.word y) (opSize prc rt b)) := by
  simp only [Proc.isNoaliasPtrs, Option.bind_eq_bind, Option.bind_eq_some_iff, Prod.exists] at h
  obtain ⟨base, ox, hbx, base', oy, hby, h⟩ := h
  split_ifs at h with hbase
  swap
  · cases h
  subst hbase
  have hs := hfit base ox oy as bs hbx hby has hbs
  obtain ⟨hwx, hox⟩ := baseAndOffset_spec hA hrt hx hbx
  obtain ⟨hwy, hoy⟩ := baseAndOffset_spec hA hrt hy hby
  have hend {o s : ℤ} (ho : InS 64 o) (h0 : 0 ≤ s) (hlt : o + s < 2 ^ 63) :
      wrap 64 (o + s) = o + s :=
    wrap_eq_self (by norm_num) ⟨by linarith [ho.1], by simpa using hlt⟩
  rw [hend hox hs.nonneg.1 hs.ends.1, hend hoy hs.nonneg.2 hs.ends.2] at h
  simp only [Option.some.injEq, Bool.or_eq_true, decide_eq_true_eq, ge_iff_le] at h
  rw [hwx, hwy]
  rcases h with h | h
  · exact hs.disjoint hox hoy h _
  · exact (hs.symm.disjoint hoy hox h _).symm

omit hA hrt in
theorem PtrsFit.symm {a x b y : NodeId} (h : PtrsFit prc rt fuel a x b y) :
    PtrsFit prc rt fuel b y a x :=
  fun base ox oy as bs hx hy ha hb => (h base oy ox bs as hy hx hb ha).symm

omit hA hrt in
/-- What `is_noalias_ops` has checked when it says yes. -/
theorem isNoaliasSwapped_spec {a b : NodeId} (h : prc.isNoaliasSwapped fuel a b = some true) :
    ∃ as bs, prc.memOpSize a = some as ∧ prc.memOpSize b = some bs ∧
      prc.isNoaliasPtrs fuel ((prc.getNode a).inp 2) ((prc.getNode b).inp 2) as bs = some true ∧
      ((prc.getNode b).itype = .copy →
        prc.isNoaliasPtrs fuel ((prc.getNode a).inp 2) ((prc.getNode b).inp 3) as bs =
          some true) := by
  unfold Proc.isNoaliasSwapped at h
  split at h
  · next as bs has hbs =>
    refine ⟨as, bs, has, hbs, ?_⟩
    dsimp only at h
    split_ifs at h with hc
    · simp only [Option.bind_eq_bind, Option.bind_eq_some_iff] at h
      obtain ⟨r, hr, h⟩ := h
      split_ifs at h with hrt
      · exact ⟨h, fun _ => hrt ▸ hr⟩
      · cases h
    · exact ⟨h, fun hcopy => absurd hcopy hc⟩
  · cases h

omit hA hrt in
theorem isMemOp_of_memOpSize {a : NodeId} {as : ℤ} (h : prc.memOpSize a = some as) :
    prc.isMemOp a = true := by
  unfold Proc.memOpSize at h
  unfold Proc.isMemOp
  cases ht : (prc.getNode a).itype <;> simp [ht] at h ⊢

omit hA hrt in
theorem opWrites_subset (prc : Proc) (rt : Runtime) (a : NodeId) :
    opWrites prc rt a ⊆ range (rt.word ((prc.getNode a).inp 2)) (opSize prc rt a) := by
  unfold opWrites
  cases ht : (prc.getNode a).itype <;> simp [ht]

omit hA hrt in
theorem opReads_subset {a : NodeId} (h : (prc.getNode a).itype ≠ .copy) :
    opReads prc rt a ⊆ range (rt.word ((prc.getNode a).inp 2)) (opSize prc rt a) := by
  unfold opReads
  cases ht : (prc.getNode a).itype <;> simp [ht] at h ⊢

omit hA hrt in
theorem opReads_copy {a : NodeId} (h : (prc.getNode a).itype = .copy) :
    opReads prc rt a = range (rt.word ((prc.getNode a).inp 3)) (opSize prc rt a) := by
  simp [opReads, h]

/-- The second operation writes nothing that the first touches, and the first writes nothing that
the second touches. -/
theorem disjoint_of_isNoaliasSwapped {a b : NodeId}
    (h : prc.isNoaliasSwapped fuel a b = some true)
    (haddr : PtrsFit prc rt fuel a ((prc.getNode a).inp 2) b ((prc.getNode b).inp 2))
    (hsrc : (prc.getNode b).itype = .copy →
      PtrsFit prc rt fuel a ((prc.getNode a).inp 2) b ((prc.getNode b).inp 3)) :
    Disjoint (opWrites prc rt a) (opReads prc rt b) ∧
      Disjoint (opWrites prc rt a) (opWrites prc rt b) ∧
      ((prc.getNode a).itype ≠ .copy → Disjoint (opWrites prc rt b) (opReads prc rt a)) := by
  obtain ⟨as, bs, has, hbs, haddr', hsrc'⟩ := isNoaliasSwapped_spec h
  have hda := hA.addr a (isMemOp_of_memOpSize has)
  have hdb := hA.addr b (isMemOp_of_memOpSize hbs)
  have hd := disjoint_of_isNoaliasPtrs hA hrt hda hdb has hbs haddr' haddr
  refine ⟨?_, hd.mono (opWrites_subset prc rt a) (opWrites_subset prc rt b),
    fun ha => hd.symm.mono (opWrites_subset prc rt b) (opReads_subset ha)⟩
  by_cases hb : (prc.getNode b).itype = .copy
  · rw [opReads_copy hb]
    exact (disjoint_of_isNoaliasPtrs hA hrt hda (hA.src b hb) has hbs (hsrc' hb)
      (hsrc hb)).mono_left (opWrites_subset prc rt a)
  · exact hd.mono (opWrites_subset prc rt a) (opReads_subset hb)

end Noalias

/-- The sizes that `is_noalias_ops` goes by fit, for every pair of ranges that it compares. -/
structure OpsFit (prc : Proc) (rt : Runtime) (fuel : ℕ) (a b : NodeId) : Prop where
  addr : PtrsFit prc rt fuel a ((prc.getNode a).inp 2) b ((prc.getNode b).inp 2)
  left : (prc.getNode a).itype = .copy →
    PtrsFit prc rt fuel b ((prc.getNode b).inp 2) a ((prc.getNode a).inp 3)
  right : (prc.getNode b).itype = .copy → (prc.getNode a).itype ≠ .copy →
    PtrsFit prc rt fuel a ((prc.getNode a).inp 2) b ((prc.getNode b).inp 3)

/-- It does not matter which of the operations comes first. -/
def Swaps (prc : Proc) (rt : Runtime) (a b : NodeId) : Prop :=
  ∀ m, (runOp prc rt b (runOp prc rt a m).1).1 = (runOp prc rt a (runOp prc rt b m).1).1 ∧
    (runOp prc rt b (runOp prc rt a m).1).2 = (runOp prc rt b m).2 ∧
    (runOp prc rt a (runOp prc rt b m).1).2 = (runOp prc rt a m).2

section Copies

variable {prc : Proc} {rt : Runtime} {a b : NodeId}

theorem runOp_copy (ha : (prc.getNode a).itype = .copy) (m : Memory) :
    (runOp prc rt a m).1 = m.write (rt.word ((prc.getNode a).inp 2)) (opSize prc rt a)
      fun i => m (rt.word ((prc.getNode a).inp 3) + BitVec.ofNat 64 i) := by
  simp [runOp, ha]

theorem opWrites_copy (h : (prc.getNode a).itype = .copy) :
    opWrites prc rt a = range (rt.word ((prc.getNode a).inp 2)) (opSize prc rt a) := by
  simp [opWrites, h]

theorem add_ofNat_toNat_sub (a x : BitVec 64) : a + BitVec.ofNat 64 (x - a).toNat = x := by
  rw [BitVec.ofNat_toNat, BitVec.setWidth_eq, BitVec.add_comm, BitVec.sub_add_cancel]

/-- A copy of a range onto itself does nothing. -/
theorem runOp_copy_self (ha : (prc.getNode a).itype = .copy)
    (heq : rt.word ((prc.getNode a).inp 2) = rt.word ((prc.getNode a).inp 3)) (m : Memory) :
    (runOp prc rt a m).1 = m := by
  rw [runOp_copy ha, ← heq]
  funext x
  by_cases hx : x ∈ range (rt.word ((prc.getNode a).inp 2)) (opSize prc rt a)
  · rw [write_of_mem hx, add_ofNat_toNat_sub]
  · exact write_of_notMem hx

/-- A byte that one copy puts where the other takes it from tells which came first. -/
theorem disjoint_of_swaps (ha : (prc.getNode a).itype = .copy) (hb : (prc.getNode b).itype = .copy)
    (hww : Disjoint (opWrites prc rt a) (opWrites prc rt b))
    (hne : rt.word ((prc.getNode a).inp 2) ≠ rt.word ((prc.getNode a).inp 3))
    (h : Swaps prc rt a b) : Disjoint (opWrites prc rt a) (opReads prc rt b) := by
  rw [opWrites_copy ha, opWrites_copy hb] at hww
  rw [opWrites_copy ha, opReads_copy hb, Set.disjoint_left]
  intro y hya hyb
  have h (m : Memory) := (h m).1
  simp only [runOp_copy ha, runOp_copy hb] at h
  generalize rt.word ((prc.getNode a).inp 2) = da, rt.word ((prc.getNode a).inp 3) = sa,
    rt.word ((prc.getNode b).inp 2) = db, rt.word ((prc.getNode b).inp 3) = sb,
    opSize prc rt a = na, opSize prc rt b = nb at *
  -- `y` is filled from `z`, and goes on to `w`
  obtain ⟨z, hz⟩ : ∃ z, z = sa + BitVec.ofNat 64 (y - da).toNat := ⟨_, rfl⟩
  obtain ⟨w, hw⟩ : ∃ w, w = db + BitVec.ofNat 64 (y - sb).toNat := ⟨_, rfl⟩
  have hzy : y ≠ z := by
    intro hc
    have e := (add_ofNat_toNat_sub da y).trans (hc.trans hz)
    exact hne ((BitVec.add_left_inj _).1 e)
  have hwb : w ∈ range db nb := hw ▸ add_mem_range _ hyb
  have hwy : sb + BitVec.ofNat 64 (w - db).toNat = y := by
    have e : w - db = y - sb := by
      rw [hw, BitVec.ofNat_toNat, BitVec.setWidth_eq, BitVec.add_comm, BitVec.add_sub_cancel]
    rw [e, add_ofNat_toNat_sub]
  have hm := congrFun (h fun x => if x = z then 1 else 0) w
  rw [write_of_mem hwb, hwy, write_of_mem hya, ← hz, write_of_notMem (Set.disjoint_right.1 hww hwb),
    write_of_mem hwb, hwy, if_pos rfl, if_neg hzy] at hm
  cases hm

end Copies

/-- **Operations that `is_noalias_ops` tells apart can be swapped**, where its sizes fit, exactly
unless they are copies of which the second reads what the first writes: that pair of ranges is not
compared. -/
theorem isNoaliasOps_swaps_iff {prc : Proc} {rt : Runtime} (hA : prc.AddrTyped)
    (hrt : rt.Consistent prc) {fuel : ℕ} {a b : NodeId} (hfit : OpsFit prc rt fuel a b)
    (h : prc.isNoaliasOps fuel a b = some true) :
    Swaps prc rt a b ↔ ((prc.getNode a).itype = .copy → (prc.getNode b).itype = .copy →
      rt.word ((prc.getNode a).inp 2) = rt.word ((prc.getNode a).inp 3) ∨
        Disjoint (opWrites prc rt a) (opReads prc rt b)) := by
  have hta := touches_runOp prc rt a
  have htb := touches_runOp prc rt b
  unfold Proc.isNoaliasOps at h
  split_ifs at h with ha
  · obtain ⟨h1, h2, h3⟩ := disjoint_of_isNoaliasSwapped hA hrt h hfit.addr.symm hfit.left
    constructor
    · intro hs _ hb
      rw [or_iff_not_imp_left]
      exact fun hne => disjoint_of_swaps ha hb h2.symm hne hs
    · intro hcopies m
      by_cases hb : (prc.getNode b).itype = .copy
      swap
      · exact hta.comm htb (h3 hb) h1 h2.symm m
      rcases hcopies ha hb with heq | hd
      · rw [runOp_copy_self ha heq, runOp_copy_self ha heq]
        exact ⟨rfl, rfl, hta.result _ _ ((htb.agreeOff_self m).on h1.symm)⟩
      · exact hta.comm htb hd h1 h2.symm m
  · obtain ⟨h1, h2, h3⟩ := disjoint_of_isNoaliasSwapped hA hrt h hfit.addr fun hb => hfit.right hb ha
    exact ⟨fun _ hc => absurd hc ha, fun _ m => hta.comm htb h1 (h3 ha) h2 m⟩

/-! ### Copies that depend on each other -/

/-- Three copies of eight bytes of a local: `7` from `100` to `0`, `8` from `0` to `200`, and `9` from
`100` to `200`. -/
def threeCopies : Proc where
  mem := fun id => [
    {},
    { itype := .localAddr, dt := .i64 },
    { itype := .cInt, dt := .i64, extra := [100, 0] },
    { itype := .bin .add, dt := .i64, inps := [1, 2] },
    { itype := .cInt, dt := .i64, extra := [200, 0] },
    { itype := .bin .add, dt := .i64, inps := [1, 4] },
    { itype := .cInt, dt := .i64, extra := [8, 0] },
    { itype := .copy, dt := .mem, inps := [0, 0, 1, 3, 6] },
    { itype := .copy, dt := .mem, inps := [0, 0, 5, 1, 6] },
    { itype := .copy, dt := .mem, inps := [0, 0, 5, 3, 6] }].getD id { itype := .dead }
  pos := 10
  entry := 0
  end_ := 0

/-- The local is at `0x1000`. -/
def threeCopiesRun : Runtime where
  word := fun id => [0, 0x1000, 100, 0x1064, 200, 0x10c8, 8].getD id 0
  byte := fun _ _ => 0

theorem threeCopies_dead {id : ℕ} (h : 10 ≤ id) : threeCopies.getNode id = { itype := .dead } :=
  Proc.getNode_of_length_le _ h (by decide) rfl rfl

theorem addrTyped_threeCopies : threeCopies.AddrTyped where
  addr := by
    intro (id : ℕ) h
    rcases lt_or_ge id 10 with hid | hid
    · revert h
      interval_cases id <;> decide
    · simp [Proc.isMemOp, threeCopies_dead hid] at h
  src := by
    intro (id : ℕ) h
    rcases lt_or_ge id 10 with hid | hid
    · revert h
      interval_cases id <;> decide
    · simp [threeCopies_dead hid] at h
  add := by
    intro (id : ℕ) h
    rcases lt_or_ge id 10 with hid | hid
    · revert h
      interval_cases id <;> decide
    · simp [threeCopies_dead hid] at h

theorem consistent_threeCopies : threeCopiesRun.Consistent threeCopies where
  cInt := by
    intro (id : ℕ) h
    rcases lt_or_ge id 10 with hid | hid
    · revert h
      interval_cases id <;> decide
    · simp [threeCopies_dead hid] at h
  add := by
    intro (id : ℕ) h
    rcases lt_or_ge id 10 with hid | hid
    · revert h
      interval_cases id <;> decide
    · simp [threeCopies_dead hid] at h

theorem baseAndOffset_threeCopies :
    threeCopies.baseAndOffset 2 1 = some (1, 0) ∧ threeCopies.baseAndOffset 2 3 = some (1, 100) ∧
      threeCopies.baseAndOffset 2 5 = some (1, 200) := by
  decide

theorem opSize_threeCopies {id : NodeId} (h : id = 7 ∨ id = 8 ∨ id = 9) :
    threeCopies.memOpSize id = some 8 ∧ opSize threeCopies threeCopiesRun id = 8 := by
  rcases h with rfl | rfl | rfl <;> decide

theorem opsFit_threeCopies : OpsFit threeCopies threeCopiesRun 2 7 9 := by
  obtain ⟨h0, h100, h200⟩ := baseAndOffset_threeCopies
  obtain ⟨hm7, hs7⟩ := opSize_threeCopies (.inl rfl)
  obtain ⟨hm9, hs9⟩ := opSize_threeCopies (.inr (.inr rfl))
  refine ⟨.of_eq h0 h200 hm7 hm9 ?_, fun _ => .of_eq h200 h100 hm9 hm7 ?_, fun _ h => absurd rfl h⟩
  · rw [hs7, hs9]
    constructor <;> norm_num
  · rw [hs7, hs9]
    constructor <;> norm_num

theorem isNoaliasOps_swaps_threeCopies : Swaps threeCopies threeCopiesRun 7 9 := by
  refine (isNoaliasOps_swaps_iff addrTyped_threeCopies consistent_threeCopies opsFit_threeCopies
    (by decide)).2 fun _ _ => .inr ?_
  have hd : Disjoint (range (0x1000 + BitVec.ofInt 64 100) 8)
      (range (0x1000 + BitVec.ofInt 64 0) 8) := disjoint_range (by norm_num) (by norm_num)
  rw [opWrites_copy rfl, opReads_copy rfl, (opSize_threeCopies (.inl rfl)).2,
    (opSize_threeCopies (.inr (.inr rfl))).2]
  exact hd.symm

/-- The bytes that `7` writes are those that `8` reads: it matters which comes first. -/
theorem isNoaliasOps_unsound :
    ¬ ∀ (prc : Proc) (rt : Runtime) (fuel : ℕ) (a b : NodeId), prc.AddrTyped → rt.Consistent prc →
      (∀ id, (rt.word ((prc.getNode id).inp 2)).toNat + opSize prc rt id ≤ 2 ^ 64 ∧
        (rt.word ((prc.getNode id).inp 3)).toNat + opSize prc rt id ≤ 2 ^ 64) →
      prc.isNoaliasOps fuel a b = some true → Swaps prc rt a b := by
  intro h
  have h := h threeCopies threeCopiesRun 2 7 8 addrTyped_threeCopies consistent_threeCopies ?_
    (by decide) fun x => if x = 0x1064 then 1 else 0
  · exact absurd (congrFun h.1 0x10c8) (by decide)
  · intro (id : ℕ)
    rcases lt_or_ge id 10 with hid | hid
    · interval_cases id <;> decide
    · simp only [opSize, threeCopies_dead hid]
      decide

end OdinSon
