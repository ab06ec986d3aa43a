import OdinSon.Codegen.Amd64Address
import Mathlib.Data.BitVec
import Mathlib.Tactic.LinearCombination

/-!
# When the selected address is the address

Every node has a word (`Consistent`), and an operand is the sum of its parts (`Op.address`).  A step
of the peephole keeps the address if and only if what it moves into the displacement fits there, and
so do the runs of such steps (`peep_exact_iff`).
-/

namespace OdinSon.Codegen.Amd64

/-- The word of an operand; the nil node has none. -/
def operand (w : NodeId → BitVec 64) (id : NodeId) : Option (BitVec 64) :=
  if id = 0 then none else some (w id)

/-- An index, if there is one. -/
def indexed (w : NodeId → BitVec 64) (index : NodeId) (scale : BitVec 8) : Option (BitVec 64) :=
  if scale = 0 then some 0 else (operand w index).map (· * scale.setWidth 64)

/-- A base, an index and a displacement. -/
def memAddress (w : NodeId → BitVec 64) (base index : NodeId) (m : MemOp) : Option (BitVec 64) := do
  let b ← operand w base
  let i ← indexed w index m.scale
  some (b + i + m.dis.signExtend 64)

/-- The address that a node is, or that it goes to. -/
@[grind =] def Op.address (w : NodeId → BitVec 64) : Op → Option (BitVec 64)
  | .add lhs rhs => do
    let a ← operand w lhs
    let b ← operand w rhs
    some (a + b)
  | .amd64Add lhs m => (operand w lhs).map (· + m.imm.signExtend 64)
  | .amd64Lea base index m => memAddress w base index m
  | .load _ _ addr => operand w addr
  | .store _ _ addr _ => operand w addr
  | .amd64Load _ _ base index m => memAddress w base index m
  | .amd64Store _ _ base _ index m => memAddress w base index m
  | _ => none

/-- What a node makes of its operands; a local or a global is where it lies. -/
def Op.Matches (w : NodeId → BitVec 64) (dt : Datatype) (x : BitVec 64) : Op → Prop
  | .cInt value => x = value
  | .add lhs rhs => dt = .i64 → x = w lhs + w rhs
  | .mul lhs rhs => dt = .i64 → x = w lhs * w rhs
  | .localAddr slot | .globalAddr slot => x = w slot
  | .amd64Add lhs m => dt = .i64 → x = w lhs + m.imm.signExtend 64
  | .amd64Mul lhs m => dt = .i64 → x = w lhs * m.imm.signExtend 64
  | .amd64Lea base index m => dt = .i64 →
    x = w base + w index * m.scale.setWidth 64 + m.dis.signExtend 64
  | _ => True

namespace AddrGraph

variable (g : AddrGraph)

/-- Words are what the nodes make of them. -/
def Consistent (w : NodeId → BitVec 64) : Prop :=
  ∀ id, (g.node id).op.Matches w (g.node id).dt (w id)

/-- A node that can be the base of an operand. -/
def IsBase (id : NodeId) : Prop :=
  (g.node id).dt = .i64 ∨ (g.node id).op = .local_ ∨ (g.node id).op = .global

/-- Addresses are of 64 bits. -/
def OpTyped (dt : Datatype) : Op → Prop
  | .add lhs rhs => dt = .i64 → (g.node lhs).dt = .i64 ∧ (g.node rhs).dt = .i64
  | .mul lhs _ | .amd64Add lhs _ | .amd64Mul lhs _ => dt = .i64 → (g.node lhs).dt = .i64
  | .amd64Lea base index m => g.IsBase base ∧ (g.node index).dt = .i64 ∧ m.scale ≠ 0
  | .localAddr slot => (g.node slot).op = .local_
  | .globalAddr slot => (g.node slot).op = .global
  | .load _ _ addr | .store _ _ addr _ => (g.node addr).dt = .i64
  | .amd64Load _ _ base index m | .amd64Store _ _ base _ index m =>
    g.IsBase base ∧ (m.scale ≠ 0 → (g.node index).dt = .i64)
  | _ => True

/-- All nodes are typed. -/
def Typed : Prop := ∀ id, g.OpTyped (g.node id).dt (g.node id).op

variable {g} in
theorem Consistent.of {w : NodeId → BitVec 64} (hw : g.Consistent w) {id : NodeId} {op : Op}
    (h : (g.node id).op = op) : op.Matches w (g.node id).dt (w id) := h ▸ hw id

variable {g} in
theorem Typed.of (hT : g.Typed) {id : NodeId} {op : Op} (h : (g.node id).op = op) :
    g.OpTyped (g.node id).dt op := h ▸ hT id

end AddrGraph

/-! ### Words -/

section Words

variable {off : BitVec 64} {a b : BitVec 32}

theorem signExtend_low : (low off).signExtend 64 = if fitsI32 off then off else 0 := by
  unfold low
  split_ifs with h
  · simpa [fitsI32] using h
  · simp

theorem ne_zero_of_not_fits (h : fitsI32 off = false) : off ≠ 0 := by
  rintro rfl
  exact absurd h (by decide)

/-- A sum of 32 bits is the sum if and only if it does not overflow. -/
theorem signExtend_add_iff :
    (a + b).signExtend 64 = a.signExtend 64 + b.signExtend 64 ↔ a.saddOverflow b = false := by
  have ha := a.toInt_lt
  have ha' := a.le_toInt
  have hb := b.toInt_lt
  have hb' := b.le_toInt
  norm_num at ha ha' hb hb'
  have hsum : (a + b).toInt = (a.toInt + b.toInt).bmod (2 ^ 32) := BitVec.toInt_add a b
  rw [BitVec.signExtend, BitVec.signExtend, BitVec.signExtend, ← BitVec.ofInt_add,
    ← BitVec.toInt_inj, BitVec.toInt_ofInt, BitVec.toInt_ofInt, hsum, BitVec.saddOverflow]
  simp only [Int.bmod_def, Bool.or_eq_false_iff, decide_eq_false_iff_not]
  norm_num
  omega

end Words

/-! ### Bases -/

namespace AddrGraph

section Base

variable {g : AddrGraph} {w : NodeId → BitVec 64} {fuel : ℕ} {id b : NodeId} {off o : BitVec 64}

theorem ne_zero_of_dt (h : (g.node id).dt = .i64) : id ≠ 0 := by
  rintro rfl
  rw [g.nil] at h
  cases h

theorem IsBase.ne_zero (h : g.IsBase id) : id ≠ 0 := by
  rcases h with h | h | h
  · exact ne_zero_of_dt h
  · rintro rfl
    rw [g.nil] at h
    cases h
  · rintro rfl
    rw [g.nil] at h
    cases h

theorem word_of_cInt (hw : g.Consistent w) (h : g.cInt id = some off) : w id = off := by
  unfold cInt at h
  split at h
  · next v hop =>
    cases h
    exact hw.of hop
  · cases h

theorem addrAddOffset_spec {op : Op} (h : addrAddOffset op = some (b, o)) :
    ∃ m, op = .amd64Add b m ∧ m.imm.signExtend 64 = o := by
  unfold addrAddOffset at h
  split at h
  · next lhs m =>
    cases h
    exact ⟨m, rfl, rfl⟩
  · cases h

/-- The loop of `base_and_offset` moves constants from the base to the offset. -/
theorem baseAndOffsetFrom_spec (hT : g.Typed) (hw : g.Consistent w) (hid : g.IsBase id)
    (h : g.baseAndOffsetFrom fuel id off = some (b, o)) : g.IsBase b ∧ w id + off = w b + o := by
  induction fuel generalizing id off with
  | zero => cases h
  | succ fuel ih =>
    -- a sum is a base only as a number of 64 bits
    have hdt {op : Op} (hop : (g.node id).op = op) (hl : op ≠ .local_) (hg : op ≠ .global) :
        (g.node id).dt = .i64 :=
      hid.resolve_right fun hslot => hslot.elim (fun h => hl (hop ▸ h)) fun h => hg (hop ▸ h)
    unfold baseAndOffsetFrom at h
    dsimp only at h
    split at h
    · next lhs rhs hop hint =>
      have hdt := hdt hop (by simp) (by simp)
      split at h
      · cases h
        exact ⟨hid, rfl⟩
      · next value hvalue =>
        obtain ⟨hb, he⟩ := ih (.inl (hT.of hop hdt).1) h
        refine ⟨hb, ?_⟩
        rw [← he, hw.of hop hdt, word_of_cInt hw hvalue]
        ac_rfl
    · split at h
      · next hbase hoff hadd =>
        obtain ⟨m, hop, hm⟩ := addrAddOffset_spec hadd
        have hdt := hdt hop (by simp) (by simp)
        obtain ⟨hb, he⟩ := ih (.inl (hT.of hop hdt)) h
        refine ⟨hb, ?_⟩
        rw [← he, hw.of hop hdt, hm]
        ac_rfl
      · cases h
        exact ⟨hid, rfl⟩

theorem baseAndOffset_spec (hT : g.Typed) (hw : g.Consistent w) (hid : g.IsBase id)
    (h : g.baseAndOffset fuel id = some (b, o)) : g.IsBase b ∧ w id = w b + o := by
  obtain ⟨hb, he⟩ := baseAndOffsetFrom_spec hT hw hid h
  exact ⟨hb, by simpa using he⟩

end Base

/-- The displacement of a `Lea`. -/
def leaDis (g : AddrGraph) (id : NodeId) : BitVec 32 :=
  match (g.node id).op with
  | .amd64Lea _ _ m => m.dis
  | _ => 0

/-- The node is a `Lea`. -/
def isLea (g : AddrGraph) (id : NodeId) : Bool := (g.node id).op matches .amd64Lea ..

/-- The index, or nothing. -/
def indexSum (w : NodeId → BitVec 64) (index : NodeId) (scale : BitVec 8) : BitVec 64 :=
  if scale = 0 then 0 else w index * scale.setWidth 64

/-- What the selection gives, for an address that is `off` above `b`. -/
structure Selected.Spec (g : AddrGraph) (w : NodeId → BitVec 64) (addr b : NodeId)
    (off : BitVec 64) (s : Selected) : Prop where
  displacement : s.displacement = low off + g.leaDis b
  scale : s.scale ≠ 0 ↔ g.isLea b = true
  index : s.scale ≠ 0 → (g.node s.index).dt = .i64
  isBase : s.base ≠ 0 → g.IsBase s.base
  /-- The base goes with an offset that does not fit. -/
  base : s.base = 0 → fitsI32 off = false ∧ g.leaDis b = 0
  sum : s.base ≠ 0 → w s.base + indexSum w s.index s.scale + s.displacement.signExtend 64 + off =
    w addr + (low off).signExtend 64

section Select

variable {g : AddrGraph} {w : NodeId → BitVec 64} {fuel : ℕ} {addr b nb nb' : NodeId}
  {off : BitVec 64} {own : Bool} {s s' : Selected} {d : BitVec 32}

/-- A base that is no `Lea` brings nothing along. -/
theorem isLea_cases (g : AddrGraph) (b : NodeId) :
    (∃ lbase index m, (g.node b).op = .amd64Lea lbase index m) ∨
      g.leaDis b = 0 ∧ g.isLea b = false ∧
        ∀ nb d, g.joinLea b nb d = some (⟨nb, 0, 0, d⟩, b) := by
  unfold leaDis isLea joinLea
  cases hop : (g.node b).op
  case amd64Lea lbase index m => exact .inl ⟨lbase, index, m, rfl⟩
  all_goals exact .inr ⟨rfl, rfl, fun _ _ => rfl⟩

theorem saddOverflow_zero (d : BitVec 32) : d.saddOverflow 0 = false := by
  rw [← signExtend_add_iff]
  simp

theorem joinLea_eq_none_iff : g.joinLea b nb d = none ↔ d.saddOverflow (g.leaDis b) = true := by
  rcases g.isLea_cases b with ⟨lbase, index, m, hop⟩ | ⟨hdis, -, hjoin⟩
  · simp [joinLea, leaDis, hop]
  · rw [hjoin, hdis, saddOverflow_zero]
    simp

/-- With a `Lea` or without, the base, the index and the displacement come to the address. -/
theorem joinLea_spec (hT : g.Typed) (hw : g.Consistent w) (hb : g.IsBase b)
    (h : g.joinLea b nb d = some (s, nb')) :
    s.displacement = d + g.leaDis b ∧ (s.scale ≠ 0 ↔ g.isLea b = true) ∧
      (s.scale ≠ 0 → (g.node s.index).dt = .i64) ∧ g.IsBase nb' ∧
      (s.base = nb' ∨ s.base = nb ∧ nb' = b ∧ g.leaDis b = 0) ∧
      w nb' + indexSum w s.index s.scale + s.displacement.signExtend 64 =
        w b + d.signExtend 64 := by
  rcases g.isLea_cases b with ⟨lbase, index, m, hop⟩ | ⟨hdis, hlea, hjoin⟩
  · simp only [joinLea, hop] at h
    split_ifs at h with ho
    cases h
    rw [Bool.not_eq_true] at ho
    obtain ⟨hbase, hindex, hscale⟩ := hT.of hop
    have hdt : (g.node b).dt = .i64 := by
      rcases hb with hb | hb | hb
      · exact hb
      all_goals
        rw [hop] at hb
        cases hb
    have hlea : g.isLea b = true := by simp [isLea, hop]
    refine ⟨by simp [leaDis, hop], iff_of_true hscale hlea, fun _ => hindex, hbase,
      .inl rfl, ?_⟩
    rw [signExtend_add_iff.2 ho, hw.of hop hdt, indexSum, if_neg hscale]
    ac_rfl
  · rw [hjoin] at h
    cases h
    refine ⟨by simp [hdis], by simp [hlea], fun hs => absurd rfl hs, hb, .inr ⟨rfl, rfl, hdis⟩, ?_⟩
    simp [indexSum]

/-- The slot of an address lies at the address. -/
theorem joinSlot_spec (hT : g.Typed) (hw : g.Consistent w) :
    (g.joinSlot own nb s).displacement = s.displacement ∧
      (g.joinSlot own nb s).index = s.index ∧ (g.joinSlot own nb s).scale = s.scale ∧
      ((g.joinSlot own nb s).base = s.base ∨
        g.IsBase (g.joinSlot own nb s).base ∧ w (g.joinSlot own nb s).base = w nb) := by
  unfold joinSlot
  split
  · next slot hop =>
    refine ⟨rfl, rfl, rfl, .inr ⟨.inr (.inl (hT.of hop)), ?_⟩⟩
    exact (hw.of hop).symm
  · next slot hop =>
    split_ifs
    · refine ⟨rfl, rfl, rfl, .inr ⟨.inr (.inr (hT.of hop)), ?_⟩⟩
      exact (hw.of hop).symm
    · exact ⟨rfl, rfl, rfl, .inl rfl⟩
  · exact ⟨rfl, rfl, rfl, .inl rfl⟩

theorem selectAddress_eq (hb : g.baseAndOffset fuel addr = some (b, off)) :
    g.selectAddress fuel own addr = (g.joinLea b (if fitsI32 off then b else 0) (low off)).map
      fun r => g.joinSlot own r.2 r.1 := by
  simp only [selectAddress, hb, Option.bind_eq_bind, Option.bind_some]
  cases g.joinLea b _ _ <;> rfl

theorem selectAddress_eq_none_iff (hb : g.baseAndOffset fuel addr = some (b, off)) :
    g.selectAddress fuel own addr = none ↔ (low off).saddOverflow (g.leaDis b) = true := by
  rw [selectAddress_eq hb, Option.map_eq_none_iff, joinLea_eq_none_iff]

/-- The operand comes to the address, but for what the displacement does not keep. -/
theorem selectAddress_spec (hT : g.Typed) (hw : g.Consistent w) (haddr : g.IsBase addr)
    (hb : g.baseAndOffset fuel addr = some (b, off))
    (h : g.selectAddress fuel own addr = some s) : Selected.Spec g w addr b off s := by
  obtain ⟨hbase, he⟩ := baseAndOffset_spec hT hw haddr hb
  rw [selectAddress_eq hb] at h
  obtain ⟨⟨t, nb⟩, ht, rfl⟩ := Option.map_eq_some_iff.1 h
  obtain ⟨hdis, hscale, hindex, hnb, htbase, hsum⟩ := joinLea_spec hT hw hbase ht
  obtain ⟨h₁, h₂, h₃, h₄⟩ := joinSlot_spec (s := t) hT hw
  have hbase' : (g.joinSlot own nb t).base = 0 → fitsI32 off = false ∧ g.leaDis b = 0 := by
    intro h0
    rcases h₄ with h₄ | ⟨h₄, -⟩
    swap
    · exact absurd h0 h₄.ne_zero
    rw [h₄] at h0
    rcases htbase with hc | ⟨hc, -, hlea⟩
    · exact absurd (hc ▸ h0) hnb.ne_zero
    · rw [hc] at h0
      split_ifs at h0 with hfit
      · exact absurd h0 hbase.ne_zero
      · exact ⟨by simpa using hfit, hlea⟩
  have hword : (g.joinSlot own nb t).base ≠ 0 → w (g.joinSlot own nb t).base = w nb := by
    intro h0
    rcases h₄ with h₄ | ⟨-, h₄⟩
    swap
    · exact h₄
    rw [h₄] at h0 ⊢
    rcases htbase with hc | ⟨hc, hbb, -⟩
    · rw [hc]
    · rw [hc] at h0 ⊢
      split_ifs at h0 ⊢
      · rw [hbb]
      · exact absurd rfl h0
  have hisBase : (g.joinSlot own nb t).base ≠ 0 → g.IsBase (g.joinSlot own nb t).base := by
    intro h0
    rcases h₄ with h₄ | ⟨h₄, -⟩
    swap
    · exact h₄
    rw [h₄] at h0 ⊢
    rcases htbase with hc | ⟨hc, -, -⟩
    · exact hc ▸ hnb
    · rw [hc] at h0 ⊢
      split_ifs at h0 ⊢
      · exact hbase
      · exact absurd rfl h0
  refine ⟨h₁.trans hdis, by rw [h₃, hscale], by rw [h₂, h₃]; exact hindex, hisBase, hbase',
    fun h0 => ?_⟩
  rw [hword h0, h₁, h₂, h₃, hsum, he]
  ac_rfl

/-! ### What has to fit -/

/-- The displacement `dis` of a node goes together with what is moved into it: a sum `off` of
constants and the displacement `lea` of a `Lea`.  A sum that does not fit is left out; this is made
up for if it is what the displacements carry over. -/
def DisFits (dis lea : BitVec 32) (off : BitVec 64) : Prop :=
  fitsI32 off = true ∧ dis.saddOverflow (low off + lea) = false ∨
    fitsI32 off = false ∧
      off = (dis + lea).signExtend 64 - dis.signExtend 64 - lea.signExtend 64

theorem disFits_zero {lea : BitVec 32} : DisFits 0 lea off ↔ fitsI32 off = true := by
  have hz : (0 : BitVec 32).saddOverflow (low off + lea) = false := by
    rw [← signExtend_add_iff]
    simp
  constructor
  · rintro (⟨h, -⟩ | ⟨h, he⟩)
    · exact h
    · exact absurd (by simpa using he) (ne_zero_of_not_fits h)
  · exact fun h => .inl ⟨h, hz⟩

theorem indexed_eq {index : NodeId} {scale : BitVec 8} (h : scale ≠ 0 → index ≠ 0) :
    indexed w index scale = some (indexSum w index scale) := by
  unfold indexed indexSum operand
  split_ifs with hs hi
  · rfl
  · exact absurd hi (h hs)
  · rfl

theorem memAddress_of_ne {base index : NodeId} {m : MemOp} (hbase : base ≠ 0)
    (hindex : m.scale ≠ 0 → index ≠ 0) : memAddress w base index m =
      some (w base + indexSum w index m.scale + m.dis.signExtend 64) := by
  rw [memAddress, indexed_eq hindex, operand, if_neg hbase]
  rfl

theorem memAddress_zero {index : NodeId} {m : MemOp} : memAddress w 0 index m = none := by
  simp [memAddress, operand]

theorem Selected.Spec.index_ne (hs : Selected.Spec g w addr b off s) (h : s.scale ≠ 0) :
    s.index ≠ 0 := ne_zero_of_dt (hs.index h)

/-- Without a base there is nothing that could make up for the offset. -/
theorem Selected.Spec.not_disFits (hs : Selected.Spec g w addr b off s) (h0 : s.base = 0)
    (dis : BitVec 32) : ¬ DisFits dis (g.leaDis b) off := by
  obtain ⟨hfit, hlea⟩ := hs.base h0
  rw [hlea]
  rintro (⟨h, -⟩ | ⟨-, h⟩)
  · rw [hfit] at h
    cases h
  · exact ne_zero_of_not_fits hfit (by simpa using h)

/-- The operand with the displacements put together; `x` is the index that it has already. -/
theorem Selected.Spec.sum_eq_iff (hs : Selected.Spec g w addr b off s) (h0 : s.base ≠ 0)
    (dis : BitVec 32) (x : BitVec 64) :
    w s.base + indexSum w s.index s.scale + x + (dis + s.displacement).signExtend 64 =
      w addr + x + dis.signExtend 64 ↔ DisFits dis (g.leaDis b) off := by
  have hsum := hs.sum h0
  rw [DisFits]
  cases hfit : fitsI32 off with
  | true =>
    have hlow : (low off).signExtend 64 = off := by rw [signExtend_low, if_pos hfit]
    rw [hlow] at hsum
    rw [← hs.displacement, ← signExtend_add_iff]
    constructor
    · intro h
      refine .inl ⟨rfl, ?_⟩
      linear_combination h - hsum
    · rintro (⟨-, h⟩ | ⟨h, -⟩)
      · linear_combination h + hsum
      · cases h
  | false =>
    have hlow : low off = 0 := by simp [low, hfit]
    have hdis : s.displacement = g.leaDis b := by rw [hs.displacement, hlow, zero_add]
    have hzero : (0 : BitVec 32).signExtend 64 = 0 := by simp
    rw [hlow, hzero] at hsum
    rw [hdis] at hsum ⊢
    constructor
    · intro h
      refine .inr ⟨rfl, ?_⟩
      linear_combination hsum - h
    · rintro (⟨h, -⟩ | ⟨-, h⟩)
      · cases h
      · linear_combination hsum - h

/-- The operand of a `Load` or a `Store`. -/
theorem Selected.Spec.memAddress_eq_iff (hs : Selected.Spec g w addr b off s) {m : MemOp}
    (hscale : m.scale = s.scale) (hdis : m.dis = s.displacement) :
    memAddress w s.base s.index m = some (w addr) ↔ fitsI32 off = true := by
  rw [← disFits_zero]
  by_cases h0 : s.base = 0
  · rw [h0, memAddress_zero]
    exact iff_of_false (by simp) (hs.not_disFits h0 0)
  · rw [memAddress_of_ne h0 (hscale ▸ hs.index_ne), Option.some.injEq, hscale, hdis,
      ← hs.sum_eq_iff h0 0 0]
    simp

/-- An operand that has a displacement, and maybe an index. -/
theorem Selected.Spec.memAddress_merge_iff (hs : Selected.Spec g w addr b off s) {index : NodeId}
    {m : MemOp} (hindex : m.scale ≠ 0 → index ≠ 0) (hone : ¬(s.scale ≠ 0 ∧ m.scale ≠ 0)) :
    memAddress w s.base (s.merge index m).1 (s.merge index m).2 =
        some (w addr + indexSum w index m.scale + m.dis.signExtend 64) ↔
      DisFits m.dis (g.leaDis b) off := by
  by_cases h0 : s.base = 0
  · rw [h0, memAddress_zero]
    exact iff_of_false (by simp) (hs.not_disFits h0 m.dis)
  · rw [← hs.sum_eq_iff h0 m.dis (indexSum w index m.scale), Selected.merge]
    split_ifs with hscale
    · have hm : m.scale = 0 := by
        by_contra hm
        exact hone ⟨hscale, hm⟩
      rw [memAddress_of_ne h0 hs.index_ne, Option.some.injEq, hm]
      simp [indexSum]
    · rw [not_not] at hscale
      have hmem : memAddress w s.base index { m with dis := m.dis + s.displacement } = some
          (w s.base + indexSum w index m.scale + (m.dis + s.displacement).signExtend 64) :=
        memAddress_of_ne h0 hindex
      dsimp only
      rw [hmem, Option.some.injEq, hscale]
      simp [indexSum]

/-! ### An index -/

theorem scale_cases {x : BitVec 32} (h : ¬8 < x.toInt) (hp : isPowerOfTwo x = true) :
    x = 1 ∨ x = 2 ∨ x = 4 ∨ x = 8 := by
  simp only [isPowerOfTwo, Bool.and_eq_true, decide_eq_true_eq] at hp
  obtain ⟨hpos, hpow⟩ := hp
  have hn : x.toNat ≤ 8 := by
    have := BitVec.toInt_eq_toNat_cond x
    have := x.isLt
    split_ifs at * <;> omega
  obtain ⟨n, hn', rfl⟩ : ∃ n ≤ 8, x = BitVec.ofNat 32 n := ⟨x.toNat, hn, by simp⟩
  interval_cases n <;> revert hpow <;> revert hpos <;> decide

theorem signExtend_scale {x : BitVec 32} (h : x = 1 ∨ x = 2 ∨ x = 4 ∨ x = 8) :
    (x.setWidth 8).setWidth 64 = x.signExtend 64 ∧ x.setWidth 8 ≠ 0 := by
  rcases h with rfl | rfl | rfl | rfl <;> decide

/-- What an operand of an `Add` is a multiple of. -/
theorem scaledIndex_spec (hT : g.Typed) (hw : g.Consistent w) {rhs : NodeId}
    (hrhs : (g.node rhs).dt = .i64) :
    (g.node (g.scaledIndex rhs).2).dt = .i64 ∧
      w rhs = w (g.scaledIndex rhs).2 * (g.scaledIndex rhs).1.signExtend 64 := by
  have hself : (g.node rhs).dt = .i64 ∧ w rhs = w rhs * (1 : BitVec 32).signExtend 64 :=
    ⟨hrhs, by simp⟩
  unfold scaledIndex
  split
  · next lhs m hop => exact ⟨hT.of hop hrhs, hw.of hop hrhs⟩
  · next lhs c hop =>
    split
    · next value hc =>
      split_ifs with hfit
      · refine ⟨hT.of hop hrhs, ?_⟩
        have hv : (value.setWidth 32).signExtend 64 = value := by simpa [fitsI32] using hfit
        rw [hv, hw.of hop hrhs, word_of_cInt hw hc]
      · exact hself
    · exact hself
  · exact hself

end Select

/-! ### The peephole -/

/-- An `Add` keeps its sum: it adds a small constant, or the constants of its first operand fit, or
it does not become a `Lea`. -/
def AddFits (g : AddrGraph) (fuel : ℕ) (lhs rhs : NodeId) : Prop :=
  (g.smallConst rhs).isSome = true ∨
  8 < (g.scaledIndex rhs).1.toInt ∨ isPowerOfTwo (g.scaledIndex rhs).1 = false ∨
  (g.cInt (g.scaledIndex rhs).2).isSome = true ∨
  ∀ b off, g.baseAndOffset fuel lhs = some (b, off) →
    fitsI32 off = true ∨ (g.scaledIndex rhs).1 = 1 ∧ ∀ slot, (g.node b).op ≠ .localAddr slot

/-- The constants of an address fit into a displacement, alone and with that of a `Lea`. -/
def LoadFits (g : AddrGraph) (fuel : ℕ) (addr : NodeId) : Prop :=
  ∀ b off, g.baseAndOffset fuel addr = some (b, off) →
    fitsI32 off = true ∧ (low off).saddOverflow (g.leaDis b) = false

/-- The same for an operand that has been selected: it stays as it is if both have an index, and its
own displacement has to go together with the new one. -/
def SelectedFits (g : AddrGraph) (fuel : ℕ) (base : NodeId) (m : MemOp) : Prop :=
  ∀ b off, g.baseAndOffset fuel base = some (b, off) →
    (low off).saddOverflow (g.leaDis b) = false ∧
      (g.isLea b = true ∧ m.scale ≠ 0 ∨ DisFits m.dis (g.leaDis b) off)

/-- What the selection of an address asks for. -/
def AddressFits (g : AddrGraph) (fuel : ℕ) (id : NodeId) : Prop :=
  match (g.node id).op with
  | .add lhs rhs => g.AddFits fuel lhs rhs
  | .load _ _ addr | .store _ _ addr _ => g.LoadFits fuel addr
  | .amd64Load _ _ base _ m | .amd64Store _ _ base _ _ m => g.SelectedFits fuel base m
  | _ => True

/-- An address is a number of 64 bits, and its constants come to an end. -/
def Addressed (g : AddrGraph) (fuel : ℕ) (id : NodeId) : Prop :=
  match (g.node id).op with
  | .add addr _ => (g.node id).dt = .i64 ∧ (g.baseAndOffset fuel addr).isSome = true
  | .load _ _ addr | .store _ _ addr _ | .amd64Load _ _ addr _ _
  | .amd64Store _ _ addr _ _ _ => (g.baseAndOffset fuel addr).isSome = true
  | _ => True

/-- The peephole comes through, and the node has the address that it had. -/
def Exact (g : AddrGraph) (w : NodeId → BitVec 64) (fuel : ℕ) (id : NodeId) : Prop :=
  ∃ r, g.peep fuel id = some r ∧
    (r.getD (g.node id).op).address w = (g.node id).op.address w

section Peep

variable {g : AddrGraph} {w : NodeId → BitVec 64} {fuel : ℕ} {id : NodeId}

theorem smallConst_spec (hw : g.Consistent w) {id : NodeId} {imm : BitVec 32}
    (h : g.smallConst id = some imm) : w id = imm.signExtend 64 := by
  unfold smallConst at h
  split at h
  · next value hvalue =>
    split_ifs at h with hc
    · cases h
      have hv : (value.setWidth 32).signExtend 64 = value := by simpa [fitsI32] using hc.1
      rw [hv, word_of_cInt hw hvalue]
  · cases h

/-- The `Lea` is the sum if the constants fit. -/
theorem indexedLea_address_iff (hT : g.Typed) (hw : g.Consistent w) {b aindex : NodeId}
    {off : BitVec 64} {ascale : BitVec 32} {op : Op} (hb : g.IsBase b) (hindex : aindex ≠ 0)
    (hscale : ascale = 1 ∨ ascale = 2 ∨ ascale = 4 ∨ ascale = 8)
    (h : g.indexedLea b off ascale aindex = some op) :
    op.address w = some (w b + off + w aindex * ascale.signExtend 64) ↔ fitsI32 off = true := by
  obtain ⟨hsext, hne⟩ := signExtend_scale hscale
  have hkeep : ∀ abase, abase ≠ 0 → w abase = w b →
      (memAddress w abase aindex { scale := ascale.setWidth 8, dis := low off } =
        some (w b + off + w aindex * ascale.signExtend 64) ↔ fitsI32 off = true) := by
    intro abase h0 hword
    rw [memAddress_of_ne h0 fun _ => hindex, Option.some.injEq, indexSum, if_neg hne, hsext, hword,
      signExtend_low]
    split_ifs with hfit
    · exact iff_of_true (by ring) hfit
    · rw [Bool.not_eq_true] at hfit
      refine iff_of_false (fun he => ne_zero_of_not_fits hfit ?_) (by simp [hfit])
      linear_combination -he
  unfold indexedLea at h
  dsimp only at h
  split at h
  · next slot hop =>
    cases h
    refine hkeep slot (IsBase.ne_zero (.inr (.inl (hT.of hop)))) ?_
    exact (hw.of hop).symm
  · split_ifs at h
    cases h
    exact hkeep b hb.ne_zero rfl

theorem indexedLea_eq_none_iff {b aindex : NodeId} {off : BitVec 64} {ascale : BitVec 32} :
    g.indexedLea b off ascale aindex = none ↔
      ascale = 1 ∧ low off = 0 ∧ ∀ slot, (g.node b).op ≠ .localAddr slot := by
  unfold indexedLea
  dsimp only
  split
  · next slot hop => simp [hop]
  · next hop =>
    split_ifs with h
    · exact iff_of_true rfl ⟨h.1, h.2, hop⟩
    · exact iff_of_false (by simp) fun hc => h ⟨hc.1, hc.2.1⟩

theorem exact_add_iff (hT : g.Typed) (hw : g.Consistent w) {lhs rhs : NodeId}
    (hop : (g.node id).op = .add lhs rhs) (hdt : (g.node id).dt = .i64)
    (hends : (g.baseAndOffset fuel lhs).isSome = true) :
    g.Exact w fuel id ↔ g.AddFits fuel lhs rhs := by
  obtain ⟨⟨b, off⟩, hb⟩ := Option.isSome_iff_exists.1 hends
  obtain ⟨hlhs, hrhs⟩ := hT.of hop hdt
  obtain ⟨hbase, he⟩ := baseAndOffset_spec hT hw (.inl hlhs) hb
  obtain ⟨haindex, hscaled⟩ := scaledIndex_spec hT hw hrhs
  have hsum : (Op.add lhs rhs).address w = some (w lhs + w rhs) := by
    simp [Op.address, operand, ne_zero_of_dt hlhs, ne_zero_of_dt hrhs]
  have hint : Datatype.i64.isInt = true := rfl
  have hsame : ∃ r, some (none : Option Op) = some r ∧
      (r.getD (.add lhs rhs)).address w = some (w lhs + w rhs) := ⟨none, rfl, hsum⟩
  simp only [Exact, peep, hop, hdt, hint, Bool.true_eq_false, ↓reduceIte, hsum, AddFits]
  cases hconst : g.smallConst rhs with
  | some imm =>
    simp [Op.address, operand, ne_zero_of_dt hlhs, smallConst_spec hw hconst]
  | none =>
    simp only [indexify, hb, Option.bind_eq_bind, Option.bind_some]
    by_cases hscale : 8 < (g.scaledIndex rhs).1.toInt ∨ ¬isPowerOfTwo (g.scaledIndex rhs).1 = true
    · rw [if_pos hscale]
      refine iff_of_true hsame ?_
      rcases hscale with h | h
      · exact .inr (.inl h)
      · exact .inr (.inr (.inl (by simpa using h)))
    rw [if_neg hscale]
    by_cases hindex : (g.cInt (g.scaledIndex rhs).2).isSome = true
    · rw [if_pos hindex]
      exact iff_of_true hsame (.inr (.inr (.inr (.inl hindex))))
    rw [if_neg hindex]
    rw [not_or, not_not] at hscale
    have hcases := scale_cases hscale.1 hscale.2
    cases hlea : g.indexedLea b off (g.scaledIndex rhs).1 (g.scaledIndex rhs).2 with
    | none =>
      obtain ⟨hone, -, hslot⟩ := indexedLea_eq_none_iff.1 hlea
      refine iff_of_true hsame (.inr (.inr (.inr (.inr fun b' off' hb' => ?_))))
      obtain ⟨rfl, rfl⟩ := Prod.mk.inj (Option.some.inj hb')
      exact .inr ⟨hone, hslot⟩
    | some op =>
      have hiff := indexedLea_address_iff hT hw hbase (ne_zero_of_dt haindex) hcases hlea
      rw [← he, ← hscaled] at hiff
      simp only [Option.some.injEq, exists_eq_left', Option.getD_some, hiff]
      constructor
      · rintro hfit
        refine .inr (.inr (.inr (.inr fun b' off' hb' => .inl ?_)))
        obtain ⟨rfl, rfl⟩ := Prod.mk.inj hb'
        exact hfit
      · rintro (h | h | h | h | h)
        · simp at h
        · exact absurd h hscale.1
        · simp [hscale.2] at h
        · exact absurd h hindex
        · rcases h b off rfl with h | ⟨hone, hslot⟩
          · exact h
          -- an offset that is left out would leave an `Add`
          · by_contra hfit
            have hzero : low off = 0 := by simp [low, hfit]
            rw [indexedLea_eq_none_iff.2 ⟨hone, hzero, hslot⟩] at hlea
            cases hlea

theorem not_overflow_of_select {addr b : NodeId} {off : BitVec 64} {own : Bool} {s : Selected}
    (hb : g.baseAndOffset fuel addr = some (b, off))
    (hs : g.selectAddress fuel own addr = some s) :
    (low off).saddOverflow (g.leaDis b) = false := by
  rw [← Bool.not_eq_true, ← selectAddress_eq_none_iff hb, hs]
  simp

theorem loadFits_iff {addr b : NodeId} {off : BitVec 64}
    (hb : g.baseAndOffset fuel addr = some (b, off)) : g.LoadFits fuel addr ↔
      fitsI32 off = true ∧ (low off).saddOverflow (g.leaDis b) = false := by
  simp [LoadFits, hb]

theorem selectedFits_iff {addr b : NodeId} {off : BitVec 64} {m : MemOp}
    (hb : g.baseAndOffset fuel addr = some (b, off)) : g.SelectedFits fuel addr m ↔
      (low off).saddOverflow (g.leaDis b) = false ∧
        (g.isLea b = true ∧ m.scale ≠ 0 ∨ DisFits m.dis (g.leaDis b) off) := by
  simp [SelectedFits, hb]

/-- A `Load` or a `Store`, by the operand that is made for it. -/
theorem exact_select_iff (hT : g.Typed) (hw : g.Consistent w) {addr : NodeId}
    (haddr : g.IsBase addr) (hends : (g.baseAndOffset fuel addr).isSome = true)
    (hold : (g.node id).op.address w = some (w addr))
    (hpeep : ∀ s, g.selectAddress fuel false addr = some s → ∃ op m,
      g.peep fuel id = some (some op) ∧ op.address w = memAddress w s.base s.index m ∧
        m.scale = s.scale ∧ m.dis = s.displacement)
    (hnone : g.selectAddress fuel false addr = none → g.peep fuel id = none) :
    g.Exact w fuel id ↔ g.LoadFits fuel addr := by
  obtain ⟨⟨b, off⟩, hb⟩ := Option.isSome_iff_exists.1 hends
  rw [loadFits_iff hb, Exact, hold]
  cases hs : g.selectAddress fuel false addr with
  | none =>
    rw [hnone hs, (selectAddress_eq_none_iff hb).1 hs]
    simp
  | some s =>
    obtain ⟨op, m, hp, hop, hscale, hdis⟩ := hpeep s hs
    have hspec := selectAddress_spec hT hw haddr hb hs
    simp only [hp, Option.some.injEq, exists_eq_left', Option.getD_some, hop,
      hspec.memAddress_eq_iff hscale hdis, not_overflow_of_select hb hs, and_true]

theorem exact_load_iff (hT : g.Typed) (hw : g.Consistent w) {ctrl mem addr : NodeId}
    (hop : (g.node id).op = .load ctrl mem addr)
    (hends : (g.baseAndOffset fuel addr).isSome = true) :
    g.Exact w fuel id ↔ g.LoadFits fuel addr := by
  have haddr : g.IsBase addr := .inl (hT.of hop)
  refine exact_select_iff hT hw haddr hends ?_ ?_ ?_
  · simp [hop, Op.address, operand, haddr.ne_zero]
  · intro s hs
    refine ⟨_, _, by simp only [peep, hop, hs]; rfl, rfl, rfl, rfl⟩
  · intro hs
    simp [peep, hop, hs]

theorem exact_store_iff (hT : g.Typed) (hw : g.Consistent w) {ctrl mem addr value : NodeId}
    (hop : (g.node id).op = .store ctrl mem addr value)
    (hends : (g.baseAndOffset fuel addr).isSome = true) :
    g.Exact w fuel id ↔ g.LoadFits fuel addr := by
  have haddr : g.IsBase addr := .inl (hT.of hop)
  refine exact_select_iff hT hw haddr hends ?_ ?_ ?_
  · simp [hop, Op.address, operand, haddr.ne_zero]
  · intro s hs
    simp only [peep, hop, hs, Option.bind_eq_bind, Option.bind_some]
    cases g.smallConst value
    · exact ⟨_, _, rfl, rfl, rfl, rfl⟩
    · exact ⟨_, _, rfl, rfl, rfl, rfl⟩
  · intro hs
    simp [peep, hop, hs]

/-- An operand that has been selected before. -/
theorem exact_merge_iff (hT : g.Typed) (hw : g.Consistent w) {op : NodeId → NodeId → MemOp → Op}
    {base index : NodeId} {m : MemOp} (hop : (g.node id).op = op base index m)
    (haddress : ∀ base index m, (op base index m).address w = memAddress w base index m)
    (htyped : g.IsBase base ∧ (m.scale ≠ 0 → (g.node index).dt = .i64))
    (hpeep : g.peep fuel id = (g.selectAddress fuel (m.scale ≠ 0) base).bind fun s =>
      if s.scale ≠ 0 ∧ m.scale ≠ 0 then some none
      else some (some (op s.base (s.merge index m).1 (s.merge index m).2)))
    (hends : (g.baseAndOffset fuel base).isSome = true) :
    g.Exact w fuel id ↔ g.SelectedFits fuel base m := by
  obtain ⟨⟨b, off⟩, hb⟩ := Option.isSome_iff_exists.1 hends
  obtain ⟨hbase, hindex⟩ := htyped
  have hindex' : m.scale ≠ 0 → index ≠ 0 := fun h => ne_zero_of_dt (hindex h)
  have hold : (g.node id).op.address w = memAddress w base index m := by rw [hop, haddress]
  rw [selectedFits_iff hb, Exact, hold, memAddress_of_ne hbase.ne_zero hindex', hpeep]
  cases hs : g.selectAddress fuel (m.scale ≠ 0) base with
  | none =>
    rw [(selectAddress_eq_none_iff hb).1 hs]
    simp
  | some s =>
    have hspec := selectAddress_spec hT hw hbase hb hs
    rw [not_overflow_of_select hb hs, ← hspec.scale, Option.bind_some]
    by_cases hboth : s.scale ≠ 0 ∧ m.scale ≠ 0
    · rw [if_pos hboth]
      refine iff_of_true ⟨none, rfl, ?_⟩ ⟨rfl, .inl hboth⟩
      rw [Option.getD_none, hold, memAddress_of_ne hbase.ne_zero hindex']
    · rw [if_neg hboth]
      simp only [Option.some.injEq, exists_eq_left', Option.getD_some, haddress,
        hspec.memAddress_merge_iff hindex' hboth, hboth, false_or, true_and]

end Peep

/-- A step is exact if and only if what goes into the displacement fits there. -/
theorem exact_iff {g : AddrGraph} {w : NodeId → BitVec 64} {fuel : ℕ} {id : NodeId}
    (hT : g.Typed) (hw : g.Consistent w) (haddr : g.Addressed fuel id) :
    g.Exact w fuel id ↔ g.AddressFits fuel id := by
  unfold AddressFits
  unfold Addressed at haddr
  cases hop : (g.node id).op with
  | add lhs rhs =>
    rw [hop] at haddr
    exact exact_add_iff hT hw hop haddr.1 haddr.2
  | load =>
    rw [hop] at haddr
    exact exact_load_iff hT hw hop haddr
  | store =>
    rw [hop] at haddr
    exact exact_store_iff hT hw hop haddr
  | amd64Load ctrl mem base index m =>
    rw [hop] at haddr
    exact @exact_merge_iff _ _ _ _ hT hw (.amd64Load ctrl mem) _ _ _ hop (fun _ _ _ => rfl)
      (hT.of hop) (by simp only [peep, hop]; rfl) haddr
  | amd64Store ctrl mem base value index m =>
    rw [hop] at haddr
    exact @exact_merge_iff _ _ _ _ hT hw (.amd64Store ctrl mem · value) _ _ _ hop
      (fun _ _ _ => rfl) (hT.of hop) (by simp only [peep, hop]; rfl) haddr
  | _ =>
    refine iff_of_true ⟨none, ?_, ?_⟩ trivial
    · simp only [peep, hop]
    · rw [Option.getD_none]

/-! ### Runs -/

/-- The graph with another `op` at a node. -/
def replace (g : AddrGraph) (id : NodeId) (op : Op) (h : id ≠ 0) : AddrGraph where
  node i := if i = id then { g.node id with op } else g.node i
  nil := by rw [if_neg h.symm, g.nil]

/-- A step of the peephole, at a node where everything fits. -/
inductive FitStep (fuel : ℕ) (g : AddrGraph) : AddrGraph → Prop where
  | peep {id : NodeId} {op : Op} (h0 : id ≠ 0) (haddr : g.Addressed fuel id)
      (hfits : g.AddressFits fuel id) (h : g.peep fuel id = some (some op)) :
      FitStep fuel g (g.replace id op h0)

section Run

variable {g g' : AddrGraph} {w : NodeId → BitVec 64} {fuel : ℕ} {id : NodeId} {op : Op}

/-- What the sum of an operand is, the node is. -/
theorem matches_of_address {x : BitVec 64} (h : g.OpTyped .i64 op)
    (ha : op.address w = some x) : op.Matches w .i64 x := by
  cases op with
  | add lhs rhs =>
    intro _
    obtain ⟨hlhs, hrhs⟩ := h rfl
    simpa [Op.address, operand, ne_zero_of_dt hlhs, ne_zero_of_dt hrhs] using ha.symm
  | amd64Add lhs m =>
    intro _
    simpa [Op.address, operand, ne_zero_of_dt (h rfl)] using ha.symm
  | amd64Lea base index m =>
    intro _
    obtain ⟨hbase, hindex, hscale⟩ := h
    rw [Op.address, memAddress_of_ne hbase.ne_zero fun _ => ne_zero_of_dt hindex, indexSum,
      if_neg hscale] at ha
    exact (Option.some.inj ha).symm
  | load | store | amd64Load | amd64Store | nil | local_ | global | other => trivial
  | cInt | mul | localAddr | globalAddr | amd64Mul => cases ha

theorem indexedLea_typed (hT : g.Typed) {b aindex : NodeId} {off : BitVec 64} {ascale : BitVec 32}
    {dt : Datatype} (hb : g.IsBase b) (hindex : (g.node aindex).dt = .i64)
    (hscale : ascale = 1 ∨ ascale = 2 ∨ ascale = 4 ∨ ascale = 8)
    (h : g.indexedLea b off ascale aindex = some op) : g.OpTyped dt op := by
  have hne := (signExtend_scale hscale).2
  unfold indexedLea at h
  dsimp only at h
  split at h
  · next slot hop =>
    cases h
    exact ⟨.inr (.inl (hT.of hop)), hindex, hne⟩
  · split_ifs at h
    cases h
    exact ⟨hb, hindex, hne⟩

theorem peep_add_typed (hT : g.Typed) (hw : g.Consistent w) {lhs rhs : NodeId}
    (hop : (g.node id).op = .add lhs rhs) (hdt : (g.node id).dt = .i64)
    (h : g.peep fuel id = some (some op)) : g.OpTyped .i64 op := by
  obtain ⟨hlhs, hrhs⟩ := hT.of hop hdt
  have hint : Datatype.i64.isInt = true := rfl
  simp only [peep, hop, hdt, hint, Bool.true_eq_false, ↓reduceIte] at h
  cases hconst : g.smallConst rhs with
  | some imm =>
    rw [hconst] at h
    cases h
    exact fun _ => hlhs
  | none =>
    rw [hconst] at h
    simp only [indexify] at h
    split_ifs at h with hscale hindex
    · cases h
    · cases h
    obtain ⟨⟨b, off⟩, hb, h⟩ := Option.bind_eq_some_iff.1 h
    rw [not_or, not_not] at hscale
    exact indexedLea_typed hT (baseAndOffset_spec hT hw (.inl hlhs) hb).1
      (scaledIndex_spec hT hw hrhs).1 (scale_cases hscale.1 hscale.2) (Option.some.inj h)

/-- An operand that fits has a base and, if at all, an index of 64 bits. -/
theorem selectAddress_typed (hT : g.Typed) (hw : g.Consistent w) {addr b : NodeId}
    {off : BitVec 64} {own : Bool} {s : Selected} (haddr : g.IsBase addr)
    (hb : g.baseAndOffset fuel addr = some (b, off))
    (hs : g.selectAddress fuel own addr = some s) {dis : BitVec 32}
    (hfits : DisFits dis (g.leaDis b) off) :
    g.IsBase s.base ∧ (s.scale ≠ 0 → (g.node s.index).dt = .i64) := by
  have hspec := selectAddress_spec hT hw haddr hb hs
  exact ⟨hspec.isBase fun h0 => hspec.not_disFits h0 dis hfits, hspec.index⟩

/-- The same for an operand that has been selected. -/
theorem merge_typed (hT : g.Typed) (hw : g.Consistent w) {base index : NodeId} {m : MemOp}
    {own : Bool} {s : Selected} (hbase : g.IsBase base)
    (hindex : m.scale ≠ 0 → (g.node index).dt = .i64)
    (hs : g.selectAddress fuel own base = some s) (hone : ¬(s.scale ≠ 0 ∧ m.scale ≠ 0))
    (hfits : g.SelectedFits fuel base m) : g.IsBase s.base ∧
      ((s.merge index m).2.scale ≠ 0 → (g.node (s.merge index m).1).dt = .i64) := by
  obtain ⟨⟨b, off⟩, hb, -⟩ := Option.bind_eq_some_iff.1 hs
  have hlea := (selectAddress_spec hT hw hbase hb hs).scale
  obtain ⟨hsbase, hsindex⟩ := selectAddress_typed hT hw hbase hb hs
    ((hfits b off hb).2.resolve_left fun h => hone ⟨hlea.2 h.1, h.2⟩)
  refine ⟨hsbase, ?_⟩
  unfold Selected.merge
  split_ifs with hscale
  · exact fun _ => hsindex hscale
  · exact hindex

/-- What takes the place of a node of an operand is typed again. -/
theorem peep_typed (hT : g.Typed) (hw : g.Consistent w) (haddr : g.Addressed fuel id)
    (hfits : g.AddressFits fuel id) (h : g.peep fuel id = some (some op)) :
    g.OpTyped (g.node id).dt op := by
  unfold AddressFits at hfits
  unfold Addressed at haddr
  cases hop : (g.node id).op with
  | add lhs rhs =>
    rw [hop] at haddr
    rw [haddr.1]
    exact peep_add_typed hT hw hop haddr.1 h
  | load ctrl mem addr =>
    rw [hop] at hfits
    simp only [peep, hop] at h
    obtain ⟨s, hs, h⟩ := Option.bind_eq_some_iff.1 h
    cases h
    obtain ⟨⟨b, off⟩, hb, -⟩ := Option.bind_eq_some_iff.1 hs
    exact selectAddress_typed hT hw (.inl (hT.of hop)) hb hs (disFits_zero.2 (hfits b off hb).1)
  | store ctrl mem addr value =>
    rw [hop] at hfits
    simp only [peep, hop] at h
    obtain ⟨s, hs, h⟩ := Option.bind_eq_some_iff.1 h
    obtain ⟨⟨b, off⟩, hb, -⟩ := Option.bind_eq_some_iff.1 hs
    have htyped := selectAddress_typed hT hw (.inl (hT.of hop)) hb hs
      (disFits_zero.2 (hfits b off hb).1)
    cases hconst : g.smallConst value with
    | none =>
      rw [hconst] at h
      cases h
      exact htyped
    | some imm =>
      rw [hconst] at h
      cases h
      exact htyped
  | amd64Load ctrl mem base index m =>
    rw [hop] at hfits
    simp only [peep, hop] at h
    obtain ⟨s, hs, h⟩ := Option.bind_eq_some_iff.1 h
    split_ifs at h with hboth
    · cases h
    · cases h
      obtain ⟨hbase, hindex⟩ := hT.of hop
      exact merge_typed hT hw hbase hindex hs hboth hfits
  | amd64Store ctrl mem base value index m =>
    rw [hop] at hfits
    simp only [peep, hop] at h
    obtain ⟨s, hs, h⟩ := Option.bind_eq_some_iff.1 h
    split_ifs at h with hboth
    · cases h
    · cases h
      obtain ⟨hbase, hindex⟩ := hT.of hop
      exact merge_typed hT hw hbase hindex hs hboth hfits
  | _ =>
    simp only [peep, hop] at h
    cases h

/-- What takes the place of a node goes with its word. -/
theorem peep_matches (hT : g.Typed) (hw : g.Consistent w) (haddr : g.Addressed fuel id)
    (h : g.peep fuel id = some (some op)) (htyped : g.OpTyped (g.node id).dt op)
    (he : op.address w = (g.node id).op.address w) : op.Matches w (g.node id).dt (w id) := by
  unfold Addressed at haddr
  cases hop : (g.node id).op with
  | add lhs rhs =>
    rw [hop] at haddr
    have hdt := haddr.1
    obtain ⟨hlhs, hrhs⟩ := hT.of hop hdt
    have hsum : (Op.add lhs rhs).address w = some (w id) := by
      rw [hw.of hop hdt]
      simp [Op.address, operand, ne_zero_of_dt hlhs, ne_zero_of_dt hrhs]
    rw [hdt] at htyped ⊢
    exact matches_of_address htyped (by rw [he, hop, hsum])
  | load =>
    simp only [peep, hop] at h
    obtain ⟨s, -, h⟩ := Option.bind_eq_some_iff.1 h
    cases h
    trivial
  | store ctrl mem addr value =>
    simp only [peep, hop] at h
    obtain ⟨s, -, h⟩ := Option.bind_eq_some_iff.1 h
    cases hconst : g.smallConst value with
    | none | some =>
      rw [hconst] at h
      cases h
      trivial
  | amd64Load | amd64Store =>
    simp only [peep, hop] at h
    obtain ⟨s, -, h⟩ := Option.bind_eq_some_iff.1 h
    split_ifs at h
    · cases h
    · cases h
      trivial
  | _ =>
    simp only [peep, hop] at h
    cases h

/-- An operand depends on the types of the nodes, and on which nodes are slots. -/
theorem OpTyped.congr {dt : Datatype} (h : g.OpTyped dt op)
    (hdt : ∀ i, (g'.node i).dt = (g.node i).dt)
    (hlocal : ∀ i, (g.node i).op = .local_ → (g'.node i).op = .local_)
    (hglobal : ∀ i, (g.node i).op = .global → (g'.node i).op = .global) : g'.OpTyped dt op := by
  have hbase (i : NodeId) (hi : g.IsBase i) : g'.IsBase i :=
    hi.imp (hdt i).trans (Or.imp (hlocal i) (hglobal i))
  cases op with
  | add lhs rhs => exact fun h64 => ⟨(hdt _).trans (h h64).1, (hdt _).trans (h h64).2⟩
  | mul | amd64Add | amd64Mul => exact fun h64 => (hdt _).trans (h h64)
  | amd64Lea => exact ⟨hbase _ h.1, (hdt _).trans h.2.1, h.2.2⟩
  | localAddr => exact hlocal _ h
  | globalAddr => exact hglobal _ h
  | load | store => exact (hdt _).trans h
  | amd64Load | amd64Store => exact ⟨hbase _ h.1, fun hs => (hdt _).trans (h.2 hs)⟩
  | nil | cInt | local_ | global | other => trivial

/-- A node that changes is no slot. -/
theorem ne_slot_of_peep (h : g.peep fuel id = some (some op)) :
    (g.node id).op ≠ .local_ ∧ (g.node id).op ≠ .global := by
  constructor
  · intro hop
    simp only [peep, hop] at h
    cases h
  · intro hop
    simp only [peep, hop] at h
    cases h

/-- A step keeps types, words and addresses. -/
theorem FitStep.keeps (h : FitStep fuel g g') (hT : g.Typed) (hw : g.Consistent w) :
    g'.Typed ∧ g'.Consistent w ∧
      ∀ i, (g'.node i).op.address w = (g.node i).op.address w := by
  obtain ⟨h0, haddr, hfits, hpeep⟩ := h
  next id op =>
  have htyped := peep_typed hT hw haddr hfits hpeep
  obtain ⟨r, hr, he⟩ := (exact_iff hT hw haddr).2 hfits
  obtain rfl : r = some op := Option.some.inj (hr.symm.trans hpeep)
  have hne := ne_slot_of_peep hpeep
  have hdt (i : NodeId) : ((g.replace id op h0).node i).dt = (g.node i).dt := by
    simp only [replace]
    split_ifs with hi
    · rw [hi]
    · rfl
  have hkeep {i : NodeId} (hi : i ≠ id) : (g.replace id op h0).node i = g.node i := if_neg hi
  have hself : ((g.replace id op h0).node id).op = op := by simp [replace]
  have hcongr {dt : Datatype} {o : Op} (ho : g.OpTyped dt o) :
      (g.replace id op h0).OpTyped dt o := by
    refine ho.congr hdt (fun i hi => ?_) fun i hi => ?_
    · rw [hkeep fun hc => hne.1 (hc ▸ hi), hi]
    · rw [hkeep fun hc => hne.2 (hc ▸ hi), hi]
  refine ⟨fun i => ?_, fun i => ?_, fun i => ?_⟩
  · rw [hdt]
    by_cases hi : i = id
    · rw [hi, hself]
      exact hcongr htyped
    · rw [hkeep hi]
      exact hcongr (hT i)
  · rw [hdt]
    by_cases hi : i = id
    · rw [hi, hself]
      exact peep_matches hT hw haddr hpeep htyped he
    · rw [hkeep hi]
      exact hw i
  · by_cases hi : i = id
    · rw [hi, hself]
      exact he
    · rw [hkeep hi]

end Run

/-- **A step of the peephole keeps the address if and only if what goes into the displacement fits
there, and a run of such steps keeps every address**, whatever the words are. -/
theorem peep_exact_iff {g : AddrGraph} {w : NodeId → BitVec 64} {fuel : ℕ}
    (hT : g.Typed) (hw : g.Consistent w) :
    (∀ id, g.Addressed fuel id → (g.Exact w fuel id ↔ g.AddressFits fuel id)) ∧
      ∀ g', Relation.ReflTransGen (FitStep fuel) g g' → g'.Typed ∧ g'.Consistent w ∧
        ∀ id, (g'.node id).op.address w = (g.node id).op.address w := by
  refine ⟨fun id haddr => exact_iff hT hw haddr, fun g' hrun => ?_⟩
  induction hrun with
  | refl => exact ⟨hT, hw, fun _ => rfl⟩
  | tail _ hstep ih =>
    obtain ⟨hT', hw', hsame⟩ := ih
    obtain ⟨hT'', hw'', hsame'⟩ := hstep.keeps hT' hw'
    exact ⟨hT'', hw'', fun id => (hsame' id).trans (hsame id)⟩

/-- A `Load` from `value` above the address of a local. -/
def offsetGraph (value : BitVec 64) : AddrGraph where
  node
    | 1 => { op := .local_ }
    | 2 => { op := .localAddr 1, dt := .i64 }
    | 3 => { op := .cInt value, dt := .i64 }
    | 4 => { op := .add 2 3, dt := .i64 }
    | 5 => { op := .load 0 0 4, dt := .i64 }
    | _ => {}
  nil := rfl

/-- Its words, with the local at `4096`. -/
def offsetWord (value : BitVec 64) : NodeId → BitVec 64
  | 1 | 2 => 4096
  | 3 => value
  | 4 => 4096 + value
  | _ => 0

section Offset

variable {value : BitVec 64}

theorem offsetGraph_typed : (offsetGraph value).Typed := by
  rintro (_ | _ | _ | _ | _ | _ | id) <;> simp [offsetGraph, OpTyped]

theorem offsetGraph_consistent : (offsetGraph value).Consistent (offsetWord value) := by
  rintro (_ | _ | _ | _ | _ | _ | id) <;> simp [offsetGraph, offsetWord, Op.Matches]

theorem offsetGraph_addressed : (offsetGraph value).Addressed 3 5 :=
  show ((offsetGraph value).baseAndOffset 3 4).isSome = true from rfl

end Offset

theorem peep_exact_offset : (offsetGraph 16).Exact (offsetWord 16) 3 5 := by
  refine ((peep_exact_iff offsetGraph_typed offsetGraph_consistent).1 5 offsetGraph_addressed).2 ?_
  show (offsetGraph 16).LoadFits 3 4
  intro b off h
  cases h
  decide

/-- A displacement of 32 bits does not hold `2 ^ 31`. -/
theorem peep_not_exact : ¬ ∀ (g : AddrGraph) (w : NodeId → BitVec 64) (fuel : ℕ) (id : NodeId),
    g.Typed → g.Consistent w → g.Addressed fuel id → g.Exact w fuel id := by
  intro h
  obtain ⟨r, hr, he⟩ := h (offsetGraph (2 ^ 31)) (offsetWord (2 ^ 31)) 3 5 offsetGraph_typed
    offsetGraph_consistent offsetGraph_addressed
  have hpeep : (offsetGraph (2 ^ 31)).peep 3 5 =
      some (some (.amd64Load 0 0 1 0 { dt := .i64 })) := by
    decide
  rw [hpeep] at hr
  cases hr
  revert he
  decide

end AddrGraph

end OdinSon.Codegen.Amd64
