import OdinSon.Ssa.StoreElim

/-!
# Merging stores of constants

The `coalesce_stores` part of the `Store` peephole (`bac/ssa/peep.odin`): from the store it goes down
the memory, as long as the next store is of a constant, touches the bytes right below and has no other
user.  The constants are put together in a number of 64 bits, and the last store at which their
sizes add up to a size of an integer is where the wide store goes.

The wide store leaves the memory that the chain of stores leaves, and nothing else sees a memory
between two stores of the chain (`coalesceStores_memory`).
-/

namespace OdinSon

open MachInt Footprint

section Code

variable (prc : Proc) (fuel : ℕ)

/-- The store that takes the place of a chain: the arguments of `add_store`, and those of
`add_c_int`. -/
structure WideStore where
  /-- Its control. -/
  ctrl : NodeId
  /-- The memory before it. -/
  mem : NodeId
  /-- The address. -/
  addr : NodeId
  /-- The type of the constant. -/
  dt : Datatype
  /-- The constant. -/
  imm : BitVec 64
  deriving DecidableEq

/-- `int_for_size`; the assertions are a `none`. -/
def intForSize : ℕ → Option Datatype
  | 1 => some .i8
  | 2 => some .i16
  | 4 => some .i32
  | 8 => some .i64
  | _ => none

/-- `SIZE_LIMIT`. -/
def sizeLimit : ℕ := 8

/-- The variables of the walk. -/
structure Coalescing where
  /-- The constants so far. -/
  imm : BitVec 64
  /-- How many bytes they have. -/
  size : ℕ
  /-- The offset of the store before. -/
  prevOffset : ℤ
  /-- The next store. -/
  cursor : NodeId
  /-- The last store at which the size was good, `0` until there is one. -/
  last : NodeId
  /-- The constants up to there. -/
  lastImm : BitVec 64
  /-- Their size. -/
  lastSize : ℕ

/-- A constant comes in below the others. -/
def pushConst (imm : BitVec 64) (dt : Datatype) (value : ℤ) : BitVec 64 :=
  let vmask : BitVec 64 := BitVec.allOnes 64 >>> (64 - dt.bits)
  imm <<< dt.bits ||| (BitVec.ofInt 64 value &&& vmask)

/-- The store at the cursor joins the chain. -/
def Coalescing.advance (s : Coalescing) (dt : Datatype) (value offset : ℤ) (cursor : NodeId) :
    Coalescing :=
  let size := s.size + dt.size
  let imm := pushConst s.imm dt value
  let next := { s with size, imm, prevOffset := offset, cursor }
  if size.isPowerOfTwo then { next with last := s.cursor, lastImm := imm, lastSize := size } else next

/-- One round of the walk, or the end of it. -/
def coalesceRound (ctrl base : NodeId) (s : Coalescing) : Option (Option Coalescing) :=
  let cnode := prc.getNode s.cursor
  let dt := (prc.getNode (cnode.inp 3)).dt
  if cnode.itype ≠ .store then some none
  else if s.size ≠ 0 ∧ cnode.outs.length ≠ 1 then some none
  else if cnode.inp 0 ≠ ctrl then some none
  else if dt.isFloat then some none
  else
    match prc.cInt (cnode.inp 3) with
    | none => some none
    | some value => do
      let (cbase, offset) ← prc.baseAndOffset fuel (cnode.inp 2)
      if cbase ≠ base then some none
      else if wrap 64 (s.prevOffset - offset) ≠ dt.size then some none
      else if s.size + dt.size > sizeLimit then some none
      else some (some (s.advance dt value offset (cnode.inp 1)))

/-- The walk, for at most the given number of rounds. -/
def coalesceLoop (ctrl base : NodeId) : ℕ → Coalescing → Option Coalescing
  | 0, s => some s
  | rounds + 1, s => do
    match ← coalesceRound prc fuel ctrl base s with
    | none => some s
    | some next => coalesceLoop ctrl base rounds next

/-- The `coalesce_stores` part of `peep` on a store: the store that takes its place, if any. -/
def coalesceStores (id : NodeId) : Option (Option WideStore) := do
  let node := prc.getNode id
  let (base, offset) ← prc.baseAndOffset fuel (node.inp 2)
  let s ← coalesceLoop prc fuel (node.inp 0) base sizeLimit
    { imm := 0, size := 0, prevOffset := wrap 64 (offset + (prc.getNode (node.inp 3)).dt.size),
      cursor := id, last := 0, lastImm := 0, lastSize := 0 }
  if s.last ≠ id ∧ s.last ≠ 0 then
    let final := prc.getNode s.last
    let dt ← intForSize s.lastSize
    some (some { ctrl := final.inp 0, mem := final.inp 1, addr := final.inp 2, dt, imm := s.lastImm })
  else some none

end Code

/-! ### Bytes of constants -/

/-- The bytes of a number, the lowest first. -/
def constByte (x : BitVec 64) (i : ℕ) : BitVec 8 := x.extractLsb' (8 * i) 8

/-- A constant has the bytes of its number, cut off at the size of its datatype. -/
def Runtime.ConstBytes (rt : Runtime) (prc : Proc) : Prop :=
  ∀ id, (prc.getNode id).itype = .cInt → (prc.getNode id).dt.isInt = true →
    ∀ i < (prc.getNode id).dt.size,
      rt.byte id i = constByte (BitVec.ofInt 64 (prc.getNode id).cIntValue) i

/-- Constants are numbers. -/
def Proc.ConstTyped (prc : Proc) : Prop :=
  ∀ id, (prc.getNode id).itype = .cInt →
    let dt := (prc.getNode id).dt
    dt.isInt = true ∨ dt.isFloat = true ∨ dt.isVector = true

/-- What the wide store does with the memory. -/
def WideStore.run (w : WideStore) (rt : Runtime) (m : Memory) : Memory :=
  m.write (rt.word w.addr) w.dt.size (constByte w.imm)

/-- The store that is made for `w` does this. -/
theorem WideStore.runOp_eq {prc : Proc} {rt : Runtime} {w : WideStore} {s c ctrl : NodeId}
    (hrt : rt.ConstBytes prc) (hw : w.dt.isInt = true)
    (hs : (prc.getNode s).itype = .store) (hi : (prc.getNode s).inps = [ctrl, w.mem, w.addr, c])
    (hc : (prc.getNode c).itype = .cInt) (hdt : (prc.getNode c).dt = w.dt)
    (hv : (prc.getNode c).cIntValue = w.imm.toInt) (m : Memory) :
    (runOp prc rt s m).1 = w.run rt m := by
  have hsize : opSize prc rt s = w.dt.size := by simp [opSize, hs, Node.inp, hi, hdt]
  have hbyte : ∀ i < w.dt.size, rt.byte c i = constByte w.imm i := by
    intro i hlt
    rw [hrt c hc (hdt ▸ hw) i (hdt ▸ hlt), hv, BitVec.ofInt_toInt]
  funext x
  simp only [runOp, hs, hsize, WideStore.run, Memory.write, Node.inp, hi, List.getD_cons_zero,
    List.getD_cons_succ]
  split_ifs with hx
  · exact hbyte _ hx
  · rfl

theorem size_mul_eight (dt : Datatype) : dt.bits = 8 * dt.size := Nat.mul_comm _ _

/-- The bytes of the constant come first, then those of the others. -/
theorem constByte_pushConst (imm : BitVec 64) {dt : Datatype} (hdt : dt.size ≤ 8) (value : ℤ)
    {i : ℕ} (hi : i < 8) :
    constByte (pushConst imm dt value) i =
      if i < dt.size then constByte (BitVec.ofInt 64 value) i else constByte imm (i - dt.size) := by
  refine BitVec.eq_of_getLsbD_eq fun j hj => ?_
  have hbits := size_mul_eight dt
  split_ifs with hlt <;>
    simp only [constByte, pushConst, BitVec.getLsbD_extractLsb', hj, decide_true, Bool.true_and,
      BitVec.getLsbD_or, BitVec.getLsbD_shiftLeft, BitVec.getLsbD_and, BitVec.getLsbD_ushiftRight,
      BitVec.getLsbD_allOnes]
  · rw [decide_eq_true (show 8 * i + j < dt.bits by omega),
      decide_eq_true (show 64 - dt.bits + (8 * i + j) < 64 by omega)]
    simp
  · rw [decide_eq_false (show ¬ 8 * i + j < dt.bits by omega),
      decide_eq_false (show ¬ 64 - dt.bits + (8 * i + j) < 64 by omega),
      show 8 * i + j - dt.bits = 8 * (i - dt.size) + j by omega]
    simp
    omega

/-- Two writes that meet are one. -/
theorem write_write {a : BitVec 64} {k n : ℕ} (hkn : k + n ≤ 2 ^ 64) (f g : ℕ → BitVec 8)
    (m : Memory) :
    (m.write a k f).write (a + BitVec.ofNat 64 k) n g =
      m.write a (k + n) fun i => if i < k then f i else g (i - k) := by
  funext x
  have hx := (x - a).isLt
  rcases Nat.eq_zero_or_pos n with rfl | hn
  · simp only [Memory.write, Nat.not_lt_zero, ↓reduceIte, Nat.add_zero]
    split_ifs <;> rfl
  have hsub : (x - (a + BitVec.ofNat 64 k)).toNat = ((x - a).toNat + (2 ^ 64 - k)) % 2 ^ 64 := by
    simp only [BitVec.toNat_sub, BitVec.toNat_add, BitVec.toNat_ofNat]
    omega
  simp only [Memory.write, hsub]
  rcases lt_or_ge (x - a).toNat k with hlt | hge
  · rw [if_neg (by omega), if_pos hlt, if_pos (by omega), if_pos hlt]
  · rw [if_neg (show ¬ (x - a).toNat < k by omega)]
    have hmod : ((x - a).toNat + (2 ^ 64 - k)) % 2 ^ 64 = (x - a).toNat - k := by omega
    rw [hmod]
    split_ifs <;> first | rfl | omega

/-! ### The chain -/

/-- A store of the constant `value`, at the offset `offset` of the base. -/
structure ConstStore (prc : Proc) (fuel : ℕ) (base s : NodeId) (dt : Datatype) (value offset : ℤ) :
    Prop where
  itype : (prc.getNode s).itype = .store
  value_eq : prc.cInt ((prc.getNode s).inp 3) = some value
  dt_eq : (prc.getNode ((prc.getNode s).inp 3)).dt = dt
  isInt : dt.isInt = true
  addr : prc.baseAndOffset fuel ((prc.getNode s).inp 2) = some (base, offset)

/-- A chain of stores, the oldest first, with the number and the size that they come to, and the
offset at which they start. -/
inductive Merged (prc : Proc) (fuel : ℕ) (base id : NodeId) : List NodeId → BitVec 64 → ℕ → ℤ → Prop
  | one {dt value offset} : ConstStore prc fuel base id dt value offset →
      Merged prc fuel base id [id] (pushConst 0 dt value) dt.size offset
  | cons {s t chain imm size dt value offset offset'} :
      Merged prc fuel base id (t :: chain) imm size offset' →
      (prc.getNode t).inp 1 = s → (prc.getNode s).outs.length = 1 →
      ConstStore prc fuel base s dt value offset → wrap 64 (offset' - offset) = dt.size →
      size + dt.size ≤ sizeLimit →
      Merged prc fuel base id (s :: t :: chain) (pushConst imm dt value) (size + dt.size) offset

/-- What the walk has found so far: the chain down to the cursor, and the part of it that ends at
`last`. -/
structure CoalesceInv (prc : Proc) (fuel : ℕ) (base id : NodeId) (s : Coalescing) : Prop where
  walk : s.size = 0 ∧ s.cursor = id ∧ s.imm = 0 ∨ ∃ t chain,
    Merged prc fuel base id (t :: chain) s.imm s.size s.prevOffset ∧
      (prc.getNode t).inp 1 = s.cursor ∧ 0 < s.size
  last : s.last = 0 ∨ ∃ chain offset,
    Merged prc fuel base id (s.last :: chain) s.lastImm s.lastSize offset

section Chain

variable {prc : Proc} {fuel : ℕ} {base id ctrl : NodeId} {s s' : Coalescing}

theorem isInt_of_size {dt : Datatype} (h : dt.isInt = true ∨ dt.isFloat = true ∨ dt.isVector = true)
    (hf : dt.isFloat = false) (hs : dt.size ≤ sizeLimit) : dt.isInt = true := by
  cases dt <;> simp_all [Datatype.isInt, Datatype.isFloat, Datatype.isVector, Datatype.size, sizeLimit]

theorem size_pos_of_isInt {dt : Datatype} (h : dt.isInt = true) : 0 < dt.size := by
  cases dt <;> simp_all [Datatype.isInt, Datatype.size]

/-- What a round does. -/
theorem coalesceRound_spec (hC : prc.ConstTyped)
    (h : coalesceRound prc fuel ctrl base s = some (some s')) :
    ∃ dt value offset, ConstStore prc fuel base s.cursor dt value offset ∧
      (s.size ≠ 0 → (prc.getNode s.cursor).outs.length = 1) ∧
      wrap 64 (s.prevOffset - offset) = dt.size ∧ s.size + dt.size ≤ sizeLimit ∧
      s' = s.advance dt value offset ((prc.getNode s.cursor).inp 1) := by
  unfold coalesceRound at h
  dsimp only at h
  by_cases hsize : s.size + (prc.getNode ((prc.getNode s.cursor).inp 3)).dt.size > sizeLimit
  · simp only [hsize, ↓reduceIte] at h
    split_ifs at h
    any_goals cases h
    split at h
    · cases h
    obtain ⟨⟨cbase, offset⟩, -, h⟩ := Option.bind_eq_some_iff.1 h
    dsimp only at h
    split_ifs at h <;> cases h
  simp only [hsize, ↓reduceIte] at h
  split_ifs at h with hstore houts hctrl hfloat
  any_goals cases h
  split at h
  · cases h
  next value hvalue =>
  obtain ⟨⟨cbase, offset⟩, haddr, h⟩ := Option.bind_eq_some_iff.1 h
  dsimp only at h
  split_ifs at h with hbase hoff
  any_goals cases h
  rw [not_lt] at hsize
  rw [not_not] at hstore hbase hoff
  subst hbase
  have hkind : (prc.getNode ((prc.getNode s.cursor).inp 3)).itype = .cInt := by
    unfold Proc.cInt at hvalue
    dsimp only at hvalue
    split_ifs at hvalue with hk
    exact hk
  have hint := isInt_of_size (hC _ hkind) (Bool.eq_false_of_not_eq_true hfloat) (by omega)
  refine ⟨_, value, offset, ⟨hstore, hvalue, rfl, hint, haddr⟩, ?_, hoff, hsize, rfl⟩
  intro hne
  by_contra hlen
  exact houts ⟨hne, hlen⟩

theorem CoalesceInv.advance {dt : Datatype} {value offset : ℤ} (hs : CoalesceInv prc fuel base id s)
    (hstore : ConstStore prc fuel base s.cursor dt value offset)
    (houts : s.size ≠ 0 → (prc.getNode s.cursor).outs.length = 1)
    (hoff : wrap 64 (s.prevOffset - offset) = dt.size) (hsize : s.size + dt.size ≤ sizeLimit) :
    CoalesceInv prc fuel base id (s.advance dt value offset ((prc.getNode s.cursor).inp 1)) := by
  have hpos := size_pos_of_isInt hstore.isInt
  have hmerged : ∃ chain, Merged prc fuel base id (s.cursor :: chain) (pushConst s.imm dt value)
      (s.size + dt.size) offset := by
    rcases hs.walk with ⟨h0, rfl, himm⟩ | ⟨t, chain, hchain, ht, hlt⟩
    · rw [h0, himm, Nat.zero_add]
      exact ⟨[], .one hstore⟩
    · exact ⟨t :: chain, .cons hchain ht (houts hlt.ne') hstore hoff hsize⟩
  obtain ⟨chain, hmerged⟩ := hmerged
  unfold Coalescing.advance
  dsimp only
  split_ifs with hpow
  · exact ⟨.inr ⟨_, chain, hmerged, rfl, by dsimp only; omega⟩, .inr ⟨chain, offset, hmerged⟩⟩
  · exact ⟨.inr ⟨_, chain, hmerged, rfl, by dsimp only; omega⟩, hs.last⟩

/-- The walk keeps to chains. -/
theorem coalesceLoop_inv (hC : prc.ConstTyped) {rounds : ℕ} (hs : CoalesceInv prc fuel base id s)
    (h : coalesceLoop prc fuel ctrl base rounds s = some s') : CoalesceInv prc fuel base id s' := by
  induction rounds generalizing s with
  | zero =>
    cases h
    exact hs
  | succ rounds ih =>
    obtain ⟨r, hr, h⟩ := Option.bind_eq_some_iff.1 h
    cases r with
    | none =>
      cases h
      exact hs
    | some next =>
      obtain ⟨dt, value, offset, hstore, houts, hoff, hsize, rfl⟩ := coalesceRound_spec hC hr
      exact ih (hs.advance hstore houts hoff hsize) h

theorem intForSize_spec {n : ℕ} {dt : Datatype} (h : intForSize n = some dt) :
    dt.isInt = true ∧ dt.size = n := by
  unfold intForSize at h
  split at h <;> cases h <;> exact ⟨rfl, rfl⟩

/-- What is left of a chain whose sizes come to that of an integer. -/
theorem coalesceStores_merged (hC : prc.ConstTyped) {w : WideStore}
    (h : coalesceStores prc fuel id = some (some w)) : ∃ base final chain offset,
      Merged prc fuel base id (final :: chain) w.imm w.dt.size offset ∧ w.dt.isInt = true ∧
      final ≠ id ∧ w.ctrl = (prc.getNode final).inp 0 ∧ w.mem = (prc.getNode final).inp 1 ∧
      w.addr = (prc.getNode final).inp 2 := by
  obtain ⟨⟨base, offset⟩, -, h⟩ := Option.bind_eq_some_iff.1 h
  obtain ⟨s, hs, h⟩ := Option.bind_eq_some_iff.1 h
  dsimp only at h
  split_ifs at h with hlast
  swap
  · cases h
  obtain ⟨dt, hdt, h⟩ := Option.bind_eq_some_iff.1 h
  rw [Option.some.injEq, Option.some.injEq] at h
  subst h
  obtain ⟨hint, hsize⟩ := intForSize_spec hdt
  have hinv := coalesceLoop_inv hC ⟨.inl ⟨rfl, rfl, rfl⟩, .inl rfl⟩ hs
  obtain ⟨chain, offset, hmerged⟩ := hinv.last.resolve_left hlast.2
  exact ⟨base, s.last, chain, offset, hsize ▸ hmerged, hint, hlast.1, rfl, rfl, rfl⟩

end Chain

/-! ### What the chain does -/

/-- The memory after some stores, the first one first. -/
def runStores (prc : Proc) (rt : Runtime) (stores : List NodeId) (m : Memory) : Memory :=
  stores.foldl (fun m s => (runOp prc rt s m).1) m

section Run

variable {prc : Proc} {rt : Runtime} {fuel : ℕ} {base id s t : NodeId} {chain : List NodeId}
  {imm : BitVec 64} {size : ℕ} {dt : Datatype} {value offset : ℤ}

theorem write_congr {m : Memory} {a : BitVec 64} {n : ℕ} {f g : ℕ → BitVec 8}
    (h : ∀ i < n, f i = g i) : m.write a n f = m.write a n g := by
  funext x
  simp only [Memory.write]
  split_ifs with hx
  · exact h _ hx
  · rfl

theorem ConstStore.size_le (h : ConstStore prc fuel base s dt value offset) : dt.size ≤ 8 := by
  obtain rfl | rfl | rfl | rfl := Datatype.isInt_cases h.isInt <;> decide

theorem ConstStore.opSize_eq (h : ConstStore prc fuel base s dt value offset) :
    opSize prc rt s = dt.size := by
  simp [opSize, h.itype, h.dt_eq]

theorem ConstStore.word (hA : prc.AddrTyped) (hrt : rt.Consistent prc)
    (h : ConstStore prc fuel base s dt value offset) :
    rt.word ((prc.getNode s).inp 2) = rt.word base + BitVec.ofInt 64 offset :=
  (baseAndOffset_spec hA hrt (hA.addr s (by simp [Proc.isMemOp, h.itype])) h.addr).1

theorem ConstStore.runOp_eq (hA : prc.AddrTyped) (hrt : rt.Consistent prc) (hb : rt.ConstBytes prc)
    (h : ConstStore prc fuel base s dt value offset) (m : Memory) :
    (runOp prc rt s m).1 = m.write (rt.word base + BitVec.ofInt 64 offset) dt.size
      (constByte (BitVec.ofInt 64 value)) := by
  have hvalue := h.value_eq
  unfold Proc.cInt at hvalue
  dsimp only at hvalue
  split_ifs at hvalue with hk
  rw [Option.some.injEq] at hvalue
  have hbyte := hb _ hk (h.dt_eq ▸ h.isInt)
  rw [h.dt_eq, hvalue] at hbyte
  simp only [runOp, h.itype, h.opSize_eq, h.word hA hrt]
  exact write_congr hbyte

theorem Merged.head (h : Merged prc fuel base id (s :: chain) imm size offset) :
    ∃ dt value, ConstStore prc fuel base s dt value offset := by
  cases h with
  | one hstore => exact ⟨_, _, hstore⟩
  | cons _ _ _ hstore => exact ⟨_, _, hstore⟩

theorem ofInt_add_of_wrap {o o' : ℤ} {n : ℕ} (h : wrap 64 (o' - o) = n) (a : BitVec 64) :
    a + BitVec.ofInt 64 o' = a + BitVec.ofInt 64 o + BitVec.ofNat 64 n := by
  have hn : BitVec.ofInt 64 (o' - o) = BitVec.ofNat 64 n := by
    rw [← ofInt_wrap, h, BitVec.ofInt_natCast]
  rw [BitVec.add_assoc, ← hn, ← BitVec.ofInt_add, add_sub_cancel]

/-- The chain writes its number. -/
theorem Merged.runStores_eq (hA : prc.AddrTyped) (hrt : rt.Consistent prc) (hb : rt.ConstBytes prc)
    (h : Merged prc fuel base id chain imm size offset) (m : Memory) :
    runStores prc rt chain m =
      m.write (rt.word base + BitVec.ofInt 64 offset) size (constByte imm) := by
  induction h generalizing m with
  | @one dt value offset hstore =>
    rw [runStores, List.foldl_cons, List.foldl_nil, hstore.runOp_eq hA hrt hb]
    refine write_congr fun i hi => ?_
    have := hstore.size_le
    rw [constByte_pushConst 0 hstore.size_le value (by omega), if_pos hi]
  | @cons s t chain imm size dt value offset offset' hmerged ht houts hstore hoff hsize ih =>
    have hsize' : size + dt.size ≤ 8 := hsize
    rw [runStores, List.foldl_cons, hstore.runOp_eq hA hrt hb]
    refine (ih _).trans ?_
    rw [ofInt_add_of_wrap hoff, write_write (by omega), Nat.add_comm]
    refine write_congr fun i hi => ?_
    rw [constByte_pushConst imm hstore.size_le value (by omega)]

/-- Stores leave alone what none of them writes. -/
theorem runStores_of_notMem {stores : List NodeId} {m : Memory} {x : BitVec 64}
    (h : ∀ s ∈ stores, x ∉ opWrites prc rt s) : runStores prc rt stores m x = m x := by
  induction stores generalizing m with
  | nil => rfl
  | cons s stores ih =>
    obtain ⟨hs, hstores⟩ := List.forall_mem_cons.1 h
    exact (ih hstores).trans ((touches_runOp prc rt s).frame m x hs)

theorem Merged.itype (h : Merged prc fuel base id chain imm size offset) :
    ∀ s ∈ chain, (prc.getNode s).itype = .store := by
  induction h with
  | one hstore => simpa using hstore.itype
  | cons _ _ _ hstore _ _ ih => exact List.forall_mem_cons.2 ⟨hstore.itype, ih⟩

/-- The only user of a store of the chain is the next. -/
theorem users_eq_of_length (hD : prc.DefUse) (hs : (prc.getNode s).itype = .store)
    (ht : (prc.getNode t).itype = .store) (hts : (prc.getNode t).inp 1 = s)
    (houts : (prc.getNode s).outs.length = 1) : prc.users s = [t] := by
  have hs0 : s ≠ 0 := by
    rintro rfl
    cases hs
  have hinp : (prc.getNode t).inps[1]? = some s := by
    unfold Node.inp at hts
    rw [List.getD_eq_getElem?_getD] at hts
    cases h : (prc.getNode t).inps[1]? with
    | none => simp [h] at hts; exact absurd hts.symm hs0
    | some u => simpa [h] using hts
  have hmem : (⟨t, 1⟩ : NodeOutput) ∈ (prc.getNode s).outs :=
    (hD.mem_outs_iff s hs0 (by simp [Proc.live, hs]) t 1).2 ⟨by simp [Proc.live, ht], hinp⟩
  obtain ⟨out, hout⟩ := List.length_eq_one_iff.1 houts
  rw [hout, List.mem_singleton] at hmem
  rw [Proc.users, hout, ← hmem]
  rfl

/-- The stores of the chain are linked, and nothing else uses the memory between them. -/
theorem Merged.linked (hD : prc.DefUse) (h : Merged prc fuel base id chain imm size offset) :
    chain.IsChain fun s t => (prc.getNode t).inp 1 = s ∧ prc.users s = [t] := by
  induction h with
  | one _ => exact .singleton _
  | cons hmerged ht houts hstore _ _ ih =>
    obtain ⟨dt, value, hhead⟩ := hmerged.head
    exact .cons_cons ⟨ht, users_eq_of_length hD hstore.itype hhead.itype ht houts⟩ ih

theorem Merged.getLast? (h : Merged prc fuel base id chain imm size offset) :
    chain.getLast? = some id := by
  induction h with
  | one _ => rfl
  | cons _ _ _ _ _ _ ih => rw [List.getLast?_cons_cons, ih]

/-- A run that comes to the first store of the chain goes along the chain. -/
theorem thread_of_linked {p : List NodeId}
    (hl : (s :: chain).IsChain fun s t => (prc.getNode t).inp 1 = s ∧ prc.users s = [t])
    (hlast : (s :: chain).getLast? = some id) (hp : Thread prc s p) :
    p <+: chain ∨ ∃ q, p = chain ++ q ∧ Thread prc id q := by
  induction chain generalizing s p with
  | nil =>
    obtain rfl : s = id := by simpa using hlast
    exact .inr ⟨p, rfl, hp⟩
  | cons t chain ih =>
    rw [List.isChain_cons_cons] at hl
    rw [List.getLast?_cons_cons] at hlast
    cases p with
    | nil => exact .inl List.nil_prefix
    | cons u p =>
      obtain rfl : u = t := by simpa [hl.1.2] using hp.1
      rcases ih hl.2 hlast hp.2 with hpre | ⟨q, rfl, hq⟩
      · exact .inl (List.cons_prefix_cons.2 ⟨rfl, hpre⟩)
      · exact .inr ⟨q, rfl, hq⟩

/-- Stores see nothing. -/
theorem observations_stores {env : NodeId → Runtime → Memory → Runtime × Memory}
    {stores q : List NodeId} (h : ∀ s ∈ stores, (prc.getNode s).itype = .store) (m : Memory) :
    observations prc env (stores ++ q) rt m =
      stores.map (fun _ => .bytes []) ++ observations prc env q rt (runStores prc rt stores m) := by
  induction stores generalizing m with
  | nil => rfl
  | cons s stores ih =>
    obtain ⟨hs, hstores⟩ := List.forall_mem_cons.1 h
    have hsees : (runOp prc rt s m).2 = [] := by simp [runOp, hs]
    rw [List.cons_append, observations, if_pos (by simp [Proc.isMemOp, hs]), hsees, ih hstores]
    rfl

end Run

/-! ### The wide store -/

/-- The wide store `w` does what the chain does, which begins with `final` and ends with `id`. -/
structure Coalesces (prc : Proc) (rt : Runtime) (id : NodeId) (w : WideStore) (final : NodeId)
    (chain : List NodeId) : Prop where
  last : (final :: chain).getLast? = some id
  ctrl : w.ctrl = (prc.getNode final).inp 0
  mem : w.mem = (prc.getNode final).inp 1
  /-- Each store takes the memory of the one before, which has no other user. -/
  linked : (final :: chain).IsChain fun s t => (prc.getNode t).inp 1 = s ∧ prc.users s = [t]
  isInt : w.dt.isInt = true
  memory : ∀ m, w.run rt m = runStores prc rt (final :: chain) m
  frame : ∀ m x, (∀ s ∈ final :: chain, x ∉ opWrites prc rt s) → w.run rt m x = m x
  /-- Whatever comes to the chain leaves it through `id`. -/
  thread : ∀ p, Thread prc final p → p <+: chain ∨ ∃ q, p = chain ++ q ∧ Thread prc id q
  /-- What leaves it sees, apart from the stores of the chain, what it sees after the wide store. -/
  observations : ∀ env m q, observations prc env (final :: chain ++ q) rt m =
    (final :: chain).map (fun _ => .bytes []) ++ observations prc env q rt (w.run rt m)

/-- **Merging stores of constants leaves the memory as it was**, for every chain. -/
theorem coalesceStores_memory {prc : Proc} {rt : Runtime} {fuel : ℕ} {id : NodeId} {w : WideStore}
    (hA : prc.AddrTyped) (hC : prc.ConstTyped) (hD : prc.DefUse) (hrt : rt.Consistent prc)
    (hb : rt.ConstBytes prc) (h : coalesceStores prc fuel id = some (some w)) :
    ∃ final chain, Coalesces prc rt id w final chain := by
  obtain ⟨base, final, chain, offset, hmerged, hint, -, hctrl, hmem, haddr⟩ :=
    coalesceStores_merged hC h
  obtain ⟨dt, value, hhead⟩ := hmerged.head
  have hrun : ∀ m, w.run rt m = runStores prc rt (final :: chain) m := by
    intro m
    rw [WideStore.run, haddr, hhead.word hA hrt, hmerged.runStores_eq hA hrt hb]
  have hlinked := hmerged.linked hD
  refine ⟨final, chain, hmerged.getLast?, hctrl, hmem, hlinked, hint, hrun, ?_, ?_, ?_⟩
  · intro m x hx
    rw [hrun, runStores_of_notMem hx]
  · exact fun p hp => thread_of_linked hlinked hmerged.getLast? hp
  · intro env m q
    rw [hrun]
    exact observations_stores hmerged.itype m

/-! ### Three stores -/

/-- `p[0] = -1`, `p[1] = 7` and `(^i16)(p[2:]) = -2`: the stores are `9`, `10` and `11`. -/
def threeStores : Proc where
  mem := fun id => [
    {},
    {
      itype := .entry,
      outs := [⟨2, 0⟩, ⟨3, 0⟩, ⟨9, 0⟩, ⟨10, 0⟩, ⟨11, 0⟩, ⟨12, 0⟩] },
    { itype := .mem, dt := .mem, isStore := true, inps := [1], outs := [⟨9, 1⟩] },
    { itype := .param, dt := .i64, inps := [1], outs := [⟨9, 2⟩, ⟨7, 0⟩, ⟨8, 0⟩] },
    { itype := .cInt, dt := .i8, extra := [0xFFFFFFFF, 0xFFFFFFFF], outs := [⟨9, 3⟩] },
    { itype := .cInt, dt := .i64, extra := [1, 0], outs := [⟨7, 1⟩] },
    { itype := .cInt, dt := .i64, extra := [2, 0], outs := [⟨8, 1⟩] },
    { itype := .bin .add, dt := .i64, inps := [3, 5], outs := [⟨10, 2⟩] },
    { itype := .bin .add, dt := .i64, inps := [3, 6], outs := [⟨11, 2⟩] },
    { itype := .store, dt := .mem, isStore := true, inps := [1, 2, 3, 4], outs := [⟨10, 1⟩] },
    { itype := .store, dt := .mem, isStore := true, inps := [1, 9, 7, 13], outs := [⟨11, 1⟩] },
    { itype := .store, dt := .mem, isStore := true, inps := [1, 10, 8, 14], outs := [⟨12, 1⟩] },
    { itype := .return_, inps := [1, 11] },
    { itype := .cInt, dt := .i8, extra := [7, 0], outs := [⟨10, 3⟩] },
    {
      itype := .cInt, dt := .i16, extra := [0xFFFFFFFE, 0xFFFFFFFF],
      outs := [⟨11, 3⟩] }].getD id { itype := .dead }
  pos := 15
  entry := 1
  end_ := 0

/-- The pointer is `0x1000`. -/
def threeStoresRun : Runtime where
  word := fun id =>
    [0, 0, 0, 0x1000, -1, 1, 2, 0x1001, 0x1002, 0, 0, 0, 0, 7, -2].getD id 0
  byte := fun id => constByte
    ([0, 0, 0, 0x1000, -1, 1, 2, 0x1001, 0x1002, 0, 0, 0, 0, 7, -2].getD id 0)

theorem threeStores_dead (id : NodeId) (h : 15 ≤ id) :
    threeStores.getNode id = { itype := .dead } :=
  Proc.getNode_of_length_le _ h (by decide) rfl rfl

theorem addrTyped_threeStores : threeStores.AddrTyped :=
  .of_bounded threeStores_dead (by decide) (by decide) (by decide)

theorem constTyped_threeStores : threeStores.ConstTyped :=
  Proc.forall_getNode threeStores_dead (P := fun _ node => node.itype = .cInt →
    node.dt.isInt = true ∨ node.dt.isFloat = true ∨ node.dt.isVector = true)
    (by simp) (by decide)

theorem defUse_threeStores : threeStores.DefUse :=
  .of_bounded (k := 15) (fun id h => by rw [Proc.live, threeStores_dead id h]; rfl)
    (by decide) (by decide)

theorem consistent_threeStores : threeStoresRun.Consistent threeStores where
  cInt := Proc.forall_getNode threeStores_dead (P := fun id node => node.itype = .cInt →
    threeStoresRun.word id = BitVec.ofInt 64 node.cIntValue) (by simp) (by decide)
  add := Proc.forall_getNode threeStores_dead (P := fun id node => node.itype = .bin .add →
    node.dt = .i64 → threeStoresRun.word id =
      threeStoresRun.word (node.inp 0) + threeStoresRun.word (node.inp 1)) (by simp)
    (by decide)

theorem coalesceStores_memory_threeStores : ∃ final chain, Coalesces threeStores threeStoresRun 11
    { ctrl := 1, mem := 2, addr := 3, dt := .i32, imm := 0xFFFE07FF } final chain :=
  coalesceStores_memory addrTyped_threeStores constTyped_threeStores defUse_threeStores
    consistent_threeStores
    (fun id h _ i _ => by rw [← consistent_threeStores.cInt id h]; rfl)
    (by decide : coalesceStores threeStores 3 11 = some (some _))

end OdinSon
