import OdinSon.Bac.AliasSound

/-!
# Addresses in wasm code

The `Load` and `Store` cases of `peep` and `emit_instr` in `bac/wasm/wasm.odin`.  The constants that
are added to an address become the offset of the instruction, and the offset of a local that is
loaded from too.  Additions in the graph wrap around, and its constants are signed; wasm adds an
unsigned offset to the address and does not wrap.  So the instruction has the address of the graph
only when that sum, with the offset read without a sign, stays below `2 ^ 64`, and when the offset
fits the 59 bits that `Mem_Op` has for it (`effective_eq_iff`).
-/

namespace OdinSon.Wasm

open MachInt

/-- `Mem_Op`. -/
structure MemOp where
  /-- The offset, in a signed field of 59 bits. -/
  offset : BitVec 59 := 0
  /-- The type of what is in memory. -/
  source : Datatype
  /-- A load extends it with the sign. -/
  signed : Bool := false
  deriving DecidableEq, Repr

/-- A load or a store with its `Mem_Op`. -/
structure MemNode where
  /-- It is a store. -/
  isStore : Bool
  /-- It is a `WASM_Load` or a `WASM_Store`. -/
  folded : Bool
  /-- The type of the node. -/
  dt : Datatype
  /-- The inputs. -/
  inps : List NodeId
  /-- Its `Mem_Op`. -/
  memOp : MemOp
  deriving DecidableEq, Repr

/-- `node.inps[2]`. -/
def MemNode.addr (n : MemNode) : NodeId := n.inps.getD 2 0

/-- The opcodes of loads and stores: what is made of which datatype in memory. -/
inductive MemOpcode where
  | load (dt source : Datatype) (signed : Bool)
  | store (dt : Datatype)
  deriving DecidableEq, Repr

/-- The code of a load or store. -/
structure MemCode where
  /-- There is a `global.get 0`, for an address that is not on the stack. -/
  stackPointer : Bool
  /-- The instruction. -/
  op : MemOpcode
  /-- Its alignment. -/
  align : ℕ
  /-- Its offset. -/
  offset : ℕ
  deriving DecidableEq, Repr

section Select

variable (prc : Proc) (fuel : ℕ)

/-- `get_extra(.., Local).offset`, once `layout_locals` has been there. -/
def localOffset (id : NodeId) : ℤ := wrap 32 ((prc.getNode id).extra.getD 0 0)

/-- The base and the offset that `peep` takes an address apart into; a load from a local takes the
`Local` itself. -/
def foldAddr (isStore : Bool) (addr : NodeId) : Option (NodeId × ℤ × Bool) := do
  let (base, off) ← prc.baseAndOffset fuel addr
  let bnode := prc.getNode base
  return if bnode.itype = .localAddr ∧ isStore = false then (bnode.inp 0, off, true)
    else (base, off, false)

/-- A `Load` or `Store` as it stands. -/
def plain (node : OdinSon.Node) : MemNode where
  isStore := node.itype = .store
  folded := false
  dt := node.dt
  inps := node.inps
  memOp := { source := node.dt }

/-- `peep` of a `Load` or `Store`: the node it becomes. -/
def peepMem (id : NodeId) : Option MemNode := do
  let node := plain (prc.getNode id)
  let (base, off, changed) ← foldAddr prc fuel node.isStore node.addr
  return if off ≠ 0 ∨ changed = true then
    { node with
      folded := true
      inps := node.inps.set 2 base
      memOp := { source := node.dt, offset := .ofInt 59 off } }
  else node

/-- `emit_instr` of a load or a store. -/
def emitMem (node : MemNode) : MemCode :=
  if node.isStore then
    { stackPointer := false
      op := .store (prc.getNode (node.inps.getD 3 0)).dt
      align := 0
      offset := u64 node.memOp.offset.toInt }
  else
    let isLocal := decide ((prc.getNode node.addr).itype = .local)
    { stackPointer := isLocal
      op := .load node.dt (if node.dt = .v128 then .v128 else node.memOp.source) node.memOp.signed
      align := 0
      offset := u64 (wrap 64 (node.memOp.offset.toInt +
        if isLocal then localOffset prc node.addr else 0)) }

end Select

/-- The effective address: the operand and the offset, without wrapping around. -/
def MemCode.effective (code : MemCode) (sp operand : BitVec 64) : ℕ :=
  (if code.stackPointer then sp else operand).toNat + code.offset

/-- The address of a local is its place in the frame; a `Local` itself is no address. -/
structure Framed (prc : Proc) (rt : Runtime) (sp : BitVec 64) : Prop extends
    rt.Consistent prc where
  localAddr : ∀ id, (prc.getNode id).itype = .localAddr →
    (prc.getNode ((prc.getNode id).inp 0)).itype = .local ∧
      rt.word id = sp + .ofInt 64 (localOffset prc ((prc.getNode id).inp 0))
  local_dt : ∀ id, (prc.getNode id).itype = .local → (prc.getNode id).dt ≠ .i64

/-- The constant fits its field, and does not carry the base beyond `2 ^ 64`. -/
def NoCarry (b : BitVec 64) (off d : ℤ) : Prop := InS 59 off ∧ b.toNat + u64 d < 2 ^ 64

/-- The same for the base and the offset that the address of `id` is taken apart into. -/
def FoldFits (prc : Proc) (fuel : ℕ) (rt : Runtime) (sp : BitVec 64) (id : NodeId) : Prop :=
  ∀ base off isLocal,
    foldAddr prc fuel (decide ((prc.getNode id).itype = .store)) ((prc.getNode id).inp 2) =
      some (base, off, isLocal) →
    if isLocal then NoCarry sp off (off + localOffset prc base) else NoCarry (rt.word base) off off

/-- A sum without a carry has the address of the one with it only when there is none. -/
theorem add_eq_toNat_iff {b : BitVec 64} {d d' : ℤ} :
    b.toNat + u64 d' = (b + BitVec.ofInt 64 d).toNat ↔
      u64 d' = u64 d ∧ b.toNat + u64 d < 2 ^ 64 := by
  rw [BitVec.toNat_add, ofInt_toNat, ← u64]
  have hd : u64 d < 2 ^ 64 := unsigned_lt 64 d
  have hd' : u64 d' < 2 ^ 64 := unsigned_lt 64 d'
  have hb := b.isLt
  constructor
  · intro h
    omega
  · rintro ⟨he, hlt⟩
    rw [he, Nat.mod_eq_of_lt hlt]

/-- Cutting the constant to its field does no harm when it fits. -/
theorem u64_wrap59_iff {off l : ℤ} (h : InS 64 off) :
    u64 (wrap 59 off + l) = u64 (off + l) ↔ InS 59 off := by
  constructor
  · intro he
    have hw : wrap 64 (wrap 59 off + l) = wrap 64 (off + l) := by
      rw [← wrap_unsigned 64, ← wrap_unsigned 64 (off + l)]
      exact congrArg (fun n : ℕ => wrap 64 (n : ℤ)) he
    have hw' : wrap 64 (wrap 59 off) = wrap 64 off := by
      rw [wrap_eq_wrap_iff] at hw ⊢
      simpa using hw
    have h59 := wrap_mem (w := 59) (by norm_num) off
    rw [wrap_eq_self (by norm_num) (h59.mono (by norm_num)), wrap_eq_self (by norm_num) h] at hw'
    rwa [hw'] at h59
  · intro h59
    rw [wrap_eq_self (by norm_num) h59]

section Fold

variable {prc : Proc} {rt : Runtime} {sp : BitVec 64} {fuel : ℕ}

/-- The base that an address is taken apart into is an address. -/
theorem dt_of_baseAndOffset (hA : prc.AddrTyped) {id base : NodeId} {off o : ℤ}
    (hdt : (prc.getNode id).dt = .i64)
    (h : prc.baseAndOffsetFrom fuel id off = some (base, o)) : (prc.getNode base).dt = .i64 := by
  induction fuel generalizing id off with
  | zero => cases h
  | succ fuel ih =>
    unfold Proc.baseAndOffsetFrom at h
    dsimp only at h
    split_ifs at h with hadd
    · split at h
      · cases h
        exact hdt
      · exact ih (hA.add id hadd.1 hdt) h
    · cases h
      exact hdt

/-- A load or store has a third input. -/
theorem length_inps (hA : prc.AddrTyped) {id : NodeId} (hid : prc.isMemOp id = true) :
    2 < (prc.getNode id).inps.length := by
  by_contra hlen
  have hdt := hA.addr id hid
  rw [Node.inp, List.getD_eq_default _ _ (not_lt.1 hlen), Proc.getNode_zero] at hdt
  cases hdt

theorem getD_set_self {l : List NodeId} {i : ℕ} (h : i < l.length) (v : NodeId) :
    (l.set i v).getD i 0 = v := by
  rw [List.getD_eq_getElem?_getD, List.getElem?_set_self h, Option.getD_some]

/-- The two ways to take an address apart. -/
theorem foldAddr_cases {isStore : Bool} {addr base : NodeId} {off : ℤ} {isLocal : Bool}
    (h : foldAddr prc fuel isStore addr = some (base, off, isLocal)) :
    (isLocal = true ∧ isStore = false ∧ ∃ b, prc.baseAndOffset fuel addr = some (b, off) ∧
      (prc.getNode b).itype = .localAddr ∧ base = (prc.getNode b).inp 0) ∨
    (isLocal = false ∧ prc.baseAndOffset fuel addr = some (base, off)) := by
  simp only [foldAddr, Option.bind_eq_bind, Option.bind_eq_some_iff] at h
  obtain ⟨⟨b, o⟩, hb, h⟩ := h
  split_ifs at h with hc
  · cases h
    exact .inl ⟨rfl, hc.2, b, hb, hc.1, rfl⟩
  · cases h
    exact .inr ⟨rfl, hb⟩

theorem toInt_ofInt_59 (off : ℤ) : (BitVec.ofInt 59 off).toInt = wrap 59 off := ofInt_toInt 59 off

/-- What the instruction adds for the constant `off` and the offset `l` of a local. -/
theorem effective_iff_noCarry {b : BitVec 64} {off l : ℤ} (h : InS 64 off) :
    b.toNat + u64 (wrap 59 off + l) = (b + BitVec.ofInt 64 (off + l)).toNat ↔
      NoCarry b off (off + l) := by
  rw [add_eq_toNat_iff, u64_wrap59_iff h, NoCarry]

theorem effective_emitMem (n : MemNode) (w : BitVec 64) : (emitMem prc n).effective sp w =
    if n.isStore = false ∧ (prc.getNode n.addr).itype = .local then
      sp.toNat + u64 (n.memOp.offset.toInt + localOffset prc n.addr)
    else w.toNat + u64 n.memOp.offset.toInt := by
  have hu (x : ℤ) : u64 (wrap 64 x) = u64 x := unsigned_wrap le_rfl x
  cases hst : n.isStore with
  | true => rw [emitMem, if_pos hst, if_neg (by simp), MemCode.effective, if_neg (by simp)]
  | false =>
    rw [emitMem, if_neg (by simp [hst]), MemCode.effective]
    by_cases hl : (prc.getNode n.addr).itype = .local
    · simp only [hl, decide_true, if_true, hu, and_self]
    · simp only [hl, decide_false, Bool.false_eq_true, if_false, and_false, add_zero, hu]

/-- The instruction has the address of the graph exactly when the constants fit. -/
theorem effective_eq_foldFits (hA : prc.AddrTyped) (hrt : Framed prc rt sp) {id : NodeId}
    (hid : (prc.getNode id).itype = .load ∨ (prc.getNode id).itype = .store) {n : MemNode}
    (h : peepMem prc fuel id = some n) :
    (emitMem prc n).effective sp (rt.word n.addr) = (rt.word ((prc.getNode id).inp 2)).toNat ↔
      FoldFits prc fuel rt sp id := by
  have hmem : prc.isMemOp id = true := by
    rcases hid with h | h <;> simp [Proc.isMemOp, h]
  have hdt := hA.addr id hmem
  have hlen := length_inps hA hmem
  simp only [peepMem, Option.bind_eq_bind, Option.bind_eq_some_iff] at h
  obtain ⟨⟨base, off, isLocal⟩, hfold, h⟩ := h
  have haddr : (plain (prc.getNode id)).addr = (prc.getNode id).inp 2 := rfl
  rw [haddr] at hfold
  have hfits : FoldFits prc fuel rt sp id ↔
      if isLocal then NoCarry sp off (off + localOffset prc base)
      else NoCarry (rt.word base) off off := by
    constructor
    · exact fun hf => hf base off isLocal hfold
    · intro hc base' off' isLocal' hfold'
      cases hfold.symm.trans hfold'
      exact hc
  rw [hfits]
  obtain ⟨rfl, hst, b, hb, hbl, rfl⟩ | ⟨rfl, hb⟩ := foldAddr_cases hfold
  · -- a load from a local
    obtain ⟨hloc, hword⟩ := hrt.localAddr b hbl
    obtain ⟨hw, hoff⟩ := baseAndOffset_spec hA hrt.toConsistent hdt hb
    rw [if_pos (.inr rfl)] at h
    cases h
    rw [if_pos rfl, hw, hword, BitVec.add_assoc, ← BitVec.ofInt_add, Int.add_comm _ off,
      ← effective_iff_noCarry hoff, effective_emitMem]
    simp only [MemNode.addr, plain, getD_set_self hlen, toInt_ofInt_59]
    rw [if_pos ⟨hst, hloc⟩]
  · obtain ⟨hw, hoff⟩ := baseAndOffset_spec hA hrt.toConsistent hdt hb
    have hbdt : (prc.getNode base).dt = .i64 := dt_of_baseAndOffset hA hdt hb
    rw [if_neg (by simp), effective_emitMem]
    by_cases h0 : off = 0
    · -- nothing is folded
      subst h0
      rw [if_neg (by simp)] at h
      cases h
      rw [haddr, if_neg fun hl => hrt.local_dt _ hl.2 hdt]
      exact iff_of_true rfl ⟨by decide, (rt.word base).isLt⟩
    · rw [if_pos (.inl h0)] at h
      cases h
      have hfold := effective_iff_noCarry (b := rt.word base) (l := 0) hoff
      rw [add_zero, add_zero] at hfold
      rw [hw, ← hfold]
      simp only [MemNode.addr, plain, getD_set_self hlen, toInt_ofInt_59]
      rw [if_neg fun hl => hrt.local_dt _ hl.2 hbdt]

/-- An access that is in bounds in the graph is made at the same address in wasm exactly when the
constants fit. -/
theorem effective_eq_iff (hA : prc.AddrTyped) (hrt : Framed prc rt sp) {id : NodeId}
    (hid : (prc.getNode id).itype = .load ∨ (prc.getNode id).itype = .store) {n : MemNode}
    (h : peepMem prc fuel id = some n) (memSize : ℕ) :
    ((rt.word ((prc.getNode id).inp 2)).toNat + opSize prc rt id ≤ memSize →
      (emitMem prc n).effective sp (rt.word n.addr) =
        (rt.word ((prc.getNode id).inp 2)).toNat) ↔
    ((rt.word ((prc.getNode id).inp 2)).toNat + opSize prc rt id ≤ memSize →
      FoldFits prc fuel rt sp id) :=
  imp_congr_right fun _ => effective_eq_foldFits hA hrt hid h

end Fold

/-- A load of eight bytes from a parameter and a constant. -/
def offsetLoad (lo hi : ℕ) : Proc where
  mem := fun id => [
    {},
    { itype := .param, dt := .i64, outs := [⟨3, 0⟩] },
    { itype := .cInt, dt := .i64, extra := [lo, hi], outs := [⟨3, 1⟩] },
    { itype := .bin .add, dt := .i64, inps := [1, 2], outs := [⟨4, 2⟩] },
    { itype := .load, dt := .i64, inps := [0, 0, 3] }].getD id { itype := .dead }
  pos := 5
  entry := 0
  end_ := 0

/-- The parameter is `base`. -/
def offsetLoadRun (lo hi : ℕ) (base : BitVec 64) : Runtime where
  word := fun id =>
    let off := BitVec.ofInt 64 ((offsetLoad lo hi).getNode 2).cIntValue
    [0, base, off, base + off, 0].getD id 0
  byte := fun _ _ => 0

theorem offsetLoad_dead (lo hi : ℕ) {id : ℕ} (h : 5 ≤ id) :
    (offsetLoad lo hi).getNode id = { itype := .dead } :=
  Proc.getNode_of_length_le _ h (by decide) rfl rfl

theorem addrTyped_offsetLoad (lo hi : ℕ) : (offsetLoad lo hi).AddrTyped where
  addr := by
    intro (id : ℕ) h
    rcases lt_or_ge id 5 with hid | hid
    · revert h
      interval_cases id <;> simp [Proc.isMemOp, Proc.getNode, offsetLoad, Node.inp]
    · simp [Proc.isMemOp, offsetLoad_dead lo hi hid] at h
  src := by
    intro (id : ℕ) h
    rcases lt_or_ge id 5 with hid | hid
    · revert h
      interval_cases id <;> simp [Proc.getNode, offsetLoad]
    · simp [offsetLoad_dead lo hi hid] at h
  add := by
    intro (id : ℕ) h
    rcases lt_or_ge id 5 with hid | hid
    · revert h
      interval_cases id <;> simp [Proc.getNode, offsetLoad, Node.inp]
    · simp [offsetLoad_dead lo hi hid] at h

theorem framed_offsetLoad (lo hi : ℕ) (base : BitVec 64) :
    Framed (offsetLoad lo hi) (offsetLoadRun lo hi base) 0 where
  cInt := by
    intro (id : ℕ) h
    rcases lt_or_ge id 5 with hid | hid
    · revert h
      interval_cases id <;> simp [Proc.getNode, offsetLoad, offsetLoadRun]
    · simp [offsetLoad_dead lo hi hid] at h
  add := by
    intro (id : ℕ) h
    rcases lt_or_ge id 5 with hid | hid
    · revert h
      interval_cases id <;> simp [Proc.getNode, offsetLoad, offsetLoadRun, Node.inp]
    · simp [offsetLoad_dead lo hi hid] at h
  localAddr := by
    intro (id : ℕ) h
    rcases lt_or_ge id 5 with hid | hid
    · revert h
      interval_cases id <;> simp [Proc.getNode, offsetLoad]
    · simp [offsetLoad_dead lo hi hid] at h
  local_dt := by
    intro (id : ℕ) h
    rcases lt_or_ge id 5 with hid | hid
    · revert h
      interval_cases id <;> simp [Proc.getNode, offsetLoad]
    · simp [offsetLoad_dead lo hi hid] at h

/-- The load eight bytes above `16`, folded. -/
def loadAbove : MemNode where
  isStore := false
  folded := true
  dt := .i64
  inps := [0, 0, 1]
  memOp := { offset := 8, source := .i64 }

theorem effective_eq_above : (emitMem (offsetLoad 8 0) loadAbove).effective 0 16 = 24 := by
  have hiff := @effective_eq_iff _ _ _ 2 (addrTyped_offsetLoad 8 0) (framed_offsetLoad 8 0 16) 4
    (.inl rfl) loadAbove (by decide +kernel) 65536
  refine hiff.2 (fun _ base off isLocal h => ?_) (by decide)
  have hf : foldAddr (offsetLoad 8 0) 2 false 3 = some (1, 8, false) := by decide
  cases hf.symm.trans h
  exact ⟨by decide, by decide⟩

/-- The load eight bytes below `16` is made at `2 ^ 64 + 8`. -/
theorem effective_ne_below : ∃ n, peepMem (offsetLoad 0xfffffff8 0xffffffff) 2 4 = some n ∧
    ((offsetLoadRun 0xfffffff8 0xffffffff 16).word 3).toNat = 8 ∧
    opSize (offsetLoad 0xfffffff8 0xffffffff) (offsetLoadRun 0xfffffff8 0xffffffff 16) 4 = 8 ∧
    n.addr = 1 ∧ (emitMem (offsetLoad 0xfffffff8 0xffffffff) n).effective 0
      ((offsetLoadRun 0xfffffff8 0xffffffff 16).word 1) = 2 ^ 64 + 8 :=
  ⟨{ isStore := false, folded := true, dt := .i64, inps := [0, 0, 1],
     memOp := { offset := .ofInt 59 (-8), source := .i64 } }, by decide +kernel⟩

end OdinSon.Wasm
