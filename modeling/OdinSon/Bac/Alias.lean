import OdinSon.Bac.Graph
import OdinSon.Lib.Footprint

/-!
# Which memory operations may touch the same bytes

`is_noalias` (`bac/graph.odin`) compares addresses as a base and a constant offset, and the sizes of
the operations as far as they are known.  A size that is not a constant counts as `1 << 30` bytes.

What the operations do at run time is `runOp`, over a memory of bytes with `64` bit addresses
(`Runtime` has the values of the nodes).
-/

namespace OdinSon

open MachInt

namespace Proc

variable (prc : Proc)

/-- `get_extra(.., CInt)`, with its value. -/
def cInt (id : NodeId) : Option ℤ :=
  let node := prc.getNode id
  if node.itype = .cInt then some node.cIntValue else none

/-- The loop of `base_and_offset`, for at most `fuel` rounds. -/
def baseAndOffsetFrom : ℕ → NodeId → ℤ → Option (NodeId × ℤ)
  | 0, _, _ => none
  | fuel + 1, base, off =>
    let bnode := prc.getNode base
    if bnode.itype = .bin .add ∧ bnode.dt.isInt = true then
      match prc.cInt (bnode.inp 1) with
      | none => some (base, off)
      | some value => baseAndOffsetFrom fuel (bnode.inp 0) (wrap 64 (off + value))
    else some (base, off)

/-- `base_and_offset`. -/
def baseAndOffset (fuel : ℕ) (id : NodeId) : Option (NodeId × ℤ) :=
  prc.baseAndOffsetFrom fuel id 0

/-- `mem_op_size`. -/
def memOpSize (id : NodeId) : Option ℤ :=
  let node := prc.getNode id
  match node.itype with
  | .store => some (prc.getNode (node.inp 3)).dt.size
  | .load => some node.dt.size
  | .set | .copy => some ((prc.cInt (node.inp 4)).getD (2 ^ 30))
  | _ => none

/-- `is_noalias_ptrs`; `none` when `base_and_offset` does not come to an end. -/
def isNoaliasPtrs (fuel : ℕ) (a b : NodeId) (as bs : ℤ) : Option Bool := do
  let (abase, aoffset) ← prc.baseAndOffset fuel a
  let (bbase, boffset) ← prc.baseAndOffset fuel b
  if abase = bbase then
    let aend := wrap 64 (aoffset + as)
    let bend := wrap 64 (boffset + bs)
    some (aoffset ≥ bend || boffset ≥ aend)
  else some false

/-- `is_noalias_ops` once a `Copy`, if any, comes second. -/
def isNoaliasSwapped (fuel : ℕ) (a b : NodeId) : Option Bool :=
  match prc.memOpSize a, prc.memOpSize b with
  | some as, some bs => do
    let bn := prc.getNode b
    let aaddr := (prc.getNode a).inp 2
    if bn.itype = .copy then
      if ← prc.isNoaliasPtrs fuel aaddr (bn.inp 3) as bs then
        prc.isNoaliasPtrs fuel aaddr (bn.inp 2) as bs
      else some false
    else prc.isNoaliasPtrs fuel aaddr (bn.inp 2) as bs
  | _, _ => some false

/-- `is_noalias_ops`. -/
def isNoaliasOps (fuel : ℕ) (a b : NodeId) : Option Bool :=
  if (prc.getNode a).itype = .copy then prc.isNoaliasSwapped fuel b a
  else prc.isNoaliasSwapped fuel a b

/-- The operations that `mem_op_size` knows. -/
def isMemOp (id : NodeId) : Bool :=
  match (prc.getNode id).itype with
  | .load | .store | .set | .copy => true
  | _ => false

/-- `STORES`: the operations that change the memory. -/
def isStoreOp (id : NodeId) : Bool :=
  match (prc.getNode id).itype with
  | .store | .set | .copy => true
  | _ => false

/-- Addresses are `64` bit numbers. -/
structure AddrTyped : Prop where
  addr : ∀ id, prc.isMemOp id = true → (prc.getNode ((prc.getNode id).inp 2)).dt = .i64
  src : ∀ id, (prc.getNode id).itype = .copy → (prc.getNode ((prc.getNode id).inp 3)).dt = .i64
  add : ∀ id, (prc.getNode id).itype = .bin .add → (prc.getNode id).dt = .i64 →
    (prc.getNode ((prc.getNode id).inp 0)).dt = .i64

variable {prc} {k : ℕ} (hk : ∀ id, k ≤ id → prc.getNode id = { itype := .dead })

include hk

theorem lt_of_isMemOp {id : NodeId} (h : prc.isMemOp id = true) : id < k := by
  by_contra hge
  rw [isMemOp, hk id (not_lt.1 hge)] at h
  cases h

/-- In a graph without nodes from `k` on, the addresses can be checked one by one. -/
theorem AddrTyped.of_bounded
    (haddr : ∀ id < k, prc.isMemOp id = true → (prc.getNode ((prc.getNode id).inp 2)).dt = .i64)
    (hsrc : ∀ id < k, (prc.getNode id).itype = .copy →
      (prc.getNode ((prc.getNode id).inp 3)).dt = .i64)
    (hadd : ∀ id < k, (prc.getNode id).itype = .bin .add → (prc.getNode id).dt = .i64 →
      (prc.getNode ((prc.getNode id).inp 0)).dt = .i64) : prc.AddrTyped := by
  have hlt {id : NodeId} (h : (prc.getNode id).itype ≠ .dead) : id < k := by
    by_contra hge
    exact h (by rw [hk id (not_lt.1 hge)])
  exact ⟨fun id h => haddr id (lt_of_isMemOp hk h) h, fun id h => hsrc id (hlt (by simp [h])) h,
    fun id h => hadd id (hlt (by simp [h])) h⟩

end Proc

/-! ### At run time -/

/-- A memory of bytes. -/
abbrev Memory := BitVec 64 → BitVec 8

/-- The values that the nodes have in a run. -/
structure Runtime where
  /-- The value as an address. -/
  word : NodeId → BitVec 64
  /-- The bytes of the value. -/
  byte : NodeId → ℕ → BitVec 8

/-- The words are what constants and additions make of them. -/
structure Runtime.Consistent (rt : Runtime) (prc : Proc) : Prop where
  cInt : ∀ id, (prc.getNode id).itype = .cInt →
    rt.word id = BitVec.ofInt 64 (prc.getNode id).cIntValue
  add : ∀ id, (prc.getNode id).itype = .bin .add → (prc.getNode id).dt = .i64 →
    rt.word id = rt.word ((prc.getNode id).inp 0) + rt.word ((prc.getNode id).inp 1)

/-- The addresses of the `n` bytes from `a` on. -/
def range (a : BitVec 64) (n : ℕ) : Set (BitVec 64) := {x | (x - a).toNat < n}

/-- The `n` bytes from `a` on. -/
def Memory.read (m : Memory) (a : BitVec 64) (n : ℕ) : List (BitVec 8) :=
  (List.range n).map fun i => m (a + BitVec.ofNat 64 i)

/-- Put the first `n` of `bytes` at `a`. -/
def Memory.write (m : Memory) (a : BitVec 64) (n : ℕ) (bytes : ℕ → BitVec 8) : Memory :=
  fun x => if (x - a).toNat < n then bytes (x - a).toNat else m x

section Run

variable (prc : Proc) (rt : Runtime)

/-- How many bytes an operation touches. -/
def opSize (id : NodeId) : ℕ :=
  let node := prc.getNode id
  match node.itype with
  | .store => (prc.getNode (node.inp 3)).dt.size
  | .load => node.dt.size
  | .set | .copy => (rt.word (node.inp 4)).toNat
  | _ => 0

/-- A memory operation: the memory after it, and the bytes it has read. -/
def runOp (id : NodeId) (m : Memory) : Memory × List (BitVec 8) :=
  let node := prc.getNode id
  let addr := rt.word (node.inp 2)
  let size := opSize prc rt id
  match node.itype with
  | .load => (m, m.read addr size)
  | .store => (m.write addr size (rt.byte (node.inp 3)), [])
  | .set => (m.write addr size fun _ => rt.byte (node.inp 3) 0, [])
  | .copy =>
    let src := rt.word (node.inp 3)
    (m.write addr size fun i => m (src + BitVec.ofNat 64 i), m.read src size)
  | _ => (m, [])

/-- The bytes that an operation reads. -/
def opReads (id : NodeId) : Set (BitVec 64) :=
  let node := prc.getNode id
  match node.itype with
  | .load => range (rt.word (node.inp 2)) (opSize prc rt id)
  | .copy => range (rt.word (node.inp 3)) (opSize prc rt id)
  | _ => ∅

/-- The bytes that an operation writes. -/
def opWrites (id : NodeId) : Set (BitVec 64) :=
  let node := prc.getNode id
  match node.itype with
  | .store | .set | .copy => range (rt.word (node.inp 2)) (opSize prc rt id)
  | _ => ∅

end Run

end OdinSon
