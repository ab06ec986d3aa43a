import OdinSon.Ssa.MemoptSlots
import OdinSon.Ssa.StoreElim
import OdinSon.Ssa.SccpPeep

/-!
# A local that is only there to be copied

The `forward` part of the `Local_Addr` peephole (`bac/ssa/peep.odin`).  When all a local is used for
is to be filled by stores and then copied to somewhere else, its address is replaced by that of the
destination, so that the stores go there at once and the copy is one onto itself.  When it is filled
by one copy and then read by one load, its address is replaced by that of the source.
-/

namespace OdinSon

open MachInt Footprint

/-- What the loop over the uses of the address finds. -/
structure ForwardScan where
  /-- The `Copy` from the address, if there is one. -/
  forwardCandidate : NodeId := 0
  /-- The `Copy` to the address, if there is one. -/
  revForwardCandidate : NodeId := 0
  /-- The memory that the first load reads. -/
  loadBase : NodeId := 0
  /-- The number of uses. -/
  opCount : ℕ := 0
  deriving DecidableEq

section Code

variable (prc : Proc)

/-- `DEAD_LOCAL`. -/
def deadLocal : ℤ := -1

/-- The loop of `mark_dead`: whether the address is only used to store to. -/
def onlyStored : ℕ → OffsetIter → Option Bool
  | 0, _ => none
  | fuel + 1, iter => do
    match ← prc.offsetIterNext fuel iter with
    | none => some true
    | some (user, iter) =>
      if prc.isStoreOp user.id ∧ user.idx = 2 then onlyStored fuel iter
      else (onlyStored fuel iter).map fun _ => false

/-- The body of the loop of `forward`; `none` where it breaks off. -/
def scanUse (scan : ForwardScan) (user : NodeOutput) : Option ForwardScan :=
  let unode := prc.getNode user.id
  let scan := { scan with opCount := scan.opCount + 1 }
  if unode.itype = .copy ∧ user.idx = 2 ∧ scan.revForwardCandidate = 0 then
    some { scan with revForwardCandidate := user.id }
  else if prc.isStoreOp user.id ∧ user.idx = 2 then some scan
  else if unode.itype = .copy ∧ user.idx = 3 ∧ scan.forwardCandidate = 0 then
    some { scan with forwardCandidate := user.id }
  else if unode.itype = .load ∧ scan.loadBase = 0 then some { scan with loadBase := unode.inp 1 }
  else none

/-- The loop. -/
def scanUses : ℕ → OffsetIter → ForwardScan → Option (Option ForwardScan)
  | 0, _, _ => none
  | fuel + 1, iter, scan => do
    match ← prc.offsetIterNext fuel iter with
    | none => some (some scan)
    | some (user, iter) =>
      match scanUse prc scan user with
      | none => some none
      | some scan => scanUses fuel iter scan

/-- The loop back along the memory from the copy `fc`, until `opCount` operations on the local `id`
have been found. -/
def forwardWalk (fuel : ℕ) (id fc : NodeId) : ℕ → NodeId → ℕ → Option Bool
  | _, _, 0 => some true
  | 0, _, _ + 1 => none
  | rounds + 1, cursor, opCount + 1 =>
    let cnode := prc.getNode cursor
    if prc.isStoreOp cursor then do
      let (base, _) ← prc.baseAndOffset fuel (cnode.inp 2)
      if base = id then forwardWalk fuel id fc rounds (cnode.inp 1) opCount
      else if ← prc.isNoaliasOps fuel cursor fc then
        forwardWalk fuel id fc rounds (cnode.inp 1) (opCount + 1)
      else some false
    else some false

/-- `VALID`: what the destination may be based on. -/
def validBase (id : NodeId) : Bool :=
  match (prc.getNode id).itype with
  | .localAddr | .param | .globalAddr => true
  | _ => false

/-- The address that takes the place of a local that is copied by `fc`. -/
def forwardTo (fuel : ℕ) (id : NodeId) (scan : ForwardScan) : Option (Option NodeId) := do
  let fnode := prc.getNode scan.forwardCandidate
  let (bse, _) ← prc.baseAndOffset fuel (fnode.inp 2)
  if validBase prc bse then
    let found ← forwardWalk prc fuel id scan.forwardCandidate fuel (fnode.inp 1) (scan.opCount - 1)
    some (if found then some (fnode.inp 2) else none)
  else some none

/-- The `Local_Addr` case of `peep` on a complete graph: the address that takes the place of the
local's, if any; `none` when a loop runs out of rounds. -/
def localForward (fuel : ℕ) (id : NodeId) : Option (Option NodeId) := do
  let slot := (prc.getNode id).inp 0
  if (prc.getNode ((prc.getNode slot).inp 0)).itype = .mem ∧ localSize prc slot ≠ deadLocal then
    let dead ← onlyStored prc fuel ⟨id, 0, 0⟩
    if dead then some none
    else
      match ← scanUses prc fuel ⟨id, 0, 0⟩ {} with
      | none => some none
      | some scan =>
        if scan.loadBase ≠ 0 ∧
            (scan.loadBase ≠ scan.revForwardCandidate ∧ scan.forwardCandidate = 0 ∨
              scan.forwardCandidate ≠ 0) then some none
        else if scan.forwardCandidate ≠ 0 then forwardTo prc fuel id scan
        else if scan.opCount = 2 then
          some (some ((prc.getNode scan.revForwardCandidate).inp 3))
        else some none
  else some none

end Code

/-! ### Runs -/

/-- The memory goes along these nodes, from one that uses `id` on.  None comes out of a load. -/
def MemThread (prc : Proc) : NodeId → List NodeId → Prop
  | _, [] => True
  | id, n :: ns => n ∈ prc.users id ∧ (prc.isMemOp n = true → (prc.getNode n).inp 1 = id) ∧
      ((prc.getNode n).itype = .load → ns = []) ∧ MemThread prc n ns

/-- The same has been seen, but for the bytes `w` of the memory. -/
def Observation.Agree (w : Set (BitVec 64)) : Observation → Observation → Prop
  | .bytes bs, .bytes bs' => bs = bs'
  | .memory m, .memory m' => AgreeOff w m m'
  | _, _ => False

/-- Nothing of the address `id` is in `n`. -/
def Proc.NotFrom (prc : Proc) (id n : NodeId) : Prop := ∀ o, ¬ prc.DerivedAddr id 0 n o

/-- The values when `d` has taken the place of `id`: only what was computed from `id` differs. -/
structure Moved (prc : Proc) (id d : NodeId) (rt rt' : Runtime) : Prop where
  consistent : rt'.Consistent (prc.replaceUses d id)
  word : ∀ n, prc.NotFrom id n → rt'.word n = rt.word n
  byte : rt'.byte = rt.byte

/-- The bytes of a local. -/
def localBytes (prc : Proc) (rt : Runtime) (id : NodeId) : Set (BitVec 64) :=
  range (rt.word id) (localSize prc ((prc.getNode id).inp 0)).toNat

/-- An address that does not come from the local does not lead into it. -/
structure LocalPrivate (prc : Proc) (rt : Runtime) (id : NodeId) : Prop where
  addr : ∀ u, prc.isMemOp u = true → prc.NotFrom id ((prc.getNode u).inp 2) →
    Disjoint (range (rt.word ((prc.getNode u).inp 2)) (opSize prc rt u)) (localBytes prc rt id)
  src : ∀ u, (prc.getNode u).itype = .copy → prc.NotFrom id ((prc.getNode u).inp 3) →
    Disjoint (range (rt.word ((prc.getNode u).inp 3)) (opSize prc rt u)) (localBytes prc rt id)

/-- The runtimes `K` that a run comes to, before and after.  What is not a memory operation does not
look at the bytes `w` of the local. -/
structure ForwardRuns (prc : Proc) (id d : NodeId) (w : Set (BitVec 64)) (K : Runtime → Prop)
    (env env' : NodeId → Runtime → Memory → Runtime × Memory) : Prop where
  consistent : ∀ rt, K rt → rt.Consistent prc
  bytes : ∀ rt, K rt → localBytes prc rt id = w
  localPrivate : ∀ rt, K rt → LocalPrivate prc rt id
  env : ∀ n rt rt' m m', K rt → Moved prc id d rt rt' → AgreeOff w m m' →
    K (env n rt m).1 ∧ Moved prc id d (env n rt m).1 (env' n rt' m').1 ∧
      AgreeOff w (env n rt m).2 (env' n rt' m').2

/-- What a graph is for the peephole. -/
structure ForwardOk (prc : Proc) (id : NodeId) : Prop where
  defUse : prc.DefUse
  addsBinary : prc.AddsBinary
  addr : prc.AddrTyped
  itype : (prc.getNode id).itype = .localAddr
  mem : ∀ u, prc.isMemOp u = true → (prc.getNode ((prc.getNode u).inp 1)).dt = .mem
  load_inps : ∀ u, (prc.getNode u).itype = .load → (prc.getNode u).inps.length = 3
  /-- No operation comes after itself. -/
  acyclic : ∀ u, ¬ Relation.TransGen
    (fun a b => prc.isStoreOp a = true ∧ (prc.getNode a).inp 1 = b) u u

/-! ### What the peephole takes for granted -/

section Fits

variable (prc : Proc) (rt : Runtime) (id : NodeId)

/-- The operations that `forwardWalk` goes through, the last one first. -/
def walked (fuel : ℕ) : ℕ → NodeId → ℕ → List NodeId
  | _, _, 0 => []
  | 0, _, _ + 1 => []
  | rounds + 1, cursor, opCount + 1 =>
    let cnode := prc.getNode cursor
    match prc.baseAndOffset fuel (cnode.inp 2) with
    | none => []
    | some (base, _) =>
      cursor :: walked fuel rounds (cnode.inp 1) (if base = id then opCount else opCount + 1)

/-- What the operations among `cs` that are on the local write. -/
def written (cs : List NodeId) : Set (BitVec 64) :=
  {x | ∃ c ∈ cs, ¬ prc.NotFrom id ((prc.getNode c).inp 2) ∧ x ∈ opWrites prc rt c}

/-- For a local that is copied by `fc`, after the operations `cs`. -/
structure ForwardFits (fuel : ℕ) (fc : NodeId) (cs : List NodeId) : Prop where
  /-- The copy starts with the first byte of the local, and goes to something else. -/
  src : prc.DerivedAddr id 0 ((prc.getNode fc).inp 3) 0
  dst : prc.NotFrom id ((prc.getNode fc).inp 2)
  /-- The bytes that are copied are those that have been written. -/
  size : range (rt.word id) (opSize prc rt fc) ⊆ localBytes prc rt id
  covered : written prc rt id cs = range (rt.word id) (opSize prc rt fc)
  /-- What fills the local does not come from a byte of the destination that is overwritten. -/
  source : ∀ (i : ℕ) c, cs[i]? = some c → (prc.getNode c).itype = .copy →
    ¬ prc.NotFrom id ((prc.getNode c).inp 2) →
    ∀ x ∈ opReads prc rt c, x ∈ opWrites prc rt fc →
      rt.word id + (x - rt.word ((prc.getNode fc).inp 2)) ∉ written prc rt id (cs.drop (i + 1))
  apart : ∀ c ∈ cs, prc.NotFrom id ((prc.getNode c).inp 2) → OpsFit prc rt fuel c fc
  /-- Between the operations nothing looks at the destination. -/
  alone : ∀ (i : ℕ) c, cs[i]? = some c → ∀ u ∈ prc.users c, (fc :: cs)[i]? = some u ∨
    (prc.getNode u).itype = .load ∧ Disjoint (opReads prc rt u) (opWrites prc rt fc)

/-- For a local that is filled by the copy `r`. -/
structure ReverseFits (r : NodeId) : Prop where
  /-- The copy starts with the first byte of the local. -/
  dst : prc.DerivedAddr id 0 ((prc.getNode r).inp 2) 0
  size : range (rt.word id) (opSize prc rt r) ⊆ localBytes prc rt id
  /-- The load is of bytes that are copied. -/
  load : ∀ u, (prc.getNode u).itype = .load → ¬ prc.NotFrom id ((prc.getNode u).inp 2) →
    opReads prc rt u ⊆ range (rt.word id) (opSize prc rt r)

/-- The one or the other, as the scan has found. -/
def LocalFits (fuel : ℕ) : Prop :=
  ∀ scan, scanUses prc fuel ⟨id, 0, 0⟩ {} = some (some scan) →
    if scan.forwardCandidate = 0 then ReverseFits prc rt id scan.revForwardCandidate
    else ForwardFits prc rt id fuel scan.forwardCandidate (walked prc id fuel fuel
      ((prc.getNode scan.forwardCandidate).inp 1) (scan.opCount - 1))

end Fits

end OdinSon
