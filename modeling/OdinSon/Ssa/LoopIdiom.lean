import OdinSon.Bac.AliasSound
import OdinSon.Ssa.LoopElim

/-!
# Loops that set or copy memory

`loopopt` (`bac/ssa/loopopt.odin`) puts a `Set` or a `Copy` before a loop for a store in it that
goes through the memory in steps of its own size, and takes the store out of the loop (`memIdiom`,
`withoutStore`).  The number of rounds is taken to be the distance of the index from its bound.

A run of the loop (`LoopRun`) is a sequence of rounds, each with the values of the nodes and the
memory at its start.  `IdiomFits` is what the pass takes for granted about it.
-/

namespace OdinSon

open MachInt

/-! ### The code -/

/-- `Op`: a memory operation at an address that the index is a part of. -/
structure LoopOp where
  /-- The load or store. -/
  node : NodeId
  /-- What the index is added to. -/
  base : NodeId
  /-- How far the address goes in a round. -/
  stride : ℤ
  deriving DecidableEq

/-- The `64` bit values that the pass adds nodes for. -/
inductive NewValue where
  | node (id : NodeId)
  | const (x : ℤ)
  | bin (op : BinOp) (lhs rhs : NewValue)
  deriving DecidableEq

/-- The operation that the pass adds before the loop. -/
inductive NewOp where
  | set (dst : NewValue) (value : NodeId) (size : NewValue)
  | copy (dst src size : NewValue)
  deriving DecidableEq

section Code

variable (prc : Proc) (bb : BasicBlock)

/-- The operations whose address is the sum `conode`. -/
def addressOps (base : NodeId) (stride : ℤ) (conode : NodeId) : List LoopOp :=
  ((prc.getNode conode).outs.filter fun out =>
    (prc.getNode out.id).itype = .store || (prc.getNode out.id).itype = .load).map fun out =>
      ⟨out.id, base, stride⟩

/-- The sums of a base and `index`, which goes in steps of `stride`. -/
def indexedOps (stride : Option ℤ) (cout : NodeOutput) : List LoopOp :=
  let conode := prc.getNode cout.id
  let base := conode.inp (1 - cout.idx)
  if conode.itype = .bin .add ∧ conode.dt.isInt ∧ ¬ bb.instrs.contains base then
    match stride with
    | some stride => addressOps prc base stride cout.id
    | none => []
  else []

/-- The memory operations at addresses that the phi of `ind` goes into, by one of its users. -/
def candidates (ind : Inductor) (out : NodeOutput) : List LoopOp :=
  let onode := prc.getNode out.id
  if out.id = (prc.getNode ind.phy).inp 2 then []
  else if onode.itype = .bin .mul ∧ onode.dt.isInt then
    let strideNode := onode.inp (1 - out.idx)
    if bb.instrs.contains strideNode then []
    else onode.outs.flatMap (indexedOps prc bb (prc.cInt strideNode))
  else indexedOps prc bb (some 1) out

/-- All of them. -/
def loopOps (ind : Inductor) : List LoopOp :=
  (prc.getNode ind.phy).outs.flatMap (candidates prc bb ind)

/-- The `loads` among them. -/
def loopLoads (ind : Inductor) : List LoopOp :=
  (loopOps prc bb ind).filter fun op => (prc.getNode op.node).itype = .load

/-- The `stores` among them. -/
def loopStores (ind : Inductor) : List LoopOp :=
  (loopOps prc bb ind).filter fun op => (prc.getNode op.node).itype = .store

/-- `req_load_count`. -/
def reqLoadCount (req : NodeId → Bool) : ℕ :=
  (bb.instrs.filter fun id => (prc.getNode id).isLoad && req id).length

/-- `compute_index_offset`. -/
def computeIndexOffset (base index : NodeId) (stride : ℤ) : NewValue :=
  if stride = 0 then .node base
  else if stride > 1 then .bin .add (.node base) (.bin .mul (.node index) (.const stride))
  else .bin .add (.node base) (.node index)

/-- The number of bytes. -/
def idiomSize (ind : Inductor) (store : LoopOp) : NewValue :=
  let init := (prc.getNode ind.phy).inp 1
  let len := .bin .sub (.node ind.bound) (.node init)
  .bin .mul (if ind.delayed then .bin .add len (.const 1) else len) (.const store.stride)

/-- The operation that takes the place of a store, if there is one. -/
def memIdiom (info : LoopInfo) (req : NodeId → Bool) (ind : Inductor) (store : LoopOp) :
    Option NewOp :=
  let snode := prc.getNode store.node
  let vl := prc.getNode (snode.inp 3)
  let mem := prc.getNode (snode.inp 1)
  let init := (prc.getNode ind.phy).inp 1
  let stride := wrap 64 (ind.strideVl * store.stride)
  if mem.itype = .phi ∧ mem.inp 0 = bb.head ∧ vl.dt.size = stride ∧ info.effectiveOp = .lt ∧
      ind.bound ≠ 0 then
    let canMemset := ¬ bb.instrs.contains (snode.inp 3) ∧ stride = 1 ∧ reqLoadCount prc bb req = 0
    let dst := computeIndexOffset store.base init stride
    match (loopLoads prc bb ind).find? (·.node = snode.inp 3) with
    | some load =>
      if vl.inp 1 = snode.inp 1 ∧ load.stride = store.stride ∧ reqLoadCount prc bb req = 1 then
        some (.copy dst (computeIndexOffset load.base init stride) (idiomSize prc ind store))
      else if canMemset then some (.set dst (snode.inp 3) (idiomSize prc ind store))
      else none
    | none =>
      if canMemset then some (.set dst (snode.inp 3) (idiomSize prc ind store)) else none
  else none

/-- What a store of the loop is replaced by, with `req_sched` as it is found for the index. -/
def loopIdiom (fuel : ℕ) (info : LoopInfo) (ind : Inductor) (store : LoopOp) : Option NewOp :=
  if store ∈ loopStores prc bb ind then
    (findReqLoop prc bb fuel fun _ => false).bind fun req => memIdiom prc bb info req ind store
  else none

/-- The graph without the store: the memory of the loop takes its place. -/
def withoutStore (store : NodeId) : Proc :=
  prc.replaceUses ((prc.getNode store).inp 1) store

end Code

/-! ### Runs -/

/-- The words are what arithmetic makes of them. -/
structure Runtime.Arith (rt : Runtime) (prc : Proc) : Prop extends rt.Consistent prc where
  mul : ∀ id, (prc.getNode id).itype = .bin .mul → (prc.getNode id).dt = .i64 →
    rt.word id = rt.word ((prc.getNode id).inp 0) * rt.word ((prc.getNode id).inp 1)

/-- The word that a new node has. -/
def NewValue.word (rt : Runtime) : NewValue → BitVec 64
  | node id => rt.word id
  | const x => BitVec.ofInt 64 x
  | bin .add a b => a.word rt + b.word rt
  | bin .sub a b => a.word rt - b.word rt
  | bin .mul a b => a.word rt * b.word rt
  | bin _ _ _ => 0

/-- The memory after the new operation. -/
def NewOp.run (rt : Runtime) (m : Memory) : NewOp → Memory
  | set dst value size => m.write (dst.word rt) (size.word rt).toNat fun _ => rt.byte value 0
  | copy dst src size =>
    m.write (dst.word rt) (size.word rt).toNat fun i => m (src.word rt + BitVec.ofNat 64 i)

/-- The memory after the node `n` of the loop, when that of its phi `memPhi` is `m`. -/
def memAfter (prc : Proc) (bb : BasicBlock) (rt : Runtime) (memPhi : NodeId) (m : Memory) :
    ℕ → NodeId → Option Memory
  | 0, _ => none
  | fuel + 1, n =>
    if n = memPhi then some m
    else if n ∈ bb.instrs ∧ prc.isStoreOp n = true then
      (memAfter prc bb rt memPhi m fuel ((prc.getNode n).inp 1)).map fun m => (runOp prc rt n m).1
    else none

/-- The comparison at the end of the loop says that there is another round. -/
def AnotherRound (prc : Proc) (bb : BasicBlock) (info : LoopInfo) (rt : Runtime) : Prop :=
  let cond := prc.getNode ((prc.getNode (latch prc bb)).inp 1)
  ∃ op, cond.itype = .bin op ∧
    machine op (prc.operationDatatype cond).bits (rt.word (cond.inp 0)).toInt
      (rt.word (cond.inp 1)).toInt = some (boolToInt !info.inverted)

/-- A run of the loop, through the rounds up to `last`: the values in each round and the memory at
its start, which is that of `memPhi`. -/
structure LoopRun (prc : Proc) (bb : BasicBlock) (info : LoopInfo) (memPhi : NodeId)
    (rt : ℕ → Runtime) (m : ℕ → Memory) (last : ℕ) : Prop where
  arith : ∀ t, (rt t).Arith prc
  outside : ∀ t, ∀ n ∉ bb.instrs, (rt t).word n = (rt 0).word n ∧ (rt t).byte n = (rt 0).byte n
  phi_zero : ∀ p, isLoopPhi prc bb p = true → (prc.getNode p).dt.isInt = true →
    (rt 0).word p = (rt 0).word ((prc.getNode p).inp 1)
  phi_succ : ∀ t p, isLoopPhi prc bb p = true → (prc.getNode p).dt.isInt = true →
    (rt (t + 1)).word p = (rt t).word ((prc.getNode p).inp 2)
  load : ∀ t, ∀ n ∈ bb.instrs, (prc.getNode n).itype = .load → ∀ fuel mem,
    memAfter prc bb (rt t) memPhi (m t) fuel ((prc.getNode n).inp 1) = some mem →
    ∀ i < (prc.getNode n).dt.size,
      (rt t).byte n i = mem ((rt t).word ((prc.getNode n).inp 2) + BitVec.ofNat 64 i)
  mem_succ : ∀ t ≤ last, ∃ fuel,
    memAfter prc bb (rt t) memPhi (m t) fuel ((prc.getNode memPhi).inp 2) = some (m (t + 1))
  stays : ∀ t < last, AnotherRound prc bb info (rt t)
  leaves : ¬ AnotherRound prc bb info (rt last)

/-- A run of the rewritten loop, from the same values and after the new operation. -/
structure RewrittenRun (prc : Proc) (bb : BasicBlock) (info : LoopInfo) (store : NodeId)
    (new : NewOp) (rt : Runtime) (m : Memory) (rt' : ℕ → Runtime) (m' : ℕ → Memory)
    (last' : ℕ) : Prop where
  run : LoopRun (withoutStore prc store) bb info ((prc.getNode store).inp 1) rt' m' last'
  outside : ∀ n ∉ bb.instrs, (rt' 0).word n = rt.word n ∧ (rt' 0).byte n = rt.byte n
  memory : m' 0 = new.run rt m

/-- The rewritten loop runs, and ends with the memory `mEnd`. -/
def EndsWith (prc : Proc) (bb : BasicBlock) (info : LoopInfo) (store : NodeId) (new : NewOp)
    (rt : Runtime) (m mEnd : Memory) : Prop :=
  (∃ rt' m' last', RewrittenRun prc bb info store new rt m rt' m' last') ∧
    ∀ rt' m' last', RewrittenRun prc bb info store new rt m rt' m' last' → m' (last' + 1) = mEnd

/-- `i` is computed from `n`, in the same round. -/
def Proc.ComputedFrom (prc : Proc) : NodeId → NodeId → Prop :=
  Relation.TransGen fun i n =>
    n ∈ (prc.getNode i).inps ∧ (prc.getNode i).itype ≠ .phi ∧ prc.isCfg i = false

/-- What a loop is for the pass: its block is part of a schedule of a well-typed graph. -/
structure LoopOk (prc : Proc) (bb : BasicBlock) : Prop where
  defUse : prc.DefUse
  phi_mem : ∀ p, isLoopPhi prc bb p = true → p ∈ bb.instrs
  phi_head : ∀ out ∈ (prc.getNode bb.head).outs, (prc.getNode out.id).itype = .phi →
    (prc.getNode out.id).inp 0 = bb.head
  /-- What is between two nodes of the block is in it. -/
  convex : ∀ i ∈ bb.instrs, ∀ n, prc.ComputedFrom i n → ∀ j ∈ bb.instrs, prc.ComputedFrom n j →
    n ∈ bb.instrs
  addr : prc.AddrTyped
  bin_dt : ∀ id op, (prc.getNode id).itype = .bin op → op = .add ∨ op = .mul →
    ∀ n ∈ (prc.getNode id).inps, (prc.getNode n).dt = (prc.getNode id).dt
  phi_dt : ∀ p, isLoopPhi prc bb p = true → ∀ i, i = 1 ∨ i = 2 →
    (prc.getNode ((prc.getNode p).inp i)).dt = (prc.getNode p).dt
  bin_inps : ∀ id op, (prc.getNode id).itype = .bin op → (prc.getNode id).inps.length = 2
  /-- Control, memory, address, and the value to store. -/
  mem_op : ∀ id, (prc.getNode id).itype = .store ∨ (prc.getNode id).itype = .load →
    prc.isCfg ((prc.getNode id).inp 0) = true ∧ (prc.getNode ((prc.getNode id).inp 1)).dt = .mem ∧
    (prc.getNode id).inps.length = if (prc.getNode id).itype = .store then 4 else 3
  store_dt : ∀ id, (prc.getNode id).itype = .store → (prc.getNode id).dt = .mem ∧
    0 < (prc.getNode ((prc.getNode id).inp 3)).dt.size

/-- `len`: how far the index is from its bound at first. -/
def idiomLength (prc : Proc) (ind : Inductor) (rt : Runtime) : ℤ :=
  (rt.word ind.bound).toInt - (rt.word ((prc.getNode ind.phy).inp 1)).toInt +
    if ind.delayed then 1 else 0

/-- The bytes of the value that is stored. -/
def valueSize (prc : Proc) (store : LoopOp) : ℕ :=
  (prc.getNode ((prc.getNode store.node).inp 3)).dt.size

/-- No other operation of the loop writes the memory that the store writes, before it or after it; what
writes another memory may be in the loop. -/
def OnlyStore (prc : Proc) (bb : BasicBlock) (store : NodeId) : Prop :=
  ∀ id ∈ bb.instrs, prc.isStoreOp id = true →
    (prc.getNode id).inp 1 = (prc.getNode store).inp 1 ∨ (prc.getNode id).inp 1 = store →
      id = store

instance (prc : Proc) (bb : BasicBlock) (store : NodeId) : Decidable (OnlyStore prc bb store) :=
  inferInstanceAs (Decidable (∀ id ∈ bb.instrs, _ → _ → _))

/-- What the pass takes for granted about the loop, in a run that starts with the values `rt`. -/
structure IdiomFits (prc : Proc) (bb : BasicBlock) (ind : Inductor) (store : LoopOp) (new : NewOp)
    (rt : Runtime) : Prop where
  /-- The store is all that the loop does to its memory. -/
  store_mem : store.node ∈ bb.instrs
  back : (prc.getNode ((prc.getNode store.node).inp 1)).inp 2 = store.node
  only : OnlyStore prc bb store.node
  /-- The index is on the left of the comparison. -/
  left : (prc.getNode ((prc.getNode (latch prc bb)).inp 1)).inp 0 =
      (if ind.delayed then ind.phy else (prc.getNode ind.phy).inp 2) ∧
    (prc.getNode ((prc.getNode (latch prc bb)).inp 1)).inp 1 = ind.bound
  /-- It goes up by one, or from `0` to a multiple of its stride. -/
  stride : ind.strideVl = 1 ∨ 0 < ind.strideVl ∧ ind.delayed = false ∧
    rt.word ((prc.getNode ind.phy).inp 1) = 0 ∧ ind.strideVl ∣ idiomLength prc ind rt
  /-- It has not passed the bound before the first round. -/
  entered : 0 < idiomLength prc ind rt
  fits : idiomLength prc ind rt / ind.strideVl * valueSize prc store < 2 ^ 64
  /-- A source is read before it is overwritten. -/
  source : ∀ dst src size, new = .copy dst src size → ∀ i < (size.word rt).toNat,
    src.word rt + BitVec.ofNat 64 i ∉ range (dst.word rt)
      (i / valueSize prc store * valueSize prc store)

end OdinSon
