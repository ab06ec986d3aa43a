import OdinSon.Bac.Graph
import OdinSon.Lib.SwapRemove

/-!
# Editing a graph

The mutators of `bac/graph.odin`, with `ordered_remove` of `bac/ssa/ssa.odin`.  A node and its uses
name each other, a pure node is found through the interner, and each edit keeps both in step by
hand.  An edit that stops at an assertion, or that outgrows the sixteen bits of a capacity or the
twenty two bits of the place in a `Node_Output`, is `none`: nothing is said of the graph after it.

Deletion and merging call themselves, so they carry the depth they may still reach.  The flags
`dont_intern` and `dont_delete` are off, and no worklist listens.
-/

namespace OdinSon

namespace NodeType

/-- The kinds with the flag `Interned` (`IDEAL_CLASSES`). -/
def isInterned : NodeType → Bool
  | poison | threadId | laneId | uniformAddr | cInt | bin _ | neg | not | cast | conv | uConv
  | splat | ctz | simdExtractLsbs | simdExtractMsbs | simdReduceAddBisect | globalAddr | procAddr
  | load | phi | select => true
  | _ => false

/-- The kinds with the flag `Store`. -/
def hasStoreFlag : NodeType → Bool
  | mem | splitMem | mergeMem | store | copy | set => true
  | _ => false

/-- The kinds with the flag `Load`. -/
def hasLoadFlag (t : NodeType) : Bool := t == load

/-- `rtype`: the kind as a number. -/
def rtype : NodeType → ℕ
  | .nil => 0 | .entry => 1 | .then_ => 2 | .else_ => 3 | .region => 4 | .loop => 5
  | .callEnd => 6 | .end_ => 7 | .dbgSymDecl => 8 | .dbgSymUpdate => 9 | .dbgScope => 10
  | .if_ => 11 | .jump => 12 | .trap => 13 | .call => 14 | .always => 15 | .return_ => 16
  | .poison => 17 | .mem => 18 | .splitMem => 19 | .mergeMem => 20 | .sym => 21 | .local => 22
  | .global => 23 | .param => 24 | .ret => 25 | .phi => 26 | .cInt => 27
  | .bin op => 28 + op.ctorIdx
  | .split => 52 | .localAddr => 53 | .globalAddr => 54 | .procAddr => 55 | .copy => 56
  | .set => 57 | .store => 58 | .load => 59 | .neg => 60 | .not => 61 | .cast => 62 | .conv => 63
  | .uConv => 64 | .splat => 65 | .ctz => 66 | .simdExtractLsbs => 67 | .simdExtractMsbs => 68
  | .simdReduceAddBisect => 69 | .select => 70 | .threadId => 71 | .laneId => 72
  | .uniformAddr => 73 | .scope => 74 | .lazyPhi => 75
  | .dead => 2 ^ 16 - 1

end NodeType

namespace NodeOutput

/-- The entry `pin` makes: it names the nil node. -/
def pin : NodeOutput := ⟨0, 0⟩

end NodeOutput

namespace Node

/-- What `node_eq` compares: everything but the uses. -/
def key (n : Node) : Node := { n with outs := [] }

/-- `transmute(u32)(node.spec)`. -/
def specWord (n : Node) : ℕ :=
  n.itype.rtype + 2 ^ 16 * (n.dt.ctorIdx + 2 ^ 4 * n.isStore.toNat + 2 ^ 5 * n.isLoad.toNat +
    2 ^ 6 * n.memAlignmentPow + 2 ^ 9 * n.lane.ctorIdx)

end Node

/-- `hash_u32`. -/
def hashU32 (x : ℕ) : ℕ :=
  let h := x ^^^ (x >>> 16)
  let h := h * 0x85ebca6b % 2 ^ 32
  let h := h ^^^ (h >>> 13)
  let h := h * 0xc2b2ae35 % 2 ^ 32
  h ^^^ (h >>> 16)

/-- `node_hash_node`: one byte, never zero. -/
def nodeHash (n : Node) : ℕ :=
  max (hashU32 ((n.specWord + n.extra.sum + n.inps.sum) % 2 ^ 32) % 2 ^ 8) 1

/-- `SS_Entry(Node_ID)`. -/
structure SSEntry where
  /-- The hash of the node. -/
  hash : ℕ
  /-- The node. -/
  id : NodeId
  deriving DecidableEq, Repr

/-- `Proc` with its interner and with the capacities of its arrays. -/
structure Graph extends Proc where
  /-- The entries up to `len`; behind them the hash bytes are zero, and no hash is. -/
  interner : List SSEntry
  /-- The capacity of the interner. -/
  internerCap : ℕ
  /-- The capacities of the arrays of inputs. -/
  inputCap : NodeId → ℕ
  /-- The capacities of the arrays of outputs. -/
  outputCap : NodeId → ℕ
  /-- There is debug information for the nodes. -/
  hasDbg : Bool

namespace Graph

/-- The graph before its first node: `start_proc` leaves out the word of the nil node. -/
def empty (hasDbg : Bool) : Graph where
  mem _ := { itype := .dead }
  pos := 1
  entry := 0
  end_ := 0
  interner := []
  internerCap := 0
  inputCap _ := 0
  outputCap _ := 0
  hasDbg := hasDbg

variable (g : Graph)

/-- Write a node. -/
def setNode (id : NodeId) (n : Node) : Graph := { g with mem := Function.update g.mem id n }

def setInps (id : NodeId) (inps : List NodeId) : Graph :=
  g.setNode id { g.getNode id with inps := inps }

def setOuts (id : NodeId) (outs : List NodeOutput) : Graph :=
  g.setNode id { g.getNode id with outs := outs }

/-- `arna.alloc`, in words. -/
def alloc (words : ℕ) : Graph := { g with pos := g.pos + words }

/-- `compute_node_size`, in words. -/
def nodeWords (extra : List ℕ) : ℕ := 6 + extra.length + 2 * g.hasDbg.toNat

/-- `has_flag(.., .Interned)`; there are no flags of a deleted node. -/
def hasInternedFlag (id : NodeId) : Option Bool :=
  if (g.getNode id).itype = .dead then none else some (g.getNode id).itype.isInterned

/-- `node_eq`. -/
def nodeEq (a b : NodeId) : Bool := a = b || (g.getNode a).key = (g.getNode b).key

/-- `interner_find`: the first entry with the hash whose node is equal. -/
def internerFind (id : NodeId) : Option ℕ :=
  g.interner.findIdx? fun e => e.hash = nodeHash (g.getNode id) && g.nodeEq e.id id

/-- `interner_grow`: the hashes stand aligned to sixteen bytes, the places follow them. -/
def internerGrow (newCap : ℕ) : Graph :=
  { g with pos := (g.pos + 3) / 4 * 4 + newCap / 4 + newCap, internerCap := newCap }

/-- `intern`: the node itself, or the equal one that is there already. -/
def intern (id : NodeId) : Option (Graph × NodeId) := do
  if !(← g.hasInternedFlag id) then
    return (g, id)
  match g.internerFind id with
  | some idx => return (g, (g.interner.getD idx ⟨0, 0⟩).id)
  | none =>
    let g' := if g.interner.length = g.internerCap then g.internerGrow (g.internerCap * 2 + 16)
      else g
    return ({ g' with interner := g.interner ++ [⟨nodeHash (g.getNode id), id⟩] }, id)

/-- `unintern`: drop the entry of the node, if the first equal one is its own. -/
def unintern (id : NodeId) : Option Graph := do
  if !(← g.hasInternedFlag id) then
    return g
  match g.internerFind id with
  | some idx =>
    if (g.interner.getD idx ⟨0, 0⟩).id ≠ id then
      return g
    return { g with interner := swapRemove g.interner idx }
  | none => return g

/-- `ensure_available_output_cap`: the size of the new block is computed in sixteen bits. -/
def ensureAvailableOutputCap (id : NodeId) (available : ℕ) : Option Graph :=
  let cap := g.outputCap id
  if cap - (g.getNode id).outs.length < available then
    let newCap := max (cap * 2 + 2) (cap + available)
    if newCap * 4 < 2 ^ 16 then
      some { g.alloc newCap with outputCap := Function.update g.outputCap id newCap }
    else none
  else some g

/-- `add_output`. -/
def addOutput (m out : NodeId) (i : ℕ) : Option Graph := do
  if m = 0 then
    return g
  guard ((g.getNode m).itype ≠ .dead)
  let g ← g.ensureAvailableOutputCap m 1
  guard (!g.isCfg m || (g.getNode out).itype ≠ .phi || i = 0)
  guard (i < 256)
  return g.setOuts m ((g.getNode m).outs ++ [⟨out, i⟩])

/-- `remove_output`, where `del` is the `delete_node` that follows. -/
def removeOutput (del : Graph → NodeId → Option Graph) (m : NodeId) (out : NodeOutput) :
    Option Graph := do
  if m = 0 then
    return g
  let idx ← (g.getNode m).outs.idxOf? out
  del (g.setOuts m (swapRemove (g.getNode m).outs idx)) m

/-- The loop of `delete_node` over the inputs, from the `i`-th on. -/
def removeInputs (del : Graph → NodeId → Option Graph) (id : NodeId) :
    ℕ → List NodeId → Graph → Option Graph
  | _, [], g => some g
  | i, inp :: inps, g => do
    let g ← g.removeOutput del inp ⟨id, i⟩
    removeInputs del id (i + 1) inps g

/-- `delete_node`: a node without uses goes, and with it the inputs that nothing else uses. -/
def deleteNode : ℕ → Graph → NodeId → Option Graph
  | 0, _, _ => none
  | fuel + 1, g, id =>
    let node := g.getNode id
    if node.outs ≠ [] ∨ id = 0 ∨ node.itype = .dead then some g
    else do
      guard (node.itype ≠ .end_)
      let g ← removeInputs (deleteNode fuel) id 0 node.inps g
      let g ← g.unintern id
      return g.setNode id { itype := .dead }

/-- `pin`. -/
def pin (id : NodeId) : Option Graph := g.addOutput id 0 0

/-- `unpin`. -/
def unpin (fuel : ℕ) (id : NodeId) : Option Graph := g.removeOutput (deleteNode fuel) id .pin

/-- The loops of `subsume` that take the users of the target out of the interner and give them the
input `w`.  A pin is no user of the nil node: giving it an input stops the program, where `subsume`
with a node passes over pins. -/
def redirect (w : NodeId) : List NodeOutput → Graph → Option Graph
  | [], g => some g
  | out :: outs, g => do
    if out = .pin ∧ w ≠ 0 then
      redirect w outs g
    else
      let g ← g.unintern out.id
      guard (out.idx < (g.getNode out.id).inps.length)
      redirect w outs (g.setInps out.id ((g.getNode out.id).inps.set out.idx w))

/-- `if nid != id do subsume(prc, nid, id)`: a node gives way to the equal one that `intern` found. -/
def giveWay (sub : Graph → NodeId → NodeId → Option Graph) (nid id : NodeId) : Option Graph :=
  if nid = id then some g else sub g nid id

/-- The last loop of `subsume`: users that are still there go back into the interner, or give way to
an equal node. -/
def reintern (sub : Graph → NodeId → NodeId → Option Graph) :
    List NodeOutput → Graph → Option Graph
  | [], g => some g
  | out :: outs, g => do
    if (g.getNode out.id).itype = .dead then
      reintern sub outs g
    else
      let (g, id) ← g.intern out.id
      let g ← g.giveWay sub id out.id
      reintern sub outs g

/-- One round of the loop of `subsume` with the nil node: the users with their new names, and whether
one of them changed. -/
def reinternRound (sub : Graph → NodeId → NodeId → Option Graph) :
    List NodeOutput → Graph → Option (Graph × List NodeOutput × Bool)
  | [], g => some (g, [], false)
  | out :: outs, g => do
    let (g, id) ← g.intern out.id
    let g ← g.giveWay sub id out.id
    let (g, outs, changed) ← reinternRound sub outs g
    return (g, ⟨id, out.idx⟩ :: outs, id ≠ out.id || changed)

/-- The rounds, until nothing changes. -/
def reinternRounds (sub : Graph → NodeId → NodeId → Option Graph) :
    ℕ → List NodeOutput → Graph → Option Graph
  | 0, _, _ => none
  | fuel + 1, outs, g => do
    let (g, outs, changed) ← reinternRound sub outs g
    if changed then
      reinternRounds sub fuel outs g
    else
      return g

/-- The assertions of `subsume` about a user that moves to `w`. -/
def mayMove (w : NodeId) (out : NodeOutput) : Bool :=
  ((g.getNode out.id).itype ≠ .region || g.isCfg w) &&
    (!g.isCfg w || (g.getNode out.id).itype ≠ .phi || out.idx = 0)

/-- `subsume`: the users of the target use `w` from now on, and the target goes. -/
def subsume : ℕ → Graph → NodeId → NodeId → Option Graph
  | 0, _, _, _ => none
  | fuel + 1, g, w, target => do
    guard (target ≠ 0)
    guard ((g.getNode w).itype ≠ .dead)
    guard ((g.getNode target).itype ≠ .dead)
    let outs := (g.getNode target).outs
    if w = 0 then
      let g ← redirect 0 outs g
      let g ← reinternRounds (subsume fuel) fuel outs g
      deleteNode fuel (g.setOuts target []) target
    else
      guard (w ≠ target)
      let g ← g.ensureAvailableOutputCap w outs.length
      guard (outs.all (g.mayMove w))
      let g := (g.setOuts w ((g.getNode w).outs ++ outs)).setOuts target []
      let g ← redirect w outs g
      let g ← g.pin w
      let g ← deleteNode fuel g target
      let kept := (outs.filter (· ≠ .pin)).flatMap fun out =>
        (g.getNode w).outs.filter (· = out)
      let g ← reintern (subsume fuel) kept.reverse g
      g.unpin fuel w

/-- `set_input`; the result is the node that has the input now.  While the former input goes, the
node has the new one already, but its entry in the interner is that of the old node. -/
def setInput (fuel : ℕ) (id : NodeId) (idx : ℕ) (value : NodeId) (subsumeOnIntern : Bool) :
    Option (Graph × NodeId) := do
  let node := g.getNode id
  guard (node.itype ≠ .dead)
  guard (idx < node.inps.length)
  if node.inp idx = value then
    return (g, id)
  let prev := node.inp idx
  let g ← g.addOutput value id idx
  let g := g.setInps id ((g.getNode id).inps.set idx value)
  let g ← g.removeOutput (deleteNode fuel) prev ⟨id, idx⟩
  if (g.getNode id).itype = .dead then
    return (g, id)
  let g := g.setInps id ((g.getNode id).inps.set idx prev)
  let g ← g.unintern id
  let g := g.setInps id ((g.getNode id).inps.set idx value)
  let (g, nid) ← g.intern id
  if subsumeOnIntern then
    let g ← g.giveWay (subsume fuel) nid id
    return (g, nid)
  guard (nid = id)
  return (g, nid)

/-- The loop that gives a new node its place among the uses of its inputs, from the `i`-th on. -/
def addOutputs (id : NodeId) : ℕ → List NodeId → Graph → Option Graph
  | _, [], g => some g
  | i, inp :: inps, g => do
    let g ← g.addOutput inp id i
    addOutputs id (i + 1) inps g

/-- `clone`: a second node with the same inputs. -/
def clone (id : NodeId) : Option (Graph × NodeId) := do
  let node := g.getNode id
  guard (node.itype ≠ .dead)
  guard (!node.itype.isInterned)
  guard (node.itype ≠ .call)
  guard (id ≠ 0)
  let new := g.pos
  guard (new < 2 ^ 22)
  let g := g.alloc (g.nodeWords node.extra + node.inps.length)
  let g := g.setNode new { node with outs := [] }
  let g := { g with
    inputCap := Function.update g.inputCap new node.inps.length
    outputCap := Function.update g.outputCap new 0 }
  let g ← addOutputs new 0 node.inps g
  return (g, new)

/-- `add_raw`: the node that is equal already, or a new one. -/
def addRaw (itype : NodeType) (dt : Datatype) (lane : LaneType) (extra : List ℕ)
    (inps : List NodeId) (extraCapacity : ℕ) : Option (Graph × NodeId) := do
  guard (itype ≠ .dead)
  guard (inps.length + extraCapacity < 2 ^ 16)
  let id := g.pos
  guard (id < 2 ^ 22)
  let g' := g.alloc (g.nodeWords extra + (inps.length + extraCapacity))
  let g' := g'.setNode id {
    itype := itype
    dt := dt
    isStore := itype.hasStoreFlag
    isLoad := itype.hasLoadFlag
    lane := lane
    extra := extra
    inps := inps }
  let g' := { g' with
    inputCap := Function.update g.inputCap id (inps.length + extraCapacity)
    outputCap := Function.update g.outputCap id 0 }
  let (g', inode) ← g'.intern id
  if inode ≠ id then
    return (g, inode)
  let g' ← addOutputs id 0 inps g'
  return (g', id)

/-- The loop of `swap_inputs` over the uses of an input: the first entry for the place `i` of `id` is
one for `j` from then on (`idx` has ten bits and a sign). -/
def moveOutput (id : NodeId) (i j : ℕ) : List NodeOutput → List NodeOutput
  | [] => []
  | out :: outs =>
    if out.id = id ∧ out.idx = i then ⟨id, j⟩ :: outs else out :: moveOutput id i j outs

/-- `swap_inputs`. -/
def swapInputs (id : NodeId) (i j : ℕ) : Option Graph := do
  let node := g.getNode id
  guard (node.itype ≠ .dead)
  guard (i < node.inps.length ∧ j < node.inps.length)
  guard ((g.getNode (node.inp i)).itype ≠ .dead ∧ (g.getNode (node.inp j)).itype ≠ .dead)
  let a := node.inp i
  let b := node.inp j
  guard ((a ≠ 0 → j < 2 ^ 9) ∧ (b ≠ 0 → i < 2 ^ 9))
  let g := if a = 0 then g else g.setOuts a (moveOutput id i j (g.getNode a).outs)
  let g := if b = 0 then g else g.setOuts b (moveOutput id j i (g.getNode b).outs)
  let g ← g.unintern id
  let g := g.setInps id ((node.inps.set j a).set i b)
  let (g, nid) ← g.intern id
  guard (nid = id)
  return g

/-- `add_input`. -/
def addInput (id inp : NodeId) : Option (Graph × ℕ) := do
  if id = 0 then
    return (g, 0)
  let freeIdx := (g.getNode id).inps.length
  let cap := g.inputCap id
  let newCap := cap * 2 + 2
  guard (freeIdx = cap → newCap * 4 < 2 ^ 16)
  let g := if freeIdx = cap then
      { g.alloc newCap with inputCap := Function.update g.inputCap id newCap }
    else g
  let g ← g.unintern id
  let g := g.setInps id ((g.getNode id).inps ++ [inp])
  let (g, nid) ← g.intern id
  guard (nid = id)
  return (g, freeIdx)

/-- `connect`. -/
def connect (use def_ : NodeId) : Option (Graph × ℕ) := do
  let (g, idx) ← g.addInput use def_
  let g ← g.addOutput def_ use idx
  return (g, idx)

/-- The loop of `truncate_inputs` over the inputs from the `i`-th on. -/
def dropInputs (fuel : ℕ) (id : NodeId) : ℕ → List NodeId → Graph → Option Graph
  | _, [], g => some g
  | i, inp :: inps, g => do
    let g ← g.removeOutput (deleteNode fuel) inp ⟨id, i⟩
    dropInputs fuel id (i + 1) inps (g.setInps id ((g.getNode id).inps.set i 0))

/-- `truncate_inputs`. -/
def truncateInputs (fuel : ℕ) (id : NodeId) (toLen : ℕ) : Option Graph := do
  if id = 0 then
    return g
  let node := g.getNode id
  guard (node.itype ≠ .dead)
  guard (toLen ≤ node.inps.length)
  let g ← dropInputs fuel id toLen (node.inps.drop toLen) g
  return g.setInps id ((g.getNode id).inps.take toLen)

/-- The loop of `ordered_remove` over the inputs from the `i`-th on, which move one place down. -/
def shiftOutputs (fuel : ℕ) (id : NodeId) : ℕ → List NodeId → Graph → Option Graph
  | _, [], g => some g
  | i, inp :: inps, g => do
    let g ← g.addOutput inp id (i - 1)
    let g ← g.removeOutput (deleteNode fuel) inp ⟨id, i⟩
    shiftOutputs fuel id (i + 1) inps g

/-- `ordered_remove`. -/
def orderedRemove (fuel : ℕ) (id : NodeId) (i : ℕ) : Option Graph := do
  let node := g.getNode id
  guard (node.itype ≠ .dead)
  guard (i < node.inps.length)
  let g ← shiftOutputs fuel id (i + 1) (node.inps.drop (i + 1)) g
  let g ← g.unintern id
  let g := g.setInps id (node.inps.eraseIdx i)
  let (g, nid) ← g.intern id
  let g ← g.giveWay (subsume fuel) nid id
  g.removeOutput (deleteNode fuel) (node.inp i) ⟨id, i⟩

end Graph

/-- The edits of a graph, with their arguments. -/
inductive Edit where
  | addRaw (itype : NodeType) (dt : Datatype) (lane : LaneType) (extra : List ℕ)
    (inps : List NodeId) (extraCapacity : ℕ)
  | setInput (id : NodeId) (idx : ℕ) (value : NodeId) (subsumeOnIntern : Bool)
  | connect (use def_ : NodeId)
  | orderedRemove (id : NodeId) (i : ℕ)
  | subsume (w target : NodeId)
  | swapInputs (id : NodeId) (i j : ℕ)
  | truncateInputs (id : NodeId) (toLen : ℕ)
  | clone (id : NodeId)
  | deleteNode (id : NodeId)
  deriving DecidableEq, Repr

namespace Graph

/-- One edit, with the depth to which it may nest. -/
def edit (fuel : ℕ) (g : Graph) : Edit → Option Graph
  | .addRaw itype dt lane extra inps cap => (·.1) <$> g.addRaw itype dt lane extra inps cap
  | .setInput id idx value sub => (·.1) <$> g.setInput fuel id idx value sub
  | .connect use def_ => (·.1) <$> g.connect use def_
  | .orderedRemove id i => g.orderedRemove fuel id i
  | .subsume w target => subsume fuel g w target
  | .swapInputs id i j => g.swapInputs id i j
  | .truncateInputs id toLen => g.truncateInputs fuel id toLen
  | .clone id => (·.1) <$> g.clone id
  | .deleteNode id => deleteNode fuel g id

/-- A sequence of edits. -/
def edits (fuel : ℕ) : List Edit → Graph → Option Graph
  | [], g => some g
  | e :: es, g => do
    let g ← g.edit fuel e
    edits fuel es g

end Graph

end OdinSon
