import OdinSon.Lib.Liveness
import OdinSon.Lib.Worklist
import OdinSon.Regalloc.Coalesce
import OdinSon.Bac.Graph

/-!
# Liveness and interference of live ranges

The worklist of `regalloc_round` (`bac/regalloc/regalloc.odin`).  The blocks are walked backwards,
with the live ranges that have come to their end since the last walk; what is live at the start of
a block goes to the end of the blocks before it.  On the way, a definition interferes with what is
live after it (in the mode with colouring), and masks lose the registers that a call or the only
register of a neighbour takes.

The live ranges at the ends of the blocks are exactly those which are live there, and all live
ranges that get in each other's way interfere (`liveness_exact`), as long as the bits of the
interference matrix can be counted in a `u32`.
-/

namespace OdinSon.Regalloc

/-- `Regalloc_Node_Meta`. -/
structure NodeMeta where
  /-- There is an `out`. -/
  isDef : Bool
  /-- The first input that has a mask. -/
  inputStart : ℕ
  /-- The number of the `masks`, which are those of the inputs from `inputStart` on. -/
  masks : ℕ
  /-- A word for each kind of registers, if not empty. -/
  clobbers : List (Finset ℕ)

/-- `Regalloc_Mode`. -/
inductive Mode where
  | withScan | withColoring
  deriving DecidableEq

/-- What `regalloc_round` has when it comes to the liveness. -/
structure LiveCtx where
  /-- The graph. -/
  prc : Proc
  /-- The schedule. -/
  bbs : List BasicBlock
  /-- What is known of the nodes. -/
  gmetas : NodeId → NodeMeta
  /-- For each calling convention, a word for each kind of registers. -/
  callClobbers : List (List (Finset ℕ))
  /-- The indices of the live ranges. -/
  lrgTable : NodeId → ℕ
  /-- The number of the live ranges. -/
  usedLrgs : ℕ
  /-- Which allocator it is for. -/
  mode : Mode

/-- `Liveout`. -/
structure Liveout where
  /-- The live range. -/
  lrg : ℕ
  /-- The node that defines its value. -/
  node : NodeId
  deriving DecidableEq

/-- `Liveouts`. -/
structure Liveouts where
  /-- The entries. -/
  data : List Liveout := []
  /-- Those from here on have not been walked with. -/
  old : ℕ := 0

/-- `Self_Conflict`. -/
structure SelfConflict where
  /-- The live range. -/
  lrg : ℕ
  /-- One of its values. -/
  node : NodeId
  /-- Another, which is live with the first. -/
  other : NodeId
  deriving DecidableEq

/-- What a walk changes. -/
structure Ranges where
  /-- The live ranges. -/
  lrgs : Lrgs
  /-- The live ranges with two values at once. -/
  selfConflicts : List SelfConflict
  /-- The bits of the interference matrix. -/
  interference : ℕ → Bool

/-- The state of the loop. -/
structure LiveState where
  /-- What the walks have changed. -/
  ranges : Ranges
  /-- The live ranges at the end of each block. -/
  liveouts : ℕ → Liveouts
  /-- The blocks that are to be visited. -/
  worklist : List ℕ

/-! ### Masks -/

/-- `reg_mask_intersects`. -/
def RegMask.intersects (a b : RegMask) : Option Bool :=
  if a.kind ≠ b.kind then some false
  else if a.bitLength = b.bitLength then some (decide (a.regs ∩ b.regs ≠ ∅)) else none

/-- `reg_mask_first_set`. -/
def RegMask.firstSet (m : RegMask) : Option ℕ := (List.range m.bitLength).find? (· ∈ m.regs)

/-- `reg_mask_set`, to `false`. -/
def RegMask.clear (m : RegMask) (index : ℕ) : Option RegMask :=
  if index < m.bitLength then some { m with regs := m.regs.erase index } else none

/-- `mask.masks[0] &= ~clobbers[mask.kind]`. -/
def RegMask.clobber (m : RegMask) (clobbers : List (Finset ℕ)) : Option RegMask := do
  let word ← clobbers[m.kind]?
  if m.bitLength ≠ 0 then some { m with regs := m.regs.filter fun r => ¬ (r < 64 ∧ r ∈ word) }
  else none

/-- A smaller mask for a live range, which is killed if nothing is left of it. -/
def Lrgs.narrow (ls : Lrgs) (l : ℕ) (m : RegMask) : Lrgs :=
  { ls with
    mask := Function.update ls.mask l m
    fails := if m.regs = ∅ then Function.update ls.fails l (insert .killed (ls.fails l))
      else ls.fails }

/-! ### The live ranges at the end of a block -/

/-- `liveouts_delete`; `0` for the node if there is none. -/
def liveoutsDelete (louts : List Liveout) (lrg : ℕ) : NodeId × List Liveout :=
  match louts.findIdx? (·.lrg = lrg) with
  | none => (0, louts)
  | some idx => ((louts.map Liveout.node).getD idx 0, swapRemove louts idx)

namespace Ranges

variable (r : Ranges)

/-- `add_conflict`. -/
def addConflict (lrg : ℕ) (a b : NodeId) : Option (Ranges × Bool) :=
  if a = 0 ∨ b = 0 then none
  else if a = b then some (r, true)
  else
    let sc := ⟨lrg, min a b, max a b⟩
    let fails := Function.update r.lrgs.fails lrg (insert .selfConflict (r.lrgs.fails lrg))
    some ({ r with
      lrgs := { r.lrgs with fails }
      selfConflicts := if r.selfConflicts.contains sc then r.selfConflicts
        else r.selfConflicts ++ [sc] }, false)

/-- `add_liveout`; the slot of a new entry is zero, so that `changed` is then true. -/
def addLiveout (louts : List Liveout) (n : Liveout) : Option (Ranges × List Liveout × Bool) :=
  if n.node = 0 then none
  else
    match louts.findIdx? (·.lrg = n.lrg) with
    | none => some (r, louts ++ [n], true)
    | some idx => do
      let v := (louts.map Liveout.node).getD idx 0
      let (r, same) ← r.addConflict n.lrg n.node v
      if same then some (r, louts.set idx n, v ≠ n.node) else some (r, louts, false)

/-- The definition `instr` of a live range that has the entry `v` after it. -/
def endRange (lrg : ℕ) (v instr : NodeId) : Option Ranges :=
  if v ≠ 0 then (r.addConflict lrg v instr).map Prod.fst else some r

/-- A loop of `add_liveout`. -/
def addLiveouts : Ranges → List Liveout → List Liveout → Option (Ranges × List Liveout × Bool)
  | r, louts, [] => some (r, louts, false)
  | r, louts, n :: ns => do
    let (r, louts, changed) ← r.addLiveout louts n
    let (r, louts, changed') ← addLiveouts r louts ns
    return (r, louts, changed || changed')

end Ranges

/-! ### The walk over a block -/

namespace LiveCtx

variable (ctx : LiveCtx)

/-- `interference.bit_length`. -/
def bitLength : ℕ :=
  match ctx.mode with
  | .withScan => 0
  | .withColoring => ctx.usedLrgs * ctx.usedLrgs % 2 ^ 32

/-- The place of a pair in the matrix, a `u32`. -/
def pairIndex (a b : ℕ) : ℕ := (a * ctx.usedLrgs + b) % 2 ^ 32

/-- `data_deps`. -/
def dataDeps (id : NodeId) : Option (List NodeId) :=
  let m := ctx.gmetas id
  let inps := (ctx.prc.getNode id).inps
  if m.inputStart ≤ inps.length then
    some ((inps.drop m.inputStart).take (min m.masks (inps.length - m.inputStart)))
  else none

/-- `call.ccid`: the low `26` bits of the word after the `Cfg`. -/
def ccid (node : Node) : ℕ := node.extra.getD 1 0 % 2 ^ 26

/-- What the instruction destroys. -/
def clobbers (id : NodeId) : Option (List (Finset ℕ)) :=
  let node := ctx.prc.getNode id
  match node.itype with
  | .call => ctx.callClobbers[ccid node]?
  | .set | .copy => ctx.callClobbers[0]?
  | _ => some (ctx.gmetas id).clobbers

/-- `rl` loses the only register of `ll`, and the pair goes to the matrix. -/
def interfereWith (r : Ranges) (ll rl : ℕ) : Option Ranges := do
  let lrgs ←
    if (r.lrgs.mask ll).regs.card = 1 then do
      let reg ← (r.lrgs.mask ll).firstSet
      let m ← (r.lrgs.mask rl).clear reg
      some (r.lrgs.narrow rl m)
    else some r.lrgs
  let index := ctx.pairIndex rl ll
  if index < ctx.bitLength then
    some { r with lrgs, interference := Function.update r.interference index true }
  else none

/-- A definition of `lrg` with `l` live after it. -/
def interfere (lrg : ℕ) (r : Ranges) (l : Liveout) : Option Ranges := do
  if ← (r.lrgs.mask l.lrg).intersects (r.lrgs.mask lrg) then
    let r ← ctx.interfereWith r lrg l.lrg
    ctx.interfereWith r l.lrg lrg
  else some r

/-- All that is live after a definition of `lrg`. -/
def interfereAll (lrg : ℕ) (cur : List Liveout) (r : Ranges) : Option Ranges :=
  if ctx.bitLength ≠ 0 then cur.foldlM (ctx.interfere lrg) r else some r

/-- The definition of an instruction. -/
def walkDef (instr : NodeId) (cur : List Liveout) (r : Ranges) : Option (List Liveout × Ranges) :=
  if (ctx.gmetas instr).isDef then do
    let lrg := ctx.lrgTable instr
    let (v, cur) := liveoutsDelete cur lrg
    let r ← r.endRange lrg v instr
    let r ← ctx.interfereAll lrg cur r
    some (cur, r)
  else some (cur, r)

/-- The registers that `l`, which is live over a call, cannot be in. -/
def clobberLive (clobbers : List (Finset ℕ)) (lrgs : Lrgs) (l : Liveout) : Option Lrgs := do
  let m ← (lrgs.mask l.lrg).clobber clobbers
  some (lrgs.narrow l.lrg m)

/-- All that is live over a call. -/
def clobberAll (clobbers : List (Finset ℕ)) (cur : List Liveout) (lrgs : Lrgs) : Option Lrgs :=
  if clobbers.length ≠ 0 then cur.foldlM (clobberLive clobbers) lrgs else some lrgs

/-- One instruction of the walk. -/
def walkInstr (visited : Bool) (instr : NodeId) (cur : List Liveout) (r : Ranges) :
    Option (List Liveout × Ranges) := do
  let (cur, r) ← ctx.walkDef instr cur r
  let clobbers ← ctx.clobbers instr
  let lrgs ← clobberAll clobbers cur r.lrgs
  let r := { r with lrgs }
  if !visited && (ctx.prc.getNode instr).itype ≠ .phi then
    let deps ← ctx.dataDeps instr
    let (r, cur, _) ← r.addLiveouts cur (deps.map fun inp => ⟨ctx.lrgTable inp, inp⟩)
    some (cur, r)
  else some (cur, r)

/-- The instructions of a block, from the last to the first. -/
def walkInstrs (visited : Bool) (cur : List Liveout) (r : Ranges) :
    List NodeId → Option (List Liveout × Ranges)
  | [] => some (cur, r)
  | instr :: rest => do
    let (cur, r) ← walkInstrs visited cur r rest
    ctx.walkInstr visited instr cur r

/-! ### The loop -/

/-- `get_idom` of the tail of a block: its head. -/
def tailBlock (tail : NodeId) : Option NodeId :=
  let node := ctx.prc.getNode tail
  match node.itype with
  | .return_ | .if_ | .jump | .call | .trap | .always => some (node.inp 0)
  | _ => none

/-- `pred_bb_idx`, for an input of the head of a block. -/
def predBlock (pred : NodeId) : Option ℕ := do
  let head ← ctx.tailBlock pred
  ctx.bbs.findIdx? (·.head = head)

/-- `dt > .Mem`. -/
def isData (node : Node) : Bool := node.dt ≠ .void && node.dt ≠ .mem

/-- What the phis at `head` use from the `j`-th block before it. -/
def phiUses (head : Node) (j : ℕ) : List Liveout :=
  (head.outs.filter fun out =>
    let onode := ctx.prc.getNode out.id
    onode.itype = .phi && isData onode &&
      (ctx.prc.getNode (onode.inp (1 + j))).itype ≠ .poison).map fun out =>
    ⟨ctx.lrgTable out.id, (ctx.prc.getNode out.id).inp (1 + j)⟩

/-- Send what is live at the start of a block to the `j`-th block before it. -/
def flowTo (visited : Bool) (head : Node) (cur : List Liveout) (st : LiveState)
    (pred : NodeId × ℕ) : Option LiveState := do
  let b ← ctx.predBlock pred.1
  let louts := st.liveouts b
  let (r, data, changed) ← st.ranges.addLiveouts louts.data
    (cur ++ if visited then [] else ctx.phiUses head pred.2)
  some
    { ranges := r
      liveouts := Function.update st.liveouts b { louts with data }
      worklist := if changed then Worklist.push (fun _ => true) st.worklist b else st.worklist }

/-- One round of the loop, for the block `b`. -/
def visitBlock (b : ℕ) (st : LiveState) : Option LiveState := do
  let bb ← ctx.bbs[b]?
  let lbb := st.liveouts b
  let visited := decide (lbb.old ≠ 0)
  let liveouts := Function.update st.liveouts b { lbb with old := lbb.data.length }
  let (cur, ranges) ← ctx.walkInstrs visited (lbb.data.drop lbb.old) st.ranges bb.instrs
  let head := ctx.prc.getNode bb.head
  head.inps.zipIdx.foldlM (ctx.flowTo visited head cur) { st with liveouts, ranges }

/-- The loop; `none` when it does not come to its end in `fuel` rounds. -/
def livenessLoop : ℕ → LiveState → Option LiveState
  | 0, _ => none
  | fuel + 1, st =>
    match st.worklist with
    | [] => some st
    | b :: worklist => do
      let st ← ctx.visitBlock b { st with worklist }
      livenessLoop fuel st

/-- All blocks are in the worklist, the last one first. -/
def livenessStart (lrgs : Lrgs) : LiveState where
  ranges := ⟨lrgs, [], fun _ => false⟩
  liveouts := fun _ => {}
  worklist := (List.range ctx.bbs.length).reverse

/-! ### What it is about -/

/-- What the phis of a block use at the end of the `j`-th block before it; poison has no live
range. -/
def edgeUses (bb : BasicBlock) (j : ℕ) : List ℕ :=
  ((bb.instrs.filter fun id =>
    (ctx.prc.getNode id).itype = .phi && isData (ctx.prc.getNode id)).map fun id =>
      (ctx.prc.getNode id).inp (1 + j)).filterMap fun n =>
    if (ctx.prc.getNode n).itype = .poison then none else some (ctx.lrgTable n)

/-- The blocks, with the live ranges for variables. -/
def flow : FlowGraph ℕ NodeId ℕ where
  instrs := fun b => (ctx.bbs[b]?.map BasicBlock.instrs).getD []
  uses := fun id =>
    if (ctx.prc.getNode id).itype = .phi then []
    else ((ctx.dataDeps id).getD []).map ctx.lrgTable
  defs := fun id => if (ctx.gmetas id).isDef then some (ctx.lrgTable id) else none
  preds := fun b =>
    match ctx.bbs[b]? with
    | none => []
    | some bb => (ctx.prc.getNode bb.head).inps.zipIdx.filterMap fun pred =>
      (ctx.predBlock pred.1).map fun p => (p, ctx.edgeUses bb pred.2)

/-- What the scheduler and the construction of the live ranges promise. -/
structure WellScheduled (lrgs : Lrgs) : Prop where
  id_ne : ∀ bb ∈ ctx.bbs, ∀ id ∈ bb.instrs, id ≠ 0
  def_lt : ∀ bb ∈ ctx.bbs, ∀ id ∈ bb.instrs, (ctx.gmetas id).isDef = true →
    ctx.lrgTable id < ctx.usedLrgs
  deps : ∀ bb ∈ ctx.bbs, ∀ id ∈ bb.instrs, (ctx.prc.getNode id).itype ≠ .phi →
    ∃ deps, ctx.dataDeps id = some deps ∧ ∀ inp ∈ deps, inp ≠ 0 ∧ ctx.lrgTable inp < ctx.usedLrgs
  clobbers : ∀ bb ∈ ctx.bbs, ∀ id ∈ bb.instrs, ∃ cs, ctx.clobbers id = some cs ∧
    (cs = [] ∨ ∀ l < ctx.usedLrgs, (lrgs.mask l).kind < cs.length)
  /-- The predecessors of a block are tails of blocks. -/
  preds : ∀ bb ∈ ctx.bbs, ∀ pred ∈ (ctx.prc.getNode bb.head).inps, ∃ p, ctx.predBlock pred = some p
  /-- The phis of a head are in its block. -/
  phi_mem : ∀ bb ∈ ctx.bbs, ∀ phi, (ctx.prc.getNode phi).itype = .phi →
    isData (ctx.prc.getNode phi) = true →
    (phi ∈ bb.instrs ↔ ∃ idx, (⟨phi, idx⟩ : NodeOutput) ∈ (ctx.prc.getNode bb.head).outs)
  /-- The operands of a phi are in its live range. -/
  phi : ∀ bb ∈ ctx.bbs, ∀ phi ∈ bb.instrs, (ctx.prc.getNode phi).itype = .phi →
    isData (ctx.prc.getNode phi) = true → ctx.lrgTable phi < ctx.usedLrgs ∧
    ∀ j < (ctx.prc.getNode bb.head).inps.length,
      (ctx.prc.getNode phi).inp (1 + j) ≠ 0 ∧
      ((ctx.prc.getNode ((ctx.prc.getNode phi).inp (1 + j))).itype ≠ .poison →
        ctx.lrgTable ((ctx.prc.getNode phi).inp (1 + j)) = ctx.lrgTable phi)
  /-- All masks have the same length. -/
  bitLength : ∀ l < ctx.usedLrgs, ∀ k < ctx.usedLrgs,
    (lrgs.mask l).bitLength = (lrgs.mask k).bitLength
  mask : ∀ l < ctx.usedLrgs, (lrgs.mask l).bitLength ≠ 0 ∧
    ∀ reg ∈ (lrgs.mask l).regs, reg < (lrgs.mask l).bitLength

/-- There is a register for both. -/
def Share (a b : RegMask) : Prop := a.kind = b.kind ∧ a.regs ∩ b.regs ≠ ∅

/-- The pair is in the interference matrix. -/
def Interferes (r : Ranges) (a b : ℕ) : Prop := r.interference (ctx.pairIndex a b) = true

/-- What the loop is for. -/
structure Exact (st : LiveState) : Prop where
  liveOut : ∀ b < ctx.bbs.length, ∀ l,
    l ∈ (st.liveouts b).data.map Liveout.lrg ↔ ctx.flow.Live l b []
  symm : ∀ a < ctx.usedLrgs, ∀ b < ctx.usedLrgs,
    ctx.Interferes st.ranges a b → ctx.Interferes st.ranges b a
  interferes : ctx.mode = .withColoring → ∀ b < ctx.bbs.length, ∀ before id after d l,
    ctx.flow.instrs b = before ++ id :: after → ctx.flow.defs id = some d → l ≠ d →
    ctx.flow.Live l b after → Share (st.ranges.lrgs.mask d) (st.ranges.lrgs.mask l) →
    ctx.Interferes st.ranges d l

end LiveCtx

end OdinSon.Regalloc
