import OdinSon.Bac.Edit
import OdinSon.Codegen.Amd64Address

/-!
# Folding loads into the instructions that use them

Once the instructions of a block are in order, `schedule_peeps` (`bac/graph.odin`) goes through them
once more, and `post_schedule_peep` (`bac/amd64/amd64.odin`) makes a load part of the operation that
is its only use: the operation then reads its right operand from memory, and the load is gone.  The
load moves down to the operation by this, so that `has_no_clobbers` looks back over what has been
processed so far for a node that may write memory.

The outputs of a node are read off the inputs here, and the interner is left out: no node that is
made or changed has an equal one.  The last loop of `schedule_peeps`, which moves values for a phi
to the end of the block, is left out as well: it moves no memory access.
-/

namespace OdinSon.Codegen.Amd64

/-- `Mem_Mode`. -/
inductive MemMode where
  | none | dest | src
  deriving DecidableEq

/-- `Mem_Op`, with what an operation does with its memory operand. -/
structure FoldOp extends MemOp where
  /-- A load extends its value with the sign. -/
  signed : Bool := false
  /-- Which operand is in memory. -/
  memMode : MemMode := .none
  /-- The order of the lanes, for a shuffle. -/
  aux : BitVec 8 := 0
  deriving DecidableEq

/-- `Node_Type` of amd64: the nodes of every target and the machine's own.  `AMD64_Add` to
`AMD64_Div` stand in the order of the operators, so that `BIN_OP_OFFSET` leads from the one to the
other. -/
inductive AmdType where
  | base (t : NodeType)
  | bin (op : BinOp)
  | lea | load | store | neg | not
  | mul8 | fma213 | pcmpeq | padd | psub | pshufd | pshuflw | psadbw | pshufb | pextr
  deriving DecidableEq

namespace AmdType

/-- The kinds with the flag `Store`. -/
def hasStoreFlag : AmdType → Bool
  | base t => t.hasStoreFlag
  | store => true
  | _ => false

/-- The kinds with the flag `Load`. -/
def hasLoadFlag : AmdType → Bool
  | base t => t.hasLoadFlag
  | load => true
  | _ => false

/-- The deleted nodes. -/
def isDead (t : AmdType) : Bool := t = base .dead

/-- The kinds that no code is emitted for: `Poison ..= Phi` and the nodes that a block starts with;
their values are there when the block is entered. -/
def isSilent : AmdType → Bool
  | base t => match t with
    | .poison | .mem | .splitMem | .mergeMem | .sym | .local | .global | .param | .ret | .phi => true
    | _ => false
  | _ => false

end AmdType

/-- `Node`, but for its outputs. -/
structure AmdNode where
  /-- The kind of the node, on amd64. -/
  rtype : AmdType := .base .nil
  /-- The type of its value. -/
  dt : Datatype := .void
  /-- It writes memory. -/
  isStore : Bool := false
  /-- It reads memory. -/
  isLoad : Bool := false
  /-- The type of the lanes of a vector. -/
  lane : LaneType := .i8
  /-- Its `Mem_Op`. -/
  memOp : FoldOp := {}
  /-- The inputs. -/
  inps : List NodeId := []
  deriving DecidableEq

namespace AmdNode

/-- `node.inps[i]`. -/
def inp (n : AmdNode) (i : ℕ) : NodeId := n.inps.getD i 0

/-- What a node is, without the nodes it uses. -/
def data (n : AmdNode) : AmdNode := { n with inps := [] }

/-- The node has been deleted. -/
def isDead (n : AmdNode) : Bool := n.rtype.isDead

end AmdNode

/-- `Proc`, of its nodes. -/
structure AmdGraph where
  /-- The nodes, by their places. -/
  mem : NodeId → AmdNode
  /-- The next free place. -/
  pos : ℕ

namespace AmdGraph

variable (g : AmdGraph)

/-- `get_node`. -/
def getNode (id : NodeId) : AmdNode := if id = 0 then {} else g.mem id

/-- Write a node. -/
def setNode (id : NodeId) (n : AmdNode) : AmdGraph := { g with mem := Function.update g.mem id n }

/-- `node.outs`: the places at which a node that is there names `m`. -/
def outs (m : NodeId) : List NodeOutput :=
  ((List.range g.pos).filter fun n => !(g.getNode n).isDead).flatMap fun n =>
    ((g.getNode n).inps.zipIdx.filter fun inp => inp.1 = m).map fun inp => ⟨n, inp.2⟩

/-- `add_raw`, of a kind that is not interned. -/
def addRaw (rtype : AmdType) (dt : Datatype) (inps : List NodeId) : AmdGraph × NodeId :=
  let n : AmdNode := { rtype, dt, isStore := rtype.hasStoreFlag, isLoad := rtype.hasLoadFlag, inps }
  ({ g.setNode g.pos n with pos := g.pos + 1 }, g.pos)

/-- `add_node`. -/
def addNode (rtype : AmdType) (dt : Datatype) (inps : List NodeId) (extra : FoldOp)
    (lane : LaneType) : AmdGraph × NodeId :=
  let (g, id) := g.addRaw rtype dt inps
  (g.setNode id { g.getNode id with memOp := extra, lane }, id)

/-- `make_node`: the flags are those of the node it is made from. -/
def makeNode (src : NodeId) (rtype : AmdType) (inps : List NodeId) (extra : FoldOp)
    (forceLoad : Bool) : AmdGraph × NodeId :=
  let fnode := g.getNode src
  let (g, id) := g.addRaw rtype fnode.dt inps
  let node := g.getNode id
  (g.setNode id { node with
    isStore := fnode.isStore
    isLoad := fnode.isLoad || rtype = .load || forceLoad
    lane := fnode.lane
    memOp := extra }, id)

/-- `operation_datatype`. -/
def operationDatatype (node : AmdNode) : Datatype :=
  let dt := match node.rtype with
    | .base (.bin op) => if op.isComparison then (g.getNode (node.inp 0)).dt else node.dt
    | _ => node.dt
  if dt.isVector then node.lane.toDt else dt

/-- `has_no_clobbers`, where the nodes before come last first. -/
def hasNoClobbers (inp : NodeId) : List NodeId → Bool
  | [] => false
  | pred :: preds =>
    if pred = inp then true
    else if (g.getNode pred).isDead then hasNoClobbers inp preds
    else if (g.getNode pred).isStore then false
    else hasNoClobbers inp preds

/-- `FLOAT_FOLD_OPS`. -/
def isFloatFold : BinOp → Bool
  | .add | .sub | .mul | .div | .eq | .ne | .gt | .ge => true
  | _ => false

/-- The operators of the first case, `Add ..= Xor`, `Eq ..= U_Ge`, `Mul` and `Div`. -/
def isFoldKind : BinOp → Bool
  | .shl | .shr | .uShr | .uDiv | .rem | .uRem | .andNot => false
  | _ => true

/-- Whether an operator may take its right operand from memory: of integers, all but the product and
the quotient. -/
def mayFold (node : AmdNode) (op : BinOp) : Bool :=
  isFoldKind op &&
    if (g.operationDatatype node).isFloat then isFloatFold op else op ≠ .mul && op ≠ .div

/-- A load with one use, of as many bytes as it has, that nothing written in between stands in the
way of. -/
def isFoldable (preds : List NodeId) (id : NodeId) : Bool :=
  let node := g.getNode id
  node.rtype = .load && (g.outs id).length = 1 && node.memOp.dt = node.dt &&
    g.hasNoClobbers id preds.reverse

/-- The `slots`: the inputs of the load, with the left operand in the fourth place. -/
def foldSlots (inps : List NodeId) (lhs : NodeId) : List NodeId :=
  let idx := inps.getD 3 0
  [inps.getD 0 0, inps.getD 1 0, inps.getD 2 0, lhs] ++ if idx = 0 then [] else [idx]

/-- `post_schedule_peep`: the node that takes the place of `id`, if any. -/
def postSchedulePeep (preds : List NodeId) (id : NodeId) : Option (AmdGraph × NodeId) :=
  let node := g.getNode id
  match node.rtype with
  | .base (.bin op) =>
    let rhs := g.getNode (node.inp 1)
    if g.mayFold node op && g.isFoldable preds (node.inp 1) then
      some (g.makeNode id (.bin op) (foldSlots rhs.inps (node.inp 0))
        { rhs.memOp with memMode := .src, dt := rhs.dt } true)
    else none
  | .bin op =>
    let lhs := g.getNode (node.inp 0)
    if op.isComparison && node.memOp.memMode = .none && g.isFoldable preds (node.inp 0) then
      some (g.makeNode id (.bin op) lhs.inps
        { lhs.memOp with imm := node.memOp.imm, memMode := .dest, dt := lhs.dt } false)
    else none
  | _ => none

/-- `delete_node`: a node without uses goes, and with it the inputs that nothing else uses. -/
def deleteNode : ℕ → AmdGraph → NodeId → AmdGraph
  | 0, g, _ => g
  | fuel + 1, g, id =>
    let node := g.getNode id
    if g.outs id ≠ [] ∨ id = 0 ∨ node.isDead = true then g
    else node.inps.foldl (deleteNode fuel) (g.setNode id { rtype := .base .dead })

/-- The users of `target` use `w` instead. -/
def redirect (w target : NodeId) : AmdGraph :=
  { g with mem := fun id =>
      { g.mem id with inps := (g.mem id).inps.map fun inp => if inp = target then w else inp } }

/-- `subsume`: the users of the target use `w` from now on, and the target goes. -/
def subsume (w target : NodeId) : AmdGraph :=
  deleteNode g.pos (deleteNode g.pos (g.redirect w target) target) w

end AmdGraph

/-- The state of the first loop of `schedule_peeps`. -/
structure PeepState where
  /-- The graph. -/
  g : AmdGraph
  /-- The instructions of the blocks. -/
  bbs : List (List NodeId)
  /-- The block. -/
  bb : ℕ := 0
  /-- The instruction in the block. -/
  i : ℕ := 0

namespace PeepState

/-- One round of the loop: `new_node` takes the place of `instr`. -/
def step (s : PeepState) : PeepState :=
  match s.bbs[s.bb]? with
  | none => s
  | some instrs =>
    match instrs[s.i]? with
    | none => { s with bb := s.bb + 1, i := 0 }
    | some instr =>
      match s.g.postSchedulePeep (instrs.take s.i) instr with
      | none => { s with i := s.i + 1 }
      | some (g, new) =>
        { s with
          g := g.subsume new instr
          bbs := s.bbs.set s.bb (instrs.set s.i new)
          i := s.i + 1 }

end PeepState

end OdinSon.Codegen.Amd64
