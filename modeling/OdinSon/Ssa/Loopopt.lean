import OdinSon.Bac.Alias
import OdinSon.Ssa.SccpPeep

/-!
# Loops of a single block

`loopopt` (`bac/ssa/loopopt.odin`) works on loops that have been rotated: the block ends in an `If`
of which one way is the back edge.  This is what it finds out about such a loop first: the
comparison that decides about another round, and the phis that go up by some stride
(`Inductor`), with the bound that they are compared with.

The last part of it, `eliminateLoop`, puts a constant for the condition of a loop that nothing
outside of it depends on, so that the loop is left after the first round.
-/

namespace OdinSon

/-- `CMP_OP_REVERSE`. -/
def BinOp.cmpReverse : BinOp → Option BinOp
  | .eq => some .ne
  | .ne => some .eq
  | .lt => some .ge
  | .le => some .gt
  | .gt => some .le
  | .ge => some .lt
  | _ => none

/-- `Inductor`. -/
structure Inductor where
  /-- The phi. -/
  phy : NodeId
  /-- What it goes up by. -/
  stride : NodeId
  /-- What it is compared with, `0` if there is nothing. -/
  bound : NodeId
  /-- The value of the stride. -/
  strideVl : ℤ
  /-- It is compared before the step. -/
  delayed : Bool
  deriving DecidableEq

/-- What `loopopt` knows about a loop. -/
structure LoopInfo where
  /-- The loop goes on where the comparison does not hold. -/
  inverted : Bool
  /-- The comparison that holds while the loop goes on. -/
  effectiveOp : BinOp
  /-- The phis that go in steps. -/
  inductors : List Inductor
  deriving DecidableEq

section Code

variable (prc : Proc) (bb : BasicBlock)

/-- The `If` at the end of the loop. -/
def latch : NodeId := (prc.getNode bb.head).inp 1

/-- The other side of the comparison `cond`, for the first of the two that it uses. -/
def findBound (cond : NodeId) (bvl phi : Node) : NodeId × Bool :=
  let cnode := prc.getNode cond
  match bvl.outs.find? (·.id = cond), phi.outs.find? (·.id = cond) with
  | some bout, _ => (cnode.inp (1 - bout.idx), false)
  | none, some bout => (cnode.inp (1 - bout.idx), true)
  | none, none => (0, false)

/-- A phi that goes up by something which does not change in the loop. -/
def inductorOf (phi : NodeId) : Option Inductor :=
  let onode := prc.getNode phi
  let bvl := prc.getNode (onode.inp 2)
  if onode.itype = .phi ∧ onode.dt.isInt ∧ bvl.itype = .bin .add ∧ bvl.inp 0 = phi ∧
      ¬ bb.instrs.contains (bvl.inp 1) then
    let (bound, delayed) := findBound prc ((prc.getNode (latch prc bb)).inp 1) bvl onode
    some
      { phy := phi
        stride := bvl.inp 1
        bound := if bb.instrs.contains bound then 0 else bound
        strideVl := (prc.cInt (bvl.inp 1)).getD 0
        delayed }
  else none

/-- What is known about the loop of a block; `none` if it is not one of those that are looked at. -/
def loopInfo : Option LoopInfo :=
  let head := prc.getNode bb.head
  let bedge := prc.getNode (latch prc bb)
  let cond := prc.getNode (bedge.inp 1)
  if head.itype = .loop ∧ bedge.itype = .if_ ∧ bedge.inp 0 = bb.head ∧
      (prc.operationDatatype cond).isInt then
    match cond.itype with
    | .bin op => op.cmpReverse.map fun rev =>
      let inverted := decide ((bedge.outs.map NodeOutput.id).getD 0 0 ≠ bb.head)
      { inverted
        effectiveOp := if inverted then rev else op
        inductors := head.outs.filterMap fun out => inductorOf prc bb out.id }
    | _ => none
  else none

/-- Something in the loop is compared with a bound. -/
def LoopInfo.terminates (info : LoopInfo) : Bool := info.inductors.any (·.bound ≠ 0)

/-! ### What the loop has to compute -/

/-- A phi of the loop. -/
def isLoopPhi (id : NodeId) : Bool :=
  let node := prc.getNode id
  node.itype = .phi && node.inp 0 = bb.head

/-- One instruction in a pass of `find_req_sched`. -/
def reqInstr (instr : NodeId) (acc : (NodeId → Bool) × Bool) : (NodeId → Bool) × Bool :=
  let inode := prc.getNode instr
  let (req, changed) := acc
  if inode.inp 0 = bb.head then (Function.update req instr true, changed || !req instr)
  else if req instr then acc
  else if inode.outs.any fun out =>
      isLoopPhi prc bb out.id || (bb.instrs.contains out.id && req out.id) then
    (Function.update req instr true, true)
  else acc

/-- A pass, from the last instruction to the first, and whether it found something. -/
def reqPass (req : NodeId → Bool) : (NodeId → Bool) × Bool :=
  bb.instrs.foldr (reqInstr prc bb) (req, false)

/-- `find_req_sched`. -/
def findReqLoop : ℕ → (NodeId → Bool) → Option (NodeId → Bool)
  | 0, _ => none
  | fuel + 1, req =>
    let (req, changed) := reqPass prc bb req
    if changed then findReqLoop fuel req else some req

/-- An instruction that is required, and is used by something that is not. -/
def leaks (req : NodeId → Bool) (instr : NodeId) : Bool :=
  let inode := prc.getNode instr
  req instr && !prc.isCfg instr && !(inode.itype = .phi && inode.inp 2 = instr) &&
    inode.outs.any fun out => !(bb.instrs.contains out.id && req out.id)

/-- `set_input`, as far as the inputs go. -/
def Proc.setInput (id : NodeId) (idx : ℕ) (value : NodeId) : Proc :=
  let node := { prc.mem id with inps := (prc.mem id).inps.set idx value }
  { prc with mem := Function.update prc.mem id node }

/-- The `eliminate` part: the graph in which the loop is left at once, if it may be. -/
def eliminateLoop (fuel : ℕ) (info : LoopInfo) : Option (Option Proc) := do
  if info.terminates then
    let req ← findReqLoop prc bb fuel fun _ => false
    if bb.instrs.any (leaks prc bb req) then some none
    else if (prc.getNode (latch prc bb)).itype = .if_ then
      some (some ((prc.push (cIntNode .i8 (if info.inverted then 1 else 0))).setInput
        (latch prc bb) 1 prc.pos))
    else none
  else some none

end Code

end OdinSon
