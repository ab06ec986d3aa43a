import OdinSon.Bac.Collect
import OdinSon.Bac.LatticeOrder
import OdinSon.Ssa.FoldLattice

/-!
# Sparse conditional constant propagation

`sccp_compute` (`bac/ssa/sccp.odin`) computes the lattice of a node from those of its inputs, and
`compute_latices` (`bac/sccp.odin`) runs it over a worklist until nothing changes.

A node reads more lattices than those of its inputs: a `Phi` those of the predecessors of its
region, a `Then` or an `Else` that of the condition of its `If`.  It registers itself as a trigger
there (`sccpTriggers`), and is queued again when they change.

The lattices and the triggers are kept by node here, and by the dense number of a node (`gvn`) in
the source; `collect_nodes` hands these out without repetition.
-/

namespace OdinSon

open MachInt

/-- The lattice of every node. -/
abbrev Lattices := NodeId → Lattice

/-- The lattice of a float constant from its `f64` bits.  An `F32` constant is rounded first:
beyond `2 ^ 128 - 2 ^ 103` it is infinite, and up to `2 ^ -150` zero. -/
def floatConst (bits : ℕ) (dt : Datatype) : Lattice :=
  let neg : Bool := 2 ^ 63 ≤ bits
  let abs := bits % 2 ^ 63
  let inf := 0x7FF0000000000000
  let isNan : Bool := inf < abs
  let isInf : Bool := !isNan && (if dt = .f32 then 0x47EFFFFFF0000000 ≤ abs else abs = inf)
  let isZero : Bool := if dt = .f32 then abs ≤ 0x3690000000000000 else abs = 0
  { type := .float
    isNotNan := !isNan
    isNotPinf := !isInf || neg
    isNotNinf := !isInf || !neg
    isNotZero := !isZero
    isNan := isNan }

section

variable (prc : Proc) (L : Lattices)

/-- `CInt`. -/
def sccpCInt (node : Node) : Lattice :=
  if node.dt.isFloat then floatConst (u64 node.cIntValue) node.dt
  else if node.dt.isInt then
    { type := .int, min := sext node.cIntValue node.dt, max := sext node.cIntValue node.dt }
  else {}

/-- `Add ..= And_Not`: comparing a node with itself has a known result. -/
def sccpBinOp (node : Node) (op : BinOp) : Lattice :=
  let lhs := L (node.inp 0)
  let rhs := L (node.inp 1)
  let opTy := prc.operationDatatype node
  if lhs.type ≠ .top ∧ rhs.type ≠ .top ∧ node.inp 0 = node.inp 1 ∧ op.isComparison = true ∧
      (opTy.isInt = true ∨ lhs.isNotNan = true ∨ op = .lt ∨ op = .gt) then
    let value := boolToInt (op = .eq || op = .le || op = .ge || op = .uLe || op = .uGe)
    { type := .int, min := value, max := value }
  else foldBinOpLattice lhs op rhs opTy

/-- `Select`. -/
def sccpSelect (node : Node) : Lattice :=
  let cond := L (node.inp 2)
  if cond.type = .top then {}
  else if cond.type = .int ∧ cond.min = cond.max then L (node.inp (if cond.min = 0 then 1 else 0))
  else latticeMeet (L (node.inp 0)) (L (node.inp 1))

/-- The values of a `Phi` with the control they come from. -/
def phiEdges (node : Node) : List (NodeId × NodeId) :=
  node.inps.tail.zip (prc.getNode (node.inp 0)).inps

/-- The lattice of a `Phi` before widening: what comes from the control that is alive. -/
def phiBase (node : Node) : Lattice :=
  let res := (phiEdges prc node).foldl (fun res e =>
    if (L e.2).dead = false ∧ (L e.2).type ≠ .top then latticeMeet res (L e.1) else res) {}
  latticeJoin res (dtToLattice node.dt)

/-- An interval that changes too often becomes that of the datatype. -/
def phiWiden (dt : Datatype) (curr res : Lattice) : Lattice :=
  if res.type = .int then
    if curr ≠ { res with widens := curr.widens } then
      let widens := min (curr.widens + 1) 4
      if widens = 4 then
        { res with widens := widens, min := (dtToLattice dt).min, max := (dtToLattice dt).max }
      else { res with widens := widens }
    else { res with widens := curr.widens }
  else res

/-- `Phi`. -/
def sccpPhi (node : Node) (curr : Lattice) : Lattice :=
  if node.inp 0 = 0 then {} else phiWiden node.dt curr (phiBase prc L node)

/-- `Then` and `Else`, from the lattice of their `If`. -/
def sccpBranch (node : Node) (res : Lattice) : Lattice :=
  if res.type ≠ .ctlr then res
  else
    let cond := L ((prc.getNode (node.inp 0)).inp 1)
    if cond.type = .top then { res with dead := true }
    else if cond.type = .int ∧ cond.min = cond.max then
      { res with dead := decide (node.itype = .else_) != decide (cond.min = 0) }
    else res

/-- Control nodes outside `FORWARD_EXCEPTIONS` start from the lattice of their control. -/
def forwards : NodeType → Bool
  | .nil | .region | .entry => false
  | t => t.isCfg

/-- A data node about which nothing better is known. -/
def orDatatype (node : Node) (res : Lattice) : Lattice :=
  if res.type = .top then dtToLattice node.dt else res

/-- `sccp_compute`. -/
def sccpCompute (id : NodeId) : Lattice :=
  let node := prc.getNode id
  let res := if forwards node.itype then L (node.inp 0) else {}
  if forwards node.itype ∧ res.dead = true then res
  else match node.itype with
    | .nil => .ofCtrl true
    | .cInt => orDatatype node (sccpCInt node)
    | .bin op => if node.dt.isVector then orDatatype node {} else sccpBinOp prc L node op
    | .select => sccpSelect L node
    | .phi => sccpPhi prc L node (L id)
    | .mem => { type := .mem }
    | .entry => { type := .ctlr }
    | .then_ | .else_ => sccpBranch prc L node res
    | .region => node.inps.foldl (fun res inp => latticeMeet res (L inp)) (.ofCtrl true)
    | t => if t.isCfg then res else orDatatype node res

/-- The nodes at which `sccp_compute` registers a trigger for `id`. -/
def sccpTriggers (id : NodeId) : List NodeId :=
  let node := prc.getNode id
  match node.itype with
  | .phi => if node.inp 0 = 0 then [] else (phiEdges prc node).map Prod.snd
  | .then_ | .else_ =>
    let res := L (node.inp 0)
    let cond := (prc.getNode (node.inp 0)).inp 1
    if res.dead = true ∨ res.type ≠ .ctlr ∨ (L cond).type = .bot then [] else [cond]
  | _ => []

end

/-! ### The worklist -/

/-- The state of the loop of `compute_latices`. -/
structure SccpState where
  /-- The nodes whose lattices are to be computed. -/
  queue : List NodeId
  /-- The lattices so far. -/
  lattices : Lattices
  /-- The nodes that are queued with one whose lattice changes, besides its users. -/
  triggers : NodeId → List NodeId

/-- `peep_ctx_add_trigger`. -/
def addTrigger (triggers : NodeId → List NodeId) (triggerer tar : NodeId) : NodeId → List NodeId :=
  if triggerer = 0 ∨ tar ∈ triggers triggerer then triggers
  else Function.update triggers triggerer (triggers triggerer ++ [tar])

/-- One round of the loop on the node `n`; `none` when the assertion fails. -/
def sccpVisit (prc : Proc) (s : SccpState) (n : NodeId) (queue : List NodeId) : Option SccpState :=
  let lat := sccpCompute prc s.lattices n
  let triggers := (sccpTriggers prc s.lattices n).foldl (fun t id => addTrigger t id n) s.triggers
  if isa (s.lattices n) lat then
    if lat.type ≠ .top ∧ s.lattices n ≠ lat then
      let queue := worklistAdd prc queue ((prc.getNode n).outs.map NodeOutput.id)
      -- `peep_ctx_flush_triggers`
      let queue := worklistAdd prc queue (triggers n)
      some { queue
             lattices := Function.update s.lattices n lat
             triggers := Function.update triggers n [] }
    else some { s with queue, triggers }
  else none

/-- What `compute_latices` comes to. -/
inductive SccpResult where
  | ok (lattices : Lattices)
  | assertFailed
  | running

/-- The assertion after the loop: recomputing a lattice changes nothing. -/
def sccpVerify (prc : Proc) (lattices : Lattices) : Bool :=
  (collectNodes prc).all fun n => lattices n == sccpCompute prc lattices n

/-- The loop of `compute_latices`, for at most `fuel` rounds. -/
@[grind =] def sccpLoop (prc : Proc) : ℕ → SccpState → SccpResult
  | 0, _ => .running
  | fuel + 1, s =>
    match s.queue with
    | [] => if sccpVerify prc s.lattices then .ok s.lattices else .assertFailed
    | n :: queue =>
      -- `worklist_next` drops the nodes that have died in the queue
      if prc.live n = false then sccpLoop prc fuel { s with queue }
      else match sccpVisit prc s n queue with
        | none => .assertFailed
        | some s' => sccpLoop prc fuel s'

/-- The state before the first round: every node is queued, and nothing is known. -/
def sccpInit (prc : Proc) : SccpState where
  queue := (collectNodes prc).reverse
  lattices := fun id => if id = 0 then .ofCtrl true else {}
  triggers := fun _ => []

/-- `compute_latices`. -/
def computeLatices (prc : Proc) (fuel : ℕ) : SccpResult := sccpLoop prc fuel (sccpInit prc)

end OdinSon
