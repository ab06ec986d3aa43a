import OdinSon.Ssa.LocalForward
import OdinSon.Ssa.LoadForward
import OdinSon.Ssa.SetLower

/-!
# The peephole

`peep` (`bac/ssa/peep.odin`), which is given one node and says what takes its place, and
`normalize_ctz` (`bac/codegen.odin`).  The parts with loops are in modules of their own.

A node that is only changed in place stays the node it is; of what happens inside it nothing is kept
here, but for the inputs that `Region` and `Phi` lose before they go on.
-/

namespace OdinSon

open MachInt

/-- What takes the place of a node: a node that is there already, or one that is added. -/
inductive Rewrite where
  | node (id : NodeId)
  | cInt (dt : Datatype) (value : ℤ)
  | unOp (op : NodeType) (dt : Datatype) (operand : Rewrite)
  | binOp (op : BinOp) (dt : Datatype) (lhs rhs : Rewrite)
  | select (dt : Datatype) (onTrue onFalse cond : NodeId)
  | store (ctrl : NodeId) (mem addr value : Rewrite)
  deriving DecidableEq

/-- What the floats of the machine do to the bits of a constant, which are those of an `f64`. -/
structure Floats where
  /-- The bits as an `f32`. -/
  toF32Bits : ℤ → ℤ
  /-- The `f64` of the bits of an `f32`. -/
  ofF32Bits : ℤ → ℤ
  /-- Rounded to an `f32`. -/
  toF32 : ℤ → ℤ
  /-- The conversions to an integer. -/
  toInt (unsigned : Bool) (src : Datatype) : ℤ → ℤ
  /-- The conversions from an integer. -/
  ofInt (unsigned : Bool) (dst : Datatype) : ℤ → ℤ
  /-- `float_ops`; a panic is a `none`. -/
  binOp : BinOp → Datatype → ℤ → ℤ → Option ℤ

/-- What `peep` is told besides the graph. -/
structure PeepCtx where
  /-- What is known of the nodes. -/
  lattices : Lattices
  /-- `peep_ctx_graph_is_complete`. -/
  complete : Bool
  /-- `select_types`, the datatypes that a `Select` can have. -/
  selectTypes : Datatype → Bool
  /-- The floats of the machine. -/
  floats : Floats

/-- `fold_un_op`; a failed assertion is a `none`. -/
def foldUnOp (F : Floats) (op : NodeType) (oper : ℤ) (dst src : Datatype) : Option ℤ :=
  match op with
  | .not => some (-oper - 1)
  | .neg => some (wrap 64 (-oper))
  | .cast =>
    if src.isFloat = dst.isFloat then none
    else if src = .f32 then some (F.toF32Bits oper)
    else if dst = .f32 then some (F.ofF32Bits oper)
    else some oper
  | .conv | .uConv =>
    let unsigned : Bool := op = .uConv
    if src.isFloat ∧ dst.isFloat then some (F.toF32 oper)
    else if src.isFloat = false ∧ dst.isFloat = false then
      if src.size > dst.size then some (i64 (u64 oper % 2 ^ dst.bits))
      else if unsigned then some (i64 (u64 oper % 2 ^ src.bits))
      else some (sext oper src)
    else if src.isFloat then some (F.toInt unsigned src oper)
    else some (F.ofInt unsigned dst oper)
  | _ => some 0

/-- `fold_bin_op`, also for floats. -/
def foldBin (F : Floats) (lhs : ℤ) (op : BinOp) (rhs : ℤ) (opTy : Datatype) : Option ℤ :=
  if opTy.isFloat then F.binOp op opTy lhs rhs else some (foldBinOp lhs op rhs opTy)

namespace BinOp

/-- `ZERO_IS_NEUTRAL`. -/
def zeroIsNeutral : BinOp → Bool
  | add | sub | or | shr | uShr | shl | xor | andNot => true
  | _ => false

/-- `ONE_IS_NEUTRAL`. -/
def oneIsNeutral : BinOp → Bool
  | mul | div => true
  | _ => false

/-- `SYMETRI_IS_ZERO`. -/
def symmetryIsZero : BinOp → Bool
  | sub | xor | andNot | ne | lt | gt | uLt | uGt => true
  | _ => false

/-- `SYMETRI_IS_ONE`. -/
def symmetryIsOne : BinOp → Bool
  | eq | le | ge | uLe | uGe => true
  | _ => false

/-- `ASOCIATIVE`. -/
def associative : BinOp → Bool
  | add | mul | and | or | xor => true
  | _ => false

/-- `COMUTATIVE_OR_SWAPPABLE`. -/
def commutativeOrSwappable : BinOp → Bool
  | add | mul | ne | eq | or | and | xor | ge | lt | gt | le | uGe | uLt | uGt | uLe => true
  | _ => false

end BinOp

section Code

variable (ctx : PeepCtx) (prc : Proc) (fuel : ℕ)

/-- `emilinate_dead_local`: a store to a local that is gone. -/
def storesToDeadLocal (id : NodeId) : Option Bool :=
  if prc.isStoreOp id then do
    let (base, _) ← prc.baseAndOffset fuel ((prc.getNode id).inp 2)
    let bnode := prc.getNode base
    some (bnode.itype = .localAddr && localSize prc (bnode.inp 0) = deadLocal)
  else some false

/-- `Dbg_Sym_Update`. -/
def peepDbgSymUpdate (node : Node) : Option Rewrite :=
  let prev := prc.getNode (node.inp 1)
  let prevv := prc.getNode (node.inp 0)
  if prev.itype = .dbgSymUpdate ∧ prev.inp 0 = node.inp 0 then some (.node (node.inp 1))
  else if prevv.itype = .phi ∧ (prev.itype ≠ .phi ∨ prev.inp 0 ≠ prevv.inp 0) then
    some (.node (node.inp 1))
  else none

/-- `Mem`. -/
def peepMem (node : Node) : Option Rewrite :=
  let inp := prc.getNode (node.inp 0)
  if inp.itype = .mem then some (.node (node.inp 0))
  else if inp.itype = .splitMem ∧ inp.outs.length = 1 then some (.node (inp.inp 0))
  else none

/-- `Merge_Mem`. -/
def peepMergeMem (node : Node) : Option Rewrite :=
  match node.inps.find? fun inp => (prc.getNode inp).itype = .mergeMem with
  | some inp => some (.node inp)
  | none => if node.inps.length = 1 then some (.node (node.inp 0)) else none

/-- The phis of a region or a loop. -/
def phisOf (node : Node) : List NodeId :=
  (node.outs.map NodeOutput.id).filter fun id => (prc.getNode id).itype = .phi

/-- `select_diamond`, for a node with the inputs `inps`: the `If` that the region is the end of. -/
def selectDiamond (region : NodeId) (inps : List NodeId) : Option NodeId :=
  match inps with
  | [l, r] =>
    let lhs := prc.getNode l
    let rhs := prc.getNode r
    let branches := lhs.itype = .then_ ∧ rhs.itype = .else_ ∨
      lhs.itype = .else_ ∧ rhs.itype = .then_
    if (prc.getNode region).itype = .region ∧ branches ∧ lhs.inp 0 = rhs.inp 0 ∧
        (prc.getNode (lhs.inp 0)).itype = .if_ ∧
        [l, r].all fun head => (prc.getNode head).outs.all fun out => out.id = region then
      some (lhs.inp 0)
    else none
  | _ => none

/-- What `can_speculate_select_value` answers by the kind alone. -/
def speculation (value : NodeId) : Option Bool :=
  let node := prc.getNode value
  match node.itype with
  | .cInt | .param | .ret | .phi | .localAddr | .globalAddr | .procAddr | .poison => some true
  | .bin .div | .bin .uDiv | .bin .rem | .bin .uRem => some false
  | _ => if node.isLoad || node.isStore || prc.isCfg value then some false else none

/-- `can_speculate_select_value`, with the budget that is left; every call takes one of it, so that
calls are not nested deeper than the budget. -/
def canSpeculate : ℕ → NodeId → ℕ → Bool × ℕ
  | 0, _, budget => (false, budget)
  | depth + 1, value, budget =>
    if budget = 0 then (false, 0)
    else
      match speculation prc value with
      | some ok => (ok, budget - 1)
      | none => (prc.getNode value).inps.foldl (fun r inp =>
        if r.1 then canSpeculate depth inp r.2 else r) (true, budget - 1)

/-- Both operands of a `Select` can be computed before the branch. -/
def canSpeculateBoth (a b : NodeId) : Bool :=
  let r := canSpeculate prc 65 a 64
  r.1 && (canSpeculate prc 65 b r.2).1

/-- A `Phi` with the inputs `inps` at the end of a diamond. -/
def peepDiamond (node : Node) (inps : List NodeId) : Option Rewrite :=
  let region := prc.getNode (inps.getD 0 0)
  match selectDiamond prc (inps.getD 0 0) region.inps with
  | none => none
  | some if_ =>
    let first := inps.getD 1 0
    let second := inps.getD 2 0
    let cond := (prc.getNode if_).inp 1
    if canSpeculateBoth prc first second = false then none
    else if (prc.getNode (region.inp 0)).itype = .then_ then
      some (.select node.dt first second cond)
    else some (.select node.dt second first cond)

/-- `Phi`. -/
def peepPhi (id : NodeId) (node : Node) : Option Rewrite :=
  let inps := if node.inp 0 = 0 ∧ 2 < node.inps.length then node.inps.eraseIdx 2 else node.inps
  let value : NodeId := inps.getD 1 0
  if inps.length = 2 then some (.node value)
  else if inps[2]? = some id then some (.node value)
  else if inps.length = 3 ∧ value = inps.getD 2 0 then some (.node value)
  else if ctx.selectTypes node.dt then peepDiamond prc node inps
  else none

/-- `Select`. -/
def peepSelect (node : Node) : Option Rewrite :=
  if node.inp 0 = node.inp 1 then some (.node (node.inp 0))
  else
    match prc.cInt (node.inp 2) with
    | some cond => some (.node (if cond = 0 then node.inp 1 else node.inp 0))
    | none => none

/-- `Then` and `Else`. -/
def peepBranch (node : Node) : Option Rewrite :=
  let if_ := prc.getNode (node.inp 0)
  if if_.itype ≠ .if_ then none
  else
    match prc.cInt (if_.inp 1) with
    | some cond =>
      if xor (cond = 0) (node.itype = .else_) then some (.node 0) else some (.node (if_.inp 0))
    | none => none

/-- What comes of a node. -/
structure PeepResult where
  /-- The replacement of the node. -/
  new : Option Rewrite := none
  /-- The phis that go with it, with what they become. -/
  phis : List (NodeId × NodeId) := []
  deriving DecidableEq

/-- Whether the back edge of a loop is the dead branch of an `If` on a constant; `none` if it is the
one that is taken. -/
def deadByLatch (id : NodeId) (node : Node) : Option Bool :=
  let bedge := prc.getNode (node.inp 1)
  if bedge.itype ≠ .if_ then some false
  else
    match prc.cInt (bedge.inp 1) with
    | none => some false
    | some cond =>
      let ctrls := (prc.getNode (bedge.inp 0)).outs.countP fun out => prc.isCfg out.id
      let others := bedge.outs.filter fun out => out.id ≠ id
      let alive : Bool := match others.getLast? with
        | none => bedge.outs.length = 1 && ctrls = 1
        | some out => xor ((prc.getNode out.id).itype = .else_) (cond = 0)
      if alive then none else some true

/-- `Loop`. -/
def peepLoop (id : NodeId) (node : Node) : PeepResult :=
  match deadByLatch prc id node with
  | none => {}
  | some dead =>
    if node.inp 0 = 0 ∨ node.inp 1 = 0 ∨ dead then
      { new := some (.node (node.inp 0)),
        phis := (phisOf prc node).map fun phi => (phi, (prc.getNode phi).inp 1) }
    else {}

/-- `Region`: the edges that are gone go, with the inputs of the phis. -/
def peepRegion (id : NodeId) (node : Node) : PeepResult :=
  match node.inps.filter (· ≠ 0) with
  | [] => { new := some (.node 0) }
  | [inp] =>
    let first := node.inps.findIdx (· ≠ 0)
    { new := some (.node inp),
      phis := (phisOf prc node).map fun phi => (phi, (prc.getNode phi).inp (first + 1)) }
  | inps =>
    match selectDiamond prc id inps with
    | some if_ =>
      if (phisOf prc node).isEmpty then { new := some (.node ((prc.getNode if_).inp 0)) } else {}
    | none => {}

/-- The unary operators; the outer `none` is a failed assertion. -/
def peepUnary (node : Node) : Option (Option Rewrite) :=
  let op := node.itype
  let operId := node.inp 0
  let oper := prc.getNode operId
  let converts : Bool := op = .conv || op = .uConv
  if converts ∧ oper.dt = node.dt then some (some (.node operId))
  else if converts ∧ oper.dt.isInt ∧ node.dt.isFloat ∧ oper.dt.size < 8 then
    some (some (.unOp op node.dt (.unOp op .i64 (.node operId))))
  else if op = .cast ∧ oper.dt = node.dt then some (some (.node operId))
  else if op = .cast ∧ oper.dt.isInt ∧ node.dt.isInt then none
  else
    match prc.cInt operId with
    | some value =>
      (foldUnOp ctx.floats op value node.dt oper.dt).map fun v => some (.cInt node.dt v)
    | none => some none

/-- A shift by a constant that is too large, and constants that change nothing. -/
def peepRightConst (op : BinOp) (node : Node) (opTy : Datatype) (value : ℤ) : Option Rewrite :=
  if op.isShift ∧ opTy.bits ≤ u64 value then
    if op ≠ .shr then some (.cInt node.dt 0)
    else
      let count := Rewrite.cInt (prc.getNode (node.inp 1)).dt (opTy.bits - 1)
      some (.binOp .shr node.dt (.node (node.inp 0)) count)
  else if op.zeroIsNeutral ∧ value = 0 then some (.node (node.inp 0))
  else if op.oneIsNeutral ∧ value = 1 then some (.node (node.inp 0))
  else none

/-- An operator whose operands are the same node. -/
def peepSymmetric (op : BinOp) (node : Node) : Option Rewrite :=
  if node.inp 0 ≠ node.inp 1 then none
  else if op.symmetryIsZero then some (.cInt .i64 0)
  else if op.symmetryIsOne then some (.cInt .i64 1)
  else none

/-- The constants of two operators come together. -/
def peepAssociative (op : BinOp) (node : Node) (opTy : Datatype) (value : ℤ) :
    Option (Option Rewrite) :=
  let lhs := prc.getNode (node.inp 0)
  if lhs.itype ≠ .bin op ∨ op.associative = false then some none
  else
    match prc.cInt (lhs.inp 1), prc.cInt (lhs.inp 0) with
    | some lvalue, none =>
      (foldBin ctx.floats lvalue op value opTy).map fun v =>
        some (.binOp op node.dt (.node (lhs.inp 0)) (.cInt node.dt v))
    | _, _ => some none

/-- A constant goes to the right; the node stays. -/
def peepSwap (op : BinOp) (id : NodeId) (node : Node) : Option Rewrite :=
  let isConst (inp : NodeId) : Bool := (prc.getNode inp).itype = .cInt
  if op.commutativeOrSwappable ∧ isConst (node.inp 0) ∧ ¬isConst (node.inp 1) then some (.node id)
  else none

/-- The binary operators; the outer `none` is a panic. -/
def peepBinary (op : BinOp) (id : NodeId) (node : Node) : Option (Option Rewrite) :=
  let opTy := prc.operationDatatype node
  match prc.cInt (node.inp 0), prc.cInt (node.inp 1) with
  | some l, some r => (foldBin ctx.floats l op r opTy).map fun v => some (.cInt node.dt v)
  | _, crhs =>
    if opTy.isInt = false then some (peepSwap prc op id node)
    else
      match crhs.bind (peepRightConst prc op node opTy) <|> peepSymmetric op node with
      | some new => some (some new)
      | none =>
        let new := match crhs with
          | some value => peepAssociative ctx prc op node opTy value
          | none => some none
        new.map (· <|> peepSwap prc op id node)

/-- `add_store`, of a constant. -/
def WideStore.rewrite (w : WideStore) : Rewrite :=
  .store w.ctrl (.node w.mem) (.node w.addr) (.cInt w.dt w.imm.toInt)

/-- `Store`. -/
def peepStore (id : NodeId) : Option (Option Rewrite) := do
  match ← coalesceStores prc fuel id with
  | some w => some (some w.rewrite)
  | none => do
    let mem ← storeEliminate prc fuel id fuel
    some (mem.map .node)

/-- The zero stores that take the place of a `Set`. -/
def zeroStores (node : Node) (slots : List (ℤ × Datatype)) : Rewrite :=
  let dst (offset : ℤ) := Rewrite.binOp .add .i64 (.node (node.inp 2)) (.cInt .i64 offset)
  slots.foldl (fun mem (offset, dt) => .store (node.inp 0) mem (dst offset) (.cInt dt 0))
    (.node (node.inp 1))

/-- `peep` by the kind of the node, but for loops and regions. -/
def peepKind (id : NodeId) (node : Node) : Option (Option Rewrite) :=
  match node.itype with
  | .dbgScope =>
    some (if (prc.getNode (node.inp 0)).outs.length ≤ 1 then some (.node 0) else none)
  | .dbgSymUpdate => some (peepDbgSymUpdate prc node)
  | .splitMem => some (if node.outs.length = 1 then some (.node (node.inp 0)) else none)
  | .mem => some (peepMem prc node)
  | .mergeMem => some (peepMergeMem prc node)
  | .localAddr => if ctx.complete then (localForward prc fuel id).map (·.map .node) else some none
  | .phi => some (peepPhi ctx prc id node)
  | .select => some (peepSelect prc node)
  | .then_ | .else_ => some (peepBranch prc node)
  | .neg | .not | .cast | .conv | .uConv => peepUnary ctx prc node
  | .bin op => peepBinary ctx prc op id node
  | .load => (forwardLoad prc fuel fuel id).map (·.map .node)
  | .store => peepStore prc fuel id
  | .set =>
    if ctx.complete then (SetLower.lowerSet prc fuel id).map (·.map (zeroStores node))
    else some none
  | .copy => some (if node.inp 2 = node.inp 3 then some (.node (node.inp 1)) else none)
  | _ => some none

/-- `peep`; `none` for a failed assertion, or a loop that does not end in `fuel` rounds. -/
def peep (id : NodeId) : Option PeepResult :=
  let node := prc.getNode id
  match peepLattice prc ctx.lattices id with
  | some .nil => some { new := some (.node 0) }
  | some (.cInt dt value) => some { new := some (.cInt dt value) }
  | none => do
    if ← storesToDeadLocal prc fuel id then some { new := some (.node (node.inp 1)) }
    else
      match node.itype with
      | .loop => some (peepLoop prc id node)
      | .region => some (peepRegion prc id node)
      | _ => do
        let new ← peepKind ctx prc fuel id node
        some { new }

/-- The place in the order of `Node_Datatype`. -/
def Datatype.rank : Datatype → ℕ
  | .void => 0
  | .mem => 1
  | .i8 => 2
  | .i16 => 3
  | .i32 => 4
  | .i64 => 5
  | .f32 => 6
  | .f64 => 7
  | .v128 => 8
  | .v256 => 9
  | .v512 => 10

/-- `normalize_ctz`. -/
def normalizeCtz (minWidth : Datatype) (id : NodeId) : Option Rewrite :=
  let node := prc.getNode id
  if node.dt.rank < minWidth.rank then
    let bit := Rewrite.cInt minWidth (2 ^ node.dt.bits)
    some (.unOp .ctz minWidth (.binOp .or minWidth (.node (node.inp 0)) bit))
  else none

end Code

end OdinSon
