import OdinSon.Bac.Alias
import OdinSon.Bac.Edit

/-!
# Building a graph

The builders of `bac/ssa/ssa.odin`.  A `Scope` node has the control in its first input and the current
values of the variables in the others.  Branches work on copies of the scope, which `merge_scopes`
joins with phis.  In a loop the variables are the scope of the loop until they are asked for; then
they become a `Lazy_Phi`, which `end_loop` completes, or drops if nothing was assigned.

The graphs here have no debug information.  A builder that stops at an assertion gives `none`.
-/

namespace OdinSon

/-- A builder: what it returns, and the graph after it. -/
abbrev Build := StateT Graph Option

namespace Build

/-- The depth to which an edit may nest. -/
def depth : ℕ := 100

/-! ### The graph -/

/-- `get_node`. -/
def getNode (id : NodeId) : Build Node := do return (← get).getNode id

/-- An edit without a result. -/
def edit (f : Graph → Option Graph) : Build Unit := fun g => (f g).map fun g => ((), g)

/-- An edit with one. -/
def editGet {α : Type} (f : Graph → Option (Graph × α)) : Build α :=
  fun g => (f g).map fun r => (r.2, r.1)

/-- `add_raw`, with the lane it has by default. -/
def addRaw (itype : NodeType) (dt : Datatype) (extra : List ℕ) (inps : List NodeId)
    (extraCapacity : ℕ) : Build NodeId :=
  editGet fun g => g.addRaw itype dt .i8 extra inps extraCapacity

/-- `set_input`. -/
def setInput (id : NodeId) (idx : ℕ) (value : NodeId) : Build Unit := do
  discard (editGet fun g => g.setInput depth id idx value false)

/-- `connect`. -/
def connect (use def_ : NodeId) : Build ℕ := editGet fun g => g.connect use def_

/-- `clone`. -/
def clone (id : NodeId) : Build NodeId := editGet fun g => g.clone id

/-- `delete_node`. -/
def deleteNode (id : NodeId) : Build Unit := edit fun g => Graph.deleteNode depth g id

/-- `subsume`. -/
def subsume (w target : NodeId) : Build Unit := edit fun g => Graph.subsume depth g w target

/-- Write the kind of a node, or a word of its extra, in its place. -/
def modifyNode (id : NodeId) (f : Node → Node) : Build Unit :=
  modify fun g => g.setNode id (f (g.getNode id))

/-! ### `node_specs.odin` -/

/-- `add_then`, `add_else`, `add_if`, `add_region`, `add_return`, `add_entry`: the extra is a `Cfg`. -/
def addCfg (itype : NodeType) (inps : List NodeId) : Build NodeId := addRaw itype .void [0] inps 0

/-- `add_bin_op`. -/
def addBinOp (op : BinOp) (dt : Datatype) (lhs rhs : NodeId) : Build NodeId :=
  addRaw (.bin op) dt [] [lhs, rhs] 0

/-- `add_c_int`. -/
def addCInt (dt : Datatype) (value : ℤ) : Build NodeId :=
  addRaw .cInt dt [MachInt.u64 value % 2 ^ 32, MachInt.u64 value / 2 ^ 32] [] 0

/-- `add_param`. -/
def addParam (dt : Datatype) (entry : NodeId) (idx : ℕ) : Build NodeId :=
  addRaw .param dt [idx] [entry] 0

/-- `add_phi`. -/
def addPhi (dt : Datatype) (reg lhs rhs : NodeId) : Build NodeId :=
  addRaw .phi dt [] [reg, lhs, rhs] 0

/-- `add_scope`. -/
def addScope (ctrl : NodeId) : Build NodeId := addRaw .scope .void [0] [ctrl] 0

/-- `is_always_valid_ptr`. -/
def isAlwaysValidPtr (ptr : NodeId) : Build Bool := do
  let g ← get
  let (bptr, _) ← (g.baseAndOffset depth ptr : Option _)
  return (g.getNode bptr).itype = .globalAddr ∨ (g.getNode bptr).itype = .localAddr

/-- `add_load`. -/
def addLoad (dt : Datatype) (ctrl mem addr : NodeId) : Build NodeId := do
  let ctrl := if ← isAlwaysValidPtr addr then 0 else ctrl
  addRaw .load dt [] [ctrl, mem, addr] 0

/-- `add_store`. -/
def addStore (ctrl mem addr value : NodeId) : Build NodeId := do
  let ctrl := if ← isAlwaysValidPtr addr then 0 else ctrl
  addRaw .store .mem [] [ctrl, mem, addr, value] 0

/-! ### Scopes -/

/-- `get_scope_value`, for at most `fuel` scopes. -/
def getScopeValueFrom : ℕ → NodeId → ℕ → Build NodeId
  | 0, _, _ => failure
  | fuel + 1, scope, idx => do
    let snode ← getNode scope
    guard (snode.itype = .scope)
    let pval := snode.inp idx
    let vnode ← getNode pval
    if vnode.itype ≠ .scope then
      return pval
    let mut val ← getScopeValueFrom fuel pval idx
    let cvnode ← getNode val
    let done := (← getNode pval).extra.getD 0 0 ≠ 0
    if (cvnode.itype ≠ .lazyPhi ∨ vnode.inp 0 ≠ cvnode.inp 0) ∧ ¬done then
      guard ((← getNode (vnode.inp 0)).itype = .loop)
      val ← addRaw .lazyPhi cvnode.dt [] [vnode.inp 0, val] 1
      setInput pval idx val
    setInput scope idx val
    return val

/-- `get_scope_value`. -/
def getScopeValue (scope : NodeId) (idx : ℕ) : Build NodeId := getScopeValueFrom depth scope idx

/-- `push_scope_value`. -/
def pushScopeValue (scope value : NodeId) : Build ℕ := do
  guard ((← getNode scope).itype = .scope)
  connect scope value

/-- `set_scope_value`. -/
def setScopeValue (scope : NodeId) (idx : ℕ) (value : NodeId) : Build Unit := do
  discard (getScopeValue scope idx)
  setInput scope idx value

/-- `truncate_scope`. -/
def truncateScope (scope : NodeId) (toLen : ℕ) : Build Unit :=
  edit fun g => g.truncateInputs depth scope toLen

/-- `merge_scopes`. -/
def mergeScopes (lctrl rctrl : NodeId) : Build NodeId := do
  if lctrl = 0 then return rctrl
  if rctrl = 0 then return lctrl
  let lnode ← getNode lctrl
  let rnode ← getNode rctrl
  guard (lnode.itype = .scope ∧ rnode.itype = .scope)
  let lcount := lnode.inps.length
  guard (lcount = rnode.inps.length)
  let region ← addCfg .region [lnode.inp 0, rnode.inp 0]
  for i in List.range' 1 (lcount - 1) do
    if (← getNode lctrl).inp i ≠ (← getNode rctrl).inp i then
      let lvalue ← getScopeValue lctrl i
      let rvalue ← getScopeValue rctrl i
      if lvalue ≠ rvalue then
        setInput lctrl i (← addPhi (← getNode lvalue).dt region lvalue rvalue)
  setInput lctrl 0 region
  deleteNode rctrl
  return lctrl

/-! ### Branches -/

/-- `If_State`. -/
structure IfState where
  /-- The `If`. -/
  if_ : NodeId
  /-- The scope of the branch that is not being built. -/
  branch : NodeId

/-- `start_if`. -/
def startIf (scope cond : NodeId) : Build IfState := do
  let if_ ← addCfg .if_ [(← getNode scope).inp 0, cond]
  let elseScope ← clone scope
  setInput scope 0 (← addCfg .then_ [if_])
  return { if_, branch := elseScope }

/-- `start_else`: the scope of the other branch. -/
def startElse (thenScope : NodeId) (state : IfState) : Build (NodeId × IfState) := do
  setInput state.branch 0 (← addCfg .else_ [state.if_])
  return (state.branch, { state with branch := thenScope })

/-- `end_else`. -/
def endElse (elseScope : NodeId) (state : IfState) : Build NodeId :=
  mergeScopes state.branch elseScope

/-! ### Loops -/

/-- `Loop_State`. -/
structure LoopState where
  /-- The scope at the head of the loop. -/
  scope : NodeId
  /-- The scope of the `break`s so far. -/
  breaks : NodeId := 0
  /-- The scope of the `continue`s so far. -/
  continues : NodeId := 0

/-- `start_loop`. -/
def startLoop (scope : NodeId) : Build LoopState := do
  let loop ← addRaw .loop .void [0] [(← getNode scope).inp 0] 1
  setInput scope 0 loop
  let loopScope ← clone scope
  edit fun g => g.addOutput loopScope 0 0
  for i in List.range' 1 ((← getNode scope).inps.length - 1) do
    setInput scope i loopScope
  return { scope := loopScope }

/-- `loop_control` with `Break`. -/
def loopBreak (scope : NodeId) (loop : LoopState) : Build LoopState := do
  truncateScope scope (← getNode loop.scope).inps.length
  return { loop with breaks := ← mergeScopes scope loop.breaks }

/-- `loop_control` with `Continue`. -/
def loopContinue (scope : NodeId) (loop : LoopState) : Build LoopState := do
  truncateScope scope (← getNode loop.scope).inps.length
  return { loop with continues := ← mergeScopes scope loop.continues }

/-- The loop of `end_loop` over the scopes of loops that are done, for at most `fuel` of them. -/
def skipDone (loop : NodeId) (i : ℕ) : ℕ → NodeId → Build NodeId
  | 0, _ => failure
  | fuel + 1, id => do
    let bnode ← getNode id
    if bnode.itype ≠ .scope ∨ bnode.extra.getD 0 0 = 0 ∨ bnode.inp 0 = loop then
      return id
    skipDone loop i fuel (bnode.inp i)

/-- A variable of the loop gets its value from the back edge, or is dropped. -/
def closePhi (loop bscope : NodeId) (i : ℕ) (init : NodeId) : Build Unit := do
  let inode ← getNode init
  if inode.itype = .lazyPhi ∧ inode.inp 0 = loop then
    let value ← skipDone loop i depth ((← getNode bscope).inp i)
    if (← getNode value).itype = .scope ∨ init = value then
      subsume (inode.inp 1) init
    else
      discard (connect init value)
      modifyNode init fun node => { node with itype := .phi }
      let id ← editGet fun g => g.intern init
      if id ≠ init then
        subsume id init

/-- `end_loop`, of a loop with a back edge; the scope after the loop. -/
def endLoop (scope : NodeId) (state : LoopState) : Build NodeId := do
  let state ← loopContinue scope state
  let bscope := state.continues
  let loop := (← getNode state.scope).inp 0
  guard ((← getNode loop).itype = .loop)
  guard (bscope ≠ 0)
  let count := (← getNode state.scope).inps.length
  guard (count = (← getNode bscope).inps.length)
  for i in List.range' 1 (count - 1) do
    closePhi loop bscope i ((← getNode state.scope).inp i)
  discard (connect loop ((← getNode bscope).inp 0))
  let exit := state.breaks
  if exit ≠ 0 then
    for i in List.range' 1 ((← getNode exit).inps.length - 1) do
      let enode ← getNode ((← getNode exit).inp i)
      if enode.itype = .scope ∧ enode.inp 0 = loop then
        setInput exit i ((← getNode state.scope).inp i)
  modifyNode state.scope fun node => { node with extra := [1] }
  edit fun g => g.unpin depth state.scope
  deleteNode bscope
  return exit

/-! ### The procedure -/

/-- `start_proc`: the memory at the entry. -/
def startProc : Build NodeId := do
  let entry ← addCfg .entry []
  let end_ ← addRaw .end_ .void [] [0] 0
  modify fun g => { g with entry := entry, end_ := end_ }
  edit fun g => g.pin end_
  addRaw .mem .mem [] [entry] 0

/-- `merge_return`. -/
def mergeReturn (args : List NodeId) : Build NodeId := do
  let end_ := (← get).end_
  let ret := (← getNode end_).inp 0
  if ret = 0 then
    let ret ← addCfg .return_ args
    setInput end_ 0 ret
    return ret
  let reg ← addCfg .region [(← getNode ret).inp 0, args.getD 0 0]
  setInput ret 0 reg
  for (inp, i) in (← getNode ret).inps.tail.zipIdx do
    setInput ret (i + 1) (← addPhi (← getNode inp).dt reg inp (args.getD (i + 1) 0))
  return ret

end Build

end OdinSon
