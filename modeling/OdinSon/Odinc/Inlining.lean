import OdinSon.Lib.SwapRemove
import Mathlib.Algebra.BigOperators.Group.Finset.Basic
import Mathlib.Algebra.GroupWithZero.Nat
import Mathlib.Data.List.Perm.Subperm

/-!
# Inlining across the program

`inline_and_optimize` of `odinc/gen.odin`.  The procedures with a body have a stencil, and what the
inliner reads of one is its calls, the addresses of procedures that it takes, and its weight.  The call
graph is split into strongly connected components (`strongConnect`), which are visited from the callees
up (`sccOrder`).  A caller gets the bodies of its callees in place of calls (`visitCalls`); each time, the
number of call sites that the callee had at the start goes down by one, and at zero its stencil is
dropped.

The copy of a body and the optimizer that runs after a caller are parameters (`Passes`): they may lose
calls and addresses, and make none.
-/

namespace OdinSon.Odinc.Inlining

/-- What the inliner reads of a stencil. -/
structure Body where
  /-- The callees of the calls, in the order of the outputs of `Sym`. -/
  calls : List ℕ
  /-- The procedures of the `Proc_Addr` nodes. -/
  addrs : List ℕ
  /-- The weight of the stencil. -/
  weight : ℕ
  deriving DecidableEq, Repr

/-- What `inline_call` copies of a body, and what `ssa.opt` makes of one. -/
structure Passes where
  /-- The copy of a body. -/
  clone : Body → Body
  /-- The body that is left. -/
  opt : Body → Body
  clone_calls : ∀ b, (clone b).calls.Subperm b.calls
  clone_addrs : ∀ b, (clone b).addrs ⊆ b.addrs
  opt_calls : ∀ b, (opt b).calls.Subperm b.calls
  opt_addrs : ∀ b, (opt b).addrs ⊆ b.addrs

/-- The stencils of the procedures. -/
abbrev Procs := ℕ → Option Body

/-! ### The call graph -/

def callerToCallee (procs : Procs) (i : ℕ) : List ℕ :=
  match procs i with
  | none => []
  | some b => b.calls

/-- The callers of a procedure, once for each call. -/
def calleeToCaller (n : ℕ) (procs : Procs) (callee : ℕ) : List ℕ :=
  (List.range n).flatMap fun i => ((callerToCallee procs i).filter (· = callee)).map fun _ => i

/-- `SCC_Asoc`. -/
structure SccAsoc where
  /-- When it was visited, `0` if it was not. -/
  index : ℕ := 0
  /-- The lowest index on the stack that was found from here. -/
  lowlink : ℕ := 0
  /-- The number of its component. -/
  sccId : ℕ := 0
  /-- It is on the stack. -/
  onStack : Bool := false

/-- `S_Ctx`. -/
structure SCtx where
  /-- What is known of the procedures. -/
  sccAsoc : ℕ → SccAsoc := fun _ => {}
  /-- The components that are complete. -/
  sccs : List (List ℕ) := []
  /-- The procedures without a component. -/
  stack : List ℕ := []
  /-- The number of those that were visited. -/
  index : ℕ := 0

def SCtx.modify (c : SCtx) (i : ℕ) (f : SccAsoc → SccAsoc) : SCtx :=
  { c with sccAsoc := Function.update c.sccAsoc i (f (c.sccAsoc i)) }

/-- `strong_connect`. -/
def strongConnect (callees : ℕ → List ℕ) : ℕ → ℕ → SCtx → SCtx
  | 0, _, c => c
  | fuel + 1, caller, c =>
    let mark := c.stack.length
    let index := c.index + 1
    let c := { c with index, stack := c.stack ++ [caller] }
    let c := c.modify caller fun s => { s with index, lowlink := index, onStack := true }
    let c := (callees caller).foldl (fun c callee =>
      if (c.sccAsoc callee).index = 0 then
        let c := strongConnect callees fuel callee c
        c.modify caller fun s => { s with lowlink := min s.lowlink (c.sccAsoc callee).lowlink }
      else if (c.sccAsoc callee).onStack then
        c.modify caller fun s => { s with lowlink := min s.lowlink (c.sccAsoc callee).index }
      else c) c
    if (c.sccAsoc caller).index = (c.sccAsoc caller).lowlink then
      let members := c.stack.drop mark
      let c := members.foldl (fun c i =>
        c.modify i fun s => { s with sccId := c.sccs.length, onStack := false }) c
      { c with sccs := c.sccs ++ [members], stack := c.stack.take mark }
    else c

/-- The components of the `n` procedures. -/
def components (n : ℕ) (callees : ℕ → List ℕ) : SCtx :=
  (List.range n).foldl (fun c i =>
    if (c.sccAsoc i).index = 0 then strongConnect callees (n + 1) i c else c) {}

/-- The components that call a member of component `i`, once for each call. -/
def callerSccs (c : SCtx) (callers : ℕ → List ℕ) (i : ℕ) : List ℕ :=
  (c.sccs.getD i []).flatMap fun m => (callers m).map fun edg => (c.sccAsoc edg).sccId

/-- The loop over `scc_order`, which grows on the way: a component follows when the last of its callees
has been visited. -/
def growOrder (callerIds : ℕ → List ℕ) : ℕ → ℕ → List ℕ → (ℕ → ℤ) → List ℕ
  | 0, _, order, _ => order
  | fuel + 1, i, order, rc =>
    match order.drop i with
    | [] => order
    | scc :: _ =>
      let r := (callerIds scc).foldl (fun (r : List ℕ × (ℕ → ℤ)) id =>
        let left := r.2 id - 1
        (if left = 0 then r.1 ++ [id] else r.1, Function.update r.2 id left)) (order, rc)
      growOrder callerIds fuel (i + 1) r.1 r.2

/-- `scc_order`. -/
def sccOrder (c : SCtx) (callers : ℕ → List ℕ) : List ℕ :=
  let ids := List.range c.sccs.length
  let rc : ℕ → ℤ := fun id =>
    ((ids.map fun i => ((callerSccs c callers i).filter fun j => j = id ∧ j ≠ i).length).sum : ℕ)
  growOrder (callerSccs c callers) c.sccs.length 0 (ids.filter fun i => rc i = 0) rc

/-! ### Inlining -/

/-- `Weight_Category`, in order. -/
def weightCata (weight : ℕ) : ℕ :=
  if weight < 10 then 0 else if weight < 30 then 1 else if weight < 50 then 2
  else if weight < 100 then 3 else 4

/-- `weight_cata_can_merge`; `Medium` is `2`. -/
def weightCataCanMerge (caller callee : ℕ) : Bool :=
  !(caller < 2 && callee > 2) && (callee < 2 || (caller = callee && caller = 2))

/-- The state of the inliner. -/
structure State where
  /-- The stencils. -/
  procs : Procs
  /-- The numbers of call sites. -/
  sites : ℕ → ℕ

/-- The callee that is inlined in place of a call to `q`, if it is. -/
def inlined (sccId : ℕ → ℕ) (m callerWct : ℕ) (s : State) (q : ℕ) : Option Body := do
  let callee ← s.procs q
  guard (sccId q ≠ sccId m)
  guard (callee.weight ≤ 1000)
  guard (weightCataCanMerge callerWct (weightCata (callee.weight * s.sites q)) ∨ s.sites q ≤ 1)
  return callee

variable (P : Passes)

/-- `inline_call` at the `j`-th call: the calls of the copy come after those there are, and the last
call takes the place of the one that is gone. -/
def Body.inline (body : Body) (j : ℕ) (callee : Body) : Body :=
  { calls := swapRemove (body.calls ++ (P.clone callee).calls) j
    addrs := body.addrs ++ (P.clone callee).addrs
    weight := body.weight + (P.clone callee).weight }

/-- One call site fewer; the last one drops the stencil. -/
def State.release (s : State) (q : ℕ) : State :=
  { procs := if s.sites q - 1 = 0 then Function.update s.procs q none else s.procs
    sites := Function.update s.sites q (s.sites q - 1) }

variable (sccId : ℕ → ℕ)

/-- The calls of a caller, from the `j`-th down. -/
def visitCalls (m callerWct : ℕ) : ℕ → State × Body → State × Body
  | 0, r => r
  | j + 1, (s, body) =>
    match body.calls.drop j with
    | [] => visitCalls m callerWct j (s, body)
    | q :: _ =>
      match inlined sccId m callerWct s q with
      | none => visitCalls m callerWct j (s, body)
      | some callee => visitCalls m callerWct j (s.release q, body.inline P j callee)

/-- One caller. -/
def visitCaller (s : State) (m : ℕ) : State :=
  match s.procs m with
  | none => s
  | some body =>
    let r := visitCalls P sccId m (weightCata body.weight) body.calls.length (s, body)
    { r.1 with procs := Function.update r.1.procs m (some (P.opt r.2)) }

def visitCallers (s : State) (order : List ℕ) : State := order.foldl (visitCaller P sccId) s

/-- The stencils at the start, with the counts of all calls. -/
def State.initial (stencils : List (Option Body)) : State :=
  let procs : Procs := fun i => stencils.getD i none
  ⟨procs, fun q => (calleeToCaller stencils.length procs q).length⟩

/-- The components of the procedures, and the order in which they are visited. -/
def visitOrder (stencils : List (Option Body)) : (ℕ → ℕ) × List ℕ :=
  let procs : Procs := fun i => stencils.getD i none
  let c := components stencils.length (callerToCallee procs)
  (fun i => (c.sccAsoc i).sccId,
    (sccOrder c (calleeToCaller stencils.length procs)).flatMap fun i => c.sccs.getD i [])

/-- `inline_and_optimize`, as far as the stencils that it emits. -/
def inlineAndOptimize (stencils : List (Option Body)) : Procs :=
  let r := visitOrder stencils
  (visitCallers P r.1 (State.initial stencils) r.2).procs

end OdinSon.Odinc.Inlining
