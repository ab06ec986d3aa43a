import OdinSon.Lib.Components
import OdinSon.Lib.Countdown

/-!
# The order of the call graph

The first part of `inline_and_optimize` (`odinc/gen.odin`): the strongly connected components of the
call graph by `strong_connect`, and the order in which they are optimized, callees first.  The graph is
one of lists: a procedure that calls another one twice has it in its list twice.
-/

namespace OdinSon.Odinc

open Lib

/-- The procedures and their calls. -/
structure CallGraph where
  /-- The callees of each procedure. -/
  callerToCallee : List (List ℕ)
  valid : ∀ egs ∈ callerToCallee, ∀ e ∈ egs, e < callerToCallee.length

/-- `SCC_Asoc`. -/
structure SccAsoc where
  /-- When it was visited, `0` if it was not. -/
  index : ℕ := 0
  /-- The lowest index on the stack that was found from here. -/
  lowlink : ℕ := 0
  /-- The number of its component. -/
  sccId : ℕ := 0
  /-- It is on the stack. -/
  onStack : Bool := false

/-- `S_Ctx`, of what `strong_connect` uses. -/
structure SCtx where
  /-- What is known of the procedures. -/
  sccAsoc : ℕ → SccAsoc := fun _ => {}
  /-- The components that are complete, by their members. -/
  sccs : List (List ℕ) := []
  /-- The procedures without a component. -/
  stack : List ℕ := []
  /-- The number of those that were visited. -/
  index : ℕ := 0

namespace SCtx

/-- The start of `strong_connect`. -/
def enter (s : SCtx) (caller : ℕ) : SCtx :=
  let index := s.index + 1
  { s with
    index
    sccAsoc := Function.update s.sccAsoc caller
      { s.sccAsoc caller with index, lowlink := index, onStack := true }
    stack := s.stack ++ [caller] }

/-- The low link of the caller, lowered. -/
def lower (s : SCtx) (caller bound : ℕ) : SCtx :=
  { s with
    sccAsoc := Function.update s.sccAsoc caller
      { s.sccAsoc caller with lowlink := min (s.sccAsoc caller).lowlink bound } }

/-- The end of `strong_connect`: the set is taken from the stack if the caller is its root. -/
def close (s : SCtx) (caller stackMark : ℕ) : SCtx :=
  if (s.sccAsoc caller).index = (s.sccAsoc caller).lowlink then
    let members := s.stack.drop stackMark
    { s with
      sccAsoc := fun n =>
        if n ∈ members then { s.sccAsoc n with sccId := s.sccs.length, onStack := false }
        else s.sccAsoc n
      stack := s.stack.take stackMark
      sccs := s.sccs ++ [members] }
  else s

/-- A call, with the recursion as a parameter. -/
def visitCallee (connect : SCtx → ℕ → Option SCtx) (caller : ℕ) (s : SCtx) (callee : ℕ) :
    Option SCtx :=
  if (s.sccAsoc callee).index = 0 then
    (connect s callee).map fun s => s.lower caller (s.sccAsoc callee).lowlink
  else if (s.sccAsoc callee).onStack then some (s.lower caller (s.sccAsoc callee).index)
  else some s

end SCtx

namespace CallGraph

variable (g : CallGraph)

/-- `len(ctx.procs)`. -/
def count : ℕ := g.callerToCallee.length

def callees (caller : ℕ) : List ℕ := g.callerToCallee.getD caller []

/-- `strong_connect`, to a depth of so many calls. -/
def strongConnect : ℕ → SCtx → ℕ → Option SCtx
  | 0, _, _ => none
  | fuel + 1, s, caller => do
    let stackMark := s.stack.length
    let s ← (g.callees caller).foldlM (fun s callee => s.visitCallee (strongConnect fuel) caller callee)
      (s.enter caller)
    return s.close caller stackMark

/-- The loop that calls it. -/
def findSccs : Option SCtx :=
  (List.range g.count).foldlM (fun s i =>
    if (s.sccAsoc i).index = 0 then strongConnect g g.count s i else some s) {}

/-- `callee_to_caller`. -/
def calleeToCaller : ℕ → List ℕ :=
  (List.range g.count).foldl (fun callers i =>
    (g.callees i).foldl (fun callers e => Function.update callers e (callers e ++ [i])) callers)
    fun _ => []

/-- The sets of the callers of the members of a set, in the order of the loops over them. -/
def callerIds (s : SCtx) (i : ℕ) : List ℕ :=
  (s.sccs.getD i []).flatMap fun m => (g.calleeToCaller m).map fun edg => (s.sccAsoc edg).sccId

/-- The loops that count the calls from a set to others. -/
def countRc (s : SCtx) : ℕ → ℤ :=
  (List.range s.sccs.length).foldl (fun rc i =>
    (g.callerIds s i).foldl (fun rc id => Function.update rc id (rc id + if id ≠ i then 1 else 0)) rc)
    fun _ => 0

/-- The loop over `scc_order` from the place `i` on; nothing where the assertion fails. -/
def orderLoop (s : SCtx) : ℕ → ℕ → List ℕ → (ℕ → ℤ) → Option (List ℕ)
  | 0, _, _, _ => none
  | fuel + 1, i, order, rc =>
    match order[i]? with
    | none => some order
    | some si =>
      if rc si = 0 then
        let (rc, order) := countdown (g.callerIds s si) rc order
        orderLoop s fuel (i + 1) order rc
      else none

/-- The sets, and the order of their places. -/
def sccOrder : Option (SCtx × List ℕ) := do
  let s ← g.findSccs
  let rc := g.countRc s
  let order := (List.range s.sccs.length).filter (rc · = 0)
  return (s, ← g.orderLoop s (s.sccs.length + 1) 0 order rc)

/-- A procedure calls another one. -/
def Calls (caller callee : ℕ) : Prop := callee ∈ g.callees caller

end CallGraph

end OdinSon.Odinc
