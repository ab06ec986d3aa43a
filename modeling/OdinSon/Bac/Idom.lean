import OdinSon.Bac.Graph
import OdinSon.Lib.Dominators
import OdinSon.Lib.MachInt
import Mathlib.Logic.Function.Basic

/-!
# Immediate dominators with cached depths

`get_idepth`, `get_idom` and `compute_lca` (`bac/gcm.odin`).  The depth of a node is one more than that
of its input, or than the largest one of a `Region`, and stays in the extra of the node: it counts
while it is above `min_idepth`, so that all of them are dropped at once by raising that to `max_idepth`
(`invalidate_idepth`).  The immediate dominator of a `Region` is the nearest common dominator of its
inputs, for which the deeper of two nodes goes up until they meet.

The graph is changed by inlining and by loop rotation, each with an invalidation, and by the scheduler,
which puts a `Jump` between a block and the `Region` or `Loop` after it, without one.
-/

namespace OdinSon

open Lib

/-- The control flow part of a procedure. -/
structure Cfg where
  /-- The kinds of the nodes. -/
  itype : NodeId → NodeType
  /-- The inputs of the nodes. -/
  inps : NodeId → List NodeId
  /-- The node at which the procedure starts. -/
  entry : NodeId
  /-- The next free place. -/
  pos : NodeId
  /-- The number of nodes that were made. -/
  gvn : ℕ

/-- A procedure, for dominators. -/
structure CfgProc where
  /-- The nodes. -/
  cfg : Cfg
  /-- The depths that are stored with the nodes. -/
  idepth : NodeId → ℕ
  /-- Depths up to this one do not count any more. -/
  minIdepth : ℕ
  /-- The greatest depth that was stored. -/
  maxIdepth : ℕ

namespace CfgProc

/-- Store a depth, as a `u32`. -/
def setIdepth (prc : CfgProc) (id : NodeId) (d : ℕ) : CfgProc × ℕ :=
  let d := d % 2 ^ 32
  ({ prc with idepth := Function.update prc.idepth id d, maxIdepth := max prc.maxIdepth d }, d)

/-- `get_idepth`; `none` for a node that is not control flow, or without fuel. -/
@[grind =] def getIdepth : ℕ → CfgProc → NodeId → Option (CfgProc × ℕ)
  | 0, _, _ => none
  | n + 1, prc, id =>
    if prc.minIdepth < prc.idepth id then some (prc, prc.idepth id)
    else
      match prc.cfg.itype id with
      | .nil => some (prc, (prc.minIdepth + 1) % 2 ^ 32)
      | .entry => some (prc.setIdepth id (prc.minIdepth + 1))
      | .return_ | .if_ | .else_ | .then_ | .jump | .loop | .callEnd | .call | .trap | .always => do
        let inp ← (prc.cfg.inps id)[0]?
        let (prc, d) ← getIdepth n prc inp
        return prc.setIdepth id (1 + d)
      | .region => do
        let (prc, mx) ← (prc.cfg.inps id).foldlM (fun (acc : CfgProc × ℕ) inp => do
          let (prc, d) ← getIdepth n acc.1 inp
          return (prc, max acc.2 d)) (prc, 0)
        return prc.setIdepth id (1 + mx)
      | _ => none

mutual

/-- `compute_lca`. -/
def computeLca : ℕ → CfgProc → NodeId → NodeId → Option (CfgProc × NodeId)
  | 0, _, _, _ => none
  | n + 1, prc, a, b =>
    if a = b then some (prc, a)
    else if a = 0 then some (prc, b)
    else if b = 0 then some (prc, a)
    else do
      let (prc, adepth) ← getIdepth n prc a
      let (prc, bdepth) ← getIdepth n prc b
      let (prc, a) ← (if adepth ≥ bdepth then getIdom n prc a else some (prc, a))
      let (prc, b) ← (if bdepth ≥ adepth then getIdom n prc b else some (prc, b))
      computeLca n prc a b

/-- `get_idom`. -/
@[grind =] def getIdom : ℕ → CfgProc → NodeId → Option (CfgProc × NodeId)
  | 0, _, _ => none
  | n + 1, prc, id =>
    match prc.cfg.itype id with
    | .entry | .nil => some (prc, 0)
    | .return_ | .if_ | .else_ | .then_ | .jump | .loop | .callEnd | .call | .trap | .always => do
      let inp ← (prc.cfg.inps id)[0]?
      return (prc, inp)
    | .region =>
      (prc.cfg.inps id).foldlM (fun (acc : CfgProc × NodeId) inp => computeLca n acc.1 acc.2 inp)
        (prc, 0)
    | _ => none

end

/-- `invalidate_idepth`. -/
def invalidateIdepth (prc : CfgProc) : CfgProc := { prc with minIdepth := prc.maxIdepth }

/-- The scheduler (`cfg_reverse_postorder`) puts a `Jump` after `root`, as the input `idx` of
`target`. -/
def insertJump (prc : CfgProc) (root target : NodeId) (idx : ℕ) : CfgProc :=
  let jmp := prc.cfg.pos
  { prc with
    cfg := { prc.cfg with
      itype := Function.update prc.cfg.itype jmp .jump
      inps := Function.update (Function.update prc.cfg.inps jmp [root]) target
        ((prc.cfg.inps target).set idx jmp)
      pos := jmp + 1
      gvn := prc.cfg.gvn + 1 }
    idepth := Function.update prc.idepth jmp 0 }

/-- The depth is cached. -/
def Cached (prc : CfgProc) (id : NodeId) : Prop := prc.minIdepth < prc.idepth id

instance (prc : CfgProc) (id : NodeId) : Decidable (prc.Cached id) := inferInstanceAs (Decidable (_ < _))

end CfgProc

namespace Cfg

variable (c : Cfg)

/-- The inputs of a node that are control flow. -/
def ctrls (id : NodeId) : List NodeId :=
  match c.itype id with
  | .region | .loop => c.inps id
  | .return_ | .if_ | .else_ | .then_ | .jump | .callEnd | .call | .trap | .always =>
    (c.inps id).take 1
  | _ => []

/-- Those but for the back edge of a `Loop`. -/
def forwards (id : NodeId) : List NodeId :=
  match c.itype id with
  | .loop => (c.inps id).take 1
  | _ => c.ctrls id

/-- Control goes from `p` to `id`; an input `0` is dead. -/
def Edge (p id : NodeId) : Prop := p ∈ c.ctrls id ∧ p ≠ 0

/-- It does so, but not back to a `Loop`. -/
def Forward (p id : NodeId) : Prop := p ∈ c.forwards id ∧ p ≠ 0

/-- Control can reach the node. -/
def Live (id : NodeId) : Prop := Relation.ReflTransGen c.Edge c.entry id

/-- Dominance along all edges. -/
abbrev Dom (d id : NodeId) : Prop := Dominates c.Edge c.entry d id

/-- Ranks of the live nodes that grow along forward edges. -/
structure Ranked (rank : NodeId → ℕ) : Prop where
  le : ∀ id, rank id ≤ c.gvn
  lt : ∀ p id, c.Live id → c.Forward p id → rank p < rank id

/-- A graph as the builder and the passes leave it: there are no loops without a `Loop`, and a `Loop`
dominates its back edge. -/
structure WF : Prop where
  nil : c.itype 0 = .nil
  entry : c.itype c.entry = .entry
  eq_entry : ∀ id, c.Live id → c.itype id = .entry → id = c.entry
  forward : ∀ id, c.Live id → id ≠ c.entry → ∃ p, c.Forward p id
  inps_live : ∀ p id, c.Live id → c.Edge p id → c.Live p
  back : ∀ id p, c.Live id → c.itype id = .loop → (c.inps id)[1]? = some p → p ≠ 0 → c.Dom id p
  two : ∀ id, c.itype id = .loop → (c.inps id).length ≤ 2
  acyclic : ∃ rank, c.Ranked rank
  entry_lt : c.entry < c.pos
  inps_lt : ∀ id, ∀ p ∈ c.inps id, p < c.pos
  free : ∀ id, c.pos ≤ id → c.itype id = .nil ∧ c.inps id = []

end Cfg

end OdinSon
