import OdinSon.Bac.Datatype
import Mathlib.Data.List.Nodup

/-!
# The graph of a procedure

`bac/graph.odin`: a procedure is a sea of nodes in one arena.  A node has a kind, a datatype, its
extra words, the ordered list of its inputs and the list of its outputs, that is, of the places
where other nodes use it.  Node `0` is `NIL_NODE`; a deleted node has the kind `dead`
(`DEAD_NODE_KIND` in the source).

The twenty four binary operators share one constructor, as `Bin_Op(node.itype)` reads them.
-/

namespace OdinSon

open MachInt

/-- `Node_Type`, with the two kinds that `ssa` adds. -/
inductive NodeType where
  -- control
  | nil | entry | then_ | else_ | region | loop | callEnd | end_
  -- debug information
  | dbgSymDecl | dbgSymUpdate | dbgScope
  -- block tails
  | if_ | jump | trap | call | always | return_
  -- virtual
  | poison | mem | splitMem | mergeMem | sym | local | global
  -- abi
  | param | ret
  | phi
  | cInt
  | bin (op : BinOp)
  | split
  -- memory
  | localAddr | globalAddr | procAddr | copy | set | store | load
  -- unary
  | neg | not | cast | conv | uConv | splat | ctz
  | simdExtractLsbs | simdExtractMsbs | simdReduceAddBisect
  | select | threadId | laneId | uniformAddr
  -- ssa
  | scope | lazyPhi
  | dead
  deriving DecidableEq, Repr, Inhabited

namespace NodeType

/-- The kinds whose extra is a `Cfg` (bit `0` of `INHERITANCE_TABLE`). -/
@[grind =] def isCfg : NodeType → Bool
  | nil | entry | then_ | else_ | region | loop | callEnd
  | if_ | jump | trap | call | always | return_ => true
  | _ => false

end NodeType

/-- `Node_ID`: the place of a node in the arena. -/
abbrev NodeId := ℕ

/-- `Node_Output`: the user of a node and the input at which it is used. -/
structure NodeOutput where
  /-- The user. -/
  id : NodeId
  /-- The input of the user. -/
  idx : ℕ
  deriving DecidableEq, Repr, Inhabited

/-- `Node`, with the arrays it owns. -/
structure Node where
  /-- The kind of the node. -/
  itype : NodeType := .nil
  /-- The type of its value. -/
  dt : Datatype := .void
  /-- It writes memory. -/
  isStore : Bool := false
  /-- It reads memory. -/
  isLoad : Bool := false
  /-- The alignment of the address, as an exponent. -/
  memAlignmentPow : ℕ := 0
  /-- The type of the lanes of a vector. -/
  lane : LaneType := .i8
  /-- The extra, in `u32` words. -/
  extra : List ℕ := []
  /-- The inputs. -/
  inps : List NodeId := []
  /-- The uses of the node. -/
  outs : List NodeOutput := []
  deriving DecidableEq, Repr, Inhabited

namespace Node

/-- `node.inps[i]`; a node has the inputs that its kind demands. -/
def inp (n : Node) (i : ℕ) : NodeId := n.inps.getD i 0

/-- `get_extra(.., CInt).value`: the bits of the constant as a signed number. -/
def cIntValue (n : Node) : ℤ := i64 (n.extra.getD 0 0 + 2 ^ 32 * n.extra.getD 1 0)

end Node

/-- `Proc`: the arena up to `pos`, and the pinned nodes. -/
structure Proc where
  /-- The nodes, by their places in the arena. -/
  mem : NodeId → Node
  /-- The next free place. -/
  pos : ℕ
  /-- The node at which the procedure starts. -/
  entry : NodeId
  /-- The node at which it ends. -/
  end_ : NodeId

/-- `Basic_Block`, of a schedule: the node it starts with and what is in it. -/
structure BasicBlock where
  /-- The control node that the block starts with. -/
  head : NodeId
  /-- The nodes in the block, in their order. -/
  instrs : List NodeId

namespace Proc

variable (prc : Proc)

/-- `get_node`: the nil node stands at `0`. -/
def getNode (id : NodeId) : Node := if id = 0 then {} else prc.mem id

/-- The node has not been deleted. -/
def live (id : NodeId) : Bool := (prc.getNode id).itype ≠ .dead

/-- `is_cfg`. -/
def isCfg (id : NodeId) : Bool := (prc.getNode id).itype.isCfg

/-- `operation_datatype`. -/
def operationDatatype (node : Node) : Datatype :=
  let dt := match node.itype with
    | .bin op => if op.isComparison then (prc.getNode (node.inp 0)).dt else node.dt
    | _ => node.dt
  if dt.isVector then node.lane.toDt else dt

@[simp] theorem getNode_zero : prc.getNode 0 = {} := rfl

theorem getNode_of_ne {id : NodeId} (h : id ≠ 0) : prc.getNode id = prc.mem id := if_neg h

/-- A graph that is given as a list has no other nodes. -/
theorem getNode_of_length_le {nodes : List Node} {n : ℕ} {id : NodeId} (h : n ≤ id) (hpos : 0 < n)
    (hmem : prc.mem = fun id => nodes.getD id { itype := .dead }) (hlen : nodes.length = n) :
    prc.getNode id = { itype := .dead } := by
  rw [prc.getNode_of_ne (hpos.trans_le h).ne', hmem]
  exact List.getD_eq_default _ _ (hlen.le.trans h)

/-- The two directions of the links agree: a node lists exactly the inputs that name it, each once,
and nothing names a deleted node.  The nil node keeps no list. -/
structure DefUse : Prop where
  nodup : ∀ m, m ≠ 0 → prc.live m = true → (prc.getNode m).outs.Nodup
  mem_outs_iff : ∀ m, m ≠ 0 → prc.live m = true → ∀ n i,
    (⟨n, i⟩ : NodeOutput) ∈ (prc.getNode m).outs ↔
      prc.live n = true ∧ (prc.getNode n).inps[i]? = some m
  inps_live : ∀ n, prc.live n = true → ∀ m ∈ (prc.getNode n).inps, prc.live m = true

/-- In a graph without nodes from `k` on, what is true of a deleted node can be checked of the others
one by one. -/
theorem forall_getNode {prc : Proc} {k : ℕ}
    (hk : ∀ id, k ≤ id → prc.getNode id = { itype := .dead }) {P : NodeId → Node → Prop}
    (hdead : ∀ id, P id { itype := .dead }) (h : ∀ id < k, P id (prc.getNode id)) (id : NodeId) :
    P id (prc.getNode id) := by
  by_cases hlt : id < k
  · exact h id hlt
  · rw [hk id (not_lt.1 hlt)]
    exact hdead id

/-- In a graph without nodes from `k` on, the links can be checked one by one. -/
theorem DefUse.of_bounded {prc : Proc} {k : ℕ} (hk : ∀ id, k ≤ id → prc.live id = false)
    (hm : ∀ m < k, m ≠ 0 → prc.live m = true → (prc.getNode m).outs.Nodup ∧
      ∀ out ∈ (prc.getNode m).outs, prc.live out.id = true ∧
        (prc.getNode out.id).inps[out.idx]? = some m)
    (hn : ∀ n < k, prc.live n = true → ∀ i < (prc.getNode n).inps.length,
      prc.live ((prc.getNode n).inp i) = true ∧ ((prc.getNode n).inp i = 0 ∨
        (⟨n, i⟩ : NodeOutput) ∈ (prc.getNode ((prc.getNode n).inp i)).outs)) : prc.DefUse := by
  have hlt {id : NodeId} (h : prc.live id = true) : id < k := by
    by_contra hc
    rw [hk id (not_lt.1 hc)] at h
    cases h
  have hinp {n m : NodeId} {i : ℕ} (h : (prc.getNode n).inps[i]? = some m) :
      i < (prc.getNode n).inps.length ∧ (prc.getNode n).inp i = m := by
    refine ⟨(List.getElem?_eq_some_iff.1 h).1, ?_⟩
    rw [Node.inp, List.getD_eq_getElem?_getD, h, Option.getD_some]
  constructor
  · exact fun m h0 hl => (hm m (hlt hl) h0 hl).1
  · intro m h0 hl n i
    constructor
    · exact (hm m (hlt hl) h0 hl).2 ⟨n, i⟩
    · rintro ⟨hln, hi⟩
      obtain ⟨hlen, rfl⟩ := hinp hi
      exact (hn n (hlt hln) hln i hlen).2.resolve_left h0
  · intro n hl m hmem
    obtain ⟨i, hi⟩ := List.mem_iff_getElem?.1 hmem
    obtain ⟨hlen, rfl⟩ := hinp hi
    exact (hn n (hlt hl) hl i hlen).1

end Proc

end OdinSon
