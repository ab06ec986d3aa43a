import OdinSon.Bac.Collect
import OdinSon.Bac.Edit
import OdinSon.Lib.Relocation

/-!
# Compacting and stencilling a graph

`compact` (`bac/graph.odin`) copies the nodes that are kept behind the old ones, in the order in
which `collect_nodes` found them, renames everything they name, and moves the result to where the
arena begins.  `get_stencil` and `mount_stencil` move a graph from one arena to another.

The arena (`utils/arna`) reserves addresses and commits them as it grows.  While `compact` writes, the
pointer of the arena stands behind the old nodes, and the number of the words that are committed is
still counted from where it stood before.

Sizes and places are in words of `PRECISION` bytes.
-/

namespace OdinSon

/-- `mem.PAGE_SIZE`. -/
def pageWords : ℕ := 2 ^ 10

/-- What an arena commits at a time. -/
def commitChunk : ℕ := 2 ^ 18

/-- `mem.align_forward`. -/
def alignForward (x alignment : ℕ) : ℕ := (x + alignment - 1) / alignment * alignment

/-- `arna.Allocator`, but for `pos`. -/
structure Arena where
  /-- Where the memory starts, in words. -/
  ptr : ℕ
  /-- The words that are commited, from `ptr` on. -/
  commited : ℕ
  /-- The words that are reserved, from `ptr` on. -/
  reserved : ℕ
  /-- The words that may be written. -/
  mapped : ℕ → Bool

namespace Arena

/-- Commit enough for `size` words more. -/
def commit (a : Arena) (size : ℕ) : Option Arena := do
  let chunk := alignForward (max (min commitChunk (a.reserved - a.commited)) size) pageWords
  guard (a.commited + chunk ≤ a.reserved)
  return { a with
    commited := a.commited + chunk
    mapped := fun x => a.mapped x ||
      decide (a.ptr + a.commited ≤ x ∧ x < a.ptr + a.commited + chunk) }

/-- Commit more, if `end_` lies behind what is committed. -/
def ensure (a : Arena) (end_ size : ℕ) : Option Arena :=
  if a.commited < end_ then a.commit size else some a

/-- Every word of the slice may be written. -/
def writable (a : Arena) (base size : ℕ) : Bool :=
  (List.range size).all fun i => a.mapped (a.ptr + base + i)

/-- `arna.alloc` in an arena that is filled up to `pos`: where the slice starts, which is written at
once.  Without room, and when a word cannot be written, the program ends there. -/
def alloc (a : Arena) (pos size alignment : ℕ) : Option (Arena × ℕ) := do
  let base := alignForward pos alignment
  guard (base + size ≤ a.reserved)
  let a ← a.ensure (base + size) size
  guard (base + size ≤ a.commited)
  guard (a.writable base size)
  return (a, base)

/-- `arna.init_from_buffer`. -/
def initFromBuffer (ptr len : ℕ) : Arena where
  ptr := ptr
  commited := len + 1
  reserved := len
  mapped x := decide (ptr ≤ x ∧ x < ptr + len)

end Arena

namespace Graph

/-- `arna.alloc` in the arena of the graph. -/
def allocIn (g : Graph) (a : Arena) (size alignment : ℕ) : Option (Arena × Graph × ℕ) := do
  let (a, base) ← a.alloc g.pos size alignment
  return (a, { g with pos := base + size }, base)

/-- The assertions of `assert_live_pins`. -/
def pinsLive (g : Graph) : Bool :=
  (g.getNode g.entry).itype = .entry ∧ (g.getNode g.end_).itype = .end_

/-! ### Compacting -/

/-- A node goes behind what is there, with its inputs and its outputs behind it.  It names what it
named in `prev`. -/
def moveNode (prev : Graph) (n : NodeId) (a : Arena) (g : Graph) :
    Option (Arena × Graph × NodeId) := do
  let node := prev.getNode n
  guard (n ≠ 0)
  let (a, g, id) ← g.allocIn a (prev.nodeWords node.extra) 1
  let (a, g, _) ← g.allocIn a node.inps.length 1
  let (a, g, _) ← g.allocIn a node.outs.length 1
  return (a, { g.setNode id node with
    inputCap := Function.update g.inputCap id node.inps.length
    outputCap := Function.update g.outputCap id node.outs.length }, id)

/-- The first loop of `compact`, and where the nodes have gone. -/
def moveNodes (prev : Graph) : List NodeId → Arena → Graph → Option (Arena × Graph × List NodeId)
  | [], a, g => some (a, g, [])
  | n :: ns, a, g => do
    let (a, g, id) ← prev.moveNode n a g
    let (a, g, ids) ← moveNodes prev ns a g
    return (a, g, id :: ids)

/-- `interner_grow` of an interner without entries. -/
def growInterner (g : Graph) (a : Arena) (newCap : ℕ) : Option (Arena × Graph) :=
  if newCap = 0 then some (a, g)
  else do
    let (a, g, _) ← g.allocIn a (newCap / 4) 4
    let (a, g, _) ← g.allocIn a newCap 1
    return (a, { g with internerCap := newCap })

/-- `project`: the number of a node is its place among the collected ones, and there stands now where
it has gone. -/
def project (order ids : List NodeId) (n : NodeId) : Option NodeId :=
  if n ∈ order then some (Relocation.rename order ids 0 n) else none

/-- The place of a `Node_Output` has twenty two bits. -/
def projectOutput (order ids : List NodeId) (out : NodeOutput) : Option NodeOutput := do
  let id ← project order ids out.id
  return ⟨id % 2 ^ 22, out.idx⟩

/-- What the second loop of `compact` makes of an input. -/
def relinkInput (prev g : Graph) (order ids : List NodeId) (inp : NodeId) : Option NodeId := do
  let id ← project order ids inp
  guard ((prev.getNode inp).itype = (g.getNode id).itype)
  return id

/-- A node goes into the interner. -/
def enter (g : Graph) (id : NodeId) : Option Graph :=
  if (g.getNode id).itype.isInterned then do
    guard (g.interner.length < g.internerCap)
    return { g with interner := g.interner ++ [⟨nodeHash (g.getNode id), id⟩] }
  else some g

/-- The second loop of `compact`. -/
def relinkNodes (prev : Graph) (order ids : List NodeId) : List NodeId → Graph → Option Graph
  | [], g => some g
  | n :: ns, g => do
    let node := g.getNode n
    let inps ← node.inps.mapM (relinkInput prev g order ids)
    let outs ← node.outs.mapM (projectOutput order ids)
    let g ← (g.setNode n { node with inps, outs }).enter n
    relinkNodes prev order ids ns g

/-- `compact`. -/
def compact (a : Arena) (g : Graph) : Option (Arena × Graph) := do
  guard g.pinsLive
  let order := collectNodes g.toProc
  let (b, prc, ids) ← g.moveNodes order.tail { a with ptr := a.ptr + g.pos } (empty g.hasDbg)
  let internedCount := order.tail.countP fun n => (g.getNode n).itype.isInterned
  let (b, prc) ← prc.growInterner b (alignForward internedCount 16)
  let prc ← relinkNodes g order (0 :: ids) ids prc
  guard (prc.interner.length = internedCount)
  let entry ← project order (0 :: ids) g.entry
  let end_ ← project order (0 :: ids) g.end_
  let b := { b with ptr := a.ptr }
  guard (b.writable 0 prc.pos)
  let prc := { prc with entry, end_ }
  guard prc.pinsLive
  return (b, prc)

/-! ### Stencils -/

/-- `Proc_Meta`. -/
structure Info where
  /-- The entries of the interner. -/
  interner : List SSEntry
  /-- The capacity of the interner. -/
  internerCap : ℕ
  /-- There is debug information for the nodes. -/
  hasDbg : Bool
  /-- The node at which the procedure starts. -/
  entry : NodeId
  /-- The node at which it ends. -/
  end_ : NodeId

/-- `Stencil`: the words of the arena from `ptr` on, which hold nodes with the arrays they own. -/
structure Stencil where
  /-- Where the words start. -/
  ptr : ℕ
  /-- The number of the words. -/
  len : ℕ
  /-- The nodes, by their places. -/
  mem : NodeId → Node
  /-- The capacities of the arrays of inputs. -/
  inputCap : NodeId → ℕ
  /-- The capacities of the arrays of outputs. -/
  outputCap : NodeId → ℕ
  /-- What comes along with the nodes. -/
  info : Info

/-- `get_stencil`. -/
def getStencil (a : Arena) (g : Graph) : Stencil where
  ptr := a.ptr
  len := g.pos
  mem id := if id < g.pos then g.mem id else { itype := .dead }
  inputCap := g.inputCap
  outputCap := g.outputCap
  info := ⟨g.interner, g.internerCap, g.hasDbg, g.entry, g.end_⟩

/-- The graph that a stencil is of. -/
def ofStencil (s : Stencil) : Graph where
  mem := s.mem
  pos := s.len
  entry := s.info.entry
  end_ := s.info.end_
  interner := s.info.interner
  internerCap := s.info.internerCap
  inputCap := s.inputCap
  outputCap := s.outputCap
  hasDbg := s.info.hasDbg

/-- `mount_stencil`: a graph without an arena borrows the words of the stencil, another gets a copy
of them. -/
def mountStencil (a : Option Arena) (s : Stencil) : Option (Arena × Graph) :=
  match a with
  | none => some (.initFromBuffer s.ptr s.len, ofStencil s)
  | some a => do
    let (a, _) ← a.alloc 0 s.len 1
    return (a, ofStencil s)

end Graph

end OdinSon
