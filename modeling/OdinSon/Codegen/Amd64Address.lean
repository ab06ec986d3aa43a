import OdinSon.Bac.Graph
import Mathlib.Tactic.IntervalCases

/-!
# Selecting addresses for amd64

The parts of `peep` (`bac/amd64/amd64.odin`) that build memory operands.  A memory operand has a
base, an index with a scale, and a displacement of 32 bits; what `base_and_offset` collects from the
address, and what a `Lea` brings along, has to fit into the displacement.

A sum of constants that does not fit is left out, and with it the base.  A displacement that a
node has already, to which another is added, wraps.
-/

namespace OdinSon.Codegen.Amd64

/-- `Mem_Op`, as far as addresses go. -/
structure MemOp where
  /-- The constant operand. -/
  imm : BitVec 32 := 0
  /-- The displacement. -/
  dis : BitVec 32 := 0
  /-- What the index is multiplied with. -/
  scale : BitVec 8 := 0
  /-- The type of what is in memory. -/
  dt : Datatype := .void
  deriving DecidableEq

/-- The nodes, with their inputs; of a `Store` that stores a constant there is no value.  There is
an index if the scale is not zero. -/
inductive Op where
  | nil
  | cInt (value : BitVec 64)
  | add (lhs rhs : NodeId)
  | mul (lhs rhs : NodeId)
  | local_
  | global
  | localAddr (slot : NodeId)
  | globalAddr (slot : NodeId)
  | load (ctrl mem addr : NodeId)
  | store (ctrl mem addr value : NodeId)
  | amd64Add (lhs : NodeId) (m : MemOp)
  | amd64Mul (lhs : NodeId) (m : MemOp)
  | amd64Lea (base index : NodeId) (m : MemOp)
  | amd64Load (ctrl mem base : NodeId) (index : NodeId) (m : MemOp)
  | amd64Store (ctrl mem base : NodeId) (value : Option NodeId) (index : NodeId) (m : MemOp)
  | other
  deriving DecidableEq

/-- A node. -/
structure AddrNode where
  /-- The kind of the node, with its inputs. -/
  op : Op := .nil
  /-- The type of its value. -/
  dt : Datatype := .void
  deriving DecidableEq

/-- A graph. -/
structure AddrGraph where
  /-- The nodes, by their places. -/
  node : NodeId → AddrNode
  /-- The nil node stands at `0`. -/
  nil : node 0 = {}

/-- `int(i32(x)) == x`. -/
def fitsI32 (x : BitVec 64) : Bool := (x.setWidth 32).signExtend 64 = x

/-- What a displacement takes of a sum of constants: all of it, or nothing if it does not fit. -/
def low (off : BitVec 64) : BitVec 32 := if fitsI32 off then off.setWidth 32 else 0

/-- `math.is_power_of_two`. -/
def isPowerOfTwo (x : BitVec 32) : Bool := 0 < x.toInt && x &&& (x - 1) = 0

namespace AddrGraph

variable (g : AddrGraph)

/-- `get_extra(.., CInt)`, with its value. -/
def cInt (id : NodeId) : Option (BitVec 64) :=
  match (g.node id).op with
  | .cInt value => some value
  | _ => none

/-- `addr_add_offset`. -/
def addrAddOffset : Op → Option (NodeId × BitVec 64)
  | .amd64Add lhs m => some (lhs, m.imm.signExtend 64)
  | _ => none

/-- The loop of `base_and_offset_proc`, for at most `fuel` rounds. -/
def baseAndOffsetFrom : ℕ → NodeId → BitVec 64 → Option (NodeId × BitVec 64)
  | 0, _, _ => none
  | fuel + 1, base, off =>
    let bnode := g.node base
    match bnode.op, bnode.dt.isInt with
    | .add lhs rhs, true =>
      match g.cInt rhs with
      | none => some (base, off)
      | some value => baseAndOffsetFrom fuel lhs (off + value)
    | op, _ =>
      match addrAddOffset op with
      | some (hbase, hoff) => baseAndOffsetFrom fuel hbase (off + hoff)
      | none => some (base, off)

/-- `base_and_offset`, with `addr_add_offset`. -/
def baseAndOffset (fuel : ℕ) (id : NodeId) : Option (NodeId × BitVec 64) :=
  g.baseAndOffsetFrom fuel id 0

/-- `rhs_const` and `val_const`: a constant that fits into 32 bits. -/
def smallConst (id : NodeId) : Option (BitVec 32) :=
  match g.cInt id with
  | some value =>
    if fitsI32 value ∧ (g.node id).dt ≠ .f64 ∧ (g.node id).dt.isVector = false then
      some (value.setWidth 32)
    else none
  | none => none

/-- What the selection comes to. -/
structure Selected where
  /-- The base. -/
  base : NodeId
  /-- The index, `0` if there is none. -/
  index : NodeId
  /-- What the index is multiplied with. -/
  scale : BitVec 8
  /-- The displacement. -/
  displacement : BitVec 32

/-- The displacement, and the index if there is one, join those that a node has. -/
def Selected.merge (s : Selected) (index : NodeId) (m : MemOp) : NodeId × MemOp :=
  let dis := m.dis + s.displacement
  if s.scale ≠ 0 then (s.index, { m with dis, scale := s.scale }) else (index, { m with dis })

/-- A `Lea` at the base joins the operand; its base and the one to go on with are the same then. -/
def joinLea (nbase base : NodeId) (displacement : BitVec 32) : Option (Selected × NodeId) :=
  match (g.node nbase).op with
  | .amd64Lea lbase index m =>
    if displacement.saddOverflow m.dis then none
    else some (⟨lbase, index, m.scale, displacement + m.dis⟩, lbase)
  | _ => some (⟨base, 0, 0, displacement⟩, nbase)

/-- The address of a local or a global at the base is taken for the slot itself. -/
def joinSlot (hasOwnIndex : Bool) (nbase : NodeId) (s : Selected) : Selected :=
  match (g.node nbase).op with
  | .localAddr slot => { s with base := slot }
  | .globalAddr slot => if s.index = 0 ∧ ¬hasOwnIndex then { s with base := slot } else s
  | _ => s

/-- The operand for the address `addr`; a failed assertion is a `none`. -/
def selectAddress (fuel : ℕ) (hasOwnIndex : Bool) (addr : NodeId) : Option Selected := do
  let (nbase, ndisplacement) ← g.baseAndOffset fuel addr
  let base := if fitsI32 ndisplacement then nbase else 0
  let (s, nbase) ← g.joinLea nbase base (low ndisplacement)
  some (g.joinSlot hasOwnIndex nbase s)

/-- The factor and the index that an operand of an `Add` stands for. -/
def scaledIndex (rhs : NodeId) : BitVec 32 × NodeId :=
  match (g.node rhs).op with
  | .amd64Mul lhs m => (m.imm, lhs)
  | .mul lhs c =>
    match g.cInt c with
    | some value => if fitsI32 value then (value.setWidth 32, lhs) else (1, rhs)
    | none => (1, rhs)
  | _ => (1, rhs)

/-- The `Lea` of the base `abase`, with the constants `offset`, and an index; unless it would be an
`Add` again. -/
def indexedLea (abase : NodeId) (offset : BitVec 64) (ascale : BitVec 32) (aindex : NodeId) :
    Option Op :=
  let m : MemOp := { scale := ascale.setWidth 8, dis := low offset }
  match (g.node abase).op with
  | .localAddr slot => some (.amd64Lea slot aindex m)
  | _ => if ascale = 1 ∧ low offset = 0 then none else some (.amd64Lea abase aindex m)

/-- `indexify`: the `Lea` that takes the place of an `Add`, if any. -/
def indexify (fuel : ℕ) (lhs rhs : NodeId) : Option (Option Op) := do
  let (ascale, aindex) := g.scaledIndex rhs
  if 8 < ascale.toInt ∨ ¬isPowerOfTwo ascale then some none
  else if (g.cInt aindex).isSome then some none
  else
    let (abase, offset) ← g.baseAndOffset fuel lhs
    some (g.indexedLea abase offset ascale aindex)

/-- `peep` on the nodes that have addresses: what takes the place of the node, or what it becomes,
if anything changes. -/
def peep (fuel : ℕ) (id : NodeId) : Option (Option Op) :=
  let dt := (g.node id).dt
  match (g.node id).op with
  | .add lhs rhs =>
    if dt.isInt = false then some none
    else
      match g.smallConst rhs with
      | some imm => some (some (.amd64Add lhs { imm }))
      | none => g.indexify fuel lhs rhs
  | .load ctrl mem addr => do
    let s ← g.selectAddress fuel false addr
    some (some (.amd64Load ctrl mem s.base s.index { dis := s.displacement, scale := s.scale, dt }))
  | .store ctrl mem addr value => do
    let s ← g.selectAddress fuel false addr
    let m : MemOp := { dis := s.displacement, scale := s.scale, dt := (g.node value).dt }
    match g.smallConst value with
    | some imm => some (some (.amd64Store ctrl mem s.base none s.index { m with imm }))
    | none => some (some (.amd64Store ctrl mem s.base (some value) s.index m))
  | .amd64Load ctrl mem base index m => do
    let s ← g.selectAddress fuel (m.scale ≠ 0) base
    if s.scale ≠ 0 ∧ m.scale ≠ 0 then some none
    else some (some (.amd64Load ctrl mem s.base (s.merge index m).1 (s.merge index m).2))
  | .amd64Store ctrl mem base value index m => do
    let s ← g.selectAddress fuel (m.scale ≠ 0) base
    if s.scale ≠ 0 ∧ m.scale ≠ 0 then some none
    else
      some (some (.amd64Store ctrl mem s.base value (s.merge index m).1 (s.merge index m).2))
  | _ => some none

end AddrGraph

end OdinSon.Codegen.Amd64
