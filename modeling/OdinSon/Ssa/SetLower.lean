import OdinSon.Ssa.MemoptSlots
import Mathlib.Data.List.Sort

/-!
# Lowering the zeroing of a local

The `Set` part of `peep` (`bac/ssa/peep.odin`).  The accesses of the local are put together in
slots, which are cut where an access starts or ends inside; the operations after the `Set` say which
slots are initialised before they are read; the gaps between the slots are filled.  What is not
initialised is zeroed by stores, if these are few.

A failed assertion and a loop that does not end are a `none`.
-/

namespace OdinSon.SetLower

open MachInt

/-- The `state` of a `Slot`. -/
inductive SlotState where
  | uninit | needsInit | inited
  deriving DecidableEq, Repr

/-- `Slot`: a range of bytes of the local. -/
structure Slot where
  /-- The number of bytes. -/
  size : ℤ
  /-- Whether they need the value of the `Set`. -/
  state : SlotState
  /-- The first byte. -/
  offset : ℤ
  deriving DecidableEq, Repr

namespace Slot

/-- A slot; the fields of the `bit_field` have 30 and 32 bits. -/
def of (size offset : ℤ) : Slot := ⟨wrap 30 size, .uninit, wrap 32 offset⟩

/-- `send`. -/
def send (s : Slot) : ℤ := s.offset + s.size

/-- The `u64` of the `bit_field`, by which slots are sorted. -/
def key (s : Slot) : ℤ :=
  let state : ℤ := match s.state with
    | .uninit => 0
    | .needsInit => 1
    | .inited => 2
  s.size % 2 ^ 30 + 2 ^ 30 * state + 2 ^ 32 * (s.offset % 2 ^ 32)

/-- `state` becomes `to_` if nothing is known yet. -/
def mark (s : Slot) (to_ : SlotState) : Slot :=
  if s.state = .uninit then { s with state := to_ } else s

end Slot

/-- `cap(slots)`. -/
def slotsCap : ℕ := 16

/-- `cap(members)`. -/
def membersCap : ℕ := 32

/-- `MAX_STORE_UNIT`. -/
def maxStoreUnit : ℤ := 16

/-- `math.is_power_of_two`. -/
def isPowerOfTwo (x : ℤ) : Bool := 0 < x && x.toNat &&& (x.toNat - 1) = 0

/-- `align_of`. -/
def alignOf (offset : ℤ) : ℤ :=
  if offset = 0 then maxStoreUnit
  else (BitVec.ofInt 64 offset &&& -BitVec.ofInt 64 offset).toInt

/-! ### The slots -/

/-- The accesses that were found. -/
structure Members where
  /-- The number of the members. -/
  count : ℕ := 0
  /-- The accesses do not go together. -/
  corrupt : Bool := false

/-- An access that is no load becomes a member. -/
def Members.add (m : Members) (load : Bool) : Members :=
  if load then m
  else if m.count < membersCap then { m with count := m.count + 1 }
  else { m with corrupt := true }

/-- The loop over the slots for an access up to `stop`, the last slot first.  What is left of the
access is a size and an offset, unless a slot takes all of it. -/
def trimSlots (load : Bool) (stop : ℤ) :
    List Slot → ℤ → ℤ → Members → List Slot × Option (ℤ × ℤ) × Members
  | [], size, offset, m => ([], some (size, offset), m)
  | slot :: slots, size, offset, m =>
    if stop ≤ slot.offset ∨ slot.send ≤ offset then
      let (slots, r) := trimSlots load stop slots size offset m
      (slot :: slots, r)
    else
      let iterIsInside := slot.offset ≤ offset ∧ stop ≤ slot.send
      let slotIsInside := offset ≤ slot.offset ∧ slot.send ≤ stop
      let startMatches := offset = slot.offset
      let endMatches := slot.send = stop
      let corrupt := m.corrupt || decide (¬iterIsInside ∧ ¬slotIsInside) ||
        decide (¬startMatches ∧ ¬endMatches)
      let m := { m with corrupt }.add load
      if iterIsInside ∧ slotIsInside then (slot :: slots, none, m)
      else if slotIsInside then
        let (slots, r) := trimSlots load stop slots (size - slot.size)
          (if startMatches then slot.send else offset) m
        (slot :: slots, r)
      else if iterIsInside then
        let start := if startMatches then wrap 32 stop else slot.offset
        let trimmed : Slot := ⟨wrap 30 (slot.size - size), slot.state, start⟩
        let (slots, r) := trimSlots load stop slots size offset m
        (trimmed :: slots, r)
      else (slot :: slots, none, m)

/-- The variables of the scan. -/
structure SetScan where
  /-- The slots, the last one first. -/
  slots : List Slot := []
  /-- The accesses. -/
  members : Members := {}

section Code

variable (prc : Proc) (fuel : ℕ)

/-- One round of `scan`, for a use of the local at `offset`; a use that is too long is the end. -/
def scanUser (id : NodeId) (dstSize : ℤ) (user : NodeOutput) (offset : ℤ) (scan : SetScan) :
    Option (Option SetScan) :=
  if user.id = id ∨ user.idx ≠ 2 then some (some scan)
  else
    match prc.memOpSize user.id with
    | none => some (some scan)
    | some size =>
      if size = 0 then none
      else
        let stop := wrap 64 (offset + size)
        if dstSize < size ∨ dstSize < stop then some none
        else
          let load : Bool := (prc.getNode user.id).itype = .load
          match trimSlots load stop scan.slots size offset scan.members with
          | (slots, none, m) => some (some ⟨slots, m⟩)
          | (slots, some (size, offset), m) =>
            let m := m.add load
            if slots.length < slotsCap then some (some ⟨Slot.of size offset :: slots, m⟩)
            else some (some ⟨slots, { m with corrupt := true }⟩)

/-- `scan`. -/
def scanSet (id : NodeId) (dstSize : ℤ) : ℕ → OffsetIter → SetScan → Option (Option SetScan)
  | 0, _, _ => none
  | rounds + 1, iter, scan => do
    match ← prc.offsetIterNext fuel iter with
    | none => some (some scan)
    | some (user, iter) =>
      match ← scanUser prc id dstSize user iter.offset scan with
      | none => some none
      | some scan => scanSet id dstSize rounds iter scan

/-! ### The operations after the `Set` -/

/-- A load at `off` needs the slot that starts there. -/
def loadSlots (off size : ℤ) : List Slot → Option (List Slot)
  | [] => some []
  | slot :: slots =>
    if slot.offset = off then
      if slot.size = size then some (slot.mark .needsInit :: slots) else none
    else (loadSlots off size slots).map (slot :: ·)

/-- An operation that writes from `offset` to `stop` initialises the slots inside. -/
def storeSlots (offset stop : ℤ) (slots : List Slot) : List Slot :=
  slots.map fun slot =>
    if offset ≤ slot.offset ∧ slot.send ≤ stop then slot.mark .inited else slot

/-- The users of one operation; `cursor` is `0` until the next operation has been found.  The first
component is empty where `traverse` breaks off. -/
def traverseUsers (dst : NodeId) : List NodeOutput → NodeId × ℤ → List Slot →
    Option (Option (NodeId × ℤ) × List Slot)
  | [], cursor, slots => some (some cursor, slots)
  | out :: outs, cursor, slots =>
    let onode := prc.getNode out.id
    if onode.itype = .load ∨ prc.isStoreOp out.id then do
      let (base, off) ← prc.baseAndOffset fuel (onode.inp 2)
      if base ≠ dst then some (none, slots)
      else if onode.itype = .load then do
        let slots ← loadSlots off onode.dt.size slots
        traverseUsers dst outs cursor slots
      else if cursor.1 ≠ 0 then some (none, slots)
      else traverseUsers dst outs (out.id, off) slots
    else some (none, slots)

/-- `traverse`. -/
def traverse (dst : NodeId) : ℕ → NodeId → List Slot → Option (List Slot)
  | 0, _, _ => none
  | rounds + 1, cursor, slots => do
    match ← traverseUsers prc fuel dst (prc.getNode cursor).outs (0, 0) slots with
    | (none, slots) => some slots
    | (some (next, offset), slots) =>
      if next = 0 then some slots
      else
        let size ← prc.memOpSize next
        traverse dst rounds next (storeSlots offset (offset + size) slots)

end Code

/-! ### What is left to be zeroed -/

/-- The slots from `rev` up to `offset`; `room` is how many there can be more. -/
def fillGap (align : ℤ) : ℕ → ℤ → ℤ → ℕ → Option (Option (List Slot))
  | 0, _, _, _ => none
  | fuel + 1, rev, offset, room =>
    if rev < offset then
      let currentAlign := min align (alignOf rev)
      let size := min currentAlign (offset - rev)
      if currentAlign = 0 ∨ isPowerOfTwo size = false then none
      else if room = 0 then some none
      else do
        match ← fillGap align fuel (rev + size) offset (room - 1) with
        | none => some none
        | some fills => some (some (Slot.of size rev :: fills))
    else some (some [])

/-- The slots are listed the last one first; `acc` is what lies from `offset` on. -/
def fillGaps (align : ℤ) : List Slot → ℤ → ℕ → List Slot → Option (Option (List Slot))
  | [], offset, room, acc =>
    if offset < 0 then none
    else do
      match ← fillGap align (offset.toNat + 1) 0 offset room with
      | none => some none
      | some fills => some (some (fills ++ acc))
  | slot :: slots, offset, room, acc =>
    if offset < slot.offset then none
    else do
      match ← fillGap align ((offset - slot.send).toNat + 1) slot.send offset room with
      | none => some none
      | some fills =>
        fillGaps align slots slot.offset (room - fills.length) (slot :: (fills ++ acc))

/-- Neighbours whose sizes add up to a power of two become one slot. -/
def mergeSlots (curr : Slot) : List Slot → List Slot
  | [] => [curr]
  | slot :: slots =>
    if slot.offset = curr.send ∧ isPowerOfTwo (curr.size + slot.size) then
      mergeSlots { curr with size := wrap 30 (curr.size + slot.size) } slots
    else curr :: mergeSlots slot slots

/-- A slot in parts of at most `maxStoreUnit`, the last part first, if there is room. -/
def cutSlot : ℕ → Slot → ℕ → Option (List Slot)
  | 0, slot, _ => some [slot]
  | rounds + 1, slot, room =>
    if slot.size ≤ maxStoreUnit then some [slot]
    else if room = 0 then none
    else do
      let rest ← cutSlot rounds
        ⟨wrap 30 (slot.size - maxStoreUnit), .needsInit, wrap 32 (slot.offset + maxStoreUnit)⟩
        (room - 1)
      some (rest ++ [{ slot with size := maxStoreUnit }])

/-- All slots in such parts. -/
def cutSlots : List Slot → ℕ → Option (List Slot)
  | [], _ => some []
  | slot :: slots, room => do
    let parts ← cutSlot slot.size.toNat slot room
    let rest ← cutSlots slots (room - (parts.length - 1))
    some (parts ++ rest)

/-- The slots in parts of a power of two; a part that finds no room is lost. -/
def chipSlots : ℕ → List Slot → ℕ → Option (List Slot)
  | _, [], _ => some []
  | 0, _ :: _, _ => none
  | fuel + 1, slot :: slots, room =>
    if isPowerOfTwo slot.size then (chipSlots fuel slots room).map (slot :: ·)
    else
      let chip := min (alignOf slot.offset) slot.size
      let rest := Slot.of (slot.size - chip) (slot.offset + chip)
      chipSlots fuel ({ slot with size := wrap 30 chip } ::
        if room = 0 then slots else rest :: slots) (room - 1)

/-- The slots that are not initialised, in parts that a store can zero. -/
def zeroSlots (fuel : ℕ) (slots : List Slot) : Option (Option (List Slot)) :=
  match slots.filter fun slot => slot.state ≠ .inited with
  | [] => some (some [])
  | curr :: slots =>
    let merged := mergeSlots curr slots
    match cutSlots merged (slotsCap - merged.length) with
    | none => some none
    | some parts => (chipSlots fuel parts (slotsCap - parts.length)).map some

/-- The datatype of a store of this size, from `table`. -/
def zeroDt : ℤ → Option Datatype
  | 1 => some .i8
  | 2 => some .i16
  | 4 => some .i32
  | 8 => some .i64
  | 16 => some .v128
  | _ => none

section Code

variable (prc : Proc) (fuel : ℕ) (id : NodeId)

/-- Whether the only user is a copy over the same bytes. -/
def copiedOver : Bool :=
  let node := prc.getNode id
  match node.outs with
  | [out] =>
    let onode := prc.getNode out.id
    onode.itype = .copy && onode.inp 0 = node.inp 0 && onode.inp 2 = node.inp 2 &&
      onode.inp 4 = node.inp 4
  | _ => false

/-- The slots that the zeroing of a local of `dstSize` bytes comes to, by the scan. -/
def lowerSlots (dstSize : ℤ) (scan : SetScan) : Option (Option (List Slot)) := do
  if scan.members.corrupt then some none
  else
    let slots ← traverse prc fuel ((prc.getNode id).inp 2) fuel id scan.slots.reverse
    let sorted := slots.insertionSort fun a b => a.key ≤ b.key
    let align := min (alignOf dstSize) maxStoreUnit
    if align = 0 then none
    else
      match ← fillGaps align sorted.reverse dstSize (slotsCap - sorted.length) [] with
      | none => some none
      | some slots => zeroSlots fuel slots

/-- The `Set` part of `peep` on a complete graph: the offsets and datatypes of the zeroes that take
the place of the `Set`, if it is replaced. -/
def lowerSet : Option (Option (List (ℤ × Datatype))) :=
  let node := prc.getNode id
  let dst := prc.getNode (node.inp 2)
  if dst.itype ≠ .localAddr then some none
  else if prc.cInt (node.inp 4) = none then some none
  else if copiedOver prc id then some (some [])
  else if prc.cInt (node.inp 3) ≠ some 0 then some none
  else do
    let dstSize := localSize prc (dst.inp 0)
    match ← scanSet prc fuel id dstSize fuel ⟨node.inp 2, 0, 0⟩ {} with
    | none => some none
    | some scan =>
      match ← lowerSlots prc fuel id dstSize scan with
      | none => some none
      | some slots =>
        if 5 ≤ slots.length then some none
        else
          let dts ← slots.mapM fun slot => (zeroDt slot.size).map (slot.offset, ·)
          some (some dts)

end Code

end OdinSon.SetLower
