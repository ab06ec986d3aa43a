import OdinSon.Bac.SimdIter
import OdinSon.Regalloc.Coloring

/-!
# Linear scan

The mode of `regalloc_round` (`bac/regalloc/regalloc.odin`) that goes over the program points in
order.  At a point the intervals that end there give their registers back, then those that start
there get one.  The active intervals of a kind are an array that is searched by one byte of their
ends, and what is removed from it changes places with its last entry.

An interval with only one register takes it in the first round, whoever has it; that makes another
round, with the register out of the masks of the others.
-/

namespace OdinSon.Regalloc

/-- `Slrg`: the program points at which a live range has a value. -/
structure Slrg where
  /-- The first program point. -/
  start : ℕ
  /-- `end`, the last program point. -/
  stop : ℕ
  /-- The live range. -/
  lrg : ℕ
  deriving DecidableEq, Repr

/-- What the scan reads and writes of live ranges. -/
structure ScanLrgs where
  /-- The registers that a live range can have. -/
  mask : ℕ → RegMask
  /-- Its register, `none` for -1. -/
  reg : ℕ → Option ℕ
  /-- Why it fails. -/
  fails : ℕ → Finset LrgFail

/-- What the scan does not change. -/
structure ScanCtx where
  /-- The number of the kinds of registers. -/
  kinds : ℕ
  /-- Registers of a kind from this one on are slots of the stack. -/
  spillBoundary : ℕ → ℕ
  /-- `ra.mask_len`, the length of all masks. -/
  maskLen : ℕ
  maskLen_le : maskLen ≤ 2 ^ 15
  /-- `must_spill`. -/
  mustSpill : ℕ → Bool
  /-- The number of the program points (`block_offset`). -/
  points : ℕ
  /-- The intervals. -/
  slrgs : List Slrg
  /-- They are sorted. -/
  sorted : slrgs.Pairwise (·.start ≤ ·.start)
  /-- There is one for a live range. -/
  distinct : (slrgs.map (·.lrg)).Nodup
  /-- They start at program points. -/
  start_lt : ∀ a ∈ slrgs, a.start < points

/-- An entry of an `Active`. -/
structure ActiveEntry where
  /-- `end_hash` of the interval. -/
  hash : UInt8
  /-- The interval; there is nothing in new memory. -/
  id : Option Slrg
  deriving DecidableEq, Repr

/-- `Active`. -/
structure Active where
  /-- The array. -/
  items : List ActiveEntry
  /-- The number of entries that count. -/
  len : ℕ
  deriving DecidableEq, Repr

/-- `end_hash`. -/
def endHash (stop : ℕ) : UInt8 := UInt8.ofNat (min (stop % 256) 254 + 1)

namespace Active

/-- The intervals. -/
def slrgs (a : Active) : List Slrg := (a.items.take a.len).filterMap (·.id)

/-- `active_push`. -/
def push (a : Active) (slrg : Slrg) : Active :=
  let items := if a.items.length = a.len then a.items ++ List.replicate 16 ⟨0, none⟩ else a.items
  { items := items.set a.len ⟨endHash slrg.stop, some slrg⟩, len := a.len + 1 }

/-- The entry at `k` changes places with the last one, which is then out. -/
def remove (a : Active) (k : ℕ) : Option Active := do
  let last ← a.items[a.len - 1]?
  let entry ← a.items[k]?
  return { items := (a.items.set (a.len - 1) entry).set k last, len := a.len - 1 }

/-- The bytes that are searched. -/
def hash (a : Active) (k : ℕ) : UInt8 := ((a.items[k]?).map (·.hash)).getD 0

end Active

/-! ### Masks -/

/-- `reg_mask_set`, to `true`. -/
def RegMask.set (m : RegMask) (index : ℕ) : Option RegMask :=
  if index < m.bitLength then some { m with regs := insert index m.regs } else none

/-- `reg_mask_contains`. -/
def RegMask.contains (m : RegMask) (index : ℕ) : Option Bool :=
  if index < m.bitLength then some (decide (index ∈ m.regs)) else none

/-- `reg_mask_first_common_set`. -/
def RegMask.firstCommonSet (a b : RegMask) : Option (Option ℕ) :=
  if a.bitLength = b.bitLength then
    some ((List.range a.bitLength).find? fun r => r ∈ a.regs ∧ r ∈ b.regs)
  else none

/-- `mask.masks[0] &= -1 << spill_boundary`. -/
def RegMask.spilled (m : RegMask) (boundary : ℕ) : RegMask :=
  { m with regs := m.regs.filter fun r => 64 ≤ r ∨ boundary ≤ r }

/-- The mask of all the registers of a kind. -/
def RegMask.full (kind bitLength : ℕ) : RegMask := ⟨kind, bitLength, Finset.range bitLength⟩

/-! ### A round -/

/-- The state of a round. -/
structure Scan where
  /-- The live ranges. -/
  lrgs : ScanLrgs
  /-- The registers of a kind that no active interval has. -/
  free : ℕ → RegMask
  /-- The active intervals of a kind. -/
  active : ℕ → Active
  /-- The intervals from `crossed_slrgs` on. -/
  pending : List Slrg
  /-- There was no free register for an interval. -/
  recoverableFailure : Bool
  /-- The round has not failed. -/
  ok : Bool

namespace ScanCtx

variable (c : ScanCtx)

/-- `must_spill`. -/
def mustSpillNow (ls : ScanLrgs) (l : ℕ) : Bool :=
  decide (c.spillBoundary (ls.mask l).kind ≤ (ls.mask l).regs.sup id) && c.mustSpill l

/-- The loop over the places with the byte of `j` in the active intervals.  `fuel` bounds the number
of places. -/
def expireLoop (ls : ScanLrgs) (j : ℕ) : ℕ → ℕ → ℕ → Active → RegMask → Option (Active × RegMask)
  | 0, _, _, _, _ => none
  | fuel + 1, rest, mask, a, free =>
    match simdIterNextRev a.hash (endHash j) rest mask with
    | none => some (a, free)
    | some (k, rest, mask) => do
      let entry ← a.items[k]?
      let slrg ← entry.id
      if slrg.stop = j then
        let reg ← ls.reg slrg.lrg
        let free ← free.set reg
        let a ← a.remove k
        expireLoop ls j fuel rest mask a free
      else expireLoop ls j fuel rest mask a free

/-- The intervals of a kind that end at `j` give their registers back. -/
def expireKind (j : ℕ) (s : Scan) (kind : ℕ) : Option Scan := do
  let blocks := ((s.active kind).len + 15) / 16
  let (a, free) ←
    expireLoop s.lrgs j (16 * blocks + 1) blocks 0 (s.active kind) (s.free kind)
  if ∀ slrg ∈ a.slrgs, slrg.stop ≠ j then
    some { s with active := Function.update s.active kind a, free := Function.update s.free kind free }
  else none

/-- The same for all the kinds. -/
def expire (j : ℕ) (s : Scan) : Option Scan := (List.range c.kinds).foldlM (expireKind j) s

/-- `already_spilled`, which also marks live ranges in slots. -/
def alreadySpilled (ls : ScanLrgs) (l : ℕ) : Bool × ScanLrgs :=
  let spilled := match ls.reg l with
    | none => false
    | some reg => decide (c.spillBoundary (ls.mask l).kind ≤ reg)
  let fails := if spilled then
    Function.update ls.fails l (insert .failedToAssign (ls.fails l)) else ls.fails
  (c.mustSpillNow ls l || decide (fails l ≠ ∅), { ls with fails })

/-- The choice of the interval that has to go: `best` and its place, if it is active. -/
def pickBest : List (Slrg × ℕ) → Slrg × Option ℕ → ScanLrgs → (Slrg × Option ℕ) × ScanLrgs
  | [], best, ls => (best, ls)
  | (oslrg, k) :: rest, best, ls =>
    let (spilled, ls) := c.alreadySpilled ls oslrg.lrg
    if !spilled && (best.1.stop : ℤ) - best.1.start < (oslrg.stop : ℤ) - oslrg.start then
      pickBest rest (oslrg, some k) ls
    else
      let (spilled, ls) := c.alreadySpilled ls best.1.lrg
      if spilled then pickBest rest (oslrg, some k) ls else pickBest rest best ls

/-- An interval got no register: one of the active ones has to go for it, or it goes itself. -/
def assignFailed (s : Scan) (slrg : Slrg) : Option Scan := do
  let kind := (s.lrgs.mask slrg.lrg).kind
  let active := s.active kind
  let ((best, bestIdx), ls) := c.pickBest active.slrgs.zipIdx (slrg, none) s.lrgs
  let (spilled, ls) := c.alreadySpilled ls best.lrg
  if spilled then none
  else
    let fails := Function.update ls.fails best.lrg (insert .failedToAssign (ls.fails best.lrg))
    match bestIdx with
    | none => some { s with lrgs := { ls with fails } }
    | some k =>
      let items := active.items.set k ⟨endHash slrg.stop, some slrg⟩
      some { s with
        lrgs := { ls with fails, reg := Function.update ls.reg slrg.lrg (ls.reg best.lrg) }
        active := Function.update s.active kind { active with items } }

/-- An interval with one register takes it out of the masks of the active intervals.  The flag is
`false` if that leaves one of them with nothing. -/
def seize (reg : ℕ) : List Slrg → ScanLrgs → Bool → Option (ScanLrgs × Bool)
  | [], ls, ok => some (ls, ok)
  | oslrg :: rest, ls, ok => do
    let mask ← (ls.mask oslrg.lrg).clear reg
    let ls := { ls with mask := Function.update ls.mask oslrg.lrg mask }
    if mask.regs = ∅ then
      let fails := Function.update ls.fails oslrg.lrg (insert .killed (ls.fails oslrg.lrg))
      seize reg rest { ls with fails } false
    else seize reg rest ls ok

/-- The register that is free for an interval: the one that its live range has, else the first. -/
def pickReg (available mask : RegMask) (reg : Option ℕ) : Option (Option ℕ) :=
  match reg with
  | none => available.firstCommonSet mask
  | some r => do
    if ← available.contains r then some (some r) else available.firstCommonSet mask

/-- An interval that starts gets its register. -/
def addSlrg (round : ℕ) (s : Scan) (slrg : Slrg) : Option Scan := do
  let l := slrg.lrg
  let kind := (s.lrgs.mask l).kind
  let boundary := c.spillBoundary kind
  let mask := if c.mustSpillNow s.lrgs l then (s.lrgs.mask l).spilled boundary else s.lrgs.mask l
  let ls := { s.lrgs with mask := Function.update s.lrgs.mask l mask }
  let reg ← pickReg (s.free kind) mask (ls.reg l)
  let recoverableFailure := s.recoverableFailure || reg.isNone
  let (reg, ls, ok) ←
    if mask.regs.card = 1 ∧ round = 0 then do
      let reg ← mask.firstSet
      let (ls, ok) ← seize reg (s.active kind).slrgs ls s.ok
      pure (some reg, ls, ok)
    else pure (reg, ls, s.ok && reg.isSome)
  let ls := { ls with reg := Function.update ls.reg l reg }
  let s := { s with lrgs := ls, recoverableFailure, ok }
  match reg with
  | some reg => do
    let free ← (s.free kind).clear reg
    some { s with
      active := Function.update s.active kind ((s.active kind).push slrg)
      free := Function.update s.free kind free }
  | none => c.assignFailed s slrg

/-- The intervals that start at `j` get their registers. -/
def addAll (round j : ℕ) : List Slrg → Scan → Option Scan
  | [], s => some { s with pending := [] }
  | slrg :: pending, s =>
    if slrg.start = j then do
      let s ← c.addSlrg round s slrg
      addAll round j pending s
    else some { s with pending := slrg :: pending }

/-- One program point. -/
def point (round : ℕ) (s : Scan) (j : ℕ) : Option Scan := do
  let s ← c.expire j s
  c.addAll round j s.pending s

/-- The state at the start of a round. -/
def start (ls : ScanLrgs) : Scan where
  lrgs := { ls with reg := fun l => if l ∈ c.slrgs.map (·.lrg) then none else ls.reg l }
  free := fun kind => RegMask.full kind c.maskLen
  active := fun _ => ⟨[], 0⟩
  pending := c.slrgs
  recoverableFailure := false
  ok := true

/-- The points before the `j`-th. -/
def upTo (round : ℕ) (ls : ScanLrgs) (j : ℕ) : Option Scan :=
  (List.range j).foldlM (c.point round) (c.start ls)

/-- A round. -/
def round (round : ℕ) (ls : ScanLrgs) : Option Scan := c.upTo round ls c.points

/-- The rounds from the `i`-th on; the third asserts. -/
def rounds : ℕ → ℕ → ScanLrgs → Option Scan
  | 0, _, _ => none
  | fuel + 1, i, ls =>
    if i < 2 then do
      let s ← c.round i ls
      if !s.ok || !s.recoverableFailure then some s else rounds fuel (i + 1) s.lrgs
    else none

/-- The scan. -/
def scan (ls : ScanLrgs) : Option Scan := c.rounds 3 0 ls

end ScanCtx

end OdinSon.Regalloc
