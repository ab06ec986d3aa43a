import OdinSon.Regalloc.Liveness
import Mathlib.Data.Finset.Lattice.Fold
import Mathlib.Data.Finset.Max
import Mathlib.Order.Lattice.Nat

/-!
# Colouring the interference graph

The end of `regalloc_round` (`bac/regalloc/regalloc.odin`) in the mode with colouring.  Live ranges
are taken out of the graph one by one, first those that have more registers than neighbours left,
and put back in the reverse order, each getting a register that none of its neighbours has.

The list of neighbours of a live range is a slice of an array.  Taking a live range out moves its
entry behind the end of the slice and shortens the slice, putting it back makes the slice longer
again.  So next to what a slice shows (`adj`) the model keeps what the array has behind it
(`rest`).
-/

namespace OdinSon.Regalloc

/-- What colouring reads of the live ranges and of the register files. -/
structure ColorCtx where
  /-- The number of the live ranges. -/
  usedLrgs : ℕ
  /-- The live range that one was merged into. -/
  parent : ℕ → Option ℕ
  /-- The registers that a live range can have. -/
  mask : ℕ → RegMask
  /-- The number of the neighbours before coalescing. -/
  ifgCounts : ℕ → ℕ
  /-- Registers of a kind from this one on are slots of the stack. -/
  spillBoundary : ℕ → ℕ
  /-- `call_clobbers[0]`, one word for each kind, if there is one. -/
  callClobbers : Option (ℕ → Finset ℕ)
  /-- `ra.mask_len`, the length of all masks. -/
  maskLen : ℕ
  /-- A register fits the `i16` that holds it. -/
  maskLen_le : maskLen ≤ 2 ^ 15
  mask_bitLength : ∀ l, (mask l).bitLength = maskLen
  mask_lt : ∀ l, ∀ r ∈ (mask l).regs, r < maskLen

/-- The graph, and the order in which live ranges leave it. -/
structure ColorState where
  /-- The order in which live ranges leave the graph. -/
  colorOrd : List ℕ
  /-- The place of a live range in `colorOrd`. -/
  colorOrdIdx : ℕ → ℕ
  /-- The neighbours that are still in the graph. -/
  adj : ℕ → List ℕ
  /-- What the array of the neighbours has behind them. -/
  rest : ℕ → List ℕ
  /-- The live ranges that were found colourable when they were queued; nothing reads them. -/
  sure : List ℕ

namespace ColorState

variable (s : ColorState)

/-- `swap_ord`. -/
def swapOrd (a b : ℕ) : Option ColorState :=
  if s.colorOrd[s.colorOrdIdx a]? = some a ∧ s.colorOrd[s.colorOrdIdx b]? = some b then
    some { s with
      colorOrd := (s.colorOrd.set (s.colorOrdIdx b) a).set (s.colorOrdIdx a) b
      colorOrdIdx := Function.update (Function.update s.colorOrdIdx a (s.colorOrdIdx b)) b
        (s.colorOrdIdx a) }
  else none

/-- The body of the loop of `remove_from_ifg`: the entry of `lrg` changes places with the last. -/
def hide (lrg : ℕ) (s : ColorState) (adj : ℕ) : Option ColorState := do
  let idx ← (s.adj adj).idxOf? lrg
  return { s with
    adj := Function.update s.adj adj (swapRemove (s.adj adj) idx)
    rest := Function.update s.rest adj (lrg :: s.rest adj) }

/-- `remove_from_ifg`. -/
def removeFromIfg (lrg : ℕ) : Option ColorState := (s.adj lrg).foldlM (hide lrg) s

/-- `is_colorable`. -/
def isColorable (c : ColorCtx) (lrg ready : ℕ) : Bool :=
  (c.mask lrg).regs.card > (s.adj lrg).length && s.colorOrdIdx lrg ≥ ready

/-- Queue a live range that is colourable. -/
def queue (c : ColorCtx) (s : ColorState) (ready lrg : ℕ) : Option (ColorState × ℕ) :=
  if s.isColorable c lrg ready then do
    let other ← s.colorOrd[ready]?
    let s ← s.swapOrd lrg other
    return ({ s with sure := lrg :: s.sure }, ready + 1)
  else some (s, ready)

/-- The first loop over `color_ord`, which changes under it; `n` places from the `k`-th are left. -/
def queueAll (c : ColorCtx) : ℕ → ℕ → ColorState → ℕ → Option (ColorState × ℕ)
  | 0, _, s, ready => some (s, ready)
  | n + 1, k, s, ready => do
    let elm ← s.colorOrd[k]?
    let (s, ready) ← s.queue c ready elm
    queueAll c n (k + 1) s ready

/-- The loop over the neighbours of a live range that was taken out. -/
def queueAdj (c : ColorCtx) : List ℕ → ColorState → ℕ → Option (ColorState × ℕ)
  | [], s, ready => some (s, ready)
  | olrg :: adj, s, ready => do
    let (s, ready) ← s.queue c ready olrg
    queueAdj c adj s ready

/-- `can_spill`. -/
def canSpill (c : ColorCtx) (lrg : ℕ) : Bool :=
  (c.mask lrg).regs.sup id ≥ c.spillBoundary (c.mask lrg).kind

/-- The place in `color_ord` of the live range to take out when none is colourable. -/
def best (c : ColorCtx) (s : ColorState) (ready : ℕ) : ℕ :=
  (List.range' (ready + 1) (s.colorOrd.length - (ready + 1))).foldl (fun best pick =>
    let blrg := s.colorOrd.getD best 0
    let lrg := s.colorOrd.getD pick 0
    if canSpill c blrg then best
    else if c.ifgCounts blrg > c.ifgCounts lrg then best
    else pick) ready

/-- The loop that takes the live ranges out: `done` of them are out, `ready` are queued.  `pick`
chooses when there is nothing to choose from (`best` in the source). -/
def takeOut (c : ColorCtx) (pick : ColorState → ℕ → ℕ) :
    ℕ → ColorState → ℕ → ℕ → Option ColorState
  | 0, _, _, _ => none
  | fuel + 1, s, ready, done =>
    if done < ready then do
      let lrg ← s.colorOrd[done]?
      let s ← s.removeFromIfg lrg
      let (s, ready) ← queueAdj c (s.adj lrg) s ready
      takeOut c pick fuel s ready (done + 1)
    else if done ≥ s.colorOrd.length then some s
    else do
      let a ← s.colorOrd[ready]?
      let b ← s.colorOrd[pick s ready]?
      let s ← s.swapOrd a b
      if ready + 1 ≤ s.colorOrd.length then takeOut c pick fuel s (ready + 1) done
      else none

end ColorState

/-- What the live ranges get. -/
structure Colors where
  /-- The registers that a live range can have, which are narrowed on the way. -/
  mask : ℕ → RegMask
  /-- The register of a live range. -/
  reg : ℕ → Option ℕ
  /-- There was no register left for it. -/
  failedToColor : ℕ → Bool

/-- The preference for registers that calls clobber, among the first word of the mask. -/
def RegMask.prefer (m : RegMask) (clobbers : Option (ℕ → Finset ℕ)) : RegMask :=
  match clobbers with
  | none => m
  | some clobbs =>
    if ((m.regs.filter (· < 64)) ∩ clobbs m.kind).Nonempty then
      { m with regs := m.regs.filter fun r => r < 64 → r ∈ clobbs m.kind }
    else m

/-- The body of the loop over the neighbours of `lrg` when it is put back: the slice of the
neighbour gets its last entry again, which has to be `lrg`. -/
def putBackAt (lrg : ℕ) (p : ColorState × Colors) (inter : ℕ) : Option (ColorState × Colors) := do
  let (s, ls) := p
  match s.rest inter with
  | [] => none
  | x :: rest =>
    guard (x = lrg)
    let s := { s with
      adj := Function.update s.adj inter (s.adj inter ++ [x])
      rest := Function.update s.rest inter rest }
    match ls.reg inter with
    | none => return (s, ls)
    | some r =>
      let mask ← (ls.mask lrg).clear r
      return (s, { ls with mask := Function.update ls.mask lrg mask })

/-- The body of the loop that puts the live ranges back. -/
def select (c : ColorCtx) (p : ColorState × Colors) (lrg : ℕ) : Option (ColorState × Colors) := do
  guard (c.parent lrg = none)
  let (s, ls) ← (p.1.adj lrg).foldlM (putBackAt lrg) p
  let mask := (ls.mask lrg).prefer c.callClobbers
  let ls := { ls with mask := Function.update ls.mask lrg mask }
  match mask.firstSet with
  | none => return (s, { ls with failedToColor := Function.update ls.failedToColor lrg true })
  | some r => return (s, { ls with reg := Function.update ls.reg lrg (some r) })

namespace ColorCtx

variable (c : ColorCtx)

/-- The live ranges that were not merged into others. -/
def alive : List ℕ := (List.range c.usedLrgs).filter fun l => c.parent l = none

/-- The state at the start. -/
def initial (adj rest : ℕ → List ℕ) : ColorState where
  colorOrd := c.alive
  colorOrdIdx l := c.alive.idxOf l
  adj := adj
  rest := rest
  sure := []

/-- Taking everything out. -/
def simplify (pick : ColorState → ℕ → ℕ) (adj rest : ℕ → List ℕ) : Option ColorState := do
  let s := c.initial adj rest
  let (s, ready) ← ColorState.queueAll c s.colorOrd.length 0 s 0
  s.takeOut c pick (2 * s.colorOrd.length + 1) ready 0

/-- Colouring, from the graph after coalescing. -/
def color (pick : ColorState → ℕ → ℕ) (adj rest : ℕ → List ℕ) : Option (ColorState × Colors) := do
  let s ← c.simplify pick adj rest
  s.colorOrd.reverse.foldlM (select c)
    (s, { mask := c.mask, reg := fun _ => none, failedToColor := fun _ => false })

end ColorCtx

end OdinSon.Regalloc
