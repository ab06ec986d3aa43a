import OdinSon.Lib.UnionFind
import OdinSon.Lib.SwapRemove
import Mathlib.Data.Finset.Card
import Mathlib.Data.List.Rotate

/-!
# Coalescing live ranges

`regalloc_round` (`bac/regalloc/regalloc.odin`), in the mode with colouring: the live ranges on the
two sides of a `Split` are merged when they do not interfere and there are registers enough for
them together.  Merged live ranges are a union-find structure, and the interference graph has a list
of neighbours for each root.

After the loop (`coalesce`) the graph is the one that the merging makes of the graph before
(`Coalesced`), however the merged ranges were chosen.
-/

namespace OdinSon.Regalloc

open UnionFind

/-- `Reg_Mask`. -/
structure RegMask where
  /-- The kind of the registers. -/
  kind : ℕ
  /-- The number of bits. -/
  bitLength : ℕ
  /-- The registers. -/
  regs : Finset ℕ
  deriving DecidableEq

/-- `Lrg_Fail`. -/
inductive LrgFail where
  | killed | failedToColor | failedToAssign | regConflict | selfConflict | pushedOut
  deriving DecidableEq

/-- The live ranges, by their index. -/
structure Lrgs where
  /-- The live range that one was merged into. -/
  parent : ℕ → Option ℕ
  /-- The rank, for the merging. -/
  rank : ℕ → ℕ
  /-- The registers that a live range can have. -/
  mask : ℕ → RegMask
  /-- Why a live range fails. -/
  fails : ℕ → Finset LrgFail

/-- `reg_mask_intersection_pop_count`. -/
def RegMask.intersectionPopCount (a b : RegMask) : Option ℕ :=
  if a.bitLength = b.bitLength then some (a.regs ∩ b.regs).card else none

/-- `reg_mask_intersection`. -/
def RegMask.intersection (a b : RegMask) : RegMask :=
  { a with regs := if a.kind = b.kind then a.regs ∩ b.regs else ∅ }

namespace Lrgs

variable (ls : Lrgs)

/-- `find`. -/
def find (fuel l : ℕ) : Option (Lrgs × ℕ) := do
  let (parent, root) ← UnionFind.find ls.rank fuel ls.parent l
  return ({ ls with parent }, root)

/-- `intersect`; the `Option` is for its assertions, here and below. -/
def intersect (l : ℕ) (mask : RegMask) : Option Lrgs :=
  if (ls.mask l).kind = mask.kind ∧ ls.parent l = none then
    let m := (ls.mask l).intersection mask
    some { ls with
      mask := Function.update ls.mask l m
      fails := if m.regs = ∅ then Function.update ls.fails l (insert .regConflict (ls.fails l))
        else ls.fails }
  else none

/-- `unify`. -/
def unify (fuel a b : ℕ) : Option (Lrgs × ℕ) :=
  if a = b then some (ls, a)
  else do
    let (ls, a) ← ls.find fuel a
    let (ls, b) ← ls.find fuel b
    if a = b then some (ls, a)
    else
      let (a, b) := if ls.rank a < ls.rank b then (b, a) else (a, b)
      let ls ← { ls with parent := link ls.parent a b }.intersect a (ls.mask b)
      let rank := if ls.rank a = ls.rank b then
        Function.update ls.rank a (ls.rank a + 1) else ls.rank
      return ({ ls with rank }, a)

end Lrgs

/-! ### The loop -/

/-- The live ranges and the interference graph. -/
structure CoalesceState where
  /-- The live ranges. -/
  lrgs : Lrgs
  /-- The neighbours in the interference graph. -/
  ifg : ℕ → List ℕ

/-- A `Split`. -/
structure SplitCopy where
  /-- The live range of the `Split`. -/
  instr : ℕ
  /-- The live range of its input. -/
  inp : ℕ
  /-- The input is a `Split` right before it. -/
  chained : Bool

/-- The loop over `iadj`, which moves what is not in `inadj` to the front; `moved` and `stay` are what
it has come over so far, in that order in the array. -/
def partitionAdj (inadj : List ℕ) : List ℕ → List ℕ → List ℕ → List ℕ × List ℕ
  | moved, stay, [] => (moved, stay)
  | moved, stay, a :: rest =>
    if inadj.contains a then partitionAdj inadj moved (stay ++ [a]) rest
    else partitionAdj inadj (moved ++ [a]) (stay.rotate 1) rest

/-- The neighbour `adj` of `other` gets `winner` instead, unless it has that already. -/
def patchAdj (ls : Lrgs) (winner other : ℕ) (ifg : ℕ → List ℕ) (adj : ℕ) : Option (ℕ → List ℕ) :=
  if ls.parent adj = none then do
    let oadj := ifg adj
    let idx ← oadj.idxOf? other
    if oadj.contains winner then some (Function.update ifg adj (swapRemove oadj idx))
    else some (Function.update ifg adj (oadj.set idx winner))
  else none

/-- Merge two roots; `buf` has the neighbours of both. -/
def mergeRoots (fuel : ℕ) (s : CoalesceState) (ilrg inlrg : ℕ) (buf : List ℕ) :
    Option CoalesceState := do
  let (lrgs, winner) ← s.lrgs.unify fuel ilrg inlrg
  if lrgs.fails winner = ∅ then
    let other := if winner = ilrg then inlrg else ilrg
    let toPatch := s.ifg other
    let ifg ← toPatch.foldlM (patchAdj lrgs winner other) s.ifg
    some ⟨lrgs, Function.update (Function.update ifg winner buf) other []⟩
  else none

/-- The body of the loop, once the roots `ilrg` and `inlrg` are known and not the same. -/
def coalesceRoots (fuel : ℕ) (s : CoalesceState) (ilrg inlrg : ℕ) (chained : Bool) :
    Option CoalesceState := do
  let iadj := s.ifg ilrg
  let inadj := s.ifg inlrg
  let collision := iadj.contains inlrg
  let (moved, stay) := partitionAdj inadj [] [] iadj
  let s := { s with ifg := Function.update s.ifg ilrg (moved ++ stay) }
  if collision then some s
  else
    let total := moved.length + inadj.length
    let leeway ← (s.lrgs.mask ilrg).intersectionPopCount (s.lrgs.mask inlrg)
    if total ≥ leeway ∧
        (leeway = 0 ∨ max inadj.length iadj.length ≠ total ∨ chained = false) then some s
    else mergeRoots fuel s ilrg inlrg (moved ++ inadj)

/-- The body of the loop. -/
def coalesceSplit (fuel : ℕ) (s : CoalesceState) (split : SplitCopy) : Option CoalesceState := do
  let (lrgs, ilrg) ← s.lrgs.find fuel split.instr
  let (lrgs, inlrg) ← lrgs.find fuel split.inp
  let s := { s with lrgs }
  if ilrg = inlrg then some s else coalesceRoots fuel s ilrg inlrg split.chained

/-- The coalescing loop. -/
def coalesce (fuel : ℕ) (s : CoalesceState) (splits : List SplitCopy) : Option CoalesceState :=
  splits.foldlM (coalesceSplit fuel) s

/-! ### What the loop makes of the graph -/

/-- The graph over the roots is the one before, with merged live ranges taken together. -/
structure Coalesced (s₀ s : CoalesceState) : Prop where
  rooted : ∀ l, ∃ r, Root s.lrgs.parent l r
  nodup : ∀ r, s.lrgs.parent r = none → (s.ifg r).Nodup
  symm : ∀ r y, s.lrgs.parent r = none → y ∈ s.ifg r → s.lrgs.parent y = none ∧ r ∈ s.ifg y
  irrefl : ∀ r, s.lrgs.parent r = none → r ∉ s.ifg r
  /-- The neighbours of a root are those of its members. -/
  adj : ∀ r y, s.lrgs.parent r = none →
    (y ∈ s.ifg r ↔ ∃ m x, Root s.lrgs.parent m r ∧ x ∈ s₀.ifg m ∧ Root s.lrgs.parent x y)
  /-- The registers of a root are those that all its members may have. -/
  mask : ∀ r reg, s.lrgs.parent r = none →
    (reg ∈ (s.lrgs.mask r).regs ↔
      ∀ m, Root s.lrgs.parent m r → reg ∈ (s₀.lrgs.mask m).regs)
  nonempty : ∀ r m, Root s.lrgs.parent m r → m ≠ r → (s.lrgs.mask r).regs.Nonempty
  /-- No two that interfere are merged. -/
  apart : ∀ x y r, y ∈ s₀.ifg x → Root s.lrgs.parent x r → ¬ Root s.lrgs.parent y r

/-- What the loop keeps, after at most `d` merges. -/
structure Invariant (s₀ : CoalesceState) (d : ℕ) (s : CoalesceState) : Prop where
  forest : Forest s.lrgs.parent s.lrgs.rank d
  coalesced : Coalesced s₀ s
  kind : ∀ m r, Root s.lrgs.parent m r → (s.lrgs.mask r).kind = (s₀.lrgs.mask m).kind ∧
    (s.lrgs.mask r).bitLength = (s₀.lrgs.mask m).bitLength
  fails : ∀ r, s.lrgs.parent r = none → s.lrgs.fails r = ∅

section Steps

variable {s₀ s : CoalesceState} {d fuel : ℕ}

theorem Invariant.sameRoots (h : Invariant s₀ d s) {parent : ℕ → Option ℕ} {ifg : ℕ → List ℕ}
    (hf : Forest parent s.lrgs.rank d) (hsame : SameRoots s.lrgs.parent parent)
    (hifg : ∀ r, (ifg r).Perm (s.ifg r)) :
    Invariant s₀ d ⟨{ s.lrgs with parent }, ifg⟩ := by
  have hnone {r : ℕ} : parent r = none ↔ s.lrgs.parent r = none := hsame.parent_eq_none_iff.symm
  have hroot {x r : ℕ} : Root parent x r ↔ Root s.lrgs.parent x r := (hsame x r).symm
  have hmem {r y : ℕ} : y ∈ ifg r ↔ y ∈ s.ifg r := (hifg r).mem_iff
  obtain ⟨-, hc, hkind, hfails⟩ := h
  refine ⟨hf, ?_, ?_, ?_⟩
  · constructor <;> dsimp only
    · exact hf.root
    · exact fun r hr => (hifg r).nodup_iff.2 (hc.nodup r (hnone.1 hr))
    · intro r y hr hy
      rw [hnone, hmem]
      exact hc.symm r y (hnone.1 hr) (hmem.1 hy)
    · exact fun r hr hy => hc.irrefl r (hnone.1 hr) (hmem.1 hy)
    · intro r y hr
      simp only [hmem, hroot]
      exact hc.adj r y (hnone.1 hr)
    · intro r reg hr
      simp only [hroot]
      exact hc.mask r reg (hnone.1 hr)
    · exact fun r m hm => hc.nonempty r m (hroot.1 hm)
    · exact fun x y r hxy hx hy => hc.apart x y r hxy (hroot.1 hx) (hroot.1 hy)
  · exact fun m r hm => hkind m r (hroot.1 hm)
  · exact fun r hr => hfails r (hnone.1 hr)

/-- `find` on the live ranges. -/
theorem find_spec (hf : Forest s.lrgs.parent s.lrgs.rank d) (hd : d < fuel) (l : ℕ) :
    ∃ parent r, s.lrgs.find fuel l = some ({ s.lrgs with parent }, r) ∧
      Root s.lrgs.parent l r ∧ Forest parent s.lrgs.rank d ∧ SameRoots s.lrgs.parent parent := by
  obtain ⟨parent, r, hres, hr, hf', hsame⟩ := UnionFind.find_spec hf hd l
  refine ⟨parent, r, ?_, hr, hf', hsame⟩
  unfold Lrgs.find
  rw [hres]
  rfl

theorem find_root {ls : Lrgs} {l : ℕ} (h : ls.parent l = none) : ls.find fuel l = some (ls, l) := by
  unfold Lrgs.find UnionFind.find
  rw [h]
  rfl

/-- The loop over `iadj` puts what is not in `inadj` first. -/
theorem partitionAdj_spec (inadj moved stay rest : List ℕ) :
    (partitionAdj inadj moved stay rest).1 =
        moved ++ rest.filter (fun a => !inadj.contains a) ∧
      (partitionAdj inadj moved stay rest).2.Perm
        (stay ++ rest.filter fun a => inadj.contains a) := by
  induction rest generalizing moved stay with
  | nil => simp [partitionAdj]
  | cons a rest ih =>
    unfold partitionAdj
    by_cases ha : inadj.contains a = true
    · obtain ⟨h1, h2⟩ := ih moved (stay ++ [a])
      rw [if_pos ha, List.filter_cons_of_neg (by rw [ha]; decide), List.filter_cons_of_pos ha]
      rw [List.append_assoc, List.singleton_append] at h2
      exact ⟨h1, h2⟩
    · obtain ⟨h1, h2⟩ := ih (moved ++ [a]) (stay.rotate 1)
      rw [if_neg ha, List.filter_cons_of_neg ha, List.filter_cons_of_pos (by simpa using ha)]
      rw [List.append_assoc, List.singleton_append] at h1
      exact ⟨h1, h2.trans ((List.rotate_perm stay 1).append_right _)⟩

theorem partitionAdj_perm (inadj iadj : List ℕ) :
    ((partitionAdj inadj [] [] iadj).1 ++ (partitionAdj inadj [] [] iadj).2).Perm iadj := by
  obtain ⟨h1, h2⟩ := partitionAdj_spec inadj [] [] iadj
  rw [h1]
  refine (h2.append_left _).trans ?_
  simp only [List.nil_append]
  refine List.perm_append_comm.trans ?_
  exact List.filter_append_perm _ iadj

/-- **A patched list** has the winner in the place of the other one. -/
theorem patchAdj_spec {ls : Lrgs} {winner other adj : ℕ} {ifg : ℕ → List ℕ}
    (hroot : ls.parent adj = none) (hnodup : (ifg adj).Nodup) (hother : other ∈ ifg adj)
    (hne : winner ≠ other) :
    ∃ l : List ℕ, patchAdj ls winner other ifg adj = some (Function.update ifg adj l) ∧ l.Nodup ∧
      ∀ y, y ∈ l ↔ y ∈ ifg adj ∧ y ≠ other ∨ y = winner := by
  obtain ⟨idx, hidx⟩ := Option.isSome_iff_exists.1 (List.isSome_idxOf?.2 hother)
  obtain ⟨hlt, hget, -⟩ := List.idxOf?_eq_some_iff.1 hidx
  unfold patchAdj
  rw [if_pos hroot]
  dsimp only
  rw [hidx]
  by_cases hw : winner ∈ ifg adj
  · refine ⟨swapRemove (ifg adj) idx, ?_, nodup_swapRemove hnodup hlt, fun y => ?_⟩
    · exact if_pos (List.contains_iff_mem.2 hw)
    · rw [mem_swapRemove_iff hnodup hidx]
      constructor
      · exact .inl
      · rintro (h | rfl)
        · exact h
        · exact ⟨hw, hne⟩
  · refine ⟨(ifg adj).set idx winner, ?_, ?_, fun y => ?_⟩
    · exact if_neg fun hc => hw (List.contains_iff_mem.1 hc)
    · exact hnodup.set hw
    · exact mem_set_iff hnodup hidx

/-- The loop over the neighbours of the one that is merged away. -/
theorem foldlM_patchAdj {ls : Lrgs} {winner other : ℕ} {toPatch : List ℕ} {ifg : ℕ → List ℕ}
    (hnodup : toPatch.Nodup) (hne : winner ≠ other)
    (hadj : ∀ r ∈ toPatch, ls.parent r = none ∧ (ifg r).Nodup ∧ other ∈ ifg r) :
    ∃ ifg', toPatch.foldlM (patchAdj ls winner other) ifg = some ifg' ∧
      (∀ r ∉ toPatch, ifg' r = ifg r) ∧ ∀ r ∈ toPatch, (ifg' r).Nodup ∧
        ∀ y, y ∈ ifg' r ↔ y ∈ ifg r ∧ y ≠ other ∨ y = winner := by
  induction toPatch generalizing ifg with
  | nil => exact ⟨ifg, rfl, fun _ _ => rfl, fun r hr => by cases hr⟩
  | cons a toPatch ih =>
    obtain ⟨ha, hnodup⟩ := List.nodup_cons.1 hnodup
    obtain ⟨hroot, hdup, hmem⟩ := hadj a List.mem_cons_self
    obtain ⟨l, hpatch, hl, hiff⟩ := patchAdj_spec hroot hdup hmem hne
    have hne' {r : ℕ} (hr : r ∈ toPatch) : r ≠ a := fun he => ha (he ▸ hr)
    obtain ⟨ifg', hres, hout, hin⟩ := @ih (Function.update ifg a l) hnodup fun r hr => by
      rw [Function.update_of_ne (hne' hr)]
      exact hadj r (List.mem_cons_of_mem a hr)
    refine ⟨ifg', by rw [List.foldlM_cons, hpatch]; exact hres, fun r hr => ?_, fun r hr => ?_⟩
    · rw [List.mem_cons, not_or] at hr
      rw [hout r hr.2, Function.update_of_ne hr.1]
    · rcases List.mem_cons.1 hr with rfl | hr
      · rw [hout r ha, Function.update_self]
        exact ⟨hl, hiff⟩
      · have h := hin r hr
        rwa [Function.update_of_ne (hne' hr)] at h

/-- `unify` of two roots puts one of them below the other. -/
theorem unify_spec {ls : Lrgs} {a b : ℕ} (hf : Forest ls.parent ls.rank d)
    (ha : ls.parent a = none) (hb : ls.parent b = none) (hab : a ≠ b)
    (hkind : (ls.mask a).kind = (ls.mask b).kind)
    (hmask : ((ls.mask a).regs ∩ (ls.mask b).regs).Nonempty) :
    ∃ ls' w l, ls.unify fuel a b = some (ls', w) ∧ (w = a ∧ l = b ∨ w = b ∧ l = a) ∧
      ls'.parent = link ls.parent w l ∧ Forest ls'.parent ls'.rank (d + 1) ∧
      ls'.mask = Function.update ls.mask w ((ls.mask w).intersection (ls.mask l)) ∧
      ls'.fails = ls.fails := by
  -- the root of the higher rank wins, and on a tie the first
  obtain ⟨w, l, hwl, horder⟩ : ∃ w l, (w = a ∧ l = b ∨ w = b ∧ l = a) ∧
      (if ls.rank a < ls.rank b then (b, a) else (a, b)) = (w, l) ∧ ls.rank l ≤ ls.rank w := by
    split_ifs with hlt
    · exact ⟨b, a, .inr ⟨rfl, rfl⟩, rfl, hlt.le⟩
    · exact ⟨a, b, .inl ⟨rfl, rfl⟩, rfl, not_lt.1 hlt⟩
  obtain ⟨hpair, hle⟩ := horder
  have hw : ls.parent w = none := by rcases hwl with ⟨rfl, -⟩ | ⟨rfl, -⟩ <;> assumption
  have hl : ls.parent l = none := by rcases hwl with ⟨-, rfl⟩ | ⟨-, rfl⟩ <;> assumption
  have hne : w ≠ l := by
    rcases hwl with ⟨rfl, rfl⟩ | ⟨rfl, rfl⟩
    · exact hab
    · exact hab.symm
  have hk : (ls.mask w).kind = (ls.mask l).kind := by
    rcases hwl with ⟨rfl, rfl⟩ | ⟨rfl, rfl⟩
    · exact hkind
    · exact hkind.symm
  have hn : ((ls.mask w).regs ∩ (ls.mask l).regs).Nonempty := by
    rcases hwl with ⟨rfl, rfl⟩ | ⟨rfl, rfl⟩
    · exact hmask
    · rwa [Finset.inter_comm]
  have hintersect : ({ ls with parent := link ls.parent w l } : Lrgs).intersect w (ls.mask l) =
      some { ls with
        parent := link ls.parent w l
        mask := Function.update ls.mask w ((ls.mask w).intersection (ls.mask l)) } := by
    unfold Lrgs.intersect
    rw [if_pos ⟨hk, (link_of_ne hne).trans hw⟩]
    dsimp only
    rw [if_neg]
    rw [RegMask.intersection, if_pos hk]
    exact hn.ne_empty
  refine ⟨{
    parent := link ls.parent w l
    rank := if ls.rank w = ls.rank l then
      Function.update ls.rank w (ls.rank w + 1) else ls.rank
    mask := Function.update ls.mask w ((ls.mask w).intersection (ls.mask l))
    fails := ls.fails }, w, l, ?_, hwl, ?_⟩
  · unfold Lrgs.unify
    rw [if_neg hab, find_root ha]
    dsimp only [Option.bind_eq_bind, Option.bind_some]
    rw [find_root hb]
    dsimp only [Option.bind_eq_bind, Option.bind_some]
    rw [if_neg hab, hpair]
    dsimp only
    rw [hintersect]
    rfl
  · refine ⟨rfl, ?_, rfl, rfl⟩
    dsimp only
    -- only on a tie does the rank of the winner grow
    split_ifs with hr
    · refine hf.link hw hl hne ?_ ?_ fun x hx => Function.update_of_ne hx ..
      · rw [Function.update_self, Function.update_of_ne hne.symm]
        omega
      · rw [Function.update_self]
        omega
    · refine hf.link hw hl hne ?_ le_rfl fun _ _ => rfl
      omega

/-- The neighbours say the rest: what they mean for the graph before is all there is to them. -/
theorem Coalesced.of_adj (hsymm : ∀ x y, y ∈ s₀.ifg x → x ∈ s₀.ifg y)
    (rooted : ∀ l, ∃ r, Root s.lrgs.parent l r)
    (nodup : ∀ r, s.lrgs.parent r = none → (s.ifg r).Nodup)
    (irrefl : ∀ r, s.lrgs.parent r = none → r ∉ s.ifg r)
    (adj : ∀ r y, s.lrgs.parent r = none →
      (y ∈ s.ifg r ↔ ∃ m x, Root s.lrgs.parent m r ∧ x ∈ s₀.ifg m ∧ Root s.lrgs.parent x y))
    (mask : ∀ r reg, s.lrgs.parent r = none → (reg ∈ (s.lrgs.mask r).regs ↔
      ∀ m, Root s.lrgs.parent m r → reg ∈ (s₀.lrgs.mask m).regs))
    (nonempty : ∀ r m, Root s.lrgs.parent m r → m ≠ r → (s.lrgs.mask r).regs.Nonempty) :
    Coalesced s₀ s where
  rooted := rooted
  nodup := nodup
  irrefl := irrefl
  adj := adj
  mask := mask
  nonempty := nonempty
  symm := fun r y hr hy => by
    obtain ⟨m, x, hm, hx, hxy⟩ := (adj r y hr).1 hy
    exact ⟨hxy.parent_eq_none, (adj y r hxy.parent_eq_none).2 ⟨x, m, hxy, hsymm m x hx, hm⟩⟩
  apart := fun x y r hxy hx hy =>
    irrefl r hx.parent_eq_none ((adj r r hx.parent_eq_none).2 ⟨x, y, hx, hxy, hy⟩)

/-- Where `l` is merged into `w`. -/
def merged (w l x : ℕ) : ℕ := if x = l then w else x

/-- **A merge keeps the invariant**, when the lists afterwards are those before with `w` for `l`. -/
theorem Invariant.merge (h : Invariant s₀ d s) (hsymm : ∀ x y, y ∈ s₀.ifg x → x ∈ s₀.ifg y)
    {w l : ℕ} {s' : CoalesceState} (hw : s.lrgs.parent w = none) (hl : s.lrgs.parent l = none)
    (hne : w ≠ l) (hapart : l ∉ s.ifg w) (hkind : (s.lrgs.mask w).kind = (s.lrgs.mask l).kind)
    (hlen : (s.lrgs.mask w).bitLength = (s.lrgs.mask l).bitLength)
    (hnonempty : ((s.lrgs.mask w).regs ∩ (s.lrgs.mask l).regs).Nonempty)
    (hparent : s'.lrgs.parent = link s.lrgs.parent w l)
    (hforest : Forest s'.lrgs.parent s'.lrgs.rank (d + 1))
    (hmask : s'.lrgs.mask = Function.update s.lrgs.mask w
      ((s.lrgs.mask w).intersection (s.lrgs.mask l)))
    (hfails : s'.lrgs.fails = s.lrgs.fails)
    (hnodup : ∀ r, s.lrgs.parent r = none → r ≠ l → (s'.ifg r).Nodup)
    (hadj : ∀ r, s.lrgs.parent r = none → r ≠ l → ∀ y, y ∈ s'.ifg r ↔
      ∃ t z, s.lrgs.parent t = none ∧ merged w l t = r ∧ z ∈ s.ifg t ∧ merged w l z = y) :
    Invariant s₀ (d + 1) s' := by
  obtain ⟨hf, hc, hkinds, hnofail⟩ := h
  -- who has the root `l` has the root `w` now, and the others keep theirs
  have hroot {x r : ℕ} : Root s'.lrgs.parent x r ↔
      ∃ t, Root s.lrgs.parent x t ∧ r = merged w l t := by
    rw [hparent]
    exact root_link_iff hw hl hne hf
  have hnone {r : ℕ} (hr : s'.lrgs.parent r = none) : s.lrgs.parent r = none ∧ r ≠ l := by
    have hrl : r ≠ l := by
      rintro rfl
      rw [hparent, link, Function.update_self] at hr
      cases hr
    rw [hparent, link_of_ne hrl] at hr
    exact ⟨hr, hrl⟩
  have hapart' : w ∉ s.ifg l := fun hc' => hapart (hc.symm l w hl hc').2
  -- the members of the other roots are the same
  have hother {m r : ℕ} (hr : s.lrgs.parent r = none) (hrl : r ≠ l) (hrw : r ≠ w) :
      Root s'.lrgs.parent m r ↔ Root s.lrgs.parent m r := by
    rw [hroot]
    constructor
    · rintro ⟨t, hmt, ht⟩
      unfold merged at ht
      split_ifs at ht with htl
      · exact absurd ht hrw
      · exact ht ▸ hmt
    · exact fun hm => ⟨r, hm, (if_neg hrl).symm⟩
  -- first the five parts of `Coalesced`, then the kinds and the failures
  refine ⟨hforest, .of_adj hsymm hforest.root ?_ ?_ ?_ ?_ ?_, ?_, ?_⟩
  · exact fun r hr => hnodup r (hnone hr).1 (hnone hr).2
  · intro r hr hrr
    obtain ⟨hr, hrl⟩ := hnone hr
    obtain ⟨t, z, ht, htr, hz, hzr⟩ := (hadj r hr hrl r).1 hrr
    have hirr := hc.irrefl t ht
    unfold merged at htr hzr
    split_ifs at htr hzr with h1 h2 h2
    · rw [h2, ← h1] at hz
      exact hirr hz
    · subst h1 htr hzr
      exact hapart' hz
    · subst h2 htr hzr
      exact hapart hz
    · rw [hzr, ← htr] at hz
      exact hirr hz
  · intro r y hr
    obtain ⟨hr, hrl⟩ := hnone hr
    rw [hadj r hr hrl]
    constructor
    · rintro ⟨t, z, ht, rfl, hz, rfl⟩
      obtain ⟨m, x, hm, hx, hxz⟩ := (hc.adj t z ht).1 hz
      exact ⟨m, x, hroot.2 ⟨t, hm, rfl⟩, hx, hroot.2 ⟨z, hxz, rfl⟩⟩
    · rintro ⟨m, x, hm, hx, hxy⟩
      obtain ⟨t, hmt, rfl⟩ := hroot.1 hm
      obtain ⟨z, hxz, rfl⟩ := hroot.1 hxy
      have ht := hmt.parent_eq_none
      exact ⟨t, z, ht, rfl, (hc.adj t z ht).2 ⟨m, x, hmt, hx, hxz⟩, rfl⟩
  · intro r reg hr
    obtain ⟨hr, hrl⟩ := hnone hr
    rw [hmask]
    by_cases hrw : r = w
    · subst hrw
      rw [Function.update_self, RegMask.intersection, if_pos hkind, Finset.mem_inter,
        hc.mask r reg hr, hc.mask l reg hl]
      constructor
      · rintro ⟨h1, h2⟩ m hm
        obtain ⟨t, hmt, ht⟩ := hroot.1 hm
        unfold merged at ht
        split_ifs at ht with htl
        · exact h2 m (htl ▸ hmt)
        · exact h1 m (ht ▸ hmt)
      · intro hall
        exact ⟨fun m hm => hall m (hroot.2 ⟨r, hm, (if_neg hrl).symm⟩),
          fun m hm => hall m (hroot.2 ⟨l, hm, (if_pos rfl).symm⟩)⟩
    · rw [Function.update_of_ne hrw, hc.mask r reg hr]
      exact forall_congr' fun m => by rw [hother hr hrl hrw]
  · intro r m hm hmr
    obtain ⟨hr, hrl⟩ := hnone hm.parent_eq_none
    rw [hmask]
    by_cases hrw : r = w
    · subst hrw
      rw [Function.update_self, RegMask.intersection, if_pos hkind]
      exact hnonempty
    · rw [Function.update_of_ne hrw]
      exact hc.nonempty r m ((hother hr hrl hrw).1 hm) hmr
  · intro m r hm
    obtain ⟨t, hmt, rfl⟩ := hroot.1 hm
    obtain ⟨hk, hb⟩ := hkinds m t hmt
    rw [hmask, ← hk, ← hb]
    by_cases htl : t = l
    · subst htl
      rw [merged, if_pos rfl, Function.update_self]
      exact ⟨hkind, hlen⟩
    · rw [merged, if_neg htl]
      by_cases htw : t = w
      · subst htw
        rw [Function.update_self]
        exact ⟨rfl, rfl⟩
      · rw [Function.update_of_ne htw]
        exact ⟨rfl, rfl⟩
  · intro r hr
    rw [hfails]
    exact hnofail r (hnone hr).1

theorem Invariant.mono (h : Invariant s₀ d s) : Invariant s₀ (d + 1) s where
  forest := ⟨h.forest.rank_lt, fun x => (h.forest.rooted x).imp fun _ hr => hr.mono (Nat.le_succ d)⟩
  coalesced := h.coalesced
  kind := h.kind
  fails := h.fails

/-- The lists after a merge, from those of the neighbours and the one that was made for the winner. -/
theorem merged_adj {ifg ifg' : ℕ → List ℕ} {buf : List ℕ} {w l : ℕ} {P : ℕ → Prop}
    (hw : P w) (hl : P l) (hne : w ≠ l) (hwl : l ∉ ifg w) (hll : l ∉ ifg l)
    (hsymm : ∀ r, P r → (l ∈ ifg r ↔ r ∈ ifg l))
    (hbuf : ∀ y, y ∈ buf ↔ y ∈ ifg w ∨ y ∈ ifg l)
    (hout : ∀ r ∉ ifg l, ifg' r = ifg r)
    (hin : ∀ r ∈ ifg l, ∀ y, y ∈ ifg' r ↔ y ∈ ifg r ∧ y ≠ l ∨ y = w)
    {r : ℕ} (hr : P r) (hrl : r ≠ l) (y : ℕ) :
    y ∈ Function.update (Function.update ifg' w buf) l [] r ↔
      ∃ t z, P t ∧ merged w l t = r ∧ z ∈ ifg t ∧ merged w l z = y := by
  rw [Function.update_of_ne hrl]
  -- the winner has both lists, and neither of them names the loser
  by_cases hrw : r = w
  · subst hrw
    rw [Function.update_self, hbuf]
    constructor
    · rintro (hy | hy)
      · refine ⟨r, y, hw, if_neg hrl, hy, if_neg ?_⟩
        rintro rfl
        exact hwl hy
      · refine ⟨l, y, hl, if_pos rfl, hy, if_neg ?_⟩
        rintro rfl
        exact hll hy
    · rintro ⟨t, z, -, ht, hz, rfl⟩
      unfold merged at ht
      split_ifs at ht with htl
      · subst htl
        have hzl : z ≠ t := by
          rintro rfl
          exact hll hz
        rw [merged, if_neg hzl]
        exact .inr hz
      · subst ht
        have hzl : z ≠ l := by
          rintro rfl
          exact hwl hz
        rw [merged, if_neg hzl]
        exact .inl hz
  · rw [Function.update_of_ne hrw]
    have hrest : (∃ t z, P t ∧ merged w l t = r ∧ z ∈ ifg t ∧ merged w l z = y) ↔
        ∃ z ∈ ifg r, merged w l z = y := by
      constructor
      · rintro ⟨t, z, -, ht, hz, rfl⟩
        unfold merged at ht
        split_ifs at ht with htl
        · exact absurd ht.symm hrw
        · exact ⟨z, ht ▸ hz, rfl⟩
      · rintro ⟨z, hz, rfl⟩
        exact ⟨r, z, hr, if_neg hrl, hz, rfl⟩
    rw [hrest]
    -- a neighbour of the loser names the winner now, the others name no loser at all
    by_cases hmem : r ∈ ifg l
    · rw [hin r hmem]
      constructor
      · rintro (⟨hy, hyl⟩ | rfl)
        · exact ⟨y, hy, if_neg hyl⟩
        · exact ⟨l, (hsymm r hr).2 hmem, if_pos rfl⟩
      · rintro ⟨z, hz, rfl⟩
        unfold merged
        split_ifs with hzl
        · exact .inr rfl
        · exact .inl ⟨hz, hzl⟩
    · rw [hout r hmem]
      have hlr : l ∉ ifg r := fun hc => hmem ((hsymm r hr).1 hc)
      have hzl {z : ℕ} (hz : z ∈ ifg r) : merged w l z = z := by
        refine if_neg ?_
        rintro rfl
        exact hlr hz
      constructor
      · exact fun hy => ⟨y, hy, hzl hy⟩
      · rintro ⟨z, hz, rfl⟩
        rwa [hzl hz]

/-- The list of the winner is the union of the two. -/
theorem mem_buf_iff (iadj inadj : List ℕ) (y : ℕ) :
    y ∈ (partitionAdj inadj [] [] iadj).1 ++ inadj ↔ y ∈ iadj ∨ y ∈ inadj := by
  rw [(partitionAdj_spec inadj [] [] iadj).1]
  simp only [List.nil_append, List.mem_append, List.mem_filter, Bool.not_eq_true',
    List.contains_eq_mem, decide_eq_false_iff_not]
  tauto

theorem nodup_buf {iadj inadj : List ℕ} (hi : iadj.Nodup) (ho : inadj.Nodup) :
    ((partitionAdj inadj [] [] iadj).1 ++ inadj).Nodup := by
  rw [(partitionAdj_spec inadj [] [] iadj).1, List.nil_append]
  refine List.Nodup.append (hi.filter _) ho fun y hy hy' => ?_
  have := (List.mem_filter.1 hy).2
  simp [hy'] at this

section Merge

variable (h : Invariant s₀ d s) (hsymm : ∀ x y, y ∈ s₀.ifg x → x ∈ s₀.ifg y)
  {i o : ℕ} (hi : s.lrgs.parent i = none) (ho : s.lrgs.parent o = none) (hio : i ≠ o)
  (hkind : (s.lrgs.mask i).kind = (s.lrgs.mask o).kind)
  (hlen : (s.lrgs.mask i).bitLength = (s.lrgs.mask o).bitLength)

include h hsymm hi ho hio hkind hlen

/-- Two roots that do not interfere are merged. -/
theorem mergeRoots_spec (hapart : o ∉ s.ifg i)
    (hnonempty : ((s.lrgs.mask i).regs ∩ (s.lrgs.mask o).regs).Nonempty) {buf : List ℕ}
    (hnodup : buf.Nodup) (hbuf : ∀ y, y ∈ buf ↔ y ∈ s.ifg i ∨ y ∈ s.ifg o) :
    ∃ s', mergeRoots fuel s i o buf = some s' ∧ Invariant s₀ (d + 1) s' := by
  have hc := h.coalesced
  obtain ⟨ls, w, l, hun, hwl, hparent, hforest, hmask, hfails⟩ :=
    @unify_spec d fuel s.lrgs i o h.forest hi ho hio hkind hnonempty
  -- all that is known about `i` and `o` holds of `w` and `l` as well
  have hboth : s.lrgs.parent w = none ∧ s.lrgs.parent l = none ∧ w ≠ l ∧ l ∉ s.ifg w ∧
      (s.lrgs.mask w).kind = (s.lrgs.mask l).kind ∧
      (s.lrgs.mask w).bitLength = (s.lrgs.mask l).bitLength ∧
      ((s.lrgs.mask w).regs ∩ (s.lrgs.mask l).regs).Nonempty ∧
      (∀ y, y ∈ buf ↔ y ∈ s.ifg w ∨ y ∈ s.ifg l) ∧ (if w = i then o else i) = l := by
    rcases hwl with ⟨rfl, rfl⟩ | ⟨rfl, rfl⟩
    · exact ⟨hi, ho, hio, hapart, hkind, hlen, hnonempty, hbuf, if_pos rfl⟩
    · refine ⟨ho, hi, hio.symm, fun hm => hapart (hc.symm w l ho hm).2, hkind.symm, hlen.symm, ?_,
        fun y => (hbuf y).trans or_comm, if_neg hio.symm⟩
      rwa [Finset.inter_comm]
  obtain ⟨hw, hl, hne, hapart, hkind, hlen, hnonempty, hbuf, hother⟩ := hboth
  have hsymm₁ (r : ℕ) (hr : s.lrgs.parent r = none) : l ∈ s.ifg r ↔ r ∈ s.ifg l :=
    ⟨fun hm => (hc.symm r l hr hm).2, fun hm => (hc.symm l r hl hm).2⟩
  obtain ⟨ifg', hfold, hout, hin⟩ := @foldlM_patchAdj ls w l (s.ifg l) s.ifg (hc.nodup l hl) hne
    fun r hr => by
      obtain ⟨hroot, hmem⟩ := hc.symm l r hl hr
      refine ⟨?_, hc.nodup r hroot, hmem⟩
      rw [hparent, link_of_ne, hroot]
      rintro rfl
      exact hc.irrefl r hl hr
  refine ⟨⟨ls, Function.update (Function.update ifg' w buf) l []⟩, ?_,
    h.merge hsymm hw hl hne hapart hkind hlen hnonempty hparent hforest hmask hfails ?_ ?_⟩
  · unfold mergeRoots
    rw [hun, Option.bind_eq_bind, Option.bind_some]
    dsimp only
    rw [if_pos (by rw [hfails]; exact h.fails w hw), hother, hfold]
    rfl
  · intro r hr hrl
    dsimp only
    rw [Function.update_of_ne hrl]
    by_cases hrw : r = w
    · subst hrw
      rwa [Function.update_self]
    · rw [Function.update_of_ne hrw]
      by_cases hmem : r ∈ s.ifg l
      · exact (hin r hmem).1
      · rw [hout r hmem]
        exact hc.nodup r hr
  · exact fun r hr hrl y => merged_adj hw hl hne hapart (hc.irrefl l hl) hsymm₁ hbuf hout
      (fun r hr => (hin r hr).2) hr hrl y

/-- **The body of the loop** keeps the invariant, and its assertions hold. -/
theorem coalesceRoots_spec (chained : Bool) :
    ∃ s', coalesceRoots fuel s i o chained = some s' ∧ Invariant s₀ (d + 1) s' := by
  -- the state once the list of `i` has been permuted
  obtain ⟨⟨moved, stay⟩, hpart⟩ : ∃ p, p = partitionAdj (s.ifg o) [] [] (s.ifg i) := ⟨_, rfl⟩
  have hperm : (moved ++ stay).Perm (s.ifg i) := by
    have := partitionAdj_perm (s.ifg o) (s.ifg i)
    rwa [← hpart] at this
  have hifg (r : ℕ) : (Function.update s.ifg i (moved ++ stay) r).Perm (s.ifg r) := by
    by_cases hr : r = i
    · subst hr
      rwa [Function.update_self]
    · rw [Function.update_of_ne hr]
  have h₁ : Invariant s₀ d ⟨s.lrgs, Function.update s.ifg i (moved ++ stay)⟩ :=
    h.sameRoots h.forest (fun _ _ => Iff.rfl) hifg
  unfold coalesceRoots
  dsimp only
  rw [← hpart]
  dsimp only
  split_ifs with hcoll
  · exact ⟨_, rfl, h₁.mono⟩
  have hleeway : (s.lrgs.mask i).intersectionPopCount (s.lrgs.mask o) =
      some ((s.lrgs.mask i).regs ∩ (s.lrgs.mask o).regs).card := if_pos hlen
  rw [hleeway, Option.bind_eq_bind, Option.bind_some]
  split_ifs with hfull
  · exact ⟨_, rfl, h₁.mono⟩
  refine mergeRoots_spec h₁ hsymm hi ho hio hkind hlen ?_ ?_ ?_ ?_
  · dsimp only
    rw [(hifg i).mem_iff]
    exact fun hm => hcoll (List.contains_iff_mem.2 hm)
  · rw [← Finset.card_pos, Nat.pos_iff_ne_zero]
    exact fun h0 => hfull ⟨le_of_eq_of_le h0 (Nat.zero_le _), .inl h0⟩
  · have := nodup_buf (h.coalesced.nodup i hi) (h.coalesced.nodup o ho)
    rwa [← hpart] at this
  · intro y
    have := mem_buf_iff (s.ifg i) (s.ifg o) y
    rwa [← hpart, ← (hifg i).mem_iff, ← (hifg o).mem_iff] at this

end Merge

/-- A `Split` between live ranges of one kind. -/
def SplitCopy.Typed (s₀ : CoalesceState) (split : SplitCopy) : Prop :=
  (s₀.lrgs.mask split.instr).kind = (s₀.lrgs.mask split.inp).kind ∧
    (s₀.lrgs.mask split.instr).bitLength = (s₀.lrgs.mask split.inp).bitLength

/-- One `Split`. -/
theorem coalesceSplit_spec (h : Invariant s₀ d s) (hsymm : ∀ x y, y ∈ s₀.ifg x → x ∈ s₀.ifg y)
    {split : SplitCopy} (ht : split.Typed s₀) (hd : d < fuel) :
    ∃ s', coalesceSplit fuel s split = some s' ∧ Invariant s₀ (d + 1) s' := by
  obtain ⟨parent₁, i, hfind₁, hi, hf₁, hsame₁⟩ := find_spec h.forest hd split.instr
  have h₁ := h.sameRoots hf₁ hsame₁ fun r => List.Perm.refl (s.ifg r)
  obtain ⟨parent₂, o, hfind₂, ho, hf₂, hsame₂⟩ := find_spec h₁.forest hd split.inp
  have h₂ := h₁.sameRoots hf₂ hsame₂ fun r => List.Perm.refl (s.ifg r)
  have hi₂ : Root parent₂ split.instr i := (hsame₂ _ _).1 ((hsame₁ _ _).1 hi)
  have ho₂ : Root parent₂ split.inp o := (hsame₂ _ _).1 ho
  unfold coalesceSplit
  rw [hfind₁, Option.bind_eq_bind, Option.bind_some]
  dsimp only at hfind₂ ⊢
  rw [hfind₂, Option.bind_some]
  dsimp only
  split_ifs with hio
  · exact ⟨_, rfl, h₂.mono⟩
  · obtain ⟨hk, hb⟩ := h₂.kind split.instr i hi₂
    obtain ⟨hk', hb'⟩ := h₂.kind split.inp o ho₂
    refine coalesceRoots_spec h₂ hsymm hi₂.parent_eq_none ho₂.parent_eq_none hio ?_ ?_ _
    · rw [hk, hk', ht.1]
    · rw [hb, hb', ht.2]

/-- All of them. -/
theorem coalesce_invariant (h : Invariant s₀ d s) (hsymm : ∀ x y, y ∈ s₀.ifg x → x ∈ s₀.ifg y)
    {splits : List SplitCopy} (ht : ∀ split ∈ splits, split.Typed s₀)
    (hfuel : d + splits.length ≤ fuel) :
    ∃ s', coalesce fuel s splits = some s' ∧ Invariant s₀ (d + splits.length) s' := by
  induction splits generalizing s d with
  | nil => exact ⟨s, rfl, h⟩
  | cons split splits ih =>
    rw [List.length_cons] at hfuel
    obtain ⟨s₁, hs₁, h₁⟩ := coalesceSplit_spec h hsymm (ht split List.mem_cons_self)
      (by omega : d < fuel)
    obtain ⟨s', hs', h'⟩ := ih h₁ (fun sp hsp => ht sp (List.mem_cons_of_mem _ hsp)) (by omega)
    refine ⟨s', ?_, ?_⟩
    · unfold coalesce at hs' ⊢
      rw [List.foldlM_cons, hs₁]
      exact hs'
    · rw [List.length_cons, Nat.add_comm splits.length, ← Nat.add_assoc]
      exact h'

end Steps

/-- Before the loop every live range is a root. -/
theorem invariant_init {s₀ : CoalesceState} (hroots : ∀ l, s₀.lrgs.parent l = none)
    (hfails : ∀ l, s₀.lrgs.fails l = ∅) (hsymm : ∀ x y, y ∈ s₀.ifg x → x ∈ s₀.ifg y)
    (hirrefl : ∀ x, x ∉ s₀.ifg x) (hnodup : ∀ x, (s₀.ifg x).Nodup) : Invariant s₀ 0 s₀ := by
  have hroot {x r : ℕ} : Root s₀.lrgs.parent x r ↔ r = x :=
    ⟨fun h => h.eq_self (hroots x), fun h => by rw [h]; exact .self (hroots x)⟩
  refine ⟨⟨fun x p hp => ?_, fun x => ⟨x, .root (hroots x)⟩⟩, ?_, ?_, fun l _ => hfails l⟩
  · rw [hroots x] at hp
    cases hp
  · refine .of_adj hsymm (fun l => ⟨l, hroot.2 rfl⟩) (fun r _ => hnodup r) (fun r _ => hirrefl r)
      ?_ ?_ ?_
    · simp [hroot]
    · simp [hroot]
    · intro r m hm hne
      exact absurd (hroot.1 hm).symm hne
  · intro m r hm
    rw [hroot.1 hm]
    exact ⟨rfl, rfl⟩

/-- **The coalescing loop keeps the interference graph**: its assertions hold, and over the roots
afterwards the graph, and the registers, are those that the merged live ranges have together. -/
theorem coalesce_coalesced {s₀ : CoalesceState} {splits : List SplitCopy} {fuel : ℕ}
    (hroots : ∀ l, s₀.lrgs.parent l = none) (hfails : ∀ l, s₀.lrgs.fails l = ∅)
    (hsymm : ∀ x y, y ∈ s₀.ifg x → x ∈ s₀.ifg y) (hirrefl : ∀ x, x ∉ s₀.ifg x)
    (hnodup : ∀ x, (s₀.ifg x).Nodup) (ht : ∀ split ∈ splits, split.Typed s₀)
    (hfuel : splits.length ≤ fuel) :
    ∃ s, coalesce fuel s₀ splits = some s ∧ Coalesced s₀ s := by
  obtain ⟨s, hs, h⟩ := coalesce_invariant (invariant_init hroots hfails hsymm hirrefl hnodup)
    hsymm ht (by omega : 0 + splits.length ≤ fuel)
  exact ⟨s, hs, h.coalesced⟩

/-- Three live ranges, `0` and `1` next to `2`. -/
def threeRanges : CoalesceState where
  lrgs := {
    parent := fun _ => none
    rank := fun _ => 0
    mask := fun _ => ⟨0, 64, {0, 1, 2}⟩
    fails := fun _ => ∅ }
  ifg := fun l => [[2], [2], [0, 1]].getD l []

theorem coalesce_coalesced_threeRanges :
    ∃ s, coalesce 1 threeRanges [⟨1, 0, false⟩] = some s ∧ Coalesced threeRanges s := by
  refine coalesce_coalesced (fun _ => rfl) (fun _ => rfl) ?_ ?_ ?_ ?_ le_rfl
  · intro x y h
    rcases x with - | - | - | x
    · obtain rfl : y = 2 := List.mem_singleton.1 h
      decide
    · obtain rfl : y = 2 := List.mem_singleton.1 h
      decide
    · obtain rfl | rfl : y = 0 ∨ y = 1 := by simpa [threeRanges] using h
      · decide
      · decide
    · cases h
  · intro x
    rcases x with - | - | - | x
    all_goals simp [threeRanges]
  · intro x
    rcases x with - | - | - | x
    all_goals simp [threeRanges]
  · exact fun split _ => ⟨rfl, rfl⟩

end OdinSon.Regalloc
