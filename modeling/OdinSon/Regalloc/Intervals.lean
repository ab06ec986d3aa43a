import OdinSon.Regalloc.LinearScan
import Mathlib.Data.List.DropRight

/-!
# The intervals of a linear scan

How `regalloc_round` (`bac/regalloc/regalloc.odin`) makes the intervals: the first definition of a
live range starts its interval, and every use, definition and block at whose end it is live moves the
end.  The intervals of a block are sorted by an insertion sort.

So there is one interval for a live range, whatever the blocks are (`buildSlrgs_spec`), which is what
a `ScanCtx` asks for.
-/

namespace OdinSon.Regalloc

/-- An instruction. -/
structure ScanInstr where
  /-- The live ranges that are used. -/
  uses : List ℕ
  /-- The live range that is defined. -/
  def? : Option ℕ

/-- A block. -/
structure ScanBlock where
  /-- The instructions. -/
  instrs : List ScanInstr
  /-- The live ranges that are live at the end. -/
  liveouts : List ℕ

/-- The intervals so far. -/
structure Slrgs where
  /-- `ctx.slrgs`. -/
  items : List Slrg
  /-- `ctx.smetas`, the place of the interval of each live range. -/
  current : ℕ → Option ℕ

namespace Slrgs

variable (t : Slrgs)

/-- Move the end of an interval. -/
def setEnd (i stop : ℕ) : Slrgs := { t with items := t.items.modify i ({ · with stop }) }

/-- `add_slrg_use`, which asserts that there is an interval. -/
def addUse (stop lrg : ℕ) : Option Slrgs := do
  let i ← t.current lrg
  let slrg ← t.items[i]?
  if slrg.lrg = lrg then some (t.setEnd i stop) else none

/-- A definition at the program point `idx`. -/
def addDef (idx lrg : ℕ) : Slrgs :=
  match t.current lrg with
  | some i => t.setEnd i idx
  | none =>
    { items := t.items ++ [⟨idx, idx, lrg⟩]
      current := Function.update t.current lrg (some t.items.length) }

/-- The instruction at the program point `idx`. -/
def addInstr (idx : ℕ) (instr : ScanInstr) : Option Slrgs := do
  let t ← instr.uses.foldlM (fun t lrg => t.addUse idx lrg) t
  match instr.def? with
  | none => some t
  | some lrg => some (t.addDef idx lrg)

/-- The instructions from the program point `idx` on. -/
def addInstrs (t : Slrgs) (idx : ℕ) : List ScanInstr → Option Slrgs
  | [] => some t
  | instr :: instrs => do
    let t ← t.addInstr idx instr
    addInstrs t (idx + 1) instrs

end Slrgs

/-- The loop of `insertion_sort_slrg` over the sorted intervals before `key`, from the last on. -/
def insertSlrg (items : List Slrg) (key : Slrg) : List Slrg :=
  items.rdropWhile (fun a => decide (key.start < a.start)) ++
    key :: items.rtakeWhile fun a => decide (key.start < a.start)

/-- `insertion_sort_slrg`. -/
def insertionSortSlrg (items : List Slrg) : List Slrg := items.foldl insertSlrg []

namespace Slrgs

/-- Sort the intervals from `checkpoint` on. -/
def sortFrom (t : Slrgs) (checkpoint : ℕ) : Slrgs :=
  let sorted := insertionSortSlrg (t.items.drop checkpoint)
  { items := t.items.take checkpoint ++ sorted
    current := sorted.zipIdx.foldl
      (fun current p => Function.update current p.1.lrg (some (checkpoint + p.2))) t.current }

/-- A block at the program point `offset`. -/
def addBlock (t : Slrgs) (offset : ℕ) (block : ScanBlock) : Option Slrgs := do
  let checkpoint := t.items.length
  let t ← t.addInstrs offset block.instrs
  let t ← block.liveouts.foldlM (fun t lrg => t.addUse (offset + block.instrs.length) lrg) t
  return t.sortFrom checkpoint

/-- The blocks from the program point `offset` on; the result has the number of points too. -/
def addBlocks (t : Slrgs) (offset : ℕ) : List ScanBlock → Option (Slrgs × ℕ)
  | [] => some (t, offset)
  | block :: blocks => do
    let t ← t.addBlock offset block
    addBlocks t (offset + block.instrs.length) blocks

end Slrgs

/-- The intervals and the number of program points; it is asserted that they are sorted. -/
def buildSlrgs (blocks : List ScanBlock) : Option (List Slrg × ℕ) := do
  let (t, points) ← Slrgs.addBlocks ⟨[], fun _ => none⟩ 0 blocks
  if t.items.Pairwise (·.start ≤ ·.start) then some (t.items, points) else none

/-! ### One interval for a live range -/

namespace Slrgs

/-- The intervals start before `points`, and each live range has its own. -/
structure Ok (t : Slrgs) (points : ℕ) : Prop where
  distinct : (t.items.map (·.lrg)).Nodup
  start_lt : ∀ a ∈ t.items, a.start < points
  current : ∀ a ∈ t.items, t.current a.lrg ≠ none

variable {t t' : Slrgs} {points idx lrg : ℕ}

theorem Ok.mono (h : t.Ok points) {points' : ℕ} (hle : points ≤ points') : t.Ok points' :=
  ⟨h.distinct, fun a ha => (h.start_lt a ha).trans_le hle, h.current⟩

theorem Ok.setEnd (h : t.Ok points) (i stop : ℕ) : (t.setEnd i stop).Ok points := by
  have hmap {β : Type} (g : Slrg → β) (hg : ∀ a : Slrg, g { a with stop } = g a) :
      (t.setEnd i stop).items.map g = t.items.map g := by
    refine List.ext_getElem? fun k => ?_
    simp only [Slrgs.setEnd, List.getElem?_map, List.getElem?_modify]
    cases t.items[k]? with
    | none => rfl
    | some a =>
      split
      · exact congrArg some (hg a)
      · rfl
  have hof {p : ℕ → ℕ → Prop} (hp : ∀ a ∈ t.items, p a.start a.lrg) :
      ∀ a ∈ (t.setEnd i stop).items, p a.start a.lrg := by
    intro a ha
    have hmem := List.mem_map_of_mem (f := fun a : Slrg => (a.start, a.lrg)) ha
    rw [hmap _ fun _ => rfl] at hmem
    obtain ⟨b, hb, he⟩ := List.mem_map.1 hmem
    rw [← (Prod.mk.inj he).1, ← (Prod.mk.inj he).2]
    exact hp b hb
  refine ⟨?_, hof (p := fun start _ => start < points) h.start_lt,
    hof (p := fun _ lrg => t.current lrg ≠ none) h.current⟩
  rw [hmap _ fun _ => rfl]
  exact h.distinct

theorem Ok.addUse (h : t.Ok points) (he : t.addUse idx lrg = some t') : t'.Ok points := by
  rw [Slrgs.addUse] at he
  simp only [Option.bind_eq_bind, Option.bind_eq_some_iff] at he
  obtain ⟨i, -, slrg, -, he⟩ := he
  split at he
  · cases he
    exact h.setEnd i idx
  · cases he

theorem Ok.addUses (h : t.Ok points) {lrgs : List ℕ}
    (he : lrgs.foldlM (fun t lrg => t.addUse idx lrg) t = some t') : t'.Ok points := by
  induction lrgs generalizing t with
  | nil =>
    cases he
    exact h
  | cons lrg lrgs ih =>
    rw [List.foldlM_cons, Option.bind_eq_bind, Option.bind_eq_some_iff] at he
    obtain ⟨t1, h1, he⟩ := he
    exact ih (h.addUse h1) he

/-- A definition makes an interval only if there is none. -/
theorem Ok.addDef (h : t.Ok points) (hidx : idx < points) (lrg : ℕ) :
    (t.addDef idx lrg).Ok points := by
  rw [Slrgs.addDef]
  split
  · exact h.setEnd _ _
  · rename_i hnone
    have hnew : lrg ∉ t.items.map (·.lrg) := by
      intro hmem
      obtain ⟨a, ha, rfl⟩ := List.mem_map.1 hmem
      exact h.current a ha hnone
    refine ⟨?_, fun a ha => ?_, fun a ha => ?_⟩
    · rw [List.map_append, List.nodup_append]
      refine ⟨h.distinct, List.nodup_singleton _, fun x hx y hy => ?_⟩
      obtain rfl := List.mem_singleton.1 hy
      exact fun he => hnew (he ▸ hx)
    · obtain ha | ha := List.mem_append.1 ha
      · exact h.start_lt a ha
      · obtain rfl := List.mem_singleton.1 ha
        exact hidx
    · simp only
      by_cases hl : a.lrg = lrg
      · rw [hl, Function.update_self]
        exact Option.some_ne_none _
      · rw [Function.update_of_ne hl]
        obtain ha | ha := List.mem_append.1 ha
        · exact h.current a ha
        · exact absurd (congrArg Slrg.lrg (List.mem_singleton.1 ha)) hl

theorem Ok.addInstrs {instrs : List ScanInstr} (h : t.Ok points)
    (hidx : idx + instrs.length ≤ points) (he : t.addInstrs idx instrs = some t') :
    t'.Ok points := by
  induction instrs generalizing t idx with
  | nil =>
    cases he
    exact h
  | cons instr instrs ih =>
    rw [List.length_cons] at hidx
    rw [Slrgs.addInstrs, Option.bind_eq_bind, Option.bind_eq_some_iff] at he
    obtain ⟨t1, h1, he⟩ := he
    refine ih ?_ (by omega) he
    rw [Slrgs.addInstr, Option.bind_eq_bind, Option.bind_eq_some_iff] at h1
    obtain ⟨t2, h2, h1⟩ := h1
    have h2 := h.addUses h2
    split at h1
    · cases h1
      exact h2
    · cases h1
      exact h2.addDef (by omega) _

end Slrgs

/-! ### Sorting -/

theorem insertSlrg_perm (items : List Slrg) (key : Slrg) :
    (insertSlrg items key).Perm (items ++ [key]) := by
  have hsplit : items.rdropWhile (fun a => decide (key.start < a.start)) ++
      items.rtakeWhile (fun a => decide (key.start < a.start)) = items := by
    rw [List.rdropWhile, List.rtakeWhile, ← List.reverse_append, List.takeWhile_append_dropWhile,
      List.reverse_reverse]
  refine List.perm_middle.trans (((List.Perm.of_eq hsplit).cons key).trans ?_)
  exact (List.perm_append_singleton key items).symm

theorem insertionSortSlrg_perm (items : List Slrg) : (insertionSortSlrg items).Perm items := by
  suffices h : ∀ sorted, (items.foldl insertSlrg sorted).Perm (sorted ++ items) from h []
  induction items with
  | nil => exact fun sorted => by rw [List.append_nil]; rfl
  | cons key items ih =>
    intro sorted
    refine (ih _).trans (((insertSlrg_perm sorted key).append_right items).trans ?_)
    rw [List.append_assoc, List.singleton_append]

namespace Slrgs

variable {t t' : Slrgs} {points idx lrg : ℕ}

/-- Places are only moved. -/
theorem foldl_current_ne_none {ps : List (Slrg × ℕ)} {current : ℕ → Option ℕ} {checkpoint : ℕ}
    (h : current lrg ≠ none) :
    ps.foldl (fun (current : ℕ → Option ℕ) p =>
      Function.update current p.1.lrg (some (checkpoint + p.2))) current lrg ≠ none := by
  induction ps generalizing current with
  | nil => exact h
  | cons p ps ih =>
    refine ih ?_
    dsimp only
    by_cases hl : lrg = p.1.lrg
    · rw [hl, Function.update_self]
      exact Option.some_ne_none _
    · rwa [Function.update_of_ne hl]

theorem Ok.sortFrom (h : t.Ok points) (checkpoint : ℕ) : (t.sortFrom checkpoint).Ok points := by
  have hperm : (t.sortFrom checkpoint).items.Perm t.items := by
    refine ((insertionSortSlrg_perm _).append_left _).trans ?_
    rw [List.take_append_drop]
  refine ⟨(hperm.map _).nodup_iff.2 h.distinct, fun a ha => h.start_lt a (hperm.mem_iff.1 ha),
    fun a ha => ?_⟩
  exact foldl_current_ne_none (h.current a (hperm.mem_iff.1 ha))

theorem Ok.addBlocks {blocks : List ScanBlock} {offset : ℕ} (h : t.Ok offset)
    (he : t.addBlocks offset blocks = some (t', points)) : t'.Ok points := by
  induction blocks generalizing t offset with
  | nil =>
    obtain ⟨rfl, rfl⟩ := Prod.mk.inj (Option.some.inj he)
    exact h
  | cons block blocks ih =>
    rw [Slrgs.addBlocks, Option.bind_eq_bind, Option.bind_eq_some_iff] at he
    obtain ⟨t1, h1, he⟩ := he
    refine ih ?_ he
    rw [Slrgs.addBlock] at h1
    simp only [Option.bind_eq_bind, Option.bind_eq_some_iff] at h1
    obtain ⟨t2, h2, t3, h3, h1⟩ := h1
    cases h1
    exact ((h.mono (Nat.le_add_right ..)).addInstrs (le_refl _) h2 |>.addUses h3).sortFrom _

end Slrgs

/-- **The intervals are as the scan needs them.** -/
theorem buildSlrgs_spec {blocks : List ScanBlock} {slrgs : List Slrg} {points : ℕ}
    (h : buildSlrgs blocks = some (slrgs, points)) :
    slrgs.Pairwise (·.start ≤ ·.start) ∧ (slrgs.map (·.lrg)).Nodup ∧
      ∀ a ∈ slrgs, a.start < points := by
  rw [buildSlrgs, Option.bind_eq_bind, Option.bind_eq_some_iff] at h
  obtain ⟨⟨t, points'⟩, ht, h⟩ := h
  dsimp only at h
  split at h
  swap
  · cases h
  rename_i hsorted
  obtain ⟨rfl, rfl⟩ := Prod.mk.inj (Option.some.inj h)
  have hempty : Slrgs.Ok ⟨[], fun _ => none⟩ 0 :=
    ⟨List.nodup_nil, fun _ h => absurd h List.not_mem_nil, fun _ h => absurd h List.not_mem_nil⟩
  have hok := hempty.addBlocks ht
  exact ⟨hsorted, hok.distinct, hok.start_lt⟩

/-- What the scan reads, with the intervals of `blocks`. -/
def ScanCtx.ofBlocks {blocks : List ScanBlock} {slrgs : List Slrg} {points : ℕ}
    (h : buildSlrgs blocks = some (slrgs, points)) (kinds : ℕ) (spillBoundary : ℕ → ℕ)
    (mustSpill : ℕ → Bool) (maskLen : ℕ) (hlen : maskLen ≤ 2 ^ 15) : ScanCtx where
  kinds := kinds
  spillBoundary := spillBoundary
  maskLen := maskLen
  maskLen_le := hlen
  mustSpill := mustSpill
  points := points
  slrgs := slrgs
  sorted := (buildSlrgs_spec h).1
  distinct := (buildSlrgs_spec h).2.1
  start_lt := (buildSlrgs_spec h).2.2

end OdinSon.Regalloc
