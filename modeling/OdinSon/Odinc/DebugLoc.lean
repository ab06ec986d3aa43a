import Mathlib.Data.Fin.Basic
import Mathlib.Order.Fin.Basic
import OdinSon.Codegen.Leb
import OdinSon.Lib.InsertionSort

/-!
# Location lists

The ranges of code in which a variable is at some place, as the emitter of `.debug_loc`
(`odinc/elf.odin`) has them from `Dbg_Location`s: those of one symbol are sorted by their start,
cut where the next one begins, joined where they touch and agree, and written.

`locRanges_tidy` and `locRanges_covered` are about the list, `readLocList_writeLocList` about what a
debugger reads.
-/

namespace OdinSon.Odinc.DebugLoc

open Lib (readLittleEndian littleEndian Sorted sortCells)

/-- `u32`. -/
abbrev U32 := Fin (2 ^ 32)

/-- `Reg`. -/
structure Reg where
  /-- The number of the register. -/
  index : Fin (2 ^ 12)
  /-- The kind of the register. -/
  kind : Fin (2 ^ 4)
  deriving DecidableEq

/-- `Dbg_Location_Kind`. -/
inductive Kind where
  | register | registerOffset
  deriving DecidableEq

/-- `Dbg_Location`. -/
structure DbgLocation where
  /-- The first address. -/
  start : U32
  /-- `end`, the first address behind. -/
  stop : U32
  /-- The variable. -/
  symbol : U32
  /-- The offset from the register, if it is in memory. -/
  offset : BitVec 32
  /-- The register. -/
  reg : Reg
  /-- Whether the register has the value or an address. -/
  kind : Kind
  deriving DecidableEq

/-- Where the variable is, in the words of a location. -/
def DbgLocation.place (l : DbgLocation) : Kind × Reg × BitVec 32 := (l.kind, l.reg, l.offset)

/-- The addresses of a location. -/
def DbgLocation.Covers (l : DbgLocation) (address : U32) : Prop :=
  l.start ≤ address ∧ address < l.stop

/-! ### The emitter's list -/

/-- The ranges of a symbol that are not empty. -/
def candidates (dbgLocs : List DbgLocation) (symbol : U32) : List DbgLocation :=
  dbgLocs.filter fun candidate =>
    candidate.symbol == symbol && decide (candidate.start < candidate.stop)

/-- `ranges` while it is rewritten in place. -/
structure Trim where
  /-- The ranges. -/
  ranges : List DbgLocation
  /-- How many of them are kept so far, which stand first. -/
  keep : ℕ

/-- The end of a round: `candidate` is kept. -/
@[grind =] def Trim.push (s : Trim) (candidate : DbgLocation) : Trim :=
  if candidate.stop ≤ candidate.start then s
  else ⟨s.ranges.set s.keep candidate, s.keep + 1⟩

/-- One round of the loop that keeps, cuts and joins. -/
def Trim.step (s : Trim) (candidate : DbgLocation) : Trim :=
  match s.keep, s.ranges[s.keep - 1]? with
  | last + 1, some prev =>
    if candidate.start ≤ prev.stop then
      if candidate.place = prev.place then
        ⟨s.ranges.set last { prev with stop := max prev.stop candidate.stop }, last + 1⟩
      else
        let cut := { prev with stop := candidate.start }
        let ranges := s.ranges.set last cut
        let keep := if cut.stop ≤ cut.start then last else last + 1
        Trim.push ⟨ranges, keep⟩ candidate
    else s.push candidate
  | _, _ => s.push candidate

/-- The round of place `idx`. -/
def Trim.round (s : Trim) (idx : ℕ) : Trim :=
  match s.ranges[idx]? with
  | some candidate => s.step candidate
  | none => s

/-- The loop over `ranges`, then `resize`. -/
def trim (ranges : List DbgLocation) : List DbgLocation :=
  let s := (List.range' 0 ranges.length).foldl Trim.round ⟨ranges, 0⟩
  s.ranges.take s.keep

/-- What is written for a symbol. -/
def locRanges (dbgLocs : List DbgLocation) (symbol : U32) : List DbgLocation :=
  trim (sortCells DbgLocation.start (candidates dbgLocs symbol))

/-! ### The kept ranges as a stack -/

/-- `push` on the kept ranges, the last one first. -/
def push (kept : List DbgLocation) (candidate : DbgLocation) : List DbgLocation :=
  if candidate.stop ≤ candidate.start then kept else candidate :: kept

/-- `step` on the kept ranges, the last one first. -/
def keep : List DbgLocation → DbgLocation → List DbgLocation
  | [], candidate => push [] candidate
  | prev :: kept, candidate =>
    if candidate.start ≤ prev.stop then
      if candidate.place = prev.place then
        { prev with stop := max prev.stop candidate.stop } :: kept
      else if candidate.start ≤ prev.start then push kept candidate
      else push ({ prev with stop := candidate.start } :: kept) candidate
    else push (prev :: kept) candidate

/-- The kept ranges of a state, the last one first. -/
def Trim.kept (s : Trim) : List DbgLocation := (s.ranges.take s.keep).reverse

/-- What a round does for the ones after it: the kept ranges, and what is still to come. -/
structure Trim.Follows (s t : Trim) (idx : ℕ) (kept : List DbgLocation) : Prop where
  kept : t.kept = kept
  keep_le : t.keep ≤ idx + 1
  length : t.ranges.length = s.ranges.length
  drop : t.ranges.drop (idx + 1) = s.ranges.drop (idx + 1)

theorem Trim.kept_succ {s : Trim} {last : ℕ} {prev : DbgLocation} (hkeep : s.keep = last + 1)
    (hprev : s.ranges[last]? = some prev) : s.kept = prev :: (s.ranges.take last).reverse := by
  obtain ⟨hlast, hget⟩ := List.getElem?_eq_some_iff.mp hprev
  rw [Trim.kept, hkeep, List.take_succ_eq_append_getElem hlast, List.reverse_append, hget]
  rfl

theorem Trim.kept_set {s : Trim} {last : ℕ} (hlast : last < s.ranges.length) (l : DbgLocation) :
    Trim.kept ⟨s.ranges.set last l, last + 1⟩ = l :: (s.ranges.take last).reverse := by
  have hget : (s.ranges.set last l)[last]? = some l := List.getElem?_set_self hlast
  rw [Trim.kept_succ rfl hget, List.take_set_of_le (Nat.le_refl _)]

theorem Trim.push_follows {s : Trim} {idx : ℕ} (hkeep : s.keep ≤ idx) (hidx : idx < s.ranges.length)
    (candidate : DbgLocation) : s.Follows (s.push candidate) idx (DebugLoc.push s.kept candidate) := by
  rw [Trim.push, DebugLoc.push]
  split_ifs
  · exact ⟨rfl, by omega, rfl, rfl⟩
  · exact ⟨Trim.kept_set (by omega) candidate, Nat.succ_le_succ hkeep, List.length_set,
      List.drop_set_of_lt (Nat.lt_succ_of_le hkeep)⟩

/-- A cell that is kept may change before the round goes on. -/
theorem Trim.Follows.of_set {s t : Trim} {idx last k : ℕ} {l : DbgLocation}
    {kept : List DbgLocation} (hlast : last ≤ idx)
    (h : Trim.Follows ⟨s.ranges.set last l, k⟩ t idx kept) : s.Follows t idx kept :=
  ⟨h.kept, h.keep_le, h.length.trans List.length_set,
    h.drop.trans (List.drop_set_of_lt (Nat.lt_succ_of_le hlast))⟩

theorem Trim.step_follows {s : Trim} {idx : ℕ} (hkeep : s.keep ≤ idx) (hidx : idx < s.ranges.length)
    (candidate : DbgLocation) :
    s.Follows (s.step candidate) idx (DebugLoc.keep s.kept candidate) := by
  obtain ⟨ranges, k⟩ := s
  cases k with
  | zero => exact Trim.push_follows hkeep hidx candidate
  | succ last =>
    dsimp only at hkeep hidx
    have hlast : last < ranges.length := by omega
    have hprev : ranges[last]? = some ranges[last] := List.getElem?_eq_getElem hlast
    have hkept := @Trim.kept_succ ⟨ranges, last + 1⟩ last ranges[last] rfl hprev
    rw [hkept, Trim.step]
    simp only [Nat.add_sub_cancel, hprev, DebugLoc.keep]
    split_ifs with htouch hplace hempty
    · exact ⟨Trim.kept_set (s := ⟨ranges, last + 1⟩) hlast _, hkeep.trans (Nat.le_succ _), List.length_set,
        List.drop_set_of_lt (by omega)⟩
    · -- the cut range is empty, and its cell is free again
      have hfree : Trim.kept ⟨ranges.set last { ranges[last] with stop := candidate.start }, last⟩ =
          (ranges.take last).reverse := by
        rw [Trim.kept, List.take_set_of_le (Nat.le_refl _)]
      rw [← hfree]
      refine Trim.Follows.of_set (s := ⟨ranges, last + 1⟩) (by omega)
        (Trim.push_follows (by dsimp only; omega) ?_ candidate)
      exact hidx.trans_eq List.length_set.symm
    · rw [← Trim.kept_set (s := ⟨ranges, last + 1⟩) hlast]
      refine Trim.Follows.of_set (s := ⟨ranges, last + 1⟩) (by omega)
        (Trim.push_follows hkeep ?_ candidate)
      exact hidx.trans_eq List.length_set.symm
    · rw [← hkept]
      exact Trim.push_follows hkeep hidx candidate

theorem foldl_round (n idx : ℕ) (s : Trim) (hkeep : s.keep ≤ idx)
    (hidx : idx + n = s.ranges.length) :
    ((List.range' idx n).foldl Trim.round s).kept =
      (s.ranges.drop idx).foldl DebugLoc.keep s.kept := by
  induction n generalizing idx s with
  | zero => rw [List.drop_of_length_le (by omega)]; rfl
  | succ n ih =>
    have hlt : idx < s.ranges.length := by omega
    obtain ⟨hkept, hle, hlength, hdrop⟩ := Trim.step_follows hkeep hlt s.ranges[idx]
    rw [List.range'_succ, List.foldl_cons, Trim.round, List.getElem?_eq_getElem hlt]
    dsimp only
    rw [ih (idx + 1) _ hle (by omega), hkept, hdrop, List.drop_eq_getElem_cons hlt,
      List.foldl_cons]

/-- The loop in place is the loop on the stack of kept ranges. -/
theorem trim_eq (ranges : List DbgLocation) :
    trim ranges = (ranges.foldl DebugLoc.keep []).reverse := by
  have h := foldl_round ranges.length 0 ⟨ranges, 0⟩ (Nat.le_refl _) (Nat.zero_add _)
  rw [Trim.kept, List.drop_zero, Trim.kept, List.take_zero, List.reverse_nil] at h
  rw [trim, ← h, List.reverse_reverse]

/-! ### What the kept ranges are -/

/-- The kept ranges, the last one first: none is empty, and each ends before the next begins. -/
structure Tidy (kept : List DbgLocation) : Prop where
  apart : kept.Pairwise fun later earlier => earlier.stop ≤ later.start
  nonempty : ∀ l ∈ kept, l.start < l.stop

/-- The kept ranges begin where `candidate` does, or before. -/
def Before (kept : List DbgLocation) (candidate : DbgLocation) : Prop :=
  ∀ l ∈ kept, l.start ≤ candidate.start

theorem Tidy.tail {prev : DbgLocation} {kept : List DbgLocation} (h : Tidy (prev :: kept)) :
    Tidy kept :=
  ⟨(List.pairwise_cons.mp h.apart).2, fun l hl => h.nonempty l (List.mem_cons_of_mem _ hl)⟩

theorem Tidy.stop_le {prev : DbgLocation} {kept : List DbgLocation} (h : Tidy (prev :: kept)) :
    ∀ l ∈ kept, l.stop ≤ prev.start :=
  (List.pairwise_cons.mp h.apart).1

/-- The last range may change while it begins at the same place. -/
theorem Tidy.last {prev l : DbgLocation} {kept : List DbgLocation} (h : Tidy (prev :: kept))
    (hstart : l.start = prev.start) (hl : l.start < l.stop) : Tidy (l :: kept) := by
  refine ⟨List.pairwise_cons.mpr ⟨?_, h.tail.apart⟩, List.forall_mem_cons.mpr ⟨hl, h.tail.nonempty⟩⟩
  exact hstart ▸ h.stop_le

theorem Tidy.push {kept : List DbgLocation} (h : Tidy kept) {candidate : DbgLocation}
    (hstop : ∀ l ∈ kept, l.stop ≤ candidate.start) : Tidy (DebugLoc.push kept candidate) := by
  rw [DebugLoc.push]
  split_ifs with hempty
  · exact h
  · exact ⟨List.pairwise_cons.mpr ⟨hstop, h.apart⟩,
      List.forall_mem_cons.mpr ⟨not_le.mp hempty, h.nonempty⟩⟩

/-- A round keeps the ranges apart, whatever the places are. -/
theorem Tidy.keep {kept : List DbgLocation} (h : Tidy kept) {candidate : DbgLocation}
    (hbefore : Before kept candidate) : Tidy (DebugLoc.keep kept candidate) := by
  cases kept with
  | nil => exact h.push fun l hl => absurd hl List.not_mem_nil
  | cons prev kept =>
    have hprev : prev.start ≤ candidate.start := hbefore prev List.mem_cons_self
    have hkept (l : DbgLocation) (hl : l ∈ kept) : l.stop ≤ candidate.start :=
      (h.stop_le l hl).trans hprev
    rw [DebugLoc.keep]
    split_ifs with htouch hplace hempty
    · exact h.last rfl ((h.nonempty prev List.mem_cons_self).trans_le (le_max_left _ _))
    · exact h.tail.push hkept
    · have hcut : Tidy ({ prev with stop := candidate.start } :: kept) :=
        h.last rfl (not_le.mp hempty)
      refine hcut.push ?_
      exact List.forall_mem_cons.mpr ⟨le_rfl, hkept⟩
    · exact h.push (List.forall_mem_cons.mpr ⟨(not_le.mp htouch).le, hkept⟩)

theorem Before.push {kept : List DbgLocation} {candidate l : DbgLocation}
    (h : ∀ k ∈ kept, k.start ≤ candidate.start) (hl : l ∈ DebugLoc.push kept candidate) :
    l.start ≤ candidate.start := by
  rw [DebugLoc.push] at hl
  split_ifs at hl
  · exact h l hl
  · obtain rfl | hl := List.mem_cons.mp hl
    · exact le_rfl
    · exact h l hl

theorem Before.keep {kept : List DbgLocation} {candidate : DbgLocation}
    (h : Before kept candidate) : Before (DebugLoc.keep kept candidate) candidate := by
  intro l hl
  cases kept with
  | nil => exact Before.push h hl
  | cons prev kept =>
    obtain ⟨hprev, hkept⟩ := List.forall_mem_cons.mp h
    rw [DebugLoc.keep] at hl
    split_ifs at hl
    · obtain rfl | hl := List.mem_cons.mp hl
      · exact hprev
      · exact hkept l hl
    · exact Before.push hkept hl
    · refine Before.push (fun k hk => ?_) hl
      obtain rfl | hk := List.mem_cons.mp hk
      · exact hprev
      · exact hkept k hk
    · exact Before.push h hl

/-- The addresses of `l` are those of ranges that say the same place. -/
def Covered (ranges : List DbgLocation) (l : DbgLocation) : Prop :=
  ∀ address, l.Covers address → ∃ r ∈ ranges, r.place = l.place ∧ r.Covers address

theorem Covered.of_mem {ranges : List DbgLocation} {l : DbgLocation} (h : l ∈ ranges) :
    Covered ranges l :=
  fun _ haddress => ⟨l, h, rfl, haddress⟩

theorem Covered.cut {ranges : List DbgLocation} {l : DbgLocation} (h : Covered ranges l) {stop : U32}
    (hstop : stop ≤ l.stop) : Covered ranges { l with stop := stop } :=
  fun address haddress => h address ⟨haddress.1, haddress.2.trans_le hstop⟩

/-- What touches and says the same place is covered together. -/
theorem Covered.join {ranges : List DbgLocation} {prev candidate : DbgLocation}
    (hprev : Covered ranges prev) (hcandidate : Covered ranges candidate)
    (htouch : candidate.start ≤ prev.stop) (hplace : candidate.place = prev.place) :
    Covered ranges { prev with stop := max prev.stop candidate.stop } := by
  rintro address ⟨hstart, hstop⟩
  by_cases hin : address < prev.stop
  · exact hprev address ⟨hstart, hin⟩
  · have hcovers : candidate.Covers address := by
      refine ⟨htouch.trans (not_lt.mp hin), ?_⟩
      exact (lt_max_iff.mp hstop).resolve_left hin
    obtain ⟨r, hr, hrplace, hraddress⟩ := hcandidate address hcovers
    exact ⟨r, hr, hrplace.trans hplace, hraddress⟩

theorem Covered.push {ranges kept : List DbgLocation} {candidate : DbgLocation}
    (h : ∀ l ∈ kept, Covered ranges l) (hcandidate : Covered ranges candidate) :
    ∀ l ∈ DebugLoc.push kept candidate, Covered ranges l := by
  rw [DebugLoc.push]
  split_ifs
  · exact h
  · exact List.forall_mem_cons.mpr ⟨hcandidate, h⟩

theorem Covered.keep {ranges kept : List DbgLocation} {candidate : DbgLocation}
    (h : ∀ l ∈ kept, Covered ranges l) (hcandidate : Covered ranges candidate) :
    ∀ l ∈ DebugLoc.keep kept candidate, Covered ranges l := by
  cases kept with
  | nil => exact Covered.push h hcandidate
  | cons prev kept =>
    obtain ⟨hprev, hkept⟩ := List.forall_mem_cons.mp h
    rw [DebugLoc.keep]
    split_ifs with htouch hplace
    · exact List.forall_mem_cons.mpr ⟨hprev.join hcandidate htouch hplace, hkept⟩
    · exact Covered.push hkept hcandidate
    · exact Covered.push (List.forall_mem_cons.mpr ⟨hprev.cut htouch, hkept⟩) hcandidate
    · exact Covered.push h hcandidate

/-- The loop over ranges that are sorted by their start. -/
theorem foldl_keep (all ranges kept : List DbgLocation) (hsub : ∀ l ∈ ranges, l ∈ all)
    (hsorted : Sorted DbgLocation.start ranges) (hbefore : ∀ l ∈ ranges, Before kept l)
    (hkept : Tidy kept) (hcovered : ∀ l ∈ kept, Covered all l) :
    Tidy (ranges.foldl DebugLoc.keep kept) ∧
      ∀ l ∈ ranges.foldl DebugLoc.keep kept, Covered all l := by
  induction ranges generalizing kept with
  | nil => exact ⟨hkept, hcovered⟩
  | cons candidate ranges ih =>
    obtain ⟨hcandidate, hranges⟩ := List.forall_mem_cons.mp hsub
    obtain ⟨hfirst, hsorted⟩ := List.pairwise_cons.mp hsorted
    obtain ⟨hb, hbefore⟩ := List.forall_mem_cons.mp hbefore
    refine ih _ hranges hsorted ?_ (hkept.keep hb)
      (Covered.keep hcovered (Covered.of_mem hcandidate))
    exact fun l hl k hk => (hb.keep k hk).trans (hfirst l hl)

theorem trim_spec {ranges : List DbgLocation} (hsorted : Sorted DbgLocation.start ranges) :
    Tidy (trim ranges).reverse ∧ ∀ l ∈ trim ranges, Covered ranges l := by
  have h := foldl_keep ranges ranges [] (fun _ hl => hl) hsorted
    (fun _ _ _ hk => absurd hk List.not_mem_nil) ⟨List.Pairwise.nil, fun _ hk => absurd hk
      List.not_mem_nil⟩ fun _ hk => absurd hk List.not_mem_nil
  rw [trim_eq, List.reverse_reverse]
  exact ⟨h.1, fun l hl => h.2 l (List.mem_reverse.mp hl)⟩

/-! ### The bytes of `.debug_loc` -/

/-- `dwarf_reg`; nothing where an assertion fails. -/
def dwarfReg (reg : Reg) : Option ℕ :=
  if reg.kind = 1 then some (17 + reg.index)
  else if reg.kind = 0 then [0, 2, 1, 3, 7, 6, 4, 5, 8, 9, 10, 11, 12, 13, 14, 15][reg.index.val]?
  else none

/-- The `expr` of a location. -/
def locExpr (location : DbgLocation) : Option (List UInt8) :=
  (dwarfReg location.reg).map fun reg =>
    match location.kind with
    | .register =>
      if reg < 32 then [UInt8.ofNat (0x50 + reg)]
      else Codegen.Leb.uleb [0x90] (BitVec.ofNat 64 reg)
    | .registerOffset =>
      Codegen.Leb.sleb
        (if reg < 32 then [UInt8.ofNat (0x70 + reg)]
         else Codegen.Leb.uleb [0x92] (BitVec.ofNat 64 reg))
        (location.offset.signExtend 64)

/-- What is written for one range. -/
def writeEntry (location : DbgLocation) : Option (List UInt8) :=
  (locExpr location).map fun expr =>
    littleEndian 8 location.start ++ littleEndian 8 location.stop ++ littleEndian 2 expr.length ++
      expr

/-- A list: the relocated address of the procedure, the ranges, the end. -/
def writeLocList (ranges : List DbgLocation) : Option (List UInt8) :=
  (ranges.mapM writeEntry).map fun entries =>
    littleEndian 8 (2 ^ 64 - 1) ++ littleEndian 8 0 ++ entries.flatten ++ littleEndian 8 0 ++
      littleEndian 8 0

/-- What a symbol adds to `.debug_loc`: nothing without ranges. -/
def debugLoc (dbgLocs : List DbgLocation) (symbol : U32) : Option (List UInt8) :=
  if candidates dbgLocs symbol = [] then some []
  else writeLocList (locRanges dbgLocs symbol)

/-- An entry as a debugger has it. -/
structure LocEntry where
  /-- The first address. -/
  start : ℕ
  /-- The first address behind. -/
  stop : ℕ
  /-- The expression for the place. -/
  expr : List UInt8
  deriving DecidableEq

/-- A debugger reads a list of at most so many entries: a start of all ones selects a new base, two
zeros are the end. -/
@[grind =] def readLocList : ℕ → ℕ → List UInt8 → Option (List LocEntry × List UInt8)
  | 0, _, _ => none
  | fuel + 1, base, bytes => do
    let (start, bytes) ← readLittleEndian 8 bytes
    let (stop, bytes) ← readLittleEndian 8 bytes
    if start = 2 ^ 64 - 1 then readLocList fuel stop bytes
    else if start = 0 ∧ stop = 0 then some ([], bytes)
    else do
      let (length, bytes) ← readLittleEndian 2 bytes
      let (entries, rest) ← readLocList fuel base (bytes.drop length)
      some (⟨base + start, base + stop, bytes.take length⟩ :: entries, rest)

/-- The entry of a range: its expression and its addresses from `base` on. -/
def DbgLocation.entry (base : ℕ) (l : DbgLocation) : LocEntry :=
  ⟨base + l.start, base + l.stop, (locExpr l).getD []⟩

theorem length_uleb (b : List UInt8) (value : BitVec 64) :
    (Codegen.Leb.uleb b value).length ≤ b.length + 10 := by
  have hlt : value.toNat < 128 ^ (9 + 1) := value.isLt.trans (by decide)
  rw [Codegen.Leb.uleb_eq, List.length_append]
  exact Nat.add_le_add_left (Lib.length_uleb_of_lt hlt) _

theorem length_sleb (b : List UInt8) (value : BitVec 64) :
    (Codegen.Leb.sleb b value).length ≤ b.length + 10 := by
  have hlow := value.le_toInt
  have hhigh := value.toInt_lt
  rw [Codegen.Leb.sleb_eq, List.length_append]
  exact Nat.add_le_add_left (Lib.length_sleb_of_lt (n := 9) (by omega) (by omega)) _

theorem length_locExpr {l : DbgLocation} {expr : List UInt8} (h : locExpr l = some expr) :
    expr.length < 256 ^ 2 := by
  obtain ⟨reg, -, rfl⟩ := Option.map_eq_some_iff.mp h
  have hx (op : UInt8) := length_uleb [op] (BitVec.ofNat 64 reg)
  have hone (op : UInt8) : [op].length = 1 := rfl
  cases l.kind with
  | register =>
    dsimp only
    split_ifs
    · rw [hone]; decide
    · have := hx 0x90
      rw [hone] at this
      omega
  | registerOffset =>
    dsimp only
    split_ifs
    · have := length_sleb [UInt8.ofNat (0x70 + reg)] (l.offset.signExtend 64)
      rw [hone] at this
      omega
    · have := length_sleb (Codegen.Leb.uleb [0x92] (BitVec.ofNat 64 reg)) (l.offset.signExtend 64)
      have := hx 0x92
      rw [hone] at this
      omega

theorem read_zero (rest : List UInt8) :
    readLittleEndian 8 (littleEndian 8 0 ++ rest) = some (0, rest) :=
  Lib.readLittleEndian_littleEndian (by decide) rest

theorem read_u32 (value : U32) (rest : List UInt8) :
    readLittleEndian 8 (littleEndian 8 value ++ rest) = some (value.val, rest) :=
  Lib.readLittleEndian_littleEndian (value.isLt.trans (by decide)) rest

theorem readLocList_end (fuel base : ℕ) (rest : List UInt8) :
    readLocList (fuel + 1) base (littleEndian 8 0 ++ (littleEndian 8 0 ++ rest)) =
      some ([], rest) := by
  rw [readLocList, read_zero]
  dsimp only [Option.bind_eq_bind, Option.bind_some]
  rw [read_zero]
  rfl

/-- The range is read: it is not the mark of a base and not the end. -/
theorem readLocList_entry {l : DbgLocation} (hne : l.start < l.stop) {entry : List UInt8}
    (hwrite : writeEntry l = some entry) (fuel base : ℕ) (rest : List UInt8) :
    readLocList (fuel + 1) base (entry ++ rest) =
      (readLocList fuel base rest).map fun p => (l.entry base :: p.1, p.2) := by
  obtain ⟨expr, hexpr, rfl⟩ := Option.map_eq_some_iff.mp hwrite
  have hmark : l.start.val ≠ 2 ^ 64 - 1 := by have := l.start.isLt; omega
  have hend : ¬ (l.start.val = 0 ∧ l.stop.val = 0) := by
    have : l.start.val < l.stop.val := hne
    omega
  rw [readLocList, List.append_assoc, List.append_assoc, List.append_assoc, read_u32]
  dsimp only [Option.bind_eq_bind, Option.bind_some]
  rw [read_u32]
  dsimp only [Option.bind_some]
  rw [if_neg hmark, if_neg hend, Lib.readLittleEndian_littleEndian (length_locExpr hexpr)]
  dsimp only [Option.bind_some]
  rw [List.drop_left, List.take_left, DbgLocation.entry, hexpr, Option.getD_some]
  cases readLocList fuel base rest <;> rfl

theorem readLocList_entries {ranges : List DbgLocation} {entries : List (List UInt8)}
    (hwrite : ranges.mapM writeEntry = some entries) (hne : ∀ l ∈ ranges, l.start < l.stop)
    {fuel : ℕ} (hfuel : ranges.length < fuel) (base : ℕ) (rest : List UInt8) :
    readLocList fuel base (entries.flatten ++ (littleEndian 8 0 ++ (littleEndian 8 0 ++ rest))) =
      some (ranges.map (DbgLocation.entry base), rest) := by
  obtain ⟨fuel, rfl⟩ := Nat.exists_eq_succ_of_ne_zero (Nat.ne_zero_of_lt hfuel)
  induction ranges generalizing entries fuel with
  | nil =>
    obtain rfl : [] = entries := Option.some.inj hwrite
    exact readLocList_end fuel base rest
  | cons l ranges ih =>
    obtain ⟨hl, hranges⟩ := List.forall_mem_cons.mp hne
    rw [List.mapM_cons] at hwrite
    obtain ⟨entry, hentry, hwrite⟩ := Option.bind_eq_some_iff.mp hwrite
    obtain ⟨entries, hentries, heq⟩ := Option.bind_eq_some_iff.mp hwrite
    obtain rfl : entry :: entries = _ := Option.some.inj heq
    rw [List.length_cons] at hfuel
    obtain ⟨fuel, rfl⟩ := Nat.exists_eq_succ_of_ne_zero (by omega : fuel ≠ 0)
    rw [List.flatten_cons, List.append_assoc, readLocList_entry hl hentry,
      ih hentries hranges fuel (by omega)]
    rfl

/-- A debugger reads the ranges, with their addresses from the procedure's on (which the relocation
puts in the place of the zero). -/
theorem readLocList_writeLocList {ranges : List DbgLocation} {bytes : List UInt8}
    (hwrite : writeLocList ranges = some bytes) (hne : ∀ l ∈ ranges, l.start < l.stop) {fuel : ℕ}
    (hfuel : ranges.length + 1 < fuel) (base : ℕ) (rest : List UInt8) :
    readLocList fuel base (bytes ++ rest) = some (ranges.map (DbgLocation.entry 0), rest) := by
  obtain ⟨entries, hentries, rfl⟩ := Option.map_eq_some_iff.mp hwrite
  obtain ⟨fuel, rfl⟩ := Nat.exists_eq_succ_of_ne_zero (Nat.ne_zero_of_lt hfuel)
  have hmark (tail : List UInt8) :
      readLittleEndian 8 (littleEndian 8 (2 ^ 64 - 1) ++ tail) = some (2 ^ 64 - 1, tail) :=
    Lib.readLittleEndian_littleEndian (by decide) tail
  simp only [List.append_assoc]
  rw [readLocList, hmark]
  dsimp only [Option.bind_eq_bind, Option.bind_some]
  rw [read_zero]
  dsimp only [Option.bind_some]
  rw [if_pos rfl]
  exact readLocList_entries hentries hne (by omega) 0 rest

/-! ### The ranges that are written -/

theorem locRanges_tidy (dbgLocs : List DbgLocation) (symbol : U32) :
    Tidy (locRanges dbgLocs symbol).reverse :=
  (trim_spec (Lib.sortCells_sorted _ _)).1

theorem locRanges_nonempty {dbgLocs : List DbgLocation} {symbol : U32} {l : DbgLocation}
    (h : l ∈ locRanges dbgLocs symbol) : l.start < l.stop :=
  (locRanges_tidy dbgLocs symbol).nonempty l (List.mem_reverse.mpr h)

theorem locRanges_apart (dbgLocs : List DbgLocation) (symbol : U32) :
    (locRanges dbgLocs symbol).Pairwise fun l later => l.stop ≤ later.start :=
  List.pairwise_reverse.mp (locRanges_tidy dbgLocs symbol).apart

/-- Every address of a written range is in a recorded range of the symbol that says the same. -/
theorem locRanges_covered {dbgLocs : List DbgLocation} {symbol : U32} {l : DbgLocation}
    (h : l ∈ locRanges dbgLocs symbol) :
    Covered (dbgLocs.filter fun r => r.symbol == symbol) l := by
  intro address haddress
  obtain ⟨r, hr, hplace, hcovers⟩ := (trim_spec (Lib.sortCells_sorted _ _)).2 l h address haddress
  have hmem : r ∈ candidates dbgLocs symbol := (Lib.sortCells_perm _ _).mem_iff.mp hr
  obtain ⟨hin, hkeep⟩ := List.mem_filter.mp hmem
  rw [Bool.and_eq_true] at hkeep
  exact ⟨r, List.mem_filter.mpr ⟨hin, hkeep.1⟩, hplace, hcovers⟩

/-- **What is written to `.debug_loc` for a variable** is in the order of its starts, without empty
ranges, without an address in two ranges, and each range is in the union of the recorded ranges that
say the same place; and a debugger reads exactly these ranges. -/
theorem debug_loc_normal (dbgLocs : List DbgLocation) (symbol : U32) :
    (locRanges dbgLocs symbol).Pairwise (fun l later => l.start ≤ later.start) ∧
    (∀ l ∈ locRanges dbgLocs symbol, l.start < l.stop) ∧
    (locRanges dbgLocs symbol).Pairwise
      (fun l later => ∀ address, ¬ (l.Covers address ∧ later.Covers address)) ∧
    (∀ l ∈ locRanges dbgLocs symbol,
      Covered (dbgLocs.filter fun r => r.symbol == symbol) l) ∧
    ∀ bytes, candidates dbgLocs symbol ≠ [] → debugLoc dbgLocs symbol = some bytes →
      ∀ fuel base rest, (locRanges dbgLocs symbol).length + 1 < fuel →
        readLocList fuel base (bytes ++ rest) =
          some ((locRanges dbgLocs symbol).map (DbgLocation.entry 0), rest) := by
  have hapart := locRanges_apart dbgLocs symbol
  refine ⟨?_, fun l => locRanges_nonempty, ?_, fun l => locRanges_covered, ?_⟩
  · refine hapart.imp_of_mem fun hl hlater h => ?_
    exact (locRanges_nonempty hl).le.trans h
  · refine hapart.imp fun h address hboth => ?_
    exact absurd (hboth.1.2.trans_le (h.trans hboth.2.1)) (lt_irrefl _)
  · intro bytes hsome hwrite fuel base rest hfuel
    rw [debugLoc, if_neg hsome] at hwrite
    exact readLocList_writeLocList hwrite (fun l => locRanges_nonempty) hfuel base rest

/-- A variable in one register while it is also said to be in another from the middle on. -/
def twoRegisters : List DbgLocation :=
  [⟨4, 12, 0, 0, ⟨3, 0⟩, .register⟩, ⟨0, 8, 0, 0, ⟨0, 0⟩, .register⟩]

theorem debug_loc_normal_twoRegisters :
    ∃ bytes, debugLoc twoRegisters 0 = some bytes ∧
      readLocList 4 0 bytes = some ([⟨0, 4, [0x50]⟩, ⟨4, 12, [0x53]⟩], []) := by
  refine ⟨_, rfl, ?_⟩
  have h := (debug_loc_normal twoRegisters 0).2.2.2.2 _ (by decide) rfl 4 0 [] (by decide)
  rw [List.append_nil] at h
  exact h

end OdinSon.Odinc.DebugLoc
