import OdinSon.Ssa.StoreCoalesce

/-!
# Forwarding a store to a load

The `Load` peephole (`bac/ssa/peep.odin`): from the load it goes up the memory over stores of other
bytes, and takes the value of the store at which it stops when that has the address and the datatype
of the load.

`is_noalias` adds the width to the offset in an `i64`.  Where that overflows, a store above the load
counts as being apart from it although it may start inside; of every other store that is skipped
the answer is right, and the value is what the load reads (`forwardLoad_reads`).
-/

namespace OdinSon

open MachInt Footprint

section Code

variable (prc : Proc) (fuel : ℕ)

/-- The width of what a store stores. -/
def storeWidth (id : NodeId) : ℕ := (prc.getNode ((prc.getNode id).inp 3)).dt.size

/-- The walk up the memory, for at most the given number of rounds: where it stops. -/
def forwardCursor (id : NodeId) : ℕ → NodeId → Option NodeId
  | 0, _ => none
  | rounds + 1, cursor => do
    let node := prc.getNode id
    let cnode := prc.getNode cursor
    if cnode.itype ≠ .store then some cursor
    else if cnode.inp 0 ≠ node.inp 0 then some cursor
    else if ← prc.isNoaliasPtrs fuel (cnode.inp 2) (node.inp 2) (storeWidth prc cursor) node.dt.size
      then forwardCursor id rounds (cnode.inp 1)
    else some cursor

/-- The `Load` part of `peep`: the value that takes the place of the load, if any. -/
def forwardLoad (rounds : ℕ) (id : NodeId) : Option (Option NodeId) := do
  let node := prc.getNode id
  let cursor ← forwardCursor prc fuel id rounds (node.inp 1)
  let fnode := prc.getNode cursor
  if fnode.itype = .store ∧ fnode.inp 0 = node.inp 0 ∧ fnode.inp 2 = node.inp 2 ∧
      (prc.getNode (fnode.inp 3)).dt = node.dt then
    some (some (fnode.inp 3))
  else some none

end Code

/-! ### The walk -/

/-- The stores from `c` down to the load, the last ones skipped: each takes the memory of the one
before. -/
inductive Skipped (prc : Proc) (fuel : ℕ) (id : NodeId) : NodeId → List NodeId → Prop
  | nil : Skipped prc fuel id ((prc.getNode id).inp 1) []
  | cons {s stores} : Skipped prc fuel id s stores → (prc.getNode s).itype = .store →
      prc.isNoaliasPtrs fuel ((prc.getNode s).inp 2) ((prc.getNode id).inp 2) (storeWidth prc s)
        (prc.getNode id).dt.size = some true →
      Skipped prc fuel id ((prc.getNode s).inp 1) (s :: stores)

section Walk

variable {prc : Proc} {fuel rounds : ℕ} {id cursor c : NodeId} {stores : List NodeId}

/-- The walk skips stores up to one that may touch the bytes of the load. -/
theorem forwardCursor_spec (hs : Skipped prc fuel id cursor stores)
    (h : forwardCursor prc fuel id rounds cursor = some c) :
    (∃ stores', Skipped prc fuel id c stores') ∧
      ((prc.getNode c).itype = .store → (prc.getNode c).inp 0 = (prc.getNode id).inp 0 →
        prc.isNoaliasPtrs fuel ((prc.getNode c).inp 2) ((prc.getNode id).inp 2) (storeWidth prc c)
          (prc.getNode id).dt.size = some false) := by
  induction rounds generalizing cursor stores with
  | zero => cases h
  | succ rounds ih =>
    unfold forwardCursor at h
    dsimp only at h
    split_ifs at h with hstore hctrl
    · cases h
      exact ⟨⟨stores, hs⟩, fun hk => absurd hk hstore⟩
    · cases h
      exact ⟨⟨stores, hs⟩, fun _ hk => absurd hk hctrl⟩
    · obtain ⟨r, hr, h⟩ := Option.bind_eq_some_iff.1 h
      split_ifs at h with hrr
      · subst hrr
        exact ih (.cons hs (not_not.1 hstore) hr) h
      · cases h
        rw [Bool.not_eq_true] at hrr
        exact ⟨⟨stores, hs⟩, fun _ _ => hrr ▸ hr⟩

end Walk

/-- At the skipped store `s` the width does not carry the offset beyond the `i64` numbers, or `s`
starts above the load and does not come around to it. -/
def SkipFits (prc : Proc) (fuel : ℕ) (id s : NodeId) : Prop :=
  ∀ base os ol, prc.baseAndOffset fuel ((prc.getNode s).inp 2) = some (base, os) →
    prc.baseAndOffset fuel ((prc.getNode id).inp 2) = some (base, ol) →
    os + storeWidth prc s < 2 ^ 63 ∨
      ol + (prc.getNode id).dt.size ≤ os ∧ os + storeWidth prc s ≤ ol + 2 ^ 64

section Sound

variable {prc : Proc} {rt : Runtime} {fuel rounds : ℕ} {id s c : NodeId} {stores : List NodeId}

/-- A read of bytes that were written. -/
theorem read_write_self (m : Memory) (a : BitVec 64) {n : ℕ} (hn : n ≤ 2 ^ 64) (f : ℕ → BitVec 8) :
    (m.write a n f).read a n = (List.range n).map f := by
  refine List.map_congr_left fun i hi => ?_
  have hlt := List.mem_range.1 hi
  rw [write_of_mem (add_mem_range a hlt), BitVec.add_comm, BitVec.add_sub_cancel,
    BitVec.toNat_ofNat, Nat.mod_eq_of_lt (by omega)]

theorem opWrites_store (h : (prc.getNode s).itype = .store) :
    opWrites prc rt s = range (rt.word ((prc.getNode s).inp 2)) (storeWidth prc s) := by
  simp only [opWrites, opSize, h, storeWidth]

theorem wrap_add_of_lt {o : ℤ} {n : ℕ} (ho : InS 64 o) (h : o + n < 2 ^ 63) :
    wrap 64 (o + n) = o + n := by
  have hlow : -(2 : ℤ) ^ 63 ≤ o := ho.1
  exact wrap_eq_self (by norm_num) ⟨by norm_num; omega, by simpa using h⟩

/-- An end that is not above its start has come around. -/
theorem add_lt_of_lt_wrap {o : ℤ} {n : ℕ} (ho : InS 64 o) (hn : n < 2 ^ 63)
    (h : o < wrap 64 (o + n)) : o + n < 2 ^ 63 := by
  have hhigh : o < 2 ^ 63 := ho.2
  by_contra hc
  have hw : wrap 64 (o + n) = o + n - 2 ^ 64 := by
    rw [← wrap_eq_self (w := 64) (by norm_num) (x := o + n - 2 ^ 64) ⟨by norm_num; omega, by norm_num; omega⟩,
      wrap_eq_wrap_iff]
    exact ⟨1, by ring⟩
  omega

theorem Datatype.size_le (dt : Datatype) : dt.size ≤ 64 := by cases dt <;> decide

variable (hA : prc.AddrTyped) (hrt : rt.Consistent prc)

include hA hrt

/-- A skipped store is apart from the load. -/
theorem disjoint_of_skipFits (hid : (prc.getNode id).itype = .load)
    (hs : (prc.getNode s).itype = .store) (hfit : SkipFits prc fuel id s)
    (hload : ∀ base ol, prc.baseAndOffset fuel ((prc.getNode id).inp 2) = some (base, ol) →
      ol + (prc.getNode id).dt.size < 2 ^ 63)
    (h : prc.isNoaliasPtrs fuel ((prc.getNode s).inp 2) ((prc.getNode id).inp 2) (storeWidth prc s)
      (prc.getNode id).dt.size = some true) :
    Disjoint (range (rt.word ((prc.getNode id).inp 2)) (prc.getNode id).dt.size)
      (opWrites prc rt s) := by
  simp only [Proc.isNoaliasPtrs, Option.bind_eq_bind, Option.bind_eq_some_iff, Prod.exists] at h
  obtain ⟨base, os, hbs, base', ol, hbl, h⟩ := h
  split_ifs at h with hbase
  swap
  · cases h
  subst hbase
  obtain ⟨hws, hos⟩ := baseAndOffset_spec hA hrt (hA.addr s (by simp [Proc.isMemOp, hs])) hbs
  obtain ⟨hwl, hol⟩ := baseAndOffset_spec hA hrt (hA.addr id (by simp [Proc.isMemOp, hid])) hbl
  rw [wrap_add_of_lt hol (hload _ _ hbl)] at h
  simp only [Option.some.injEq, Bool.or_eq_true, decide_eq_true_eq] at h
  rw [opWrites_store hs, hws, hwl]
  have hsl : storeWidth prc s ≤ 64 := Datatype.size_le _
  have hll := (prc.getNode id).dt.size_le
  obtain ⟨hos1, hos2⟩ := hos
  obtain ⟨hol1, hol2⟩ := hol
  norm_num at hos1 hos2 hol1 hol2
  have hl := hload _ _ hbl
  have hapart : ol + (prc.getNode id).dt.size ≤ os ∧ os + storeWidth prc s ≤ ol + 2 ^ 64 ∨
      os + storeWidth prc s ≤ ol := by
    rcases hfit base os ol hbs hbl with hlt | hle
    · rw [wrap_add_of_lt ⟨by norm_num; omega, by norm_num; omega⟩ hlt] at h
      omega
    · exact .inl hle
  rcases hapart with ⟨hle, hround⟩ | hle
  · exact (disjoint_range hle hround).symm
  · exact disjoint_range hle (by omega)

/-- The end of the load does not come around, where its own address counts as one that it touches. -/
theorem load_end (hid : (prc.getNode id).itype = .load)
    (h : prc.isNoaliasPtrs fuel ((prc.getNode id).inp 2) ((prc.getNode id).inp 2)
      (prc.getNode id).dt.size (prc.getNode id).dt.size = some false) :
    ∀ base ol, prc.baseAndOffset fuel ((prc.getNode id).inp 2) = some (base, ol) →
      ol + (prc.getNode id).dt.size < 2 ^ 63 := by
  intro base ol hbl
  obtain ⟨-, hol⟩ := baseAndOffset_spec hA hrt (hA.addr id (by simp [Proc.isMemOp, hid])) hbl
  simp only [Proc.isNoaliasPtrs, hbl, Option.bind_eq_bind, Option.bind_some, ↓reduceIte,
    Bool.or_self, Option.some.injEq, decide_eq_false_iff_not, not_le] at h
  have := (prc.getNode id).dt.size_le
  exact add_lt_of_lt_wrap hol (by omega) h

/-- Skipped stores leave the bytes of the load as they are. -/
theorem Skipped.read_eq (hid : (prc.getNode id).itype = .load)
    (hload : ∀ base ol, prc.baseAndOffset fuel ((prc.getNode id).inp 2) = some (base, ol) →
      ol + (prc.getNode id).dt.size < 2 ^ 63)
    (hs : Skipped prc fuel id c stores) (hfit : ∀ s ∈ stores, SkipFits prc fuel id s) (m : Memory) :
    (runStores prc rt stores m).read (rt.word ((prc.getNode id).inp 2)) (prc.getNode id).dt.size =
      m.read (rt.word ((prc.getNode id).inp 2)) (prc.getNode id).dt.size := by
  induction hs generalizing m with
  | nil => rfl
  | @cons s stores _ hstore hn ih =>
    obtain ⟨hfits, hfitss⟩ := List.forall_mem_cons.1 hfit
    refine (ih hfitss (runOp prc rt s m).1).trans (read_congr fun x hx => ?_)
    have hd := disjoint_of_skipFits hA hrt hid hstore hfits hload hn
    exact (touches_runOp prc rt s).frame m x (Set.disjoint_left.1 hd hx)

end Sound

/-- **The load reads the value that takes its place**, in every run, if no skipped store is one at
which the comparison overflows. -/
theorem forwardLoad_reads {prc : Proc} {rt : Runtime} {fuel rounds : ℕ} {id v : NodeId}
    (hA : prc.AddrTyped) (hrt : rt.Consistent prc) (hid : (prc.getNode id).itype = .load)
    (h : forwardLoad prc fuel rounds id = some (some v)) : ∃ s stores,
      Skipped prc fuel id s stores ∧ (prc.getNode s).itype = .store ∧
      (prc.getNode s).inp 3 = v ∧ (prc.getNode v).dt = (prc.getNode id).dt ∧
      ((∀ s' ∈ stores, SkipFits prc fuel id s') → ∀ m,
        (runOp prc rt id (runStores prc rt (s :: stores) m)).2 =
          (List.range (prc.getNode id).dt.size).map (rt.byte v)) := by
  obtain ⟨s, hcursor, h⟩ := Option.bind_eq_some_iff.1 h
  dsimp only at h
  split_ifs at h with hc
  swap
  · cases h
  obtain ⟨hstore, hctrl, haddr, hdt⟩ := hc
  rw [Option.some.injEq, Option.some.injEq] at h
  obtain ⟨⟨stores, hskip⟩, hstop⟩ := forwardCursor_spec .nil hcursor
  refine ⟨s, stores, hskip, hstore, h, h ▸ hdt, fun hfit m => ?_⟩
  have hwidth : storeWidth prc s = (prc.getNode id).dt.size := by rw [storeWidth, hdt]
  have hend := hstop hstore hctrl
  rw [haddr, hwidth] at hend
  have hstored : (runOp prc rt s m).1 = m.write (rt.word ((prc.getNode id).inp 2))
      (prc.getNode id).dt.size (rt.byte v) := by
    simp only [runOp, hstore, haddr, h]
    rw [opSize, hstore, ← hdt]
  have hread : ∀ m, (runOp prc rt id m).2 =
      m.read (rt.word ((prc.getNode id).inp 2)) (prc.getNode id).dt.size := by
    intro m
    simp only [runOp, opSize, hid]
  have hsize := (prc.getNode id).dt.size_le
  rw [hread, runStores, List.foldl_cons]
  refine (hskip.read_eq hA hrt hid (load_end hA hrt hid hend) hfit _).trans ?_
  rw [hstored, read_write_self _ _ (by omega)]

/-! ### Two stores -/

/-- `(^i32)(x + a)^ = 0` and `(^i64)(x + b)^ = -1`, then `(^i32)(x + a)^` is read: the stores are `10`
and `11`, the load is `12`. -/
def twoStores (a b : List ℕ) : Proc where
  mem := fun id => [
    {},
    { itype := .entry, outs := [⟨2, 0⟩, ⟨3, 0⟩, ⟨10, 0⟩, ⟨11, 0⟩, ⟨12, 0⟩, ⟨13, 0⟩] },
    { itype := .mem, dt := .mem, isStore := true, inps := [1], outs := [⟨10, 1⟩] },
    { itype := .param, dt := .i64, inps := [1], outs := [⟨6, 0⟩, ⟨7, 0⟩] },
    { itype := .cInt, dt := .i64, extra := a, outs := [⟨6, 1⟩] },
    { itype := .cInt, dt := .i64, extra := b, outs := [⟨7, 1⟩] },
    { itype := .bin .add, dt := .i64, inps := [3, 4], outs := [⟨10, 2⟩, ⟨12, 2⟩] },
    { itype := .bin .add, dt := .i64, inps := [3, 5], outs := [⟨11, 2⟩] },
    { itype := .cInt, dt := .i32, extra := [0, 0], outs := [⟨10, 3⟩] },
    { itype := .cInt, dt := .i64, extra := [0xFFFFFFFF, 0xFFFFFFFF], outs := [⟨11, 3⟩] },
    { itype := .store, dt := .mem, isStore := true, inps := [1, 2, 6, 8], outs := [⟨11, 1⟩] },
    {
      itype := .store, dt := .mem, isStore := true, inps := [1, 10, 7, 9],
      outs := [⟨12, 1⟩, ⟨13, 1⟩] },
    { itype := .load, dt := .i32, isLoad := true, inps := [1, 11, 6], outs := [⟨13, 2⟩] },
    { itype := .return_, inps := [1, 11, 12] }].getD id { itype := .dead }
  pos := 14
  entry := 1
  end_ := 0

/-- With these values of `x`, `a` and `b`. -/
def twoStoresRun (x a b : BitVec 64) : Runtime where
  word := fun id => [0, 0, 0, x, a, b, x + a, x + b, 0, -1].getD id 0
  byte := fun id => constByte ([0, 0, 0, 0, 0, 0, 0, 0, 0, -1].getD id 0)

theorem twoStores_dead {a b : List ℕ} (id : NodeId) (h : 14 ≤ id) :
    (twoStores a b).getNode id = { itype := .dead } :=
  Proc.getNode_of_length_le _ h (by decide) rfl rfl

theorem addrTyped_twoStores {a b : List ℕ} : (twoStores a b).AddrTyped := by
  refine .of_bounded twoStores_dead ?_ ?_ ?_ <;> intro (id : ℕ) h
  · interval_cases id <;> intro hk <;> first | rfl | cases hk
  · interval_cases id <;> intro hk <;> cases hk
  · interval_cases id <;> intro hk <;> first | exact fun _ => rfl | cases hk

theorem consistent_twoStores {a b : List ℕ} {x va vb : BitVec 64}
    (ha : va = BitVec.ofInt 64 ((twoStores a b).getNode 4).cIntValue)
    (hb : vb = BitVec.ofInt 64 ((twoStores a b).getNode 5).cIntValue) :
    (twoStoresRun x va vb).Consistent (twoStores a b) where
  cInt := Proc.forall_getNode twoStores_dead (P := fun id node => node.itype = .cInt →
    (twoStoresRun x va vb).word id = BitVec.ofInt 64 node.cIntValue) (by simp) (by
      have h8 : (0 : BitVec 64) = BitVec.ofInt 64 ((twoStores a b).getNode 8).cIntValue := by
        change _ = BitVec.ofInt 64 (i64 (0 + 2 ^ 32 * 0))
        decide
      have h9 : (-1 : BitVec 64) = BitVec.ofInt 64 ((twoStores a b).getNode 9).cIntValue := by
        change _ = BitVec.ofInt 64 (i64 (0xFFFFFFFF + 2 ^ 32 * 0xFFFFFFFF))
        decide
      intro (id : ℕ) h
      interval_cases id <;> intro hk <;>
        first | exact ha | exact hb | exact h8 | exact h9 | cases hk)
  add := Proc.forall_getNode twoStores_dead (P := fun id node => node.itype = .bin .add →
    node.dt = .i64 → (twoStoresRun x va vb).word id =
      (twoStoresRun x va vb).word (node.inp 0) + (twoStoresRun x va vb).word (node.inp 1)) (by simp)
    (by intro (id : ℕ) h; interval_cases id <;> intro hk <;> first | exact fun _ => rfl | cases hk)

/-- The second store lies right above the load. -/
theorem forwardLoad_reads_twoStores : ∃ s stores,
    Skipped (twoStores [0, 0] [4, 0]) 2 12 s stores ∧
    ((twoStores [0, 0] [4, 0]).getNode s).itype = .store ∧
    ((twoStores [0, 0] [4, 0]).getNode s).inp 3 = 8 ∧
    ((twoStores [0, 0] [4, 0]).getNode 8).dt = .i32 ∧
    ((∀ s' ∈ stores, SkipFits (twoStores [0, 0] [4, 0]) 2 12 s') → ∀ m,
      (runOp (twoStores [0, 0] [4, 0]) (twoStoresRun 0x1000 0 4) 12
        (runStores (twoStores [0, 0] [4, 0]) (twoStoresRun 0x1000 0 4) (s :: stores) m)).2 =
          (List.range 4).map ((twoStoresRun 0x1000 0 4).byte 8)) :=
  forwardLoad_reads addrTyped_twoStores
    (consistent_twoStores (by decide) (by decide)) rfl
    (by decide : forwardLoad (twoStores [0, 0] [4, 0]) 2 2 12 = some (some 8))

/-- The stores that the walk can have skipped. -/
theorem skipped_twoStores {a b : List ℕ} {s : NodeId} {stores : List NodeId}
    (hs : Skipped (twoStores a b) 2 12 s stores) :
    s = 11 ∧ stores = [] ∨ s = 10 ∧ stores = [11] ∨ s = 2 := by
  induction hs with
  | nil => exact .inl ⟨rfl, rfl⟩
  | cons _ hstore _ ih =>
    rcases ih with ⟨rfl, rfl⟩ | ⟨rfl, rfl⟩ | rfl
    · exact .inr (.inl ⟨rfl, rfl⟩)
    · exact .inr (.inr rfl)
    · cases hstore

/-- The second store, from `2 ^ 63 - 7` on, is skipped although it overwrites three of the bytes. -/
theorem forwardLoad_unsound :
    ¬ ∀ (prc : Proc) (rt : Runtime) (fuel rounds : ℕ) (id v : NodeId), prc.AddrTyped →
      rt.Consistent prc → (prc.getNode id).itype = .load →
      forwardLoad prc fuel rounds id = some (some v) → ∃ s stores,
        Skipped prc fuel id s stores ∧ (prc.getNode s).itype = .store ∧
        (prc.getNode s).inp 3 = v ∧ (prc.getNode v).dt = (prc.getNode id).dt ∧
        ((∀ s' ∈ id :: s :: stores,
          (rt.word ((prc.getNode s').inp 2)).toNat + opSize prc rt s' ≤ 2 ^ 64) → ∀ m,
          (runOp prc rt id (runStores prc rt (s :: stores) m)).2 =
            (List.range (prc.getNode id).dt.size).map (rt.byte v)) := by
  intro h
  have hload : forwardLoad (twoStores [0xFFFFFFF8, 0x7FFFFFFF] [0xFFFFFFF9, 0x7FFFFFFF]) 2 2 12 =
      some (some 8) := by decide
  obtain ⟨s, stores, hs, hstore, hv, -, hreads⟩ := h _
    (twoStoresRun (2 ^ 63 + 0x1008) (2 ^ 63 - 8) (2 ^ 63 - 7)) 2 2 12 8 addrTyped_twoStores
    (consistent_twoStores (by decide +kernel) (by decide +kernel)) rfl hload
  rcases skipped_twoStores hs with ⟨rfl, rfl⟩ | ⟨rfl, rfl⟩ | rfl
  · cases hv
  · exact absurd (hreads (by decide +kernel) fun _ => 0) (by decide +kernel)
  · cases hstore

end OdinSon
