import OdinSon.Bac.AliasSound

/-!
# Removing stores that are overwritten

The `eliminate` part of the `Store` peephole (`bac/ssa/peep.odin`): from the store it goes along the
memory, as long as there is one user that touches other bytes, and removes the store when it comes
to a user that writes all of its bytes.

A run goes along one thread of the memory (`Thread`), and what it sees there are the bytes that a
load or a copy reads, and the whole memory at everything that is not a memory operation
(`observations`).  Without the store a run sees the same (`storeEliminate_observations`), when

* at the state where the walk ends, every user overwrites the store and not only the one that was
  found: a run may take another branch;
* an operation that overwrites it, by a size that need not be a constant, does so at run time;
* a copy that overwrites it does not read any of its bytes.
-/

namespace OdinSon

open MachInt Footprint

section Code

variable (prc : Proc) (fuel : ℕ) (id : NodeId)

/-- The users of a node. -/
def Proc.users (id : NodeId) : List NodeId := (prc.getNode id).outs.map NodeOutput.id

/-- Whether the operation `out` is taken to write every byte of the store `id`. -/
def storeCovers (out : NodeId) : Option Bool := do
  let (base, off) ← prc.baseAndOffset fuel ((prc.getNode id).inp 2)
  let (obase, ooff) ← prc.baseAndOffset fuel ((prc.getNode out).inp 2)
  match prc.memOpSize id, prc.memOpSize out with
  | some size, some osize =>
    some (base = obase && ooff ≤ off && wrap 64 (off + size) ≤ wrap 64 (ooff + osize))
  | _, _ => some false

/-- What comes out of looking at the users of a node. -/
inductive UsersResult where
  | stop
  | next (cursor : NodeId)
  | covered
  deriving DecidableEq

/-- The inner loop over the users; `cursor` is `0` until one has been found to go on with. -/
@[grind =] def elimUsers : List NodeId → NodeId → Option UsersResult
  | [], cursor => some (if cursor = 0 then .stop else .next cursor)
  | out :: outs, cursor => do
    if ← prc.isNoaliasOps fuel id out then
      if cursor ≠ 0 then some .stop else elimUsers outs out
    else if ← storeCovers prc fuel id out then some .covered
    else some .stop

/-- A user at which the walk stops: it is no store, or copies a range onto itself. -/
def stopsElim (out : NodeId) : Bool :=
  let onode := prc.getNode out
  !onode.isStore || (onode.itype = .copy && onode.inp 2 = onode.inp 3)

/-- The outer loop, for at most `rounds` rounds: whether the store is overwritten. -/
def elimLoop : ℕ → NodeId → Option Bool
  | 0, _ => none
  | rounds + 1, cursor =>
    let users := prc.users cursor
    if users.any (stopsElim prc) then some false
    else do
      match ← elimUsers prc fuel id users 0 with
      | .stop => some false
      | .next cursor => elimLoop rounds cursor
      | .covered => some true

/-- The `eliminate` part of `peep` on a store: the memory that takes its place, if any. -/
def storeEliminate (rounds : ℕ) : Option (Option NodeId) := do
  if ← elimLoop prc fuel id rounds id then some (some ((prc.getNode id).inp 1)) else some none

end Code

/-! ### Runs -/

/-- The memory goes along these nodes, from one that uses `id` on. -/
def Thread (prc : Proc) : NodeId → List NodeId → Prop
  | _, [] => True
  | id, n :: ns => n ∈ prc.users id ∧ Thread prc n ns

/-- What a node sees of the memory. -/
inductive Observation where
  | bytes (bs : List (BitVec 8))
  | memory (m : Memory)

/-- What the nodes of a thread see.  A call, a return or a join sees the whole memory; `env` says
what it makes of that and of the values. -/
def observations (prc : Proc) (env : NodeId → Runtime → Memory → Runtime × Memory) :
    List NodeId → Runtime → Memory → List Observation
  | [], _, _ => []
  | n :: ns, rt, m =>
    if prc.isMemOp n then
      .bytes (runOp prc rt n m).2 :: observations prc env ns rt (runOp prc rt n m).1
    else .memory m :: observations prc env ns (env n rt m).1 (env n rt m).2

/-! ### The walk -/

/-- From `c` to the second node, each but the first the only user of the one before and apart from
the store. -/
inductive ElimWalk (prc : Proc) (fuel : ℕ) (id : NodeId) : NodeId → NodeId → Prop
  | refl (c : NodeId) : ElimWalk prc fuel id c c
  | step {c c' l : NodeId} : prc.users c = [c'] → prc.isNoaliasOps fuel id c' = some true →
      ElimWalk prc fuel id c' l → ElimWalk prc fuel id c l

section Walk

variable {prc : Proc} {fuel : ℕ} {id : NodeId}

theorem isMemOp_of_isNoaliasOps {a b : NodeId} (h : prc.isNoaliasOps fuel a b = some true) :
    prc.isMemOp a = true ∧ prc.isMemOp b = true := by
  unfold Proc.isNoaliasOps at h
  split_ifs at h
  · obtain ⟨as, bs, ha, hb, -⟩ := isNoaliasSwapped_spec h
    exact ⟨isMemOp_of_memOpSize hb, isMemOp_of_memOpSize ha⟩
  · obtain ⟨as, bs, ha, hb, -⟩ := isNoaliasSwapped_spec h
    exact ⟨isMemOp_of_memOpSize ha, isMemOp_of_memOpSize hb⟩

/-- Once there is a user to go on with, no other may follow. -/
theorem elimUsers_next_of_ne {outs : List NodeId} {cursor c : NodeId} (hc : cursor ≠ 0)
    (h : elimUsers prc fuel id outs cursor = some (.next c)) : outs = [] ∧ c = cursor := by
  cases outs with
  | nil =>
    simp only [elimUsers, hc, ↓reduceIte, Option.some.injEq, UsersResult.next.injEq] at h
    exact ⟨rfl, h.symm⟩
  | cons out outs =>
    simp only [elimUsers, Option.bind_eq_bind, Option.bind_eq_some_iff] at h
    obtain ⟨r, -, h⟩ := h
    split_ifs at h
    · cases h
    · obtain ⟨r', -, h⟩ := Option.bind_eq_some_iff.1 h
      split_ifs at h <;> cases h

/-- The inner loop goes on only with a single user. -/
theorem elimUsers_next {outs : List NodeId} {c : NodeId}
    (h : elimUsers prc fuel id outs 0 = some (.next c)) :
    outs = [c] ∧ prc.isNoaliasOps fuel id c = some true := by
  cases outs with
  | nil => simp [elimUsers] at h
  | cons out outs =>
    simp only [elimUsers, Option.bind_eq_bind, Option.bind_eq_some_iff] at h
    obtain ⟨r, hr, h⟩ := h
    split_ifs at h with hn hc
    · exact absurd rfl hc
    · subst hn
      have hout : out ≠ 0 := by
        rintro rfl
        have := (isMemOp_of_isNoaliasOps hr).2
        cases this
      obtain ⟨rfl, rfl⟩ := elimUsers_next_of_ne hout h
      exact ⟨rfl, hr⟩
    · obtain ⟨r', -, h⟩ := Option.bind_eq_some_iff.1 h
      split_ifs at h <;> cases h

theorem elimUsers_covered {outs : List NodeId} {cursor : NodeId}
    (h : elimUsers prc fuel id outs cursor = some .covered) :
    ∃ t ∈ outs, prc.isNoaliasOps fuel id t = some false ∧ storeCovers prc fuel id t = some true := by
  induction outs generalizing cursor with
  | nil =>
    simp only [elimUsers, Option.some.injEq] at h
    split_ifs at h
  | cons out outs ih =>
    simp only [elimUsers, Option.bind_eq_bind, Option.bind_eq_some_iff] at h
    obtain ⟨r, hr, h⟩ := h
    split_ifs at h with hn hc
    · cases h
    · obtain ⟨t, ht, hrest⟩ := ih h
      exact ⟨t, List.mem_cons_of_mem _ ht, hrest⟩
    · obtain ⟨r', hr', h⟩ := Option.bind_eq_some_iff.1 h
      split_ifs at h with hcov
      · rw [Bool.not_eq_true] at hn
        exact ⟨out, List.mem_cons_self, hn ▸ hr, hcov ▸ hr'⟩
      · cases h

/-- What the walk has found when it removes the store. -/
theorem elimLoop_spec {rounds : ℕ} {c : NodeId} (h : elimLoop prc fuel id rounds c = some true) :
    ∃ l, ElimWalk prc fuel id c l ∧ (∀ u ∈ prc.users l, stopsElim prc u = false) ∧
      ∃ t ∈ prc.users l, prc.isNoaliasOps fuel id t = some false ∧
        storeCovers prc fuel id t = some true := by
  induction rounds generalizing c with
  | zero => cases h
  | succ rounds ih =>
    unfold elimLoop at h
    dsimp only at h
    split_ifs at h with hstop
    · cases h
    obtain ⟨r, hr, h⟩ := Option.bind_eq_some_iff.1 h
    cases r with
    | stop => cases h
    | covered =>
      rw [List.any_eq_true, not_exists] at hstop
      refine ⟨c, .refl c, fun u hu => ?_, elimUsers_covered hr⟩
      exact Bool.eq_false_of_not_eq_true fun hs => hstop u ⟨hu, hs⟩
    | next c' =>
      obtain ⟨hu, hn⟩ := elimUsers_next hr
      obtain ⟨l, hw, ht⟩ := ih h
      exact ⟨l, .step hu hn hw, ht⟩

end Walk

/-! ### What has to hold at run time -/

/-- Only what writes memory has the flag. -/
def Proc.StoreFlagged (prc : Proc) : Prop :=
  ∀ id, (prc.getNode id).itype = .load → (prc.getNode id).isStore = false

/-- The operation `u` writes over the store `id`. -/
structure Overwrites (prc : Proc) (rt : Runtime) (fuel : ℕ) (id u : NodeId) : Prop where
  covers : storeCovers prc fuel id u = some true
  /-- At run time it reaches as far. -/
  reaches : ∀ base off ooff, prc.baseAndOffset fuel ((prc.getNode id).inp 2) = some (base, off) →
    prc.baseAndOffset fuel ((prc.getNode u).inp 2) = some (base, ooff) →
    off + opSize prc rt id ≤ ooff + opSize prc rt u
  source : (prc.getNode u).itype = .copy → Disjoint (opReads prc rt u) (opWrites prc rt id)

/-- What the walk takes for granted: its sizes fit as long as it goes on, and where it ends every
user writes over the store. -/
structure ElimFits (prc : Proc) (rt : Runtime) (fuel : ℕ) (id : NodeId) : Prop where
  apart : ∀ l u, ElimWalk prc fuel id id l → u ∈ prc.users l →
    prc.isNoaliasOps fuel id u = some true → OpsFit prc rt fuel id u
  covered : ∀ l t, ElimWalk prc fuel id id l → t ∈ prc.users l →
    prc.isNoaliasOps fuel id t = some false → storeCovers prc fuel id t = some true →
    ∀ u ∈ prc.users l, Overwrites prc rt fuel id u

theorem range_subset_range {base : BitVec 64} {oa ob : ℤ} {ra rb : ℕ} (h : ob ≤ oa)
    (h' : oa + ra ≤ ob + rb) :
    range (base + BitVec.ofInt 64 oa) ra ⊆ range (base + BitVec.ofInt 64 ob) rb := by
  intro x hx
  rw [mem_range, BitVec.toNat_sub, BitVec.toNat_add, BitVec.toNat_ofInt] at hx ⊢
  have hb := base.isLt
  have hxl := x.isLt
  omega

section Sound

variable {prc : Proc} {rt : Runtime} {fuel : ℕ} {id : NodeId}

theorem storeCovers_spec {u : NodeId} (h : storeCovers prc fuel id u = some true) :
    ∃ base off ooff size osize, prc.baseAndOffset fuel ((prc.getNode id).inp 2) = some (base, off) ∧
      prc.baseAndOffset fuel ((prc.getNode u).inp 2) = some (base, ooff) ∧
      prc.memOpSize id = some size ∧ prc.memOpSize u = some osize ∧ ooff ≤ off ∧
      wrap 64 (off + size) ≤ wrap 64 (ooff + osize) := by
  simp only [storeCovers, Option.bind_eq_bind, Option.bind_eq_some_iff, Prod.exists] at h
  obtain ⟨base, off, hb, obase, ooff, hob, h⟩ := h
  split at h
  · next size osize hs hos =>
    simp only [Option.some.injEq, Bool.and_eq_true, decide_eq_true_eq] at h
    obtain ⟨⟨rfl, hle⟩, hend⟩ := h
    exact ⟨base, off, ooff, size, osize, hb, hob, hs, hos, hle, hend⟩
  · cases h

theorem opWrites_of_isStore (hF : prc.StoreFlagged) {u : NodeId} {osize : ℤ}
    (hs : prc.memOpSize u = some osize) (hst : (prc.getNode u).isStore = true) :
    opWrites prc rt u = range (rt.word ((prc.getNode u).inp 2)) (opSize prc rt u) := by
  have hload := hF u
  unfold Proc.memOpSize at hs
  unfold opWrites
  cases ht : (prc.getNode u).itype <;> simp [ht, hst] at hs hload ⊢

variable (hA : prc.AddrTyped) (hrt : rt.Consistent prc)

include hA hrt

/-- An operation that writes over the store leaves nothing of it. -/
theorem Overwrites.subset {u : NodeId} (h : Overwrites prc rt fuel id u) (hF : prc.StoreFlagged)
    (hst : (prc.getNode u).isStore = true) : opWrites prc rt id ⊆ opWrites prc rt u := by
  obtain ⟨base, off, ooff, size, osize, hb, hob, hs, hos, hle, -⟩ := storeCovers_spec h.covers
  have hw := (baseAndOffset_spec hA hrt (hA.addr id (isMemOp_of_memOpSize hs)) hb).1
  have hw' := (baseAndOffset_spec hA hrt (hA.addr u (isMemOp_of_memOpSize hos)) hob).1
  rw [opWrites_of_isStore hF hos hst, hw']
  refine (opWrites_subset prc rt id).trans ?_
  rw [hw]
  exact range_subset_range hle (h.reaches base off ooff hb hob)

/-- An operation that is apart from the store does not read what that has written. -/
theorem disjoint_opReads_of_isNoaliasOps {u : NodeId} (hid : (prc.getNode id).itype = .store)
    (hfit : OpsFit prc rt fuel id u) (h : prc.isNoaliasOps fuel id u = some true) :
    Disjoint (opReads prc rt u) (opWrites prc rt id) := by
  have hc : (prc.getNode id).itype ≠ .copy := by rw [hid]; decide
  unfold Proc.isNoaliasOps at h
  rw [if_neg hc] at h
  exact (disjoint_of_isNoaliasSwapped hA hrt h hfit.addr fun hu => hfit.right hu hc).1.symm

omit hA hrt in
theorem Overwrites.disjoint {u : NodeId} (h : Overwrites prc rt fuel id u) (hF : prc.StoreFlagged)
    (hst : (prc.getNode u).isStore = true) : Disjoint (opReads prc rt u) (opWrites prc rt id) := by
  by_cases hc : (prc.getNode u).itype = .copy
  · exact h.source hc
  · have hload : (prc.getNode u).itype ≠ .load := by
      intro ht
      rw [hF u ht] at hst
      cases hst
    have hr : opReads prc rt u = ∅ := by
      unfold opReads
      cases ht : (prc.getNode u).itype <;> simp [ht] at hc hload ⊢
    rw [hr]
    exact Set.empty_disjoint _

variable {env : NodeId → Runtime → Memory → Runtime × Memory}

omit hA hrt in
/-- A step over an operation that does not read what the memories differ in. -/
theorem observations_memOp_congr {u : NodeId} {p : List NodeId} {w : Set (BitVec 64)}
    {m m' : Memory} (hu : prc.isMemOp u = true) (hd : Disjoint (opReads prc rt u) w)
    (hm : AgreeOff w m m')
    (hp : AgreeOff (w \ opWrites prc rt u) (runOp prc rt u m).1 (runOp prc rt u m').1 →
      observations prc env p rt (runOp prc rt u m).1 =
        observations prc env p rt (runOp prc rt u m').1) :
    observations prc env (u :: p) rt m = observations prc env (u :: p) rt m' := by
  have ht := touches_runOp prc rt u
  rw [observations, observations, if_pos hu, if_pos hu, ht.result m m' (hm.on hd),
    hp (ht.agreeOff hm hd)]

/-- Along the walk the memories differ in what the store writes; where it ends they come together. -/
theorem ElimWalk.observations_congr {c l : NodeId} (hw : ElimWalk prc fuel id c l)
    (hF : prc.StoreFlagged) (hid : (prc.getNode id).itype = .store)
    (happ : ∀ l' u, ElimWalk prc fuel id c l' → u ∈ prc.users l' →
      prc.isNoaliasOps fuel id u = some true → OpsFit prc rt fuel id u)
    (hst : ∀ u ∈ prc.users l, stopsElim prc u = false)
    (hcov : ∀ u ∈ prc.users l, Overwrites prc rt fuel id u) {p : List NodeId} {m m' : Memory}
    (hm : AgreeOff (opWrites prc rt id) m m') (hp : Thread prc c p) :
    observations prc env p rt m = observations prc env p rt m' := by
  induction hw generalizing p m m' with
  | refl c =>
    cases p with
    | nil => rfl
    | cons u p =>
      have ho := hcov u hp.1
      have hstore : (prc.getNode u).isStore = true := by
        have := hst u hp.1
        simp only [stopsElim, Bool.or_eq_false_iff, Bool.not_eq_false'] at this
        exact this.1
      obtain ⟨_, _, _, _, _, -, -, -, hos, -⟩ := storeCovers_spec ho.covers
      refine observations_memOp_congr (isMemOp_of_memOpSize hos) (ho.disjoint hF hstore) hm ?_
      intro hag
      rw [Set.sdiff_eq_empty.2 (ho.subset hA hrt hF hstore)] at hag
      rw [funext fun x => hag x (Set.notMem_empty x)]
  | @step c c' l hu hn hw ih =>
    cases p with
    | nil => rfl
    | cons u p =>
      have hmem : c' ∈ prc.users c := by rw [hu]; exact List.mem_singleton_self c'
      obtain rfl : u = c' := by simpa [hu] using hp.1
      have hd := disjoint_opReads_of_isNoaliasOps hA hrt hid (happ c u (.refl c) hmem hn) hn
      refine observations_memOp_congr (isMemOp_of_isNoaliasOps hn).2 hd hm fun hag => ?_
      refine ih (fun l' u' hw' => happ l' u' (.step hu hn hw')) hst hcov ?_ hp.2
      exact fun x hx => hag x fun hc => hx hc.1

end Sound

/-- **A run without the store sees the memory that it sees with it**, at every operation, call and
return of every thread from the store on. -/
theorem storeEliminate_observations {prc : Proc} {rt : Runtime} {fuel rounds : ℕ} {id t : NodeId}
    (hA : prc.AddrTyped) (hF : prc.StoreFlagged) (hrt : rt.Consistent prc)
    (hid : (prc.getNode id).itype = .store) (hfit : ElimFits prc rt fuel id)
    (h : storeEliminate prc fuel id rounds = some (some t)) :
    t = (prc.getNode id).inp 1 ∧ ∀ env p m, Thread prc id p →
      observations prc env p rt m = observations prc env p rt (runOp prc rt id m).1 := by
  obtain ⟨r, hr, h⟩ := Option.bind_eq_some_iff.1 h
  split_ifs at h with hrr
  swap
  · cases h
  subst hrr
  refine ⟨(Option.some.inj (Option.some.inj h)).symm, fun env p m hp => ?_⟩
  obtain ⟨l, hw, hst, t', ht', hn, hc⟩ := elimLoop_spec hr
  have hm : AgreeOff (opWrites prc rt id) m (runOp prc rt id m).1 :=
    fun x hx => ((touches_runOp prc rt id).agreeOff_self m x hx).symm
  exact hw.observations_congr hA hrt hF hid hfit.apart hst (hfit.covered l t' hw ht' hn hc) hm hp

/-! ### A store before a `Set` of a size that is not known -/

/-- `p^ = 7` and then `mem_zero(p, n)`: the store is `7`, the `Set` is `8`. -/
def storeThenSet : Proc where
  mem := fun id => [
    {},
    { itype := .entry, outs := [⟨2, 0⟩, ⟨7, 0⟩, ⟨8, 0⟩, ⟨9, 0⟩] },
    { itype := .mem, dt := .mem, isStore := true, inps := [1], outs := [⟨7, 1⟩] },
    { itype := .param, dt := .i64, outs := [⟨7, 2⟩, ⟨8, 2⟩] },
    { itype := .param, dt := .i64, outs := [⟨8, 4⟩] },
    { itype := .cInt, dt := .i64, extra := [7, 0], outs := [⟨7, 3⟩] },
    { itype := .cInt, dt := .i8, extra := [0, 0], outs := [⟨8, 3⟩] },
    { itype := .store, dt := .mem, isStore := true, inps := [1, 2, 3, 5], outs := [⟨8, 1⟩] },
    { itype := .set, dt := .mem, isStore := true, inps := [1, 7, 3, 6, 4], outs := [⟨9, 1⟩] },
    { itype := .return_, inps := [1, 8] }].getD id { itype := .dead }
  pos := 10
  entry := 1
  end_ := 0

/-- The pointer is `0x1000` and the size is `n`. -/
def storeThenSetRun (n : BitVec 64) : Runtime where
  word := fun id => [0, 0, 0, 0x1000, n, 7, 0].getD id 0
  byte := fun id i => if id = 5 ∧ i = 0 then 7 else 0

theorem storeThenSet_dead {id : ℕ} (h : 10 ≤ id) :
    storeThenSet.getNode id = { itype := .dead } :=
  Proc.getNode_of_length_le _ h (by decide) rfl rfl

theorem addrTyped_storeThenSet : storeThenSet.AddrTyped :=
  .of_bounded (k := 10) (fun _ => storeThenSet_dead) (by decide) (by decide) (by decide)

theorem storeFlagged_storeThenSet : storeThenSet.StoreFlagged := by
  intro (id : ℕ) h
  rcases lt_or_ge id 10 with hid | hid
  · interval_cases id <;> cases h
  · simp [storeThenSet_dead hid] at h

theorem consistent_storeThenSet (n : BitVec 64) : (storeThenSetRun n).Consistent storeThenSet where
  cInt := by
    have h5 : (7 : BitVec 64) = BitVec.ofInt 64 (storeThenSet.getNode 5).cIntValue := by
      decide
    have h6 : (0 : BitVec 64) = BitVec.ofInt 64 (storeThenSet.getNode 6).cIntValue := by
      decide
    intro (id : ℕ) h
    rcases lt_or_ge id 10 with hid | hid
    · interval_cases id <;> first | exact h5 | exact h6 | cases h
    · simp [storeThenSet_dead hid] at h
  add := by
    intro (id : ℕ) h
    rcases lt_or_ge id 10 with hid | hid
    · interval_cases id <;> cases h
    · simp [storeThenSet_dead hid] at h

theorem elimFits_storeThenSet : ElimFits storeThenSet (storeThenSetRun 8) 2 7 := by
  have hn : storeThenSet.isNoaliasOps 2 7 8 = some false := by decide
  have huser {u : NodeId} (hu : u ∈ storeThenSet.users 7) : u = 8 := List.mem_singleton.1 hu
  -- the walk ends where it begins
  have hwalk {l : NodeId} (hw : ElimWalk storeThenSet 2 7 7 l) : l = 7 := by
    cases hw with
    | refl => rfl
    | @step _ c' _ hu hc =>
      have hmem : c' ∈ storeThenSet.users 7 := by rw [hu]; exact List.mem_singleton_self c'
      rw [huser hmem, hn] at hc
      cases hc
  constructor
  · intro l u hw hu hc
    rw [hwalk hw] at hu
    rw [huser hu, hn] at hc
    cases hc
  · intro l t hw ht _ hc u hu
    rw [hwalk hw] at hu ht
    obtain rfl := huser hu
    obtain rfl := huser ht
    refine ⟨hc, fun base off ooff hb hob => ?_, fun h => by cases h⟩
    have hp : storeThenSet.baseAndOffset 2 3 = some (3, 0) := by decide
    obtain ⟨-, rfl⟩ := Prod.mk.inj (Option.some.inj (hp.symm.trans hb))
    obtain ⟨-, rfl⟩ := Prod.mk.inj (Option.some.inj (hp.symm.trans hob))
    decide

/-- When `8` bytes are set at run time nothing of the store is left. -/
theorem storeEliminate_observations_storeThenSet :
    observations storeThenSet (fun _ rt m => (rt, m)) [8, 9] (storeThenSetRun 8) (fun _ => 0) =
      observations storeThenSet (fun _ rt m => (rt, m)) [8, 9] (storeThenSetRun 8)
        (runOp storeThenSet (storeThenSetRun 8) 7 fun _ => 0).1 := by
  refine (storeEliminate_observations addrTyped_storeThenSet storeFlagged_storeThenSet
    (consistent_storeThenSet 8) rfl elimFits_storeThenSet (t := 2)
    (by decide : storeEliminate storeThenSet 2 7 1 = some (some 2))).2 _ [8, 9] _ ?_
  exact ⟨List.mem_singleton_self _, List.mem_singleton_self _, trivial⟩

/-- When none are, the return sees the memory without the store. -/
theorem storeEliminate_unsound :
    ¬ ∀ (prc : Proc) (rt : Runtime) (fuel rounds : ℕ) (id t : NodeId), prc.AddrTyped →
      prc.StoreFlagged → rt.Consistent prc → (prc.getNode id).itype = .store →
      storeEliminate prc fuel id rounds = some (some t) → ∀ env p m, Thread prc id p →
        observations prc env p rt m = observations prc env p rt (runOp prc rt id m).1 := by
  intro h
  have h := h storeThenSet (storeThenSetRun 0) 2 1 7 2 addrTyped_storeThenSet
    storeFlagged_storeThenSet (consistent_storeThenSet 0) rfl (by decide)
    (fun _ rt m => (rt, m)) [8, 9] (fun _ => 0)
    ⟨List.mem_singleton_self _, List.mem_singleton_self _, trivial⟩
  simp only [observations, show storeThenSet.isMemOp 8 = true from rfl,
    show storeThenSet.isMemOp 9 = false from rfl, ↓reduceIte, List.cons.injEq,
    Observation.memory.injEq, Bool.false_eq_true] at h
  exact absurd (congrFun h.2.1 0x1000) (by decide)

end OdinSon
