import OdinSon.Regalloc.LinearScanActive

/-!
# Linear scan gives valid registers

The invariant of a round (`ScanInv`) goes over the program points one by one: the intervals that
started so far are `done`, and of each kind those are active that did not end.  As long as no register
was taken from another interval, a free register is not one of an active interval, so intervals that
overlap have different ones.

When an interval gets no register the invariant is lost, and the round has failed (`Failed`).
-/

namespace OdinSon.Regalloc

open Active

/-- Two intervals share a point. -/
def Slrg.Overlap (a b : Slrg) : Prop := a.start < b.stop ∧ b.start < a.stop

/-- What the scan relies on of masks: they have the length of `ra.mask_len`, and there are register
files for their kinds. -/
structure ScanLrgs.Valid (c : ScanCtx) (ls : ScanLrgs) : Prop where
  bitLength : ∀ l, (ls.mask l).bitLength = c.maskLen
  kind : ∀ l, (ls.mask l).kind < c.kinds

/-- An interval got no register. -/
def Scan.Failed (s : Scan) : Prop :=
  s.ok = false ∧ ∃ l, .failedToAssign ∈ s.lrgs.fails l

/-- The registers of the intervals that started, when none was taken from another. -/
structure RegsValid (c : ScanCtx) (done : List Slrg) (s : Scan) : Prop where
  free : ∀ k < c.kinds, ∀ r ∈ (s.free k).regs, ∀ a ∈ (s.active k).slrgs, s.lrgs.reg a.lrg ≠ some r
  apart : ∀ a ∈ done, ∀ b ∈ done, a ≠ b → (s.lrgs.mask a.lrg).kind = (s.lrgs.mask b.lrg).kind →
    a.Overlap b → s.lrgs.reg a.lrg ≠ s.lrgs.reg b.lrg
  mem : ∀ a ∈ done, ∃ r, s.lrgs.reg a.lrg = some r ∧ r ∈ (s.lrgs.mask a.lrg).regs

/-- **The invariant.**  `done` are the intervals that started, all of them before `j`, and `lim` is for
each kind the point from which on an end counts. -/
structure ScanInv (c : ScanCtx) (ls : ScanLrgs) (done pending : List Slrg) (j : ℕ) (lim : ℕ → ℕ)
    (s : Scan) : Prop where
  split : c.slrgs = done ++ pending
  started : ∀ a ∈ done, a.start < j
  kind : ∀ l, (s.lrgs.mask l).kind = (ls.mask l).kind
  bitLength : ∀ l, (s.lrgs.mask l).bitLength = c.maskLen
  subset : ∀ l, (s.lrgs.mask l).regs ⊆ (ls.mask l).regs
  array : ∀ k < c.kinds, (s.active k).Ok (lim k)
  active : ∀ k < c.kinds, (s.active k).slrgs.Perm
    (done.filter fun a => (ls.mask a.lrg).kind = k ∧ lim k ≤ a.stop)
  unset : ∀ a ∈ pending, s.lrgs.reg a.lrg = none
  regs : s.ok = true → s.recoverableFailure = false → RegsValid c done s

variable {c : ScanCtx} {ls : ScanLrgs} {done pending : List Slrg} {j : ℕ} {lim : ℕ → ℕ}
  {s s' : Scan}

namespace ScanInv

theorem of_start (hls : ls.Valid c) :
    ScanInv c ls [] c.slrgs 0 (fun _ => 0) (c.start ls) := by
  refine ⟨rfl, fun _ h => absurd h List.not_mem_nil, fun _ => rfl, hls.bitLength,
    fun _ _ h => h, fun _ _ => ok_nil 0, fun _ _ => List.Perm.refl _, fun a ha => ?_,
    fun _ _ => ⟨?_, ?_, ?_⟩⟩
  · exact if_pos (List.mem_map_of_mem ha)
  · exact fun _ _ _ _ a ha => absurd ha List.not_mem_nil
  · exact fun a ha => absurd ha List.not_mem_nil
  · exact fun a ha => absurd ha List.not_mem_nil

theorem mem_active (h : ScanInv c ls done pending j lim s) {k : ℕ} (hk : k < c.kinds) {a : Slrg} :
    a ∈ (s.active k).slrgs ↔ a ∈ done ∧ (ls.mask a.lrg).kind = k ∧ lim k ≤ a.stop := by
  rw [(h.active k hk).mem_iff, List.mem_filter, decide_eq_true_iff]

theorem setPending (h : ScanInv c ls done pending j lim s) :
    ScanInv c ls done pending j lim { s with pending := pending } := by
  refine ⟨h.split, h.started, h.kind, h.bitLength, h.subset, h.array, h.active, h.unset,
    fun hok hrec => ?_⟩
  obtain ⟨hfree, hapart, hmem⟩ := h.regs hok hrec
  exact ⟨hfree, hapart, hmem⟩

/-- The intervals of one live range are one. -/
theorem eq_of_lrg (h : ScanInv c ls done pending j lim s) {a b : Slrg} (ha : a ∈ done ++ pending)
    (hb : b ∈ done ++ pending) (he : a.lrg = b.lrg) : a = b := by
  rw [← h.split] at ha hb
  exact List.inj_on_of_nodup_map c.distinct ha hb he

end ScanInv

/-! ### Intervals end -/

/-- One kind is done at the point `j`. -/
theorem ScanInv.expireKind (h : ScanInv c ls done pending j lim s) {k : ℕ} (hk : k < c.kinds)
    (hlim : lim k = j) (he : ScanCtx.expireKind j s k = some s') :
    ScanInv c ls done pending j (Function.update lim k (j + 1)) s' := by
  rw [ScanCtx.expireKind] at he
  simp only [Option.bind_eq_bind, Option.bind_eq_some_iff] at he
  obtain ⟨⟨a, free⟩, hloop, he⟩ := he
  split at he
  swap
  · cases he
  cases he
  have harray := h.array k hk
  rw [hlim] at harray
  have hsearch := harray.searched (by omega : (s.active k).len ≤ 16 * (((s.active k).len + 15) / 16))
  obtain ⟨hok, hperm, hkind, hlen, hfree⟩ := expireLoop_spec (revAt_start _) hsearch hloop
  have hactive : a.slrgs.Perm
      (done.filter fun a => (ls.mask a.lrg).kind = k ∧ j + 1 ≤ a.stop) := by
    refine hperm.trans (((h.active k hk).filter _).trans ?_)
    rw [List.filter_filter, hlim]
    refine List.Perm.of_eq (List.filter_congr fun b _ => ?_)
    rw [← Bool.decide_and, decide_eq_decide]
    omega
  refine ⟨h.split, h.started, h.kind, h.bitLength, h.subset, fun k' hk' => ?_, fun k' hk' => ?_,
    h.unset, fun hsok hrec => ?_⟩
  · by_cases hkk : k' = k
    · subst hkk
      simp only [Function.update_self]
      exact hok
    · simp only [Function.update_of_ne hkk]
      exact h.array k' hk'
  · by_cases hkk : k' = k
    · subst hkk
      simp only [Function.update_self]
      exact hactive
    · simp only [Function.update_of_ne hkk]
      exact h.active k' hk'
  · obtain ⟨hv, hapart, hmem⟩ := h.regs hsok hrec
    refine ⟨fun k' hk' r hr b hb => ?_, hapart, hmem⟩
    by_cases hkk : k' = k
    · subst hkk
      simp only [Function.update_self] at hr hb
      have hb := List.mem_filter.1 (hperm.mem_iff.1 hb)
      obtain hr | ⟨b', hb', hstop, hreg⟩ := hfree r hr
      · exact hv k' hk' r hr b hb.1
      · -- the register was of an interval that was active with `b`
        rw [← hreg]
        obtain ⟨hd, hbk, hbs⟩ := (h.mem_active hk).1 hb.1
        obtain ⟨hd', hbk', -⟩ := (h.mem_active hk).1 hb'
        have hne : b ≠ b' := fun he => by simpa [he, hstop] using hb.2
        have := h.started b hd
        have := h.started b' hd'
        refine hapart b hd b' hd' hne ?_ ⟨by omega, by omega⟩
        rw [h.kind, h.kind, hbk, hbk']
    · simp only [Function.update_of_ne hkk] at hr hb
      exact hv k' hk' r hr b hb

/-- The first `n` kinds are done. -/
theorem ScanInv.expireKinds (h : ScanInv c ls done pending j (fun _ => j) s) {n : ℕ}
    (hn : n ≤ c.kinds) (he : (List.range n).foldlM (ScanCtx.expireKind j) s = some s') :
    ScanInv c ls done pending j (fun k => if k < n then j + 1 else j) s' := by
  induction n generalizing s' with
  | zero =>
    cases he
    simpa using h
  | succ n ih =>
    rw [List.range_succ, List.foldlM_append, Option.bind_eq_bind, Option.bind_eq_some_iff] at he
    obtain ⟨s1, h1, h2⟩ := he
    simp only [List.foldlM_cons, List.foldlM_nil, Option.bind_eq_bind, Option.bind_eq_some_iff] at h2
    obtain ⟨s2, h2, h3⟩ := h2
    cases h3
    have hinv := (ih (by omega) h1).expireKind (by omega) (if_neg (lt_irrefl n)) h2
    have hlim : Function.update (fun k => if k < n then j + 1 else j) n (j + 1) =
        fun k => if k < n + 1 then j + 1 else j := by
      funext k
      by_cases hk : k = n
      · subst hk
        simp
      · rw [Function.update_of_ne hk]
        have : k < n ↔ k < n + 1 := by omega
        simp only [this]
    rwa [hlim] at hinv

/-- All the kinds are done. -/
theorem ScanInv.expire (h : ScanInv c ls done pending j (fun _ => j) s)
    (he : c.expire j s = some s') : ScanInv c ls done pending j (fun _ => j + 1) s' := by
  have hinv := h.expireKinds (le_refl _) he
  refine { hinv with array := fun k hk => ?_, active := fun k hk => ?_ }
  · simpa only [if_pos hk] using hinv.array k hk
  · simpa only [if_pos hk] using hinv.active k hk

/-- Nothing else changes. -/
theorem expire_frame (he : c.expire j s = some s') :
    s'.lrgs = s.lrgs ∧ s'.ok = s.ok ∧ s'.pending = s.pending ∧
      s'.recoverableFailure = s.recoverableFailure := by
  rw [ScanCtx.expire] at he
  generalize List.range c.kinds = kinds at he
  induction kinds generalizing s with
  | nil =>
    cases he
    exact ⟨rfl, rfl, rfl, rfl⟩
  | cons k kinds ih =>
    rw [List.foldlM_cons, Option.bind_eq_bind, Option.bind_eq_some_iff] at he
    obtain ⟨s1, h1, he⟩ := he
    obtain ⟨hls, hok, hp, hrec⟩ := ih he
    rw [ScanCtx.expireKind] at h1
    simp only [Option.bind_eq_bind, Option.bind_eq_some_iff] at h1
    obtain ⟨⟨a, free⟩, -, h1⟩ := h1
    split at h1
    · cases h1
      exact ⟨hls, hok, hp, hrec⟩
    · cases h1

/-! ### Intervals start -/

/-- Masks get smaller, and everything else that matters stays. -/
structure ScanLrgs.Narrows (ls ls' : ScanLrgs) : Prop where
  reg : ls'.reg = ls.reg
  kind : ∀ l, (ls'.mask l).kind = (ls.mask l).kind
  bitLength : ∀ l, (ls'.mask l).bitLength = (ls.mask l).bitLength
  subset : ∀ l, (ls'.mask l).regs ⊆ (ls.mask l).regs
  fails : ∀ l, ls.fails l ⊆ ls'.fails l

theorem ScanLrgs.Narrows.refl (ls : ScanLrgs) : ls.Narrows ls :=
  ⟨rfl, fun _ => rfl, fun _ => rfl, fun _ _ h => h, fun _ _ h => h⟩

theorem ScanLrgs.Narrows.trans {ls₁ ls₂ ls₃ : ScanLrgs} (h₁ : ls₁.Narrows ls₂)
    (h₂ : ls₂.Narrows ls₃) : ls₁.Narrows ls₃ :=
  ⟨h₂.reg.trans h₁.reg, fun l => (h₂.kind l).trans (h₁.kind l),
    fun l => (h₂.bitLength l).trans (h₁.bitLength l),
    fun l => (h₂.subset l).trans (h₁.subset l), fun l => (h₁.fails l).trans (h₂.fails l)⟩

/-- One mask gets smaller. -/
theorem ScanLrgs.Narrows.update {l : ℕ} {mask : RegMask} {fails : ℕ → Finset LrgFail}
    (hk : mask.kind = (ls.mask l).kind) (hb : mask.bitLength = (ls.mask l).bitLength)
    (hs : mask.regs ⊆ (ls.mask l).regs) (hf : ∀ l, ls.fails l ⊆ fails l) :
    ls.Narrows ⟨Function.update ls.mask l mask, ls.reg, fails⟩ := by
  refine ⟨rfl, fun l' => ?_, fun l' => ?_, fun l' => ?_, hf⟩
  · by_cases hl : l' = l
    · subst hl
      simpa only [Function.update_self] using hk
    · simp only [Function.update_of_ne hl]
  · by_cases hl : l' = l
    · subst hl
      simpa only [Function.update_self] using hb
    · simp only [Function.update_of_ne hl]
  · by_cases hl : l' = l
    · subst hl
      simpa only [Function.update_self] using hs
    · simp only [Function.update_of_ne hl]
      exact fun _ h => h

/-- `seize` takes the register from the masks of the intervals, and nothing else. -/
theorem seize_spec {reg : ℕ} {as : List Slrg} {ls' : ScanLrgs} {ok ok' : Bool}
    (h : ScanCtx.seize reg as ls ok = some (ls', ok')) :
    ls.Narrows ls' ∧ (ok' = true → ok = true) ∧
      ∀ l, ∀ r ∈ (ls.mask l).regs, (r ≠ reg ∨ ∀ a ∈ as, a.lrg ≠ l) → r ∈ (ls'.mask l).regs := by
  induction as generalizing ls ok with
  | nil =>
    obtain ⟨rfl, rfl⟩ := Prod.mk.inj (Option.some.inj h)
    exact ⟨.refl ls, id, fun _ _ h _ => h⟩
  | cons a as ih =>
    rw [ScanCtx.seize] at h
    simp only [Option.bind_eq_bind, Option.bind_eq_some_iff] at h
    obtain ⟨mask, hmask, h⟩ := h
    rw [RegMask.clear] at hmask
    split at hmask
    swap
    · cases hmask
    obtain rfl := Option.some.inj hmask
    -- the step for `a`, whether it is killed or not
    have hstep (fails : ℕ → Finset LrgFail) (hf : ∀ l, ls.fails l ⊆ fails l) :
        let mask := { ls.mask a.lrg with regs := (ls.mask a.lrg).regs.erase reg }
        let ls1 : ScanLrgs := ⟨Function.update ls.mask a.lrg mask, ls.reg, fails⟩
        ls.Narrows ls1 ∧
          ∀ l, ∀ r ∈ (ls.mask l).regs, r ≠ reg ∨ a.lrg ≠ l → r ∈ (ls1.mask l).regs := by
      refine ⟨.update rfl rfl (Finset.erase_subset ..) hf, fun l r hr hor => ?_⟩
      by_cases hl : l = a.lrg
      · subst hl
        simp only [Function.update_self]
        exact Finset.mem_erase.2 ⟨hor.resolve_right fun h => h rfl, hr⟩
      · simpa only [Function.update_of_ne hl] using hr
    split at h
    · have hf (l : ℕ) : ls.fails l ⊆
          Function.update ls.fails a.lrg (insert .killed (ls.fails a.lrg)) l := by
        by_cases hl : l = a.lrg
        · subst hl
          rw [Function.update_self]
          exact Finset.subset_insert ..
        · rw [Function.update_of_ne hl]
      obtain ⟨hn, hkeep⟩ := hstep _ hf
      obtain ⟨hn', hok, hkeep'⟩ := ih h
      refine ⟨hn.trans hn', fun h => absurd (hok h) (by decide), fun l r hr hor => ?_⟩
      refine hkeep' l r (hkeep l r hr ?_) ?_
      · exact hor.imp_right fun h => h a (List.mem_cons_self ..)
      · exact hor.imp_right fun h b hb => h b (List.mem_cons_of_mem _ hb)
    · obtain ⟨hn, hkeep⟩ := hstep ls.fails fun _ _ h => h
      obtain ⟨hn', hok, hkeep'⟩ := ih h
      refine ⟨hn.trans hn', hok, fun l r hr hor => ?_⟩
      refine hkeep' l r (hkeep l r hr ?_) ?_
      · exact hor.imp_right fun h => h a (List.mem_cons_self ..)
      · exact hor.imp_right fun h b hb => h b (List.mem_cons_of_mem _ hb)

/-- The live ranges after `must_spill` narrowed the mask of `l`. -/
@[grind =] def ScanCtx.narrowed (c : ScanCtx) (ls : ScanLrgs) (l : ℕ) : ScanLrgs :=
  let mask := if c.mustSpillNow ls l then (ls.mask l).spilled (c.spillBoundary (ls.mask l).kind)
    else ls.mask l
  { ls with mask := Function.update ls.mask l mask }

theorem narrows_narrowed (c : ScanCtx) (ls : ScanLrgs) (l : ℕ) : ls.Narrows (c.narrowed ls l) := by
  rw [ScanCtx.narrowed]
  refine .update ?_ ?_ ?_ fun _ _ h => h
  · split <;> rfl
  · split <;> rfl
  · split
    · exact Finset.filter_subset ..
    · exact fun _ h => h

theorem narrowed_of_ne {l l' : ℕ} (h : l' ≠ l) : (c.narrowed ls l).mask l' = ls.mask l' :=
  Function.update_of_ne h ..

/-- The state after `slrg` got the register `reg`. -/
def Scan.assigned (s : Scan) (slrg : Slrg) (reg : ℕ) (ls : ScanLrgs) (recoverable ok : Bool)
    (free : RegMask) : Scan :=
  let kind := (s.lrgs.mask slrg.lrg).kind
  { lrgs := { ls with reg := Function.update ls.reg slrg.lrg (some reg) }
    free := Function.update s.free kind free
    active := Function.update s.active kind ((s.active kind).push slrg)
    pending := s.pending
    recoverableFailure := recoverable
    ok := ok }

variable {slrg : Slrg} {round : ℕ}

theorem mem_update_insert (fails : ℕ → Finset LrgFail) (l : ℕ) :
    .failedToAssign ∈ Function.update fails l (insert .failedToAssign (fails l)) l := by
  rw [Function.update_self]
  exact Finset.mem_insert_self ..

theorem assignFailed_failed (h : c.assignFailed s slrg = some s') (hok : s.ok = false) :
    s'.Failed := by
  rw [ScanCtx.assignFailed] at h
  dsimp only at h
  split at h
  · cases h
  · split at h
    · cases h
      exact ⟨hok, _, mem_update_insert _ _⟩
    · cases h
      exact ⟨hok, _, mem_update_insert _ _⟩

/-- **What happens to an interval that starts**: it gets a register, one that is free or, if it is the
only one in the mask, whoever has it, or the round fails. -/
theorem addSlrg_cases (h : c.addSlrg round s slrg = some s') :
    ∃ picked, ScanCtx.pickReg (s.free (s.lrgs.mask slrg.lrg).kind)
        ((c.narrowed s.lrgs slrg.lrg).mask slrg.lrg) (s.lrgs.reg slrg.lrg) = some picked ∧
      ((∃ reg ls ok free,
          ((picked = some reg ∧ ls = c.narrowed s.lrgs slrg.lrg ∧ ok = s.ok) ∨
            (round = 0 ∧ ((c.narrowed s.lrgs slrg.lrg).mask slrg.lrg).regs.card = 1 ∧
              ((c.narrowed s.lrgs slrg.lrg).mask slrg.lrg).firstSet = some reg ∧
              ScanCtx.seize reg (s.active (s.lrgs.mask slrg.lrg).kind).slrgs
                (c.narrowed s.lrgs slrg.lrg) s.ok = some (ls, ok))) ∧
          (s.free (s.lrgs.mask slrg.lrg).kind).clear reg = some free ∧
          s' = s.assigned slrg reg ls (s.recoverableFailure || picked.isNone) ok free) ∨
        s'.Failed) := by
  have hmask : (c.narrowed s.lrgs slrg.lrg).mask slrg.lrg =
      if c.mustSpillNow s.lrgs slrg.lrg then
        (s.lrgs.mask slrg.lrg).spilled (c.spillBoundary (s.lrgs.mask slrg.lrg).kind)
      else s.lrgs.mask slrg.lrg := Function.update_self ..
  have hls : ScanLrgs.mk
      (Function.update s.lrgs.mask slrg.lrg ((c.narrowed s.lrgs slrg.lrg).mask slrg.lrg))
      s.lrgs.reg s.lrgs.fails = c.narrowed s.lrgs slrg.lrg := by
    rw [hmask]
    rfl
  rw [ScanCtx.addSlrg] at h
  simp only [Option.bind_eq_bind, Option.bind_eq_some_iff] at h
  obtain ⟨picked, hpicked, h⟩ := h
  simp only [← hmask, hls] at hpicked h
  refine ⟨picked, hpicked, ?_⟩
  split at h
  · rename_i hone
    simp only [Option.bind_eq_some_iff, Option.pure_def, Option.bind_some] at h
    obtain ⟨reg, hfirst, ⟨ls, ok⟩, hseize, free, hfree, h⟩ := h
    exact .inl ⟨reg, ls, ok, free, .inr ⟨hone.2, hone.1, hfirst, hseize⟩, hfree, (Option.some.inj h).symm⟩
  · simp only [Option.pure_def, Option.bind_some] at h
    split at h
    · rename_i reg
      simp only [Option.bind_eq_some_iff] at h
      obtain ⟨free, hfree, h⟩ := h
      refine .inl ⟨reg, _, _, free, .inl ⟨rfl, rfl, rfl⟩, hfree, ?_⟩
      rw [← Option.some.inj h]
      simp [Scan.assigned, ScanCtx.narrowed]
    · exact .inr (assignFailed_failed h (by simp))

theorem pickReg_unset {available mask : RegMask} {r : ℕ}
    (h : ScanCtx.pickReg available mask none = some (some r)) :
    r ∈ available.regs ∧ r ∈ mask.regs := by
  rw [ScanCtx.pickReg, RegMask.firstCommonSet] at h
  split at h
  · simpa using List.find?_some (Option.some.inj h)
  · cases h

theorem firstSet_mem {mask : RegMask} {r : ℕ} (h : mask.firstSet = some r) : r ∈ mask.regs := by
  simpa using List.find?_some h

/-- What an interval gets with its register. -/
structure Assigns (done : List Slrg) (s : Scan) (slrg : Slrg) (reg : ℕ) (picked : Option ℕ)
    (ls : ScanLrgs) (ok : Bool) : Prop where
  narrows : s.lrgs.Narrows ls
  own : reg ∈ (ls.mask slrg.lrg).regs
  ok : ok = true → s.ok = true
  avail : picked.isNone = false → reg ∈ (s.free (s.lrgs.mask slrg.lrg).kind).regs
  keep : ∀ a ∈ done, ∀ r ∈ (s.lrgs.mask a.lrg).regs,
    (r ≠ reg ∨ a ∉ (s.active (s.lrgs.mask slrg.lrg).kind).slrgs) → r ∈ (ls.mask a.lrg).regs

section Add

variable (h : ScanInv c ls done (slrg :: pending) j lim s) (hls : ls.Valid c)

include h hls

theorem ScanInv.mem_active_own {a : Slrg} :
    a ∈ (s.active (s.lrgs.mask slrg.lrg).kind).slrgs ↔
      a ∈ done ∧ (s.lrgs.mask a.lrg).kind = (s.lrgs.mask slrg.lrg).kind ∧
        lim (s.lrgs.mask slrg.lrg).kind ≤ a.stop := by
  rw [h.kind slrg.lrg, h.kind a.lrg, h.mem_active (hls.kind slrg.lrg)]

omit hls in
theorem ScanInv.lrg_ne {a : Slrg} (ha : a ∈ done) : a.lrg ≠ slrg.lrg := by
  intro he
  have hnodup := c.distinct
  rw [h.split, List.map_append, List.nodup_append] at hnodup
  exact hnodup.2.2 a.lrg (List.mem_map_of_mem ha) slrg.lrg (List.mem_map_of_mem (List.mem_cons_self ..))
    he

theorem ScanInv.assigns {reg : ℕ} {picked : Option ℕ} {ls1 : ScanLrgs} {ok : Bool}
    (hpicked : ScanCtx.pickReg (s.free (s.lrgs.mask slrg.lrg).kind)
      ((c.narrowed s.lrgs slrg.lrg).mask slrg.lrg) (s.lrgs.reg slrg.lrg) = some picked)
    (hor : (picked = some reg ∧ ls1 = c.narrowed s.lrgs slrg.lrg ∧ ok = s.ok) ∨
      (round = 0 ∧ ((c.narrowed s.lrgs slrg.lrg).mask slrg.lrg).regs.card = 1 ∧
        ((c.narrowed s.lrgs slrg.lrg).mask slrg.lrg).firstSet = some reg ∧
        ScanCtx.seize reg (s.active (s.lrgs.mask slrg.lrg).kind).slrgs
          (c.narrowed s.lrgs slrg.lrg) s.ok = some (ls1, ok))) :
    Assigns done s slrg reg picked ls1 ok := by
  have hnarrow := narrows_narrowed c s.lrgs slrg.lrg
  have hmask (a : Slrg) (ha : a ∈ done) :
      (c.narrowed s.lrgs slrg.lrg).mask a.lrg = s.lrgs.mask a.lrg := narrowed_of_ne (h.lrg_ne ha)
  rw [h.unset slrg (List.mem_cons_self ..)] at hpicked
  obtain ⟨rfl, rfl, rfl⟩ | ⟨-, hone, hfirst, hseize⟩ := hor
  · obtain ⟨havail, hown⟩ := pickReg_unset hpicked
    refine ⟨hnarrow, hown, id, fun _ => havail, fun a ha r hr _ => ?_⟩
    rwa [hmask a ha]
  · obtain ⟨hn, hok, hkeep⟩ := seize_spec hseize
    refine ⟨hnarrow.trans hn, ?_, hok, fun hsome => ?_, fun a ha r hr hor => ?_⟩
    · refine hkeep _ _ (firstSet_mem hfirst) (.inr fun a ha => ?_)
      exact h.lrg_ne ((h.mem_active_own hls).1 ha).1
    · -- the mask has one register, so it is the one that was picked
      obtain ⟨r, rfl⟩ := Option.isSome_iff_exists.1 (Option.isNone_eq_false_iff.1 hsome)
      obtain ⟨havail, hown⟩ := pickReg_unset hpicked
      obtain ⟨x, hx⟩ := Finset.card_eq_one.1 hone
      have hreg := firstSet_mem hfirst
      rw [hx, Finset.mem_singleton] at hown hreg
      rwa [hreg, ← hown]
    · refine hkeep _ _ (by rwa [hmask a ha]) (hor.imp_right fun hna b hb he => hna ?_)
      have hbd := ((h.mem_active_own hls).1 hb).1
      have hab := h.eq_of_lrg (List.mem_append_left _ hbd) (List.mem_append_left _ ha) he
      rwa [← hab]

/-- The registers stay valid when the interval got a free one. -/
theorem ScanInv.regsValid_assigned (hlim : lim (s.lrgs.mask slrg.lrg).kind ≤ slrg.start + 1)
    {reg : ℕ} {picked : Option ℕ} {ls1 : ScanLrgs} {ok : Bool} {free : RegMask}
    (hs : Assigns done s slrg reg picked ls1 ok)
    (hfree : (s.free (s.lrgs.mask slrg.lrg).kind).clear reg = some free) (hok : ok = true)
    (hrec : (s.recoverableFailure || picked.isNone) = false) :
    RegsValid c (done ++ [slrg])
      (s.assigned slrg reg ls1 (s.recoverableFailure || picked.isNone) ok free) := by
  rw [Bool.or_eq_false_iff] at hrec
  obtain ⟨hv, hapart, hmem⟩ := h.regs (hs.ok hok) hrec.1
  have havail := hs.avail hrec.2
  have hkind : (s.lrgs.mask slrg.lrg).kind < c.kinds := by
    rw [h.kind]
    exact hls.kind slrg.lrg
  have hreg (a : Slrg) (ha : a ∈ done) :
      Function.update ls1.reg slrg.lrg (some reg) a.lrg = s.lrgs.reg a.lrg := by
    rw [Function.update_of_ne (h.lrg_ne ha), hs.narrows.reg]
  have hown : Function.update ls1.reg slrg.lrg (some reg) slrg.lrg = some reg :=
    Function.update_self ..
  -- an interval of the kind that overlaps with the new one is active
  have hne (a : Slrg) (ha : a ∈ done)
      (hk : (s.lrgs.mask a.lrg).kind = (s.lrgs.mask slrg.lrg).kind) (hov : slrg.start < a.stop) :
      s.lrgs.reg a.lrg ≠ some reg :=
    hv _ hkind reg havail a ((h.mem_active_own hls).2 ⟨ha, hk, by omega⟩)
  rw [RegMask.clear] at hfree
  split at hfree
  swap
  · cases hfree
  obtain rfl := Option.some.inj hfree
  refine ⟨fun k hk r hr a ha => ?_, fun a ha b hb hab hk hov => ?_, fun a ha => ?_⟩
  · simp only [Scan.assigned] at hr ha ⊢
    by_cases hkk : k = (s.lrgs.mask slrg.lrg).kind
    · subst hkk
      rw [Function.update_self] at hr ha
      obtain ⟨hrr, hr⟩ := Finset.mem_erase.1 hr
      rw [(h.array _ hk).slrgs_push, List.mem_append, List.mem_singleton] at ha
      obtain ha | rfl := ha
      · rw [hreg a ((h.mem_active hk).1 ha).1]
        exact hv _ hk r hr a ha
      · rw [hown]
        exact fun he => hrr (Option.some.inj he).symm
    · rw [Function.update_of_ne hkk] at hr ha
      rw [hreg a ((h.mem_active hk).1 ha).1]
      exact hv k hk r hr a ha
  · simp only [Scan.assigned] at hk ⊢
    rw [hs.narrows.kind, hs.narrows.kind] at hk
    rw [List.mem_append, List.mem_singleton] at ha hb
    obtain ha | rfl := ha <;> obtain hb | rfl := hb
    · rw [hreg a ha, hreg b hb]
      exact hapart a ha b hb hab hk hov
    · rw [hreg a ha, hown]
      exact hne a ha hk hov.2
    · rw [hreg b hb, hown]
      exact (hne b hb hk.symm hov.1).symm
    · exact absurd rfl hab
  · simp only [Scan.assigned]
    rw [List.mem_append, List.mem_singleton] at ha
    obtain ha | rfl := ha
    · obtain ⟨r, hr, hrm⟩ := hmem a ha
      refine ⟨r, (hreg a ha).trans hr, hs.keep a ha r hrm ?_⟩
      by_cases hact : a ∈ (s.active (s.lrgs.mask slrg.lrg).kind).slrgs
      · refine .inl fun he => hv _ hkind reg havail a hact ?_
        rw [hr, he]
      · exact .inr hact
    · exact ⟨reg, hown, hs.own⟩

/-- **One interval starts.** -/
theorem ScanInv.addSlrg (hstart : slrg.start < j) (hlim : ∀ k, lim k = slrg.start + 1)
    (hstop : slrg.start < slrg.stop) (ha : c.addSlrg round s slrg = some s') :
    s'.Failed ∨ ScanInv c ls (done ++ [slrg]) pending j lim s' := by
  obtain ⟨picked, hpicked, ⟨reg, ls1, ok, free, hor, hfree, rfl⟩ | hf⟩ := addSlrg_cases ha
  swap
  · exact .inl hf
  right
  have hs := h.assigns hls hpicked hor
  have hkind : (s.lrgs.mask slrg.lrg).kind < c.kinds := by
    rw [h.kind]
    exact hls.kind slrg.lrg
  refine ⟨?_, fun a ha => ?_, fun l => ?_, fun l => ?_, fun l => ?_, fun k hk => ?_, fun k hk => ?_,
    fun a ha => ?_, fun hok hrec => ?_⟩
  · rw [h.split, List.append_assoc, List.singleton_append]
  · rw [List.mem_append, List.mem_singleton] at ha
    obtain ha | rfl := ha
    · exact h.started a ha
    · exact hstart
  · exact (hs.narrows.kind l).trans (h.kind l)
  · exact (hs.narrows.bitLength l).trans (h.bitLength l)
  · exact (hs.narrows.subset l).trans (h.subset l)
  · simp only [Scan.assigned]
    by_cases hkk : k = (s.lrgs.mask slrg.lrg).kind
    · subst hkk
      rw [Function.update_self]
      exact (h.array _ hk).push
    · rw [Function.update_of_ne hkk]
      exact h.array k hk
  · simp only [Scan.assigned]
    rw [List.filter_append]
    by_cases hkk : k = (s.lrgs.mask slrg.lrg).kind
    · subst hkk
      have hown : (ls.mask slrg.lrg).kind = (s.lrgs.mask slrg.lrg).kind ∧
          lim (s.lrgs.mask slrg.lrg).kind ≤ slrg.stop := by
        rw [hlim]
        exact ⟨(h.kind slrg.lrg).symm, hstop⟩
      rw [Function.update_self, (h.array _ hk).slrgs_push, List.filter_cons_of_pos (by simpa using hown),
        List.filter_nil]
      exact (h.active _ hk).append_right [slrg]
    · have hother : ¬((ls.mask slrg.lrg).kind = k ∧ lim k ≤ slrg.stop) := fun hand =>
        hkk (by rw [h.kind, hand.1])
      rw [Function.update_of_ne hkk, List.filter_cons_of_neg (by simpa using hother), List.filter_nil,
        List.append_nil]
      exact h.active k hk
  · have hne : a.lrg ≠ slrg.lrg := by
      have hnodup := c.distinct
      rw [h.split, List.map_append, List.map_cons, List.nodup_append] at hnodup
      exact fun he => (List.nodup_cons.1 hnodup.2.1).1 (he ▸ List.mem_map_of_mem ha)
    simp only [Scan.assigned]
    rw [Function.update_of_ne hne, hs.narrows.reg]
    exact h.unset a (List.mem_cons_of_mem _ ha)
  · exact h.regsValid_assigned hls (hlim _).le hs hfree hok hrec

end Add

/-- A round that failed stays so. -/
theorem Scan.Failed.addSlrg (h : s.Failed) (ha : c.addSlrg round s slrg = some s') : s'.Failed := by
  obtain ⟨picked, hpicked, ⟨reg, ls1, ok, free, hor, hfree, rfl⟩ | hf⟩ := addSlrg_cases ha
  · obtain ⟨hok, l, hl⟩ := h
    have hnarrow := narrows_narrowed c s.lrgs slrg.lrg
    obtain ⟨rfl, rfl, rfl⟩ | ⟨-, -, -, hseize⟩ := hor
    · exact ⟨hok, l, hnarrow.fails l hl⟩
    · obtain ⟨hn, hoks, -⟩ := seize_spec hseize
      refine ⟨?_, l, (hnarrow.trans hn).fails l hl⟩
      exact Bool.eq_false_iff.2 fun h => absurd (hoks h) (by simp [hok])
  · exact hf

theorem Scan.Failed.addAll (h : s.Failed) (ha : c.addAll round j pending s = some s') :
    s'.Failed := by
  induction pending generalizing s with
  | nil =>
    cases ha
    exact h
  | cons slrg pending ih =>
    rw [ScanCtx.addAll] at ha
    split at ha
    · rw [Option.bind_eq_bind, Option.bind_eq_some_iff] at ha
      obtain ⟨s1, h1, ha⟩ := ha
      exact ih (h.addSlrg h1) ha
    · cases ha
      exact h

/-- **The intervals that start at `j` are added.** -/
theorem ScanInv.addAll (h : ScanInv c ls done pending (j + 1) (fun _ => j + 1) s)
    (hls : ls.Valid c) (hstop : ∀ a ∈ c.slrgs, a.start < a.stop)
    (hge : ∀ a ∈ pending, j ≤ a.start) (ha : c.addAll round j pending s = some s') :
    s'.Failed ∨ ∃ done, ScanInv c ls done s'.pending (j + 1) (fun _ => j + 1) s' ∧
      ∀ a ∈ s'.pending, j + 1 ≤ a.start := by
  induction pending generalizing s done with
  | nil =>
    cases ha
    exact .inr ⟨done, h.setPending, fun _ h => absurd h List.not_mem_nil⟩
  | cons slrg pending ih =>
    rw [ScanCtx.addAll] at ha
    split at ha
    · rename_i hj
      rw [Option.bind_eq_bind, Option.bind_eq_some_iff] at ha
      obtain ⟨s1, h1, ha⟩ := ha
      have hmem : slrg ∈ c.slrgs := by
        rw [h.split]
        exact List.mem_append_right _ (List.mem_cons_self ..)
      obtain hf | h' := h.addSlrg hls (by omega) (fun _ => by omega) (hstop slrg hmem) h1
      · exact .inl (hf.addAll ha)
      · exact ih h' (fun a ha => hge a (List.mem_cons_of_mem _ ha)) ha
    · rename_i hj
      cases ha
      refine .inr ⟨done, h.setPending, fun a ha => ?_⟩
      -- the intervals are sorted
      have hsorted := c.sorted
      rw [h.split, List.pairwise_append] at hsorted
      have hle : slrg.start ≤ a.start := by
        obtain rfl | ha := List.mem_cons.1 ha
        · exact le_refl _
        · exact (List.pairwise_cons.1 hsorted.2.1).1 a ha
      have := hge slrg (List.mem_cons_self ..)
      omega

/-! ### Whole rounds -/

/-- The last point of a run. -/
theorem upTo_succ (h : c.upTo round ls (j + 1) = some s') :
    ∃ s1 s2, c.upTo round ls j = some s1 ∧ c.expire j s1 = some s2 ∧
      c.addAll round j s2.pending s2 = some s' := by
  rw [ScanCtx.upTo, List.range_succ, List.foldlM_append, Option.bind_eq_bind,
    Option.bind_eq_some_iff] at h
  obtain ⟨s1, h1, h⟩ := h
  simp only [List.foldlM_cons, List.foldlM_nil, Option.bind_eq_bind, Option.bind_eq_some_iff] at h
  obtain ⟨s2, h2, h⟩ := h
  cases h
  rw [ScanCtx.point, Option.bind_eq_bind, Option.bind_eq_some_iff] at h2
  obtain ⟨s3, h3, h2⟩ := h2
  exact ⟨s1, s3, h1, h3, h2⟩

/-- **The invariant holds before every point**, unless the round failed. -/
theorem upTo_inv (hls : ls.Valid c) (hstop : ∀ a ∈ c.slrgs, a.start < a.stop)
    (h : c.upTo round ls j = some s) :
    s.Failed ∨ ∃ done, ScanInv c ls done s.pending j (fun _ => j) s ∧
      ∀ a ∈ s.pending, j ≤ a.start := by
  induction j generalizing s with
  | zero =>
    cases h
    exact .inr ⟨[], .of_start hls, fun _ _ => Nat.zero_le _⟩
  | succ j ih =>
    obtain ⟨s1, s3, h1, h3, h2⟩ := upTo_succ h
    obtain ⟨hlrgs, hok, hpending, -⟩ := expire_frame h3
    obtain ⟨hf, l, hl⟩ | ⟨done, hinv, hge⟩ := ih h1
    · have hfailed : s3.Failed := ⟨hok.trans hf, l, hlrgs ▸ hl⟩
      exact .inl (hfailed.addAll h2)
    · have hinv := hinv.expire h3
      rw [← hpending] at hinv hge
      exact { hinv with started := fun a ha => Nat.lt_succ_of_lt (hinv.started a ha) }.addAll hls
        hstop hge h2

/-- The active intervals at a point, before those that start there are added. -/
theorem active_perm (hls : ls.Valid c) (hstop : ∀ a ∈ c.slrgs, a.start < a.stop)
    (h : (c.upTo round ls j).bind (c.expire j) = some s)
    (hfail : ∀ l, .failedToAssign ∉ s.lrgs.fails l) {k : ℕ} (hk : k < c.kinds) :
    (s.active k).slrgs.Perm
      (c.slrgs.filter fun a => (ls.mask a.lrg).kind = k ∧ a.start < j ∧ j < a.stop) := by
  rw [Option.bind_eq_some_iff] at h
  obtain ⟨s1, h1, h2⟩ := h
  obtain ⟨hlrgs, -⟩ := expire_frame h2
  obtain ⟨-, l, hl⟩ | ⟨done, hinv, hge⟩ := upTo_inv hls hstop h1
  · exact absurd hl (hlrgs ▸ hfail l)
  · have hpending : s1.pending.filter
        (fun a => (ls.mask a.lrg).kind = k ∧ a.start < j ∧ j < a.stop) = [] := by
      refine List.filter_eq_nil_iff.2 fun a ha => ?_
      have := hge a ha
      simp only [decide_eq_true_eq]
      omega
    rw [hinv.split, List.filter_append, hpending, List.append_nil]
    refine ((hinv.expire h2).active k hk).trans (List.Perm.of_eq (List.filter_congr fun a ha => ?_))
    have := hinv.started a ha
    rw [decide_eq_decide]
    omega

/-- The registers at the end of a round. -/
theorem round_regs (hls : ls.Valid c) (hstop : ∀ a ∈ c.slrgs, a.start < a.stop)
    (h : c.round round ls = some s) (hok : s.ok = true) (hrec : s.recoverableFailure = false) :
    RegsValid c c.slrgs s ∧ ∀ l, (s.lrgs.mask l).kind = (ls.mask l).kind ∧
      (s.lrgs.mask l).regs ⊆ (ls.mask l).regs := by
  obtain ⟨hf, -⟩ | ⟨done, hinv, hge⟩ := upTo_inv hls hstop h
  · rw [hf] at hok
    cases hok
  · have hpending : s.pending = [] := by
      refine List.eq_nil_iff_forall_not_mem.2 fun a ha => ?_
      have hlt := c.start_lt a (by rw [hinv.split]; exact List.mem_append_right _ ha)
      have := hge a ha
      omega
    have hdone := hinv.split
    rw [hpending, List.append_nil] at hdone
    rw [hdone]
    exact ⟨hinv.regs hok hrec, fun l => ⟨hinv.kind l, hinv.subset l⟩⟩

/-- **Linear scan is valid.**  At every point the active intervals of a kind are those that started
before and end after it, as long as every interval got a register.  If a round ends well, intervals
of one kind that overlap have different registers, and registers are in the masks. -/
theorem linearScan_valid (c : ScanCtx) (ls : ScanLrgs) (hls : ls.Valid c)
    (hstop : ∀ a ∈ c.slrgs, a.start < a.stop) (round : ℕ) :
    (∀ j s, (c.upTo round ls j).bind (c.expire j) = some s →
      (∀ l, .failedToAssign ∉ s.lrgs.fails l) → ∀ k < c.kinds,
        (s.active k).slrgs.Perm
          (c.slrgs.filter fun a => (ls.mask a.lrg).kind = k ∧ a.start < j ∧ j < a.stop)) ∧
      ∀ s, c.round round ls = some s → s.ok = true → s.recoverableFailure = false →
        (∀ a ∈ c.slrgs, ∃ r, s.lrgs.reg a.lrg = some r ∧ r ∈ (s.lrgs.mask a.lrg).regs ∧
          r ∈ (ls.mask a.lrg).regs) ∧
        ∀ a ∈ c.slrgs, ∀ b ∈ c.slrgs, a ≠ b →
          (ls.mask a.lrg).kind = (ls.mask b.lrg).kind → a.Overlap b →
          s.lrgs.reg a.lrg ≠ s.lrgs.reg b.lrg := by
  refine ⟨fun j s h hfail k hk => active_perm hls hstop h hfail hk, fun s h hok hrec => ?_⟩
  obtain ⟨hregs, hnarrow⟩ := round_regs hls hstop h hok hrec
  refine ⟨fun a ha => ?_, fun a ha b hb hne hk hov => ?_⟩
  · obtain ⟨r, hr, hmem⟩ := hregs.mem a ha
    exact ⟨r, hr, hmem, (hnarrow a.lrg).2 hmem⟩
  · refine hregs.apart a ha b hb hne ?_ hov
    rw [(hnarrow a.lrg).1, (hnarrow b.lrg).1, hk]

/-- Three intervals, the second of which has only one register. -/
def threeSlrgs : ScanCtx where
  kinds := 1
  spillBoundary := fun _ => 2
  maskLen := 4
  maskLen_le := by decide
  mustSpill := fun _ => false
  points := 4
  slrgs := [⟨0, 2, 0⟩, ⟨1, 3, 1⟩, ⟨2, 4, 2⟩]
  sorted := by decide
  distinct := by decide
  start_lt := by decide

/-- Their live ranges. -/
def threeLrgs : ScanLrgs where
  mask := fun l => ⟨0, 4, if l = 1 then {1} else {0, 1}⟩
  reg := fun _ => none
  fails := fun _ => ∅

theorem threeLrgs_valid : threeLrgs.Valid threeSlrgs := ⟨fun _ => rfl, fun _ => Nat.zero_lt_one⟩

/-- The first two overlap. -/
theorem linearScan_valid_three :
    ((threeSlrgs.round 0 threeLrgs).bind fun s => s.lrgs.reg 0) ≠
      (threeSlrgs.round 0 threeLrgs).bind fun s => s.lrgs.reg 1 := by
  have hflags : ((threeSlrgs.round 0 threeLrgs).map fun s => (s.ok, s.recoverableFailure)) =
      some (true, false) := by decide
  obtain ⟨s, hs, hflags⟩ := Option.map_eq_some_iff.1 hflags
  obtain ⟨hok, hrec⟩ := Prod.mk.inj hflags
  rw [hs]
  exact ((linearScan_valid threeSlrgs threeLrgs threeLrgs_valid (by decide) 0).2 s hs hok hrec).2
    ⟨0, 2, 0⟩ (by decide) ⟨1, 3, 1⟩ (by decide) (by decide) rfl ⟨by decide, by decide⟩

/-! ### The whole scan -/

/-- In later rounds no register is taken, so a failure is never one to recover from. -/
theorem addAll_recoverable (hround : round ≠ 0) (h : s.ok = true → s.recoverableFailure = false)
    (ha : c.addAll round j pending s = some s') : s'.ok = true → s'.recoverableFailure = false := by
  induction pending generalizing s with
  | nil =>
    cases ha
    exact h
  | cons slrg pending ih =>
    rw [ScanCtx.addAll] at ha
    split at ha
    · rw [Option.bind_eq_bind, Option.bind_eq_some_iff] at ha
      obtain ⟨s1, h1, ha⟩ := ha
      refine ih ?_ ha
      obtain ⟨picked, -, ⟨reg, ls1, ok, free, hor, -, rfl⟩ | hf⟩ := addSlrg_cases h1
      · obtain ⟨rfl, -, rfl⟩ | ⟨h0, -⟩ := hor
        · intro hok
          show (s.recoverableFailure || false) = false
          rw [h hok, Bool.or_false]
        · exact absurd h0 hround
      · intro hok
        rw [hf.1] at hok
        cases hok
    · cases ha
      exact h

theorem upTo_recoverable (hround : round ≠ 0) (h : c.upTo round ls j = some s) :
    s.ok = true → s.recoverableFailure = false := by
  induction j generalizing s with
  | zero =>
    cases h
    exact fun _ => rfl
  | succ j ih =>
    obtain ⟨s1, s3, h1, h3, h2⟩ := upTo_succ h
    obtain ⟨-, hok, -, hrec⟩ := expire_frame h3
    refine addAll_recoverable hround ?_ h2
    rw [hok, hrec]
    exact ih h1

/-- **The scan ends after two rounds**, and if it is ok, the registers are valid for the masks that it
started with. -/
theorem scan_valid (hls : ls.Valid c) (hstop : ∀ a ∈ c.slrgs, a.start < a.stop)
    (h : c.scan ls = some s) (hok : s.ok = true) :
    RegsValid c c.slrgs s ∧ ∀ l, (s.lrgs.mask l).kind = (ls.mask l).kind ∧
      (s.lrgs.mask l).regs ⊆ (ls.mask l).regs := by
  simp only [ScanCtx.scan, ScanCtx.rounds, Nat.zero_lt_two, Nat.lt_irrefl, if_true, if_false,
    Option.bind_eq_bind, Option.bind_eq_some_iff, zero_add, Nat.one_lt_two, Nat.reduceAdd] at h
  obtain ⟨s1, h1, h⟩ := h
  split at h
  · rename_i hend
    obtain rfl := Option.some.inj h
    simp only [hok, Bool.not_true, Bool.false_or, Bool.not_eq_true'] at hend
    exact round_regs hls hstop h1 hok hend
  · rename_i hnext
    simp only [Bool.or_eq_true, Bool.not_eq_true', not_or, Bool.not_eq_false] at hnext
    rw [Option.bind_eq_some_iff] at h
    obtain ⟨s2, h2, h⟩ := h
    split at h
    swap
    · cases h
    obtain rfl := Option.some.inj h
    -- the masks of the second round are those that the first one left
    obtain ⟨hf, -⟩ | ⟨done, hinv, -⟩ := upTo_inv hls hstop h1
    · rw [hf] at hnext
      exact absurd hnext.1 (by decide)
    · have hls1 : s1.lrgs.Valid c := ⟨hinv.bitLength, fun l => by rw [hinv.kind]; exact hls.kind l⟩
      obtain ⟨hregs, hnarrow⟩ :=
        round_regs hls1 hstop h2 hok (upTo_recoverable Nat.one_ne_zero h2 hok)
      exact ⟨hregs, fun l => ⟨(hnarrow l).1.trans (hinv.kind l),
        (hnarrow l).2.trans (hinv.subset l)⟩⟩

end OdinSon.Regalloc
