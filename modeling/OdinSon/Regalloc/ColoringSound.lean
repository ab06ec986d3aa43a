import OdinSon.Regalloc.Coloring

/-!
# Colouring gives neighbours different registers

However the live ranges to take out are chosen, all of them come out, each list of neighbours is
what it was once they are back in, and the registers are right (`color_correct`).  A live range that
had more registers than neighbours when it was queued gets one (`color_sure`).

The invariant (`Shown`) says for a list of live ranges that are out, in that order, what each slice
shows and what the array has behind it.  A live range keeps the slice it had when it left, so only
those that left before it count.
-/

namespace OdinSon.Regalloc

/-- An interference graph: the lists of neighbours of the live ranges that were not merged into
others. -/
structure IsIfg (c : ColorCtx) (adj : ℕ → List ℕ) : Prop where
  symm : ∀ a b, b ∈ adj a → a ∈ adj b
  irrefl : ∀ a, a ∉ adj a
  nodup : ∀ a, (adj a).Nodup
  alive : ∀ a b, b ∈ adj a → a ∈ c.alive

/-- Those that left before `x`, of the ones that are out. -/
@[grind =] def leftBefore : List ℕ → ℕ → List ℕ
  | [], _ => []
  | y :: out, x => if y = x then [] else y :: leftBefore out x

theorem leftBefore_of_notMem {out : List ℕ} {x : ℕ} (h : x ∉ out) : leftBefore out x = out := by
  induction out with
  | nil => rfl
  | cons y out ih =>
    obtain ⟨hy, hout⟩ := not_or.1 (mt List.mem_cons.2 h)
    rw [leftBefore, if_neg (Ne.symm hy), ih hout]

theorem leftBefore_append_of_mem {out post : List ℕ} {x : ℕ} (h : x ∈ out) :
    leftBefore (out ++ post) x = leftBefore out x := by
  induction out with
  | nil => exact (List.not_mem_nil h).elim
  | cons y out ih =>
    rw [List.cons_append, leftBefore, leftBefore]
    by_cases hy : y = x
    · rw [if_pos hy, if_pos hy]
    · rw [if_neg hy, if_neg hy, ih ((List.mem_cons.1 h).resolve_left (Ne.symm hy))]

theorem leftBefore_append_self {out post : List ℕ} {x : ℕ} (h : x ∉ out) :
    leftBefore (out ++ x :: post) x = out := by
  induction out with
  | nil => rw [List.nil_append, leftBefore, if_pos rfl]
  | cons y out ih =>
    obtain ⟨hy, hout⟩ := not_or.1 (mt List.mem_cons.2 h)
    rw [List.cons_append, leftBefore, if_neg (Ne.symm hy), ih hout]

variable {c : ColorCtx} {adj rest : ℕ → List ℕ} {s s' : ColorState} {out : List ℕ} {x y l : ℕ}

/-- What the slices show when `out` are out, in that order. -/
structure Shown (adj rest : ℕ → List ℕ) (out : List ℕ) (s : ColorState) : Prop where
  shows : ∀ x, (s.adj x).Perm ((adj x).filter (· ∉ leftBefore out x))
  hides : ∀ x, s.rest x = (leftBefore out x).reverse.filter (· ∈ adj x) ++ rest x

/-- The order is one of the live ranges, and knows their places. -/
structure Ordered (c : ColorCtx) (s : ColorState) : Prop where
  perm : s.colorOrd.Perm c.alive
  idx : ∀ i x, s.colorOrd[i]? = some x → s.colorOrdIdx x = i

/-- What is sure to be coloured has more registers than neighbours. -/
def Sure (c : ColorCtx) (s : ColorState) : Prop :=
  ∀ l ∈ s.sure, l ∈ c.alive ∧ (s.adj l).length < (c.mask l).regs.card

theorem Ordered.nodup (h : Ordered c s) : s.colorOrd.Nodup :=
  h.perm.nodup_iff.2 (List.nodup_range.filter _)

theorem Ordered.length (h : Ordered c s) : s.colorOrd.length = c.alive.length := h.perm.length_eq

theorem Ordered.getElem? (h : Ordered c s) (hx : x ∈ c.alive) :
    s.colorOrd[s.colorOrdIdx x]? = some x := by
  obtain ⟨i, hi⟩ := List.mem_iff_getElem?.1 (h.perm.mem_iff.2 hx)
  rw [h.idx i x hi, hi]

theorem ordered_initial (c : ColorCtx) (adj rest : ℕ → List ℕ) :
    Ordered c (c.initial adj rest) := by
  have hnodup : c.alive.Nodup := List.nodup_range.filter _
  refine ⟨.refl _, fun i x hi => ?_⟩
  obtain ⟨hlt, rfl⟩ := List.getElem?_eq_some_iff.1 hi
  exact hnodup.idxOf_getElem i hlt

/-! ### Moving live ranges in the order -/

/-- `swap_ord` finds its live ranges and changes nothing before them. -/
theorem swapOrd_spec (h : Ordered c s) (hx : x ∈ c.alive) (hy : y ∈ c.alive) :
    ∃ s', s.swapOrd x y = some s' ∧ Ordered c s' ∧ s'.adj = s.adj ∧ s'.rest = s.rest ∧
      s'.sure = s.sure ∧ ∀ k, k ≤ s.colorOrdIdx x → k ≤ s.colorOrdIdx y →
        s'.colorOrd.take k = s.colorOrd.take k := by
  have hgx := h.getElem? hx
  have hgy := h.getElem? hy
  obtain ⟨hlx, hex⟩ := List.getElem?_eq_some_iff.1 hgx
  obtain ⟨hly, hey⟩ := List.getElem?_eq_some_iff.1 hgy
  refine ⟨_, if_pos ⟨hgx, hgy⟩, ⟨?_, ?_⟩, rfl, rfl, rfl, ?_⟩
  · have hperm := List.set_set_perm hly hlx
    rw [hex, hey] at hperm
    exact hperm.trans h.perm
  · intro i z hi
    simp only [List.getElem?_set, List.length_set] at hi
    simp only [Function.update_apply]
    by_cases hix : s.colorOrdIdx x = i
    · rw [if_pos hix, if_pos (hix ▸ hlx)] at hi
      cases hi
      rw [if_pos rfl, hix]
    · rw [if_neg hix] at hi
      by_cases hiy : s.colorOrdIdx y = i
      · rw [if_pos hiy, if_pos (hiy ▸ hly)] at hi
        cases hi
        have hne : x ≠ y := by
          rintro rfl
          exact hix hiy
        rw [if_neg hne, if_pos rfl, hiy]
      · rw [if_neg hiy] at hi
        have hz := h.idx i z hi
        rw [if_neg, if_neg, hz]
        · rintro rfl
          exact hix hz
        · rintro rfl
          exact hiy hz
  · intro k hkx hky
    rw [List.take_set_of_le hkx, List.take_set_of_le hky]

/-! ### Taking a live range out -/

/-- What taking `l` out does to the lists. -/
structure Hidden (l : ℕ) (ns : List ℕ) (s s' : ColorState) : Prop where
  ord : s'.colorOrd = s.colorOrd
  idx : s'.colorOrdIdx = s.colorOrdIdx
  sure : s'.sure = s.sure
  shows : ∀ x, (s'.adj x).Perm (if x ∈ ns then (s.adj x).erase l else s.adj x)
  hides : ∀ x, s'.rest x = if x ∈ ns then l :: s.rest x else s.rest x

theorem hide_spec (hl : l ∈ s.adj x) :
    ∃ s', ColorState.hide l s x = some s' ∧ Hidden l [x] s s' := by
  cases hidx : (s.adj x).idxOf? l with
  | none => exact absurd hl (List.idxOf?_eq_none_iff.1 hidx)
  | some idx =>
    obtain ⟨hlt, -⟩ := List.idxOf?_eq_some_iff.1 hidx
    have herase : (s.adj x).erase l = (s.adj x).eraseIdx idx := by
      rw [List.erase_eq_eraseIdx, hidx]
    have hrun : ColorState.hide l s x = some { s with
        adj := Function.update s.adj x (swapRemove (s.adj x) idx)
        rest := Function.update s.rest x (l :: s.rest x) } := by
      rw [ColorState.hide, hidx]
      rfl
    refine ⟨_, hrun, rfl, rfl, rfl, fun y => ?_, fun y => ?_⟩
    · simp only [Function.update_apply, List.mem_singleton]
      by_cases hy : y = x
      · subst hy
        rw [if_pos rfl, if_pos rfl, herase]
        exact swapRemove_perm hlt
      · rw [if_neg hy, if_neg hy]
    · simp only [Function.update_apply, List.mem_singleton]
      by_cases hy : y = x
      · subst hy
        rw [if_pos rfl]
      · rw [if_neg hy, if_neg hy]

/-- The neighbours are treated one by one. -/
theorem foldlM_hide_spec {ns : List ℕ} (hns : ns.Nodup) (hmem : ∀ x ∈ ns, l ∈ s.adj x) :
    ∃ s', ns.foldlM (ColorState.hide l) s = some s' ∧ Hidden l ns s s' := by
  induction ns generalizing s with
  | nil => exact ⟨s, rfl, rfl, rfl, rfl, fun x => by simp, fun x => by simp⟩
  | cons n ns ih =>
    obtain ⟨hn, hns⟩ := List.nodup_cons.1 hns
    obtain ⟨s₁, hs₁, h₁⟩ := hide_spec (hmem n List.mem_cons_self)
    have hmem₁ : ∀ x ∈ ns, l ∈ s₁.adj x := by
      intro x hx
      have hxn : x ∉ [n] := fun hc => hn (List.mem_singleton.1 hc ▸ hx)
      have hperm := h₁.shows x
      rw [if_neg hxn] at hperm
      exact hperm.mem_iff.2 (hmem x (List.mem_cons_of_mem _ hx))
    obtain ⟨s₂, hs₂, h₂⟩ := ih hns hmem₁
    refine ⟨s₂, by rw [List.foldlM_cons, hs₁]; exact hs₂, h₂.ord.trans h₁.ord, h₂.idx.trans h₁.idx,
      h₂.sure.trans h₁.sure, fun x => ?_, fun x => ?_⟩
    · have hp₁ := h₁.shows x
      have hp₂ := h₂.shows x
      by_cases hx : x = n
      · subst hx
        rw [if_neg hn] at hp₂
        rw [if_pos List.mem_cons_self] at hp₁ ⊢
        exact hp₂.trans hp₁
      · rw [if_neg (mt List.mem_singleton.1 hx)] at hp₁
        simp only [List.mem_cons, hx, false_or]
        split
        · rename_i hxs
          rw [if_pos hxs] at hp₂
          exact hp₂.trans (hp₁.erase l)
        · rename_i hxs
          rw [if_neg hxs] at hp₂
          exact hp₂.trans hp₁
    · rw [h₂.hides, h₁.hides]
      simp only [List.mem_cons]
      by_cases hx : x = n
      · subst hx
        simp [hn]
      · simp [hx]

/-- **Taking a live range out**: it leaves the lists of its neighbours that are still in. -/
theorem removeFromIfg_spec (hi : IsIfg c adj) (hs : Shown adj rest out s) (hl : l ∉ out) :
    ∃ s', s.removeFromIfg l = some s' ∧ Shown adj rest (out ++ [l]) s' ∧
      s'.colorOrd = s.colorOrd ∧ s'.colorOrdIdx = s.colorOrdIdx ∧ s'.sure = s.sure ∧
      (∀ x, (s'.adj x).length ≤ (s.adj x).length) ∧ ∀ x ∈ s'.adj l, x ∈ adj l := by
  have hlself : leftBefore out l = out := leftBefore_of_notMem hl
  have hmem (x : ℕ) : x ∈ s.adj l ↔ x ∈ adj l ∧ x ∉ out := by
    rw [(hs.shows l).mem_iff, List.mem_filter, hlself, decide_eq_true_eq]
  have hnodup : (s.adj l).Nodup := (hs.shows l).nodup_iff.2 ((hi.nodup l).filter _)
  -- the relation stays symmetric on what is still in
  have hback : ∀ x ∈ s.adj l, l ∈ s.adj x := by
    intro x hx
    obtain ⟨hx, hxo⟩ := (hmem x).1 hx
    rw [(hs.shows x).mem_iff, List.mem_filter, leftBefore_of_notMem hxo, decide_eq_true_eq]
    exact ⟨hi.symm l x hx, hl⟩
  obtain ⟨s', hrun, h⟩ := foldlM_hide_spec hnodup hback
  have hnot : l ∉ s.adj l := fun hc => hi.irrefl l ((hmem l).1 hc).1
  have hadjl : (s'.adj l).Perm (s.adj l) := by
    have hp := h.shows l
    rwa [if_neg hnot] at hp
  refine ⟨s', hrun, ⟨fun x => ?_, fun x => ?_⟩, h.ord, h.idx, h.sure, fun x => ?_, fun x hx => ?_⟩
  · refine (h.shows x).trans ?_
    -- who is out already keeps the list it had then, and `l` keeps its own
    by_cases hxo : x ∈ out
    · rw [if_neg fun hc => ((hmem x).1 hc).2 hxo, leftBefore_append_of_mem hxo]
      exact hs.shows x
    by_cases hxl : x = l
    · subst hxl
      rw [if_neg hnot, leftBefore_append_self hl]
      have hp := hs.shows x
      rwa [hlself] at hp
    have hout : leftBefore (out ++ [l]) x = out ++ [l] := by
      refine leftBefore_of_notMem fun hc => ?_
      rcases List.mem_append.1 hc with hc | hc
      · exact hxo hc
      · exact hxl (List.mem_singleton.1 hc)
    have hp := hs.shows x
    rw [leftBefore_of_notMem hxo] at hp
    rw [hout]
    by_cases hx : x ∈ adj l
    · -- a neighbour loses exactly `l`
      rw [if_pos ((hmem x).2 ⟨hx, hxo⟩)]
      refine (hp.erase l).trans ?_
      rw [((hi.nodup x).filter _).erase_eq_filter, List.filter_filter]
      refine List.Perm.of_eq (List.filter_congr fun y _ => ?_)
      simp only [List.mem_append, List.mem_singleton, not_or, Bool.decide_and]
      by_cases hy : y = l <;> simp [hy]
    · rw [if_neg fun hc => hx ((hmem x).1 hc).1]
      refine hp.trans (List.Perm.of_eq (List.filter_congr fun y hy => ?_))
      have hyl : y ≠ l := by
        rintro rfl
        exact hx (hi.symm x y hy)
      simp [hyl]
  · rw [h.hides, hs.hides]
    by_cases hxo : x ∈ out
    · rw [if_neg fun hc => ((hmem x).1 hc).2 hxo, leftBefore_append_of_mem hxo]
    by_cases hxl : x = l
    · subst hxl
      rw [if_neg hnot, leftBefore_append_self hl, hlself]
    have hout : leftBefore (out ++ [l]) x = out ++ [l] := by
      refine leftBefore_of_notMem fun hc => ?_
      rcases List.mem_append.1 hc with hc | hc
      · exact hxo hc
      · exact hxl (List.mem_singleton.1 hc)
    rw [hout, leftBefore_of_notMem hxo, List.reverse_append, List.reverse_singleton,
      List.singleton_append, List.filter_cons]
    by_cases hx : x ∈ adj l
    · rw [if_pos ((hmem x).2 ⟨hx, hxo⟩), if_pos (decide_eq_true (hi.symm l x hx)), List.cons_append]
    · rw [if_neg fun hc => hx ((hmem x).1 hc).1, if_neg]
      simp only [decide_eq_true_eq]
      exact fun hc => hx (hi.symm x l hc)
  · rw [(h.shows x).length_eq]
    split
    · exact List.length_erase_le
    · exact le_rfl
  · exact ((hmem x).1 (hadjl.mem_iff.1 hx)).1

/-! ### Taking all of them out -/

/-- What queueing keeps: the lists, the part of the order that is queued already, and that what is
sure is sure. -/
structure Queued (c : ColorCtx) (ready : ℕ) (s s' : ColorState) (ready' : ℕ) : Prop where
  ordered : Ordered c s'
  adj : s'.adj = s.adj
  rest : s'.rest = s.rest
  sure : Sure c s'
  le : ready ≤ ready'
  le_length : ready' ≤ c.alive.length
  take : s'.colorOrd.take ready = s.colorOrd.take ready

theorem Queued.refl {ready : ℕ} (ho : Ordered c s) (hsure : Sure c s)
    (hr : ready ≤ c.alive.length) : Queued c ready s s ready :=
  ⟨ho, rfl, rfl, hsure, le_rfl, hr, rfl⟩

theorem take_of_le {l₁ l₂ : List ℕ} {i j : ℕ} (h : l₁.take j = l₂.take j) (hij : i ≤ j) :
    l₁.take i = l₂.take i := by
  have := congrArg (List.take i) h
  rwa [List.take_take, List.take_take, min_eq_left hij] at this

theorem Queued.trans {s₁ s₂ s₃ : ColorState} {r₁ r₂ r₃ : ℕ} (h₁ : Queued c r₁ s₁ s₂ r₂)
    (h₂ : Queued c r₂ s₂ s₃ r₃) : Queued c r₁ s₁ s₃ r₃ :=
  ⟨h₂.ordered, h₂.adj.trans h₁.adj, h₂.rest.trans h₁.rest, h₂.sure, h₁.le.trans h₂.le, h₂.le_length,
    (take_of_le h₂.take h₁.le).trans h₁.take⟩

theorem queue_spec {ready : ℕ} (ho : Ordered c s) (hsure : Sure c s) (hr : ready ≤ c.alive.length)
    (hl : l ∈ c.alive) :
    ∃ s' ready', s.queue c ready l = some (s', ready') ∧ Queued c ready s s' ready' := by
  unfold ColorState.queue
  by_cases hcol : s.isColorable c l ready = true
  · rw [if_pos hcol]
    simp only [ColorState.isColorable, Bool.and_eq_true, decide_eq_true_eq] at hcol
    obtain ⟨hcard, hready⟩ := hcol
    obtain ⟨hlt, -⟩ := List.getElem?_eq_some_iff.1 (ho.getElem? hl)
    have hlt' : ready < s.colorOrd.length := lt_of_le_of_lt hready hlt
    have hother : s.colorOrd[ready]? = some s.colorOrd[ready] := List.getElem?_eq_getElem hlt'
    have hidx := ho.idx ready _ hother
    obtain ⟨s₁, hs₁, ho₁, hadj, hrest, hsure₁, htake⟩ := swapOrd_spec ho hl
      (ho.perm.mem_iff.1 (List.getElem_mem hlt'))
    refine ⟨{ s₁ with sure := l :: s₁.sure }, ready + 1, ?_, ⟨ho₁.perm, ho₁.idx⟩, hadj, hrest, ?_,
      Nat.le_succ _, ?_, htake ready hready (by rw [hidx])⟩
    · rw [hother, Option.bind_eq_bind, Option.bind_some, hs₁]
      rfl
    · intro k hk
      simp only [hadj]
      rcases List.mem_cons.1 hk with rfl | hk
      · exact ⟨hl, hcard⟩
      · rw [hsure₁] at hk
        exact hsure k hk
    · rw [← ho.length]
      exact hlt'
  · rw [if_neg hcol]
    exact ⟨s, ready, rfl, .refl ho hsure hr⟩

theorem queueAll_spec {n k ready : ℕ} (ho : Ordered c s) (hsure : Sure c s)
    (hr : ready ≤ c.alive.length) (hn : k + n ≤ c.alive.length) :
    ∃ s' ready', ColorState.queueAll c n k s ready = some (s', ready') ∧
      Queued c ready s s' ready' := by
  induction n generalizing k s ready with
  | zero => exact ⟨s, ready, rfl, .refl ho hsure hr⟩
  | succ n ih =>
    have hlt : k < s.colorOrd.length := by
      rw [ho.length]
      omega
    obtain ⟨s₁, r₁, hs₁, h₁⟩ := queue_spec ho hsure hr (ho.perm.mem_iff.1 (List.getElem_mem hlt))
    obtain ⟨s₂, r₂, hs₂, h₂⟩ := ih h₁.ordered h₁.sure h₁.le_length (k := k + 1) (by omega)
    refine ⟨s₂, r₂, ?_, h₁.trans h₂⟩
    rw [ColorState.queueAll, List.getElem?_eq_getElem hlt, Option.bind_eq_bind, Option.bind_some,
      hs₁]
    exact hs₂

theorem queueAdj_spec {ns : List ℕ} {ready : ℕ} (ho : Ordered c s) (hsure : Sure c s)
    (hr : ready ≤ c.alive.length) (hns : ∀ n ∈ ns, n ∈ c.alive) :
    ∃ s' ready', ColorState.queueAdj c ns s ready = some (s', ready') ∧
      Queued c ready s s' ready' := by
  induction ns generalizing s ready with
  | nil => exact ⟨s, ready, rfl, .refl ho hsure hr⟩
  | cons n ns ih =>
    obtain ⟨s₁, r₁, hs₁, h₁⟩ := queue_spec ho hsure hr (hns n List.mem_cons_self)
    obtain ⟨s₂, r₂, hs₂, h₂⟩ := ih h₁.ordered h₁.sure h₁.le_length
      fun m hm => hns m (List.mem_cons_of_mem _ hm)
    refine ⟨s₂, r₂, ?_, h₁.trans h₂⟩
    rw [ColorState.queueAdj, hs₁]
    exact hs₂

theorem Shown.congr (h : Shown adj rest out s) (ha : s'.adj = s.adj) (hr : s'.rest = s.rest) :
    Shown adj rest out s' :=
  ⟨fun x => by rw [ha]; exact h.shows x, fun x => by rw [hr]; exact h.hides x⟩

theorem best_bounds (c : ColorCtx) (s : ColorState) (ready : ℕ) :
    ready ≤ s.best c ready ∧
      (ready < s.colorOrd.length → s.best c ready < s.colorOrd.length) := by
  refine List.foldlRecOn (motive := fun b => ready ≤ b ∧
    (ready < s.colorOrd.length → b < s.colorOrd.length)) _ _ ⟨le_refl _, id⟩ ?_
  intro b hb pick hpick
  rw [List.mem_range'_1] at hpick
  obtain ⟨hge, hlt⟩ := hpick
  dsimp only
  split_ifs
  · exact hb
  · exact hb
  · exact ⟨by omega, fun _ => by omega⟩

/-- A choice among the live ranges that are not queued. -/
structure Picker where
  /-- The place that is taken, behind those that are queued. -/
  pick : ColorState → ℕ → ℕ
  le_pick : ∀ s ready, ready ≤ pick s ready
  pick_lt : ∀ s ready, ready < s.colorOrd.length → pick s ready < s.colorOrd.length

/-- The choice of the source. -/
def bestPicker (c : ColorCtx) : Picker where
  pick := ColorState.best c
  le_pick := fun s ready => (best_bounds c s ready).1
  pick_lt := fun s ready h => (best_bounds c s ready).2 h

/-- **Everything comes out**, in at most two steps for each live range. -/
theorem takeOut_spec (hi : IsIfg c adj) (p : Picker) {fuel ready done : ℕ} (ho : Ordered c s)
    (hsure : Sure c s) (hs : Shown adj rest (s.colorOrd.take done) s) (hdr : done ≤ ready)
    (hr : ready ≤ c.alive.length) (hf : 2 * c.alive.length < fuel + done + ready) :
    ∃ s', s.takeOut c p.pick fuel ready done = some s' ∧ Ordered c s' ∧ Sure c s' ∧
      Shown adj rest s'.colorOrd s' := by
  induction fuel generalizing s ready done with
  | zero => omega
  | succ fuel ih =>
    rw [ColorState.takeOut]
    by_cases hlt : done < ready
    · -- the next of the queue leaves the graph
      rw [if_pos hlt]
      have hlen : done < s.colorOrd.length := by
        rw [ho.length]
        omega
      have hmem := ho.perm.mem_iff.1 (List.getElem_mem hlen)
      have hnot : s.colorOrd[done] ∉ s.colorOrd.take done := by
        intro hc
        obtain ⟨j, hj, he⟩ := List.mem_take_iff_getElem.1 hc
        have := (ho.nodup.getElem_inj_iff).1 he
        omega
      obtain ⟨s₁, hs₁, hshown₁, hord₁, hidx₁, hsu₁, hlen₁, hadj₁⟩ := removeFromIfg_spec hi hs hnot
      have ho₁ : Ordered c s₁ := by
        refine ⟨by rw [hord₁]; exact ho.perm, fun i x hix => ?_⟩
        rw [hord₁] at hix
        rw [hidx₁]
        exact ho.idx i x hix
      have hsure₁ : Sure c s₁ := by
        intro k hk
        rw [hsu₁] at hk
        exact ⟨(hsure k hk).1, (hlen₁ k).trans_lt (hsure k hk).2⟩
      obtain ⟨s₂, r₂, hs₂, hq⟩ := queueAdj_spec ho₁ hsure₁ hr
        fun n hn => hi.alive _ _ (hi.symm _ _ (hadj₁ n hn))
      have htake : s₂.colorOrd.take (done + 1) = s.colorOrd.take done ++ [s.colorOrd[done]] := by
        rw [take_of_le hq.take hlt, hord₁, List.take_succ_eq_append_getElem hlen]
      obtain ⟨s₃, hs₃, h₃⟩ := ih hq.ordered hq.sure
        (by rw [htake]; exact hshown₁.congr hq.adj hq.rest) (hlt.trans_le hq.le) hq.le_length
        (by have := hq.le; omega)
      refine ⟨s₃, ?_, h₃⟩
      simp only [List.getElem?_eq_getElem hlen, Option.bind_eq_bind, Option.bind_some, hs₁, hs₂]
      exact hs₃
    · rw [if_neg hlt]
      have hdone : done = ready := le_antisymm hdr (not_lt.1 hlt)
      by_cases hend : done ≥ s.colorOrd.length
      · rw [if_pos hend]
        refine ⟨s, rfl, ho, hsure, ?_⟩
        rwa [List.take_of_length_le hend] at hs
      · -- nothing is colourable: any of the others is queued
        rw [if_neg hend]
        have hlen : ready < s.colorOrd.length := hdone ▸ not_le.1 hend
        have hpick := p.pick_lt s ready hlen
        obtain ⟨s₁, hs₁, ho₁, hadj, hrest, hsu₁, htake⟩ := swapOrd_spec ho
          (ho.perm.mem_iff.1 (List.getElem_mem hlen)) (ho.perm.mem_iff.1 (List.getElem_mem hpick))
        have hsure₁ : Sure c s₁ := by
          intro k hk
          rw [hsu₁] at hk
          rw [hadj]
          exact hsure k hk
        have hx := ho.idx _ _ (List.getElem?_eq_getElem hlen)
        have hy := ho.idx _ _ (List.getElem?_eq_getElem hpick)
        have htake' := htake done (by rw [hx, hdone]) (by rw [hy, hdone]; exact p.le_pick s ready)
        have hlen' : ready + 1 ≤ c.alive.length := by
          rw [← ho.length]
          exact hlen
        have hdr' : done ≤ ready + 1 := by omega
        obtain ⟨s₂, hs₂, h₂⟩ := ih ho₁ hsure₁ (by rw [htake']; exact hs.congr hadj hrest)
          hdr' hlen' (by omega)
        refine ⟨s₂, ?_, h₂⟩
        simp only [List.getElem?_eq_getElem hlen, List.getElem?_eq_getElem hpick,
          Option.bind_eq_bind, Option.bind_some, hs₁, ho₁.length]
        rw [if_pos hlen']
        exact hs₂

theorem simplify_spec (hi : IsIfg c adj) (p : Picker) (rest : ℕ → List ℕ) :
    ∃ s, c.simplify p.pick adj rest = some s ∧ Ordered c s ∧ Sure c s ∧
      Shown adj rest s.colorOrd s := by
  have ho := ordered_initial c adj rest
  have hsure : Sure c (c.initial adj rest) := fun l hl => (List.not_mem_nil hl).elim
  obtain ⟨s₁, r₁, hs₁, hq⟩ := queueAll_spec ho hsure (Nat.zero_le _) (n := c.alive.length) (k := 0)
    (by omega)
  have hshown : Shown adj rest (s₁.colorOrd.take 0) s₁ := by
    refine ⟨fun x => ?_, fun x => ?_⟩
    · rw [hq.adj]
      simp [leftBefore, ColorCtx.initial]
    · rw [hq.rest]
      simp [leftBefore, ColorCtx.initial]
  have hfuel : 2 * c.alive.length < 2 * s₁.colorOrd.length + 1 + 0 + r₁ := by
    rw [hq.ordered.length]
    omega
  obtain ⟨s₂, hs₂, h₂⟩ := takeOut_spec hi p hq.ordered hq.sure hshown (Nat.zero_le _) hq.le_length
    hfuel
  refine ⟨s₂, ?_, h₂⟩
  have hlen : (c.initial adj rest).colorOrd.length = c.alive.length := rfl
  rw [ColorCtx.simplify]
  simp only [hlen, hs₁, Option.bind_eq_bind, Option.bind_some]
  exact hs₂

/-! ### Putting a live range back -/

/-- What putting `l` back does, after the neighbours `ns`. -/
structure PutBack (l : ℕ) (ns : List ℕ) (p p' : ColorState × Colors) : Prop where
  shows : ∀ x, p'.1.adj x = if x ∈ ns then p.1.adj x ++ [l] else p.1.adj x
  hides : ∀ x, p'.1.rest x = if x ∈ ns then (p.1.rest x).tail else p.1.rest x
  sure : p'.1.sure = p.1.sure
  reg : p'.2.reg = p.2.reg
  failed : p'.2.failedToColor = p.2.failedToColor
  mask_ne : ∀ x, x ≠ l → p'.2.mask x = p.2.mask x
  mask_eq : p'.2.mask l = { p.2.mask l with
    regs := (p.2.mask l).regs.filter fun r => ∀ x ∈ ns, p.2.reg x ≠ some r }

theorem putBackAt_spec {p : ColorState × Colors} {tl : List ℕ} (hrest : p.1.rest x = l :: tl)
    (hreg : ∀ r, p.2.reg x = some r → r < (p.2.mask l).bitLength) :
    ∃ p', putBackAt l p x = some p' ∧ PutBack l [x] p p' := by
  obtain ⟨s, ls⟩ := p
  have hshow (y : ℕ) : Function.update s.adj x (s.adj x ++ [l]) y =
      if y ∈ [x] then s.adj y ++ [l] else s.adj y := by
    simp only [Function.update_apply, List.mem_singleton]
    by_cases hy : y = x
    · rw [if_pos hy, if_pos hy, hy]
    · rw [if_neg hy, if_neg hy]
  have hhide (y : ℕ) : Function.update s.rest x tl y =
      if y ∈ [x] then (s.rest y).tail else s.rest y := by
    simp only [Function.update_apply, List.mem_singleton]
    by_cases hy : y = x
    · subst hy
      rw [if_pos rfl, if_pos rfl, hrest]
      rfl
    · rw [if_neg hy, if_neg hy]
  have hrest' : s.rest x = l :: tl := hrest
  let s₁ : ColorState := { s with
    adj := Function.update s.adj x (s.adj x ++ [l])
    rest := Function.update s.rest x tl }
  cases hr : ls.reg x with
  | none =>
    refine ⟨(s₁, ls), ?_, hshow, hhide, rfl, rfl, rfl, fun _ _ => rfl, ?_⟩
    · simp only [putBackAt, hrest', hr, guard_true]
      rfl
    · simp [hr]
  | some r =>
    have hlt : r < (ls.mask l).bitLength := hreg r hr
    let mask : RegMask := { ls.mask l with regs := (ls.mask l).regs.erase r }
    refine ⟨(s₁, { ls with mask := Function.update ls.mask l mask }), ?_, hshow, hhide, rfl, rfl,
      rfl, fun y hy => Function.update_of_ne hy _ _, ?_⟩
    · simp only [putBackAt, hrest', hr, RegMask.clear, if_pos hlt, guard_true]
      rfl
    · simp only [Function.update_self, List.mem_singleton, forall_eq, hr, ne_eq, Option.some.injEq]
      simp only [mask, RegMask.mk.injEq, true_and]
      ext k
      simp only [Finset.mem_erase, Finset.mem_filter]
      exact ⟨fun h => ⟨h.2, Ne.symm h.1⟩, fun h => ⟨Ne.symm h.2, h.1⟩⟩

theorem foldlM_putBackAt_spec {p : ColorState × Colors} {ns : List ℕ} (hns : ns.Nodup)
    (hrest : ∀ x ∈ ns, ∃ tl, p.1.rest x = l :: tl)
    (hreg : ∀ x ∈ ns, ∀ r, p.2.reg x = some r → r < (p.2.mask l).bitLength) :
    ∃ p', ns.foldlM (putBackAt l) p = some p' ∧ PutBack l ns p p' := by
  induction ns generalizing p with
  | nil =>
    exact ⟨p, rfl, fun x => by simp, fun x => by simp, rfl, rfl, rfl, fun _ _ => rfl, by simp⟩
  | cons n ns ih =>
    obtain ⟨hn, hns⟩ := List.nodup_cons.1 hns
    obtain ⟨tl, htl⟩ := hrest n List.mem_cons_self
    obtain ⟨p₁, hp₁, h₁⟩ := putBackAt_spec htl (hreg n List.mem_cons_self)
    have hne {x : ℕ} (hx : x ∈ ns) : x ∉ [n] := fun hc => hn (List.mem_singleton.1 hc ▸ hx)
    obtain ⟨p₂, hp₂, h₂⟩ := ih (p := p₁) hns
      (fun x hx => by
        rw [h₁.hides, if_neg (hne hx)]
        exact hrest x (List.mem_cons_of_mem _ hx))
      (fun x hx r hr => by
        rw [h₁.mask_eq]
        rw [h₁.reg] at hr
        exact hreg x (List.mem_cons_of_mem _ hx) r hr)
    refine ⟨p₂, by rw [List.foldlM_cons, hp₁]; exact hp₂, fun x => ?_, fun x => ?_,
      h₂.sure.trans h₁.sure, h₂.reg.trans h₁.reg, h₂.failed.trans h₁.failed,
      fun x hx => (h₂.mask_ne x hx).trans (h₁.mask_ne x hx), ?_⟩
    · rw [h₂.shows, h₁.shows]
      simp only [List.mem_cons]
      by_cases hx : x = n
      · subst hx
        simp [hn]
      · simp [hx]
    · rw [h₂.hides, h₁.hides]
      simp only [List.mem_cons]
      by_cases hx : x = n
      · subst hx
        simp [hn]
      · simp [hx]
    · rw [h₂.mask_eq, h₁.mask_eq, h₁.reg]
      simp only [RegMask.mk.injEq, true_and]
      ext r
      simp only [Finset.mem_filter, List.mem_cons, List.not_mem_nil, or_false, forall_eq,
        forall_eq_or_imp]
      tauto

theorem prefer_subset (m : RegMask) (clobbers : Option (ℕ → Finset ℕ)) :
    (m.prefer clobbers).regs ⊆ m.regs := by
  cases clobbers with
  | none => exact Finset.Subset.refl _
  | some clobbs =>
    rw [RegMask.prefer]
    split
    · exact Finset.filter_subset _ _
    · exact Finset.Subset.refl _

theorem prefer_bitLength (m : RegMask) (clobbers : Option (ℕ → Finset ℕ)) :
    (m.prefer clobbers).bitLength = m.bitLength := by
  cases clobbers with
  | none => rfl
  | some clobbs =>
    rw [RegMask.prefer]
    split
    · rfl
    · rfl

/-- The preference leaves a register if there was one. -/
theorem prefer_nonempty {m : RegMask} (h : m.regs.Nonempty) (clobbers : Option (ℕ → Finset ℕ)) :
    (m.prefer clobbers).regs.Nonempty := by
  cases clobbers with
  | none => exact h
  | some clobbs =>
    rw [RegMask.prefer]
    split
    · rename_i hne
      obtain ⟨r, hr⟩ := hne
      obtain ⟨hr, hc⟩ := Finset.mem_inter.1 hr
      exact ⟨r, Finset.mem_filter.2 ⟨(Finset.mem_filter.1 hr).1, fun _ => hc⟩⟩
    · exact h

/-- As many registers go as there are neighbours, at most. -/
theorem card_filter_regs (regs : Finset ℕ) (ns : List ℕ) (reg : ℕ → Option ℕ) :
    regs.card ≤ (regs.filter fun r => ∀ x ∈ ns, reg x ≠ some r).card + ns.length := by
  have hsub : (regs.filter fun r => ¬ ∀ x ∈ ns, reg x ≠ some r) ⊆ (ns.filterMap reg).toFinset := by
    intro r hr
    obtain ⟨-, hr⟩ := Finset.mem_filter.1 hr
    push Not at hr
    obtain ⟨x, hx, hxr⟩ := hr
    exact List.mem_toFinset.2 (List.mem_filterMap.2 ⟨x, hx, hxr⟩)
  have hle : (regs.filter fun r => ¬ ∀ x ∈ ns, reg x ≠ some r).card ≤ ns.length :=
    (Finset.card_le_card hsub).trans
      ((List.toFinset_card_le _).trans (List.length_filterMap_le _ _))
  have := Finset.card_filter_add_card_filter_not (s := regs) fun r => ∀ x ∈ ns, reg x ≠ some r
  omega

/-! ### Choosing the registers -/

/-- The registers so far, when `out` are still out. -/
structure Colored (c : ColorCtx) (adj : ℕ → List ℕ) (sure out : List ℕ) (ls : Colors) : Prop where
  fresh : ∀ x ∈ out, ls.mask x = c.mask x ∧ ls.reg x = none
  mem : ∀ x r, ls.reg x = some r → r ∈ (c.mask x).regs
  apart : ∀ x y r, y ∈ adj x → ls.reg x = some r → ls.reg y ≠ some r
  done : ∀ x ∈ c.alive, x ∉ out → ls.reg x = none → ls.failedToColor x = true
  failed : ∀ x, ls.failedToColor x = true → x ∉ sure

/-- The slices when `l` is back. -/
theorem Shown.putBack (hi : IsIfg c adj) {p p' : ColorState × Colors}
    (hs : Shown adj rest (out ++ [l]) p.1) (hl : l ∉ out)
    (h : PutBack l (p.1.adj l) p p') : Shown adj rest out p'.1 := by
  have hmem (x : ℕ) : x ∈ p.1.adj l ↔ x ∈ adj l ∧ x ∉ out := by
    rw [(hs.shows l).mem_iff, List.mem_filter, leftBefore_append_self hl, decide_eq_true_eq]
  have hin {x : ℕ} (hxo : x ∉ out) (hxl : x ≠ l) : leftBefore (out ++ [l]) x = out ++ [l] := by
    refine leftBefore_of_notMem fun hc => ?_
    rcases List.mem_append.1 hc with hc | hc
    · exact hxo hc
    · exact hxl (List.mem_singleton.1 hc)
  refine ⟨fun x => ?_, fun x => ?_⟩
  · rw [h.shows]
    by_cases hxo : x ∈ out
    · rw [if_neg fun hc => ((hmem x).1 hc).2 hxo]
      have hp := hs.shows x
      rwa [leftBefore_append_of_mem hxo] at hp
    rw [leftBefore_of_notMem hxo]
    by_cases hxl : x = l
    · subst hxl
      rw [if_neg fun hc => hi.irrefl x ((hmem x).1 hc).1]
      have hp := hs.shows x
      rwa [leftBefore_append_self hl] at hp
    have hp := hs.shows x
    rw [hin hxo hxl] at hp
    by_cases hx : x ∈ adj l
    · -- its slice shows `l` again
      rw [if_pos ((hmem x).2 ⟨hx, hxo⟩)]
      have hnodup := (hi.nodup x).filter (· ∉ out)
      have hlx : l ∈ (adj x).filter (· ∉ out) :=
        List.mem_filter.2 ⟨hi.symm l x hx, decide_eq_true hl⟩
      have herase : (adj x).filter (· ∉ out ++ [l]) = ((adj x).filter (· ∉ out)).erase l := by
        rw [hnodup.erase_eq_filter, List.filter_filter]
        refine List.filter_congr fun y _ => ?_
        by_cases hy : y = l <;> simp [hy]
      rw [herase] at hp
      exact (List.perm_append_singleton l _).trans
        ((hp.cons l).trans (List.perm_cons_erase hlx).symm)
    · rw [if_neg fun hc => hx ((hmem x).1 hc).1]
      refine hp.trans (List.Perm.of_eq (List.filter_congr fun y hy => ?_))
      have hyl : y ≠ l := by
        rintro rfl
        exact hx (hi.symm x y hy)
      simp [hyl]
  · rw [h.hides, hs.hides]
    by_cases hxo : x ∈ out
    · rw [if_neg fun hc => ((hmem x).1 hc).2 hxo, leftBefore_append_of_mem hxo]
    rw [leftBefore_of_notMem hxo]
    by_cases hxl : x = l
    · subst hxl
      rw [if_neg fun hc => hi.irrefl x ((hmem x).1 hc).1, leftBefore_append_self hl]
    rw [hin hxo hxl, List.reverse_append, List.reverse_singleton, List.singleton_append,
      List.filter_cons]
    by_cases hx : x ∈ adj l
    · rw [if_pos ((hmem x).2 ⟨hx, hxo⟩), if_pos (decide_eq_true (hi.symm l x hx))]
      rfl
    · rw [if_neg fun hc => hx ((hmem x).1 hc).1, if_neg]
      simp only [decide_eq_true_eq]
      exact fun hc => hx (hi.symm x l hc)

section Select

variable {p p' : ColorState × Colors} {sure : List ℕ} {m : RegMask}

theorem notMem_append_singleton (hx : x ∉ out) (hxl : x ≠ l) : x ∉ out ++ [l] := by
  intro hc
  rcases List.mem_append.1 hc with hc | hc
  · exact hx hc
  · exact hxl (List.mem_singleton.1 hc)

theorem Colored.fresh_putBack (hc : Colored c adj sure (out ++ [l]) p.2) (hl : l ∉ out)
    {ns : List ℕ} (h : PutBack l ns p p') (hx : x ∈ out) :
    x ≠ l ∧ Function.update p'.2.mask l m x = c.mask x ∧ p'.2.reg x = none := by
  have hxl : x ≠ l := fun hc => hl (hc ▸ hx)
  obtain ⟨hmask, hreg⟩ := hc.fresh x (List.mem_append_left _ hx)
  refine ⟨hxl, ?_, by rw [h.reg, hreg]⟩
  rw [Function.update_of_ne hxl, h.mask_ne x hxl, hmask]

/-- There is no register left for `l`, so it was not sure of one. -/
theorem Colored.fail (hc : Colored c adj sure (out ++ [l]) p.2) (hl : l ∉ out) {ns : List ℕ}
    (h : PutBack l ns p p') (hsure : l ∉ sure) :
    Colored c adj sure out { p'.2 with
      mask := Function.update p'.2.mask l m
      failedToColor := Function.update p'.2.failedToColor l true } := by
  refine ⟨fun x hx => (hc.fresh_putBack hl h hx).2, ?_, ?_, fun x hx hxo hxr => ?_,
    fun x hx hxs => ?_⟩
  · simp only [h.reg]
    exact hc.mem
  · simp only [h.reg]
    exact hc.apart
  · by_cases hxl : x = l
    · subst hxl
      exact Function.update_self ..
    · simp only [h.reg] at hxr
      simp only [Function.update_of_ne hxl, h.failed]
      exact hc.done x hx (notMem_append_singleton hxo hxl) hxr
  · by_cases hxl : x = l
    · exact hsure (hxl ▸ hxs)
    · simp only [Function.update_of_ne hxl, h.failed] at hx
      exact hc.failed x hx hxs

/-- `l` gets a register of its own mask that none of its neighbours has. -/
theorem Colored.assign (hi : IsIfg c adj) (hc : Colored c adj sure (out ++ [l]) p.2) (hl : l ∉ out)
    {ns : List ℕ} {r : ℕ} (h : PutBack l ns p p') (hr : r ∈ (c.mask l).regs)
    (hns : ∀ y ∈ adj l, p.2.reg y ≠ some r) :
    Colored c adj sure out { p'.2 with
      mask := Function.update p'.2.mask l m
      reg := Function.update p'.2.reg l (some r) } := by
  refine ⟨fun x hx => ?_, fun x k hk => ?_, fun x y k hxy hx hy => ?_, fun x hx hxo hxr => ?_, ?_⟩
  · obtain ⟨hxl, hmask, hreg⟩ := hc.fresh_putBack (m := m) hl h hx
    exact ⟨hmask, (Function.update_of_ne hxl _ _).trans hreg⟩
  · simp only [h.reg] at hk
    by_cases hxl : x = l
    · subst hxl
      rw [Function.update_self] at hk
      cases hk
      exact hr
    · rw [Function.update_of_ne hxl] at hk
      exact hc.mem x k hk
  · simp only [h.reg] at hx hy
    by_cases hxl : x = l
    · subst hxl
      have hne : y ≠ x := by
        rintro rfl
        exact hi.irrefl y hxy
      rw [Function.update_self] at hx
      rw [Function.update_of_ne hne] at hy
      cases hx
      exact hns y hxy hy
    · rw [Function.update_of_ne hxl] at hx
      by_cases hyl : y = l
      · subst hyl
        rw [Function.update_self] at hy
        cases hy
        exact hns x (hi.symm x y hxy) hx
      · rw [Function.update_of_ne hyl] at hy
        exact hc.apart x y k hxy hx hy
  · simp only [h.reg] at hxr
    by_cases hxl : x = l
    · subst hxl
      rw [Function.update_self] at hxr
      cases hxr
    · rw [Function.update_of_ne hxl] at hxr
      simp only [h.failed]
      exact hc.done x hx (notMem_append_singleton hxo hxl) hxr
  · simp only [h.failed]
    exact hc.failed

/-- **Putting a live range back**: the assertions hold, and it gets a register or is marked. -/
theorem select_spec (hi : IsIfg c adj) (hl : l ∉ out) (hal : l ∈ c.alive)
    (hs : Shown adj rest (out ++ [l]) p.1) (hc : Colored c adj sure (out ++ [l]) p.2)
    (hsure : l ∈ sure → (p.1.adj l).length < (c.mask l).regs.card) :
    ∃ p', select c p l = some p' ∧ Shown adj rest out p'.1 ∧ Colored c adj sure out p'.2 := by
  have hmem (x : ℕ) : x ∈ p.1.adj l ↔ x ∈ adj l ∧ x ∉ out := by
    rw [(hs.shows l).mem_iff, List.mem_filter, leftBefore_append_self hl, decide_eq_true_eq]
  have hparent : c.parent l = none := by
    simpa using (List.mem_filter.1 hal).2
  obtain ⟨hmask, -⟩ := hc.fresh l (List.mem_append_right _ (List.mem_singleton_self l))
  have hnodup : (p.1.adj l).Nodup := (hs.shows l).nodup_iff.2 ((hi.nodup l).filter _)
  -- behind the slice of a neighbour comes `l`, the last that left
  have hrest : ∀ x ∈ p.1.adj l, ∃ tl, p.1.rest x = l :: tl := by
    intro x hx
    obtain ⟨hx, hxo⟩ := (hmem x).1 hx
    have hxl : x ≠ l := by
      rintro rfl
      exact hi.irrefl x hx
    rw [hs.hides, leftBefore_of_notMem (notMem_append_singleton hxo hxl), List.reverse_append,
      List.reverse_singleton, List.singleton_append, List.filter_cons,
      if_pos (decide_eq_true (hi.symm l x hx))]
    exact ⟨_, rfl⟩
  have hlt : ∀ x ∈ p.1.adj l, ∀ r, p.2.reg x = some r → r < (p.2.mask l).bitLength := by
    intro x _ r hr
    rw [hmask, c.mask_bitLength]
    exact c.mask_lt x r (hc.mem x r hr)
  obtain ⟨⟨s₁, ls₁⟩, hp₁, h₁⟩ := foldlM_putBackAt_spec hnodup hrest hlt
  have hshown := hs.putBack hi hl h₁
  have hmask₁ : (ls₁.mask l).regs =
      (c.mask l).regs.filter fun r => ∀ x ∈ p.1.adj l, p.2.reg x ≠ some r := by
    rw [h₁.mask_eq, hmask]
  cases hfirst : ((ls₁.mask l).prefer c.callClobbers).firstSet with
  | none =>
    have hnot : l ∉ sure := by
      intro hlsure
      have hcard := card_filter_regs (c.mask l).regs (p.1.adj l) p.2.reg
      have hlt := hsure hlsure
      have hpos : 0 < (ls₁.mask l).regs.card := by
        rw [hmask₁]
        omega
      obtain ⟨r, hr⟩ := prefer_nonempty (Finset.card_pos.1 hpos) c.callClobbers
      rw [RegMask.firstSet, List.find?_eq_none] at hfirst
      refine hfirst r (List.mem_range.2 ?_) (decide_eq_true hr)
      rw [prefer_bitLength, h₁.mask_eq, hmask, c.mask_bitLength]
      have hrm := prefer_subset _ _ hr
      rw [hmask₁, Finset.mem_filter] at hrm
      exact c.mask_lt l r hrm.1
    refine ⟨(s₁, { ls₁ with
      mask := Function.update ls₁.mask l ((ls₁.mask l).prefer c.callClobbers)
      failedToColor := Function.update ls₁.failedToColor l true }), ?_, hshown,
      hc.fail hl h₁ hnot⟩
    simp only [select, hparent, guard_true, hp₁, Option.pure_def, Option.bind_eq_bind,
      Option.bind_some, hfirst]
  | some r =>
    have hr : r ∈ (ls₁.mask l).regs := by
      have := List.find?_some hfirst
      exact prefer_subset _ _ (of_decide_eq_true this)
    rw [hmask₁, Finset.mem_filter] at hr
    obtain ⟨hrm, hrn⟩ := hr
    -- a neighbour that has a register is in the graph
    have hns : ∀ y ∈ adj l, p.2.reg y ≠ some r := by
      intro y hy hyr
      by_cases hyo : y ∈ out
      · rw [(hc.fresh y (List.mem_append_left _ hyo)).2] at hyr
        cases hyr
      · exact hrn y ((hmem y).2 ⟨hy, hyo⟩) hyr
    refine ⟨(s₁, { ls₁ with
      mask := Function.update ls₁.mask l ((ls₁.mask l).prefer c.callClobbers)
      reg := Function.update ls₁.reg l (some r) }), ?_, hshown, hc.assign hi hl h₁ hrm hns⟩
    simp only [select, hparent, guard_true, hp₁, Option.pure_def, Option.bind_eq_bind,
      Option.bind_some, hfirst]

/-- **All of them come back.** -/
theorem foldlM_select_spec (hi : IsIfg c adj) (hnodup : out.Nodup) (halive : ∀ x ∈ out, x ∈ c.alive)
    (hs : Shown adj rest out p.1) (hc : Colored c adj sure out p.2)
    (hsure : ∀ x ∈ out, x ∈ sure →
      ((adj x).filter (· ∉ leftBefore out x)).length < (c.mask x).regs.card) :
    ∃ p', out.reverse.foldlM (select c) p = some p' ∧ Shown adj rest [] p'.1 ∧
      Colored c adj sure [] p'.2 := by
  induction out using List.reverseRecOn generalizing p with
  | nil => exact ⟨p, rfl, hs, hc⟩
  | append_singleton out l ih =>
    have hlast : l ∈ out ++ [l] := List.mem_append_right _ (List.mem_singleton_self l)
    obtain ⟨hno, -, hdisj⟩ := List.nodup_append.1 hnodup
    have hl : l ∉ out := fun hc => hdisj l hc l (List.mem_singleton_self l) rfl
    have hsure' : l ∈ sure → (p.1.adj l).length < (c.mask l).regs.card := by
      intro hlsure
      rw [(hs.shows l).length_eq]
      exact hsure l hlast hlsure
    obtain ⟨p₁, hp₁, hs₁, hc₁⟩ := select_spec hi hl (halive l hlast) hs hc hsure'
    obtain ⟨p₂, hp₂, h₂⟩ := ih hno (fun x hx => halive x (List.mem_append_left _ hx)) hs₁ hc₁
      fun x hx hxs => by
        have := hsure x (List.mem_append_left _ hx) hxs
        rwa [leftBefore_append_of_mem hx] at this
    refine ⟨p₂, ?_, h₂⟩
    rw [List.reverse_append, List.reverse_singleton, List.singleton_append, List.foldlM_cons, hp₁]
    exact hp₂

end Select

/-- What colouring ends with. -/
theorem color_spec (hi : IsIfg c adj) (p : Picker) (rest : ℕ → List ℕ) :
    ∃ s₁ s ls, c.simplify p.pick adj rest = some s₁ ∧ c.color p.pick adj rest = some (s, ls) ∧
      Sure c s₁ ∧ Shown adj rest [] s ∧ Colored c adj s₁.sure [] ls := by
  obtain ⟨s₁, hs₁, ho, hsure, hshown⟩ := simplify_spec hi p rest
  have hc : Colored c adj s₁.sure s₁.colorOrd
      { mask := c.mask, reg := fun _ => none, failedToColor := fun _ => false } :=
    ⟨fun _ _ => ⟨rfl, rfl⟩, fun _ _ h => (Option.some_ne_none _ h.symm).elim,
      fun _ _ _ _ h => (Option.some_ne_none _ h.symm).elim,
      fun x hx hxo _ => absurd (ho.perm.mem_iff.2 hx) hxo, fun _ h => (Bool.false_ne_true h).elim⟩
  have hdegree : ∀ x ∈ s₁.colorOrd, x ∈ s₁.sure →
      ((adj x).filter (· ∉ leftBefore s₁.colorOrd x)).length < (c.mask x).regs.card := by
    intro x _ hxs
    rw [← (hshown.shows x).length_eq]
    exact (hsure x hxs).2
  obtain ⟨⟨s, ls⟩, hrun, hs, hcol⟩ := foldlM_select_spec
    (p := (s₁, { mask := c.mask, reg := fun _ => none, failedToColor := fun _ => false }))
    hi ho.nodup (fun x hx => ho.perm.mem_iff.1 hx) hshown hc hdegree
  refine ⟨s₁, s, ls, hs₁, ?_, hsure, hs, hcol⟩
  rw [ColorCtx.color, hs₁]
  exact hrun

/-- **Colouring select is correct**: it ends, with the lists of neighbours as they were, and if no
live range failed, each has a register of its mask that no neighbour has. -/
theorem color_correct (hi : IsIfg c adj) (p : Picker) (rest : ℕ → List ℕ) :
    ∃ s ls, c.color p.pick adj rest = some (s, ls) ∧
      (∀ x, (s.adj x).Perm (adj x) ∧ s.rest x = rest x) ∧
      ((∀ x ∈ c.alive, ls.failedToColor x = false) → ∀ x ∈ c.alive, ∃ r, ls.reg x = some r ∧
        r ∈ (c.mask x).regs ∧ ∀ y ∈ adj x, ls.reg y ≠ some r) := by
  obtain ⟨_, s, ls, -, hrun, -, hs, hc⟩ := color_spec hi p rest
  refine ⟨s, ls, hrun, fun x => ⟨?_, ?_⟩, fun hok x hx => ?_⟩
  · have hp := hs.shows x
    simpa [leftBefore] using hp
  · have hh := hs.hides x
    simpa [leftBefore] using hh
  · cases hr : ls.reg x with
    | none =>
      have hf := hc.done x hx List.not_mem_nil hr
      rw [hok x hx] at hf
      cases hf
    | some r => exact ⟨r, rfl, hc.mem x r hr, fun y hy => hc.apart x y r hy hr⟩

/-- Three live ranges that are all neighbours, with one, two and three registers to choose from. -/
def threeMasks : ColorCtx where
  usedLrgs := 3
  parent _ := none
  mask l := { kind := 0, bitLength := 16, regs := Finset.range (min (l + 1) 3) }
  ifgCounts _ := 2
  spillBoundary _ := 8
  callClobbers := some fun _ => {0, 2}
  maskLen := 16
  maskLen_le := by decide
  mask_bitLength _ := rfl
  mask_lt := by
    intro l r hr
    have := Finset.mem_range.1 hr
    omega

def triangle : ℕ → List ℕ
  | 0 => [1, 2]
  | 1 => [0, 2]
  | 2 => [0, 1]
  | _ => []

theorem isIfg_triangle : IsIfg threeMasks triangle where
  symm := by
    rintro (_ | _ | _ | a) b h
    all_goals simp only [triangle, List.mem_cons, List.not_mem_nil, or_false] at h
    all_goals obtain rfl | rfl := h
    all_goals decide
  irrefl := by
    rintro (_ | _ | _ | a) h
    all_goals simp [triangle] at h
  nodup := by
    rintro (_ | _ | _ | a)
    all_goals simp [triangle]
  alive := by
    rintro (_ | _ | _ | a) b h
    · decide
    · decide
    · decide
    · cases h

theorem color_correct_triangle : ∃ s ls,
    threeMasks.color (bestPicker threeMasks).pick triangle (fun _ => []) = some (s, ls) ∧
      ls.failedToColor 0 = false ∧ ls.reg 0 = some 0 ∧ ls.reg 1 = some 1 ∧ ls.reg 2 ≠ ls.reg 0 := by
  obtain ⟨s, ls, hrun, -, hok⟩ := color_correct isIfg_triangle (bestPicker threeMasks) fun _ => []
  have hls : (threeMasks.color (bestPicker threeMasks).pick triangle (fun _ => [])).map
      (fun p => (p.2.failedToColor 0, p.2.failedToColor 1, p.2.failedToColor 2, p.2.reg 0,
        p.2.reg 1)) = some (false, false, false, some 0, some 1) := by decide
  rw [hrun] at hls
  simp only [Option.map_some, Option.some.injEq, Prod.mk.injEq] at hls
  obtain ⟨h0, h1, h2, hr0, hr1⟩ := hls
  have hnone : ∀ x ∈ threeMasks.alive, ls.failedToColor x = false := by
    rintro (_ | _ | _ | x) hx
    · exact h0
    · exact h1
    · exact h2
    · exact absurd (List.mem_range.1 (List.mem_filter.1 hx).1) (by simp [threeMasks])
  obtain ⟨r, hr, -, hne⟩ := hok hnone 0 (by decide)
  refine ⟨s, ls, hrun, h0, hr0, hr1, ?_⟩
  rw [hr]
  exact hne 2 (by decide)

/-- **What was colourable when it was queued is coloured.** -/
theorem color_sure (hi : IsIfg c adj) (p : Picker) (rest : ℕ → List ℕ) :
    ∃ s₁ s ls, c.simplify p.pick adj rest = some s₁ ∧ c.color p.pick adj rest = some (s, ls) ∧
      ∀ x ∈ s₁.sure, ls.failedToColor x = false ∧ ∃ r, ls.reg x = some r := by
  obtain ⟨s₁, s, ls, hs₁, hrun, hsure, -, hc⟩ := color_spec hi p rest
  refine ⟨s₁, s, ls, hs₁, hrun, fun x hx => ?_⟩
  have hfail : ls.failedToColor x = false := by
    rw [← Bool.not_eq_true]
    exact fun hf => hc.failed x hf hx
  refine ⟨hfail, ?_⟩
  cases hr : ls.reg x with
  | none =>
    have hf := hc.done x (hsure x hx).1 List.not_mem_nil hr
    rw [hfail] at hf
    cases hf
  | some r => exact ⟨r, rfl⟩

theorem color_sure_triangle : ∃ s₁ s ls,
    threeMasks.simplify (bestPicker threeMasks).pick triangle (fun _ => []) = some s₁ ∧
      threeMasks.color (bestPicker threeMasks).pick triangle (fun _ => []) = some (s, ls) ∧
      0 ∈ s₁.sure ∧ ls.failedToColor 0 = false := by
  obtain ⟨s₁, s, ls, hs₁, hrun, hok⟩ :=
    color_sure isIfg_triangle (bestPicker threeMasks) fun _ => []
  have hsure : (threeMasks.simplify (bestPicker threeMasks).pick triangle (fun _ => [])).map
      (fun s => s.sure) = some [0, 1, 2] := by decide
  rw [hs₁, Option.map_some, Option.some_inj] at hsure
  have h0 : 0 ∈ s₁.sure := by
    rw [hsure]
    decide
  exact ⟨s₁, s, ls, hs₁, hrun, h0, (hok 0 h0).1⟩

end OdinSon.Regalloc
