import OdinSon.Bac.IdomDepth

/-!
# Nearest common dominators are found

`get_idepth` returns the depth of a node (`getIdepth_spec`), and with depths that get smaller along
dominators `get_idom` returns the immediate dominator and `compute_lca` the nearest common dominator
(`idom_lca`).  The two call each other: what a `Region` asks for is about its inputs, which have a
smaller rank.
-/

namespace OdinSon

open Lib

namespace CfgProc

variable {s s' : CfgProc} {id : NodeId} {n : ℕ}

/-- All depths fit a `u32`. -/
def Small (s : CfgProc) : Prop := ∀ id, s.cfg.Live id → s.depth id < 2 ^ 32

/-! ### The branches of the functions -/

theorem ite_not_cached {α : Type*} {a b : α} (hc : ¬ s.Cached id) :
    (if s.minIdepth < s.idepth id then a else b) = b := if_neg hc

theorem getIdepth_ctrl (hc : ¬ s.Cached id) (ht : (s.cfg.itype id).hasCtrl = true) :
    getIdepth (n + 1) s id = (s.cfg.inps id)[0]?.bind fun inp =>
      (getIdepth n s inp).bind fun r => some (r.1.setIdepth id (1 + r.2)) := by
  rw [getIdepth, ite_not_cached hc]
  split <;> simp_all [NodeType.hasCtrl]

theorem getIdepth_region (hc : ¬ s.Cached id) (ht : s.cfg.itype id = .region) :
    getIdepth (n + 1) s id = ((s.cfg.inps id).foldlM (fun (acc : CfgProc × ℕ) inp =>
      (getIdepth n acc.1 inp).bind fun r => some (r.1, max acc.2 r.2)) (s, 0)).bind fun r =>
        some (r.1.setIdepth id (1 + r.2)) := by
  rw [getIdepth, ite_not_cached hc, ht]
  rfl

theorem getIdom_ctrl (ht : (s.cfg.itype id).hasCtrl = true) :
    getIdom (n + 1) s id = (s.cfg.inps id)[0]?.bind fun inp => some (s, inp) := by
  rw [getIdom]
  split <;> simp_all [NodeType.hasCtrl]

theorem getIdom_region (ht : s.cfg.itype id = .region) :
    getIdom (n + 1) s id = (s.cfg.inps id).foldlM
      (fun (acc : CfgProc × NodeId) inp => computeLca n acc.1 acc.2 inp) (s, 0) := by
  rw [getIdom, ht]

theorem computeLca_up {a b : NodeId} (hab : a ≠ b) (ha : a ≠ 0) (hb : b ≠ 0) :
    computeLca (n + 1) s a b = (getIdepth n s a).bind fun ra => (getIdepth n ra.1 b).bind fun rb =>
      (if rb.2 ≤ ra.2 then getIdom n rb.1 a else some (rb.1, a)).bind fun ia =>
        (if ra.2 ≤ rb.2 then getIdom n ia.1 b else some (ia.1, b)).bind fun ib =>
          computeLca n ib.1 ia.2 ib.2 := by
  rw [computeLca, if_neg hab, if_neg ha, if_neg hb]
  rfl

/-! ### Depths -/

section Depth

variable {rank : NodeId → ℕ} (hI : s.Inv) (hr : s.cfg.Ranked rank)
include hI hr

theorem min_lt_depth (h : s.cfg.Live id) : s.minIdepth < s.depth id := by
  induction hn : rank id using Nat.strong_induction_on generalizing id with
  | _ n ih =>
    subst hn
    by_cases hc : s.Cached id
    · rw [depth_of_cached hI hr h hc]
      exact hc
    by_cases hid : id = s.cfg.entry
    · subst hid
      rw [depth_entry hI hr]
      exact Nat.lt_succ_self _
    · obtain ⟨p, hp⟩ := hI.wf.forward id h hid
      have := ih _ (hr.lt p id h hp) (hI.wf.inps_live p id h hp.edge) rfl
      exact this.trans (depth_lt_of_not_cached hI hr h hc hp)

/-- Caching the depth of a node after those of its inputs. -/
theorem Reads.setIdepth (h : s.Reads s') (hl : s.cfg.Live id) (hc : ¬ s.Cached id)
    (hinps : ∀ p, s.cfg.Forward p id → s'.Cached p) (hsmall : s.Small) :
    s.Reads (s'.setIdepth id (s.depth id)).1 ∧ (s'.setIdepth id (s.depth id)).1.Cached id ∧
      (s'.setIdepth id (s.depth id)).2 = s.depth id := by
  have hmod : s.depth id % 2 ^ 32 = s.depth id := Nat.mod_eq_of_lt (hsmall id hl)
  have hlt := min_lt_depth hI hr hl
  have hval : (s'.setIdepth id (s.depth id)).2 = s.depth id := hmod
  refine and_assoc.1 ⟨?_, hval⟩
  simp only [CfgProc.setIdepth, hmod]
  have hcached : ∀ p, s'.Cached p → s'.minIdepth < Function.update s'.idepth id (s.depth id) p := by
    intro p hp
    by_cases hpid : p = id
    · rw [hpid, Function.update_self, h.min]
      exact hlt
    · rw [Function.update_of_ne hpid]
      exact hp
  refine ⟨⟨h.cfg, h.min, h.max.trans (le_max_left _ _), fun y => ?_, fun y => ?_⟩, ?_⟩
  · by_cases hy : y = id
    · subst hy
      simp only [Function.update_self]
      exact le_max_right _ _
    · simp only [Function.update_of_ne hy]
      exact (h.le y).trans (le_max_left _ _)
  · by_cases hy : y = id
    · subst hy
      exact .inr ⟨hc, hl, Function.update_self .., fun p hp => hcached p (hinps p hp)⟩
    · simp only [Function.update_of_ne hy]
      obtain he | ⟨hn, hyl, he, hall⟩ := h.idepth y
      · exact .inl he
      · exact .inr ⟨hn, hyl, he, fun p hp => hcached p (hall p hp)⟩
  · change s'.minIdepth < Function.update s'.idepth id (s.depth id) id
    rw [Function.update_self, h.min]
    exact hlt

omit hI hr

/-- **`get_idepth` returns the depth**, given as much fuel as the rank of the node. -/
theorem getIdepth_spec (hI : s.Inv) (hr : s.cfg.Ranked rank) (hsmall : s.Small)
    (hx : id = 0 ∨ s.cfg.Live id) (hn : 0 < n) (hrank : s.cfg.Live id → rank id < n) :
    ∃ s', getIdepth n s id = some (s', s.depth id) ∧ s.Reads s' ∧ (id ≠ 0 → s'.Cached id) := by
  -- the rank falls along a forward edge, so the fuel is enough for every call
  induction n generalizing s id with
  | zero => exact absurd hn (Nat.lt_irrefl 0)
  | succ n ih =>
    -- a depth that is cached is right, by `Inv`
    by_cases hc : s.Cached id
    · have hl : s.cfg.Live id := hx.resolve_left fun h => hI.zero (h ▸ hc)
      refine ⟨s, ?_, Reads.refl hI, fun _ => hc⟩
      rw [depth_of_cached hI hr hl hc]
      exact if_pos hc
    obtain rfl | hl := hx
    · refine ⟨s, ?_, Reads.refl hI, fun h => absurd rfl h⟩
      have hmin : s.minIdepth + 1 < 2 ^ 32 := by
        rw [← depth_entry hI hr]
        exact hsmall _ .refl
      rw [depth_zero hI, getIdepth, ite_not_cached hc, hI.wf.nil]
      exact congrArg (fun d => some (s, d)) (Nat.mod_eq_of_lt hmin)
    have hlt := hrank hl
    -- the entry has no predecessor, only its own depth is set
    by_cases hid : id = s.cfg.entry
    · subst hid
      obtain ⟨hreads, hcached, hval⟩ := (Reads.refl hI).setIdepth hI hr hl hc (fun p hp => by
        have := hp.edge.itype
        rw [hI.wf.entry] at this
        cases this <;> contradiction) hsmall
      refine ⟨_, ?_, hreads, fun _ => hcached⟩
      rw [getIdepth, ite_not_cached hc, hI.wf.entry]
      rw [depth_entry hI hr] at hval ⊢
      exact congrArg some (Prod.ext rfl hval)
    obtain ht | ht := Cfg.live_itype hI.wf hl hid
    · -- the inputs one by one
      suffices hfold : ∀ (l : List NodeId) (s₀ : CfgProc) (m : ℕ), s.Reads s₀ →
          (∀ p ∈ l, p = 0 ∨ s.cfg.Forward p id ∧ s.cfg.Live p) →
          ∃ s₁, l.foldlM (fun (acc : CfgProc × ℕ) inp =>
              (getIdepth n acc.1 inp).bind fun r => some (r.1, max acc.2 r.2)) (s₀, m) =
              some (s₁, (l.map s.depth).foldl max m) ∧ s.Reads s₁ ∧ s₀.Reads s₁ ∧
            ∀ p ∈ l, p ≠ 0 → s₁.Cached p by
        obtain ⟨s₁, hfold, hreads, -, hcached⟩ := hfold (s.cfg.inps id) s 0 (Reads.refl hI)
          fun p hp => live_or_zero hI hl ht hp
        obtain ⟨hreads, hcid, hval⟩ := hreads.setIdepth hI hr hl hc (fun p hp => by
          obtain ⟨hmem, h0⟩ := (Cfg.forward_region ht).1 hp
          exact hcached p hmem h0) hsmall
        refine ⟨_, ?_, hreads, fun _ => hcid⟩
        rw [getIdepth_region hc ht, hfold, Option.bind_some]
        have hdepth := depth_region hI hr hl hc ht
        rw [maxOf] at hdepth
        rw [← hdepth]
        exact congrArg some (Prod.ext rfl hval)
      intro l
      induction l with
      | nil => exact fun s₀ m h _ => ⟨s₀, rfl, h, Reads.refl (h.inv hI hr), fun p hp => by cases hp⟩
      | cons p l ihl =>
        intro s₀ m h hall
        have hI₀ := h.inv hI hr
        have hr₀ : s₀.cfg.Ranked rank := h.cfg ▸ hr
        have hsmall₀ : s₀.Small := fun y hy => by
          have hy' : s.cfg.Live y := h.cfg ▸ hy
          rw [h.depth hI hr hy']
          exact hsmall y hy'
        -- the calls before have changed the cache, and no depth
        have hdepth : s₀.depth p = s.depth p := by
          obtain rfl | ⟨-, hpl⟩ := hall p List.mem_cons_self
          · rw [depth_zero hI, depth_zero hI₀, h.min]
          · exact h.depth hI hr hpl
        -- there is an edge into the node, so its rank is not 0
        have hpos : 0 < n := by
          obtain ⟨q, hq⟩ := hI.wf.forward id hl hid
          have := hr.lt q id hl hq
          omega
        obtain ⟨s₁, hs₁, hreads₁, hcached₁⟩ := ih hI₀ hr₀ hsmall₀
          ((hall p List.mem_cons_self).imp_right fun hp => h.cfg ▸ hp.2) hpos fun hpl => by
            obtain rfl | ⟨hf, -⟩ := hall p List.mem_cons_self
            · exact absurd rfl (Cfg.live_ne_zero hI₀.wf hpl)
            · have := hr.lt p id hl hf
              omega
        obtain ⟨s₂, hs₂, hreads₂, hreads₁₂, hcached₂⟩ := ihl s₁ (max m (s.depth p))
          (h.trans hI hr hreads₁) fun q hq => hall q (List.mem_cons_of_mem _ hq)
        refine ⟨s₂, ?_, hreads₂, hreads₁.trans hI₀ hr₀ hreads₁₂, fun q hq h0 => ?_⟩
        · rw [List.foldlM_cons, hs₁, hdepth]
          exact hs₂
        · obtain rfl | hq := List.mem_cons.1 hq
          · exact (hreads₁₂.cached (hcached₁ h0)).1
          · exact hcached₂ q hq h0
    · -- one input only: the control
      obtain ⟨p, hp, hf, hpl⟩ := exists_ctrl hI hl ht
      have hplt := hr.lt p id hl hf
      obtain ⟨s₁, hs₁, hreads₁, hcached₁⟩ := ih hI hr hsmall (.inr hpl) (by omega) fun _ => by omega
      obtain ⟨hreads, hcid, hval⟩ := hreads₁.setIdepth hI hr hl hc (fun q hq => by
        have := ((Cfg.forward_of_hasCtrl ht).1 hq).1
        rw [hp] at this
        obtain rfl := Option.some.inj this
        exact hcached₁ hq.2) hsmall
      refine ⟨_, ?_, hreads, fun _ => hcid⟩
      rw [getIdepth_ctrl hc ht, hp, Option.bind_some, hs₁, Option.bind_some,
        ← depth_ctrl hI hr hl hc ht hp]
      exact congrArg some (Prod.ext rfl hval)

end Depth

/-! ### Dominators -/

/-- A state of the graph `c` between two edits, whose depths fit. -/
structure On (c : Cfg) (s : CfgProc) : Prop where
  cfg : s.cfg = c
  inv : s.Inv
  small : s.Small

/-- The immediate dominator of a node, of a smaller rank. -/
structure IsIdom (c : Cfg) (rank : NodeId → ℕ) (y id : NodeId) : Prop where
  live : c.Live y
  lt : rank y < rank id
  iff : ∀ d, c.Dom d id ↔ d = id ∨ c.Dom d y

/-- What `get_idom` does with the fuel `N` and more, below the rank `r`. -/
def IdomOk (c : Cfg) (rank : NodeId → ℕ) (r N : ℕ) : Prop :=
  ∀ s, On c s → ∀ id, c.Live id → id ≠ c.entry → rank id < r → ∀ n, N ≤ n →
    ∃ s' y, getIdom n s id = some (s', y) ∧ s.Reads s' ∧ IsIdom c rank y id

/-- What `compute_lca` does of nodes below the rank `r`, whose ranks are `m` together. -/
def LcaOk (c : Cfg) (rank : NodeId → ℕ) (r m N : ℕ) : Prop :=
  ∀ s, On c s → ∀ a b, c.Live a → c.Live b → rank a < r → rank b < r → rank a + rank b < m →
    ∀ n, N ≤ n → ∃ s' l, computeLca n s a b = some (s', l) ∧ s.Reads s' ∧
      IsNearest c.Edge c.entry a b l

section Dominators

variable {c : Cfg} {rank : NodeId → ℕ} (hr : c.Ranked rank)
include hr

theorem On.of_reads (h : On c s) (hreads : s.Reads s') : On c s' := by
  obtain ⟨rfl, hI, hsmall⟩ := h
  refine ⟨hreads.cfg, hreads.inv hI hr, fun id hid => ?_⟩
  rw [hreads.cfg] at hid
  rw [hreads.depth hI hr hid]
  exact hsmall id hid

theorem On.trans {s'' : CfgProc} (h : On c s) (h₁ : s.Reads s') (h₂ : s'.Reads s'') :
    s.Reads s'' := by
  obtain ⟨rfl, hI, -⟩ := h
  exact h₁.trans hI hr h₂

/-- **The walk up**: with `get_idom` right below a rank, so is `compute_lca`. -/
theorem lcaOk_of_idomOk {r N : ℕ} (hN : IdomOk c rank r N) (m : ℕ) : ∃ M, LcaOk c rank r m M := by
  induction m with
  | zero => exact ⟨0, fun s _ a b _ _ _ _ h => absurd h (Nat.not_lt_zero _)⟩
  | succ m ih =>
    obtain ⟨M, hM⟩ := ih
    refine ⟨max (max N r) M + 1, fun s hs a b ha hb har hbr hm n hn => ?_⟩
    obtain ⟨k, rfl⟩ := Nat.exists_eq_succ_of_ne_zero (show n ≠ 0 by omega)
    have hkN : N ≤ k := by omega
    have hkr : r ≤ k := by omega
    have hkM : M ≤ k := by omega
    obtain ⟨rfl, hI, hsmall⟩ := hs
    by_cases hab : a = b
    · subst hab
      refine ⟨s, a, ?_, Reads.refl hI, isNearest_self⟩
      rw [Nat.succ_eq_add_one, computeLca, if_pos rfl]
    have ha0 := Cfg.live_ne_zero hI.wf ha
    have hb0 := Cfg.live_ne_zero hI.wf hb
    obtain ⟨s₁, hs₁, hreads₁, -⟩ := getIdepth_spec (n := k) hI hr hsmall (.inr ha) (by omega)
      fun _ => by omega
    have hon₁ := On.of_reads hr ⟨rfl, hI, hsmall⟩ hreads₁
    obtain ⟨s₂, hs₂, hreads₂, -⟩ := getIdepth_spec (n := k) hon₁.inv (hon₁.cfg ▸ hr) hon₁.small
      (.inr (hon₁.cfg ▸ hb)) (by omega) fun _ => by omega
    have hon₂ := On.of_reads hr hon₁ hreads₂
    have hreads₀₂ := hreads₁.trans hI hr hreads₂
    rw [Nat.succ_eq_add_one, computeLca_up hab ha0 hb0, hs₁, Option.bind_some, hs₂,
      Option.bind_some, hreads₁.depth hI hr hb]
    -- the one that goes up is not the entry and does not dominate the other
    have hup : ∀ x y, s.cfg.Live x → s.cfg.Live y → x ≠ y → s.depth y ≤ s.depth x →
        x ≠ s.cfg.entry ∧ ¬ s.cfg.Dom x y := by
      intro x y hx hy hne hle
      refine ⟨?_, fun hd => (depth_lt hI hr hy hd hne).not_ge hle⟩
      rintro rfl
      exact (depth_lt hI hr hy dominates_entry hne).not_ge hle
    by_cases hle : s.depth b ≤ s.depth a
    · obtain ⟨hae, hand⟩ := hup a b ha hb hab hle
      obtain ⟨s₃, a', hs₃, hreads₃, hida⟩ := hN s₂ hon₂ a ha hae har k hkN
      have hon₃ := On.of_reads hr hon₂ hreads₃
      have hreads₀₃ := hreads₀₂.trans hI hr hreads₃
      have hlta := hida.lt
      rw [if_pos hle, hs₃, Option.bind_some]
      by_cases hle' : s.depth a ≤ s.depth b
      · -- both go up
        obtain ⟨hbe, hbnd⟩ := hup b a hb ha (Ne.symm hab) hle'
        obtain ⟨s₄, b', hs₄, hreads₄, hidb⟩ := hN s₃ hon₃ b hb hbe hbr k hkN
        have hon₄ := On.of_reads hr hon₃ hreads₄
        have hltb := hidb.lt
        obtain ⟨s₅, l, hs₅, hreads₅, hl⟩ := hM s₄ hon₄ a' b' hida.live hidb.live (by omega) (by omega)
          (by omega) k hkM
        rw [if_pos hle', hs₄, Option.bind_some]
        refine ⟨s₅, l, hs₅, (hreads₀₃.trans hI hr hreads₄).trans hI hr hreads₅, ?_⟩
        have hbnd' : ¬ s.cfg.Dom b a' := fun hd => hbnd ((hida.iff b).2 (.inr hd))
        exact (hl.symm.up_left hidb.iff hbnd').symm.up_left hida.iff hand
      · obtain ⟨s₅, l, hs₅, hreads₅, hl⟩ := hM s₃ hon₃ a' b hida.live hb (by omega) hbr (by omega) k hkM
        rw [if_neg hle', Option.bind_some]
        exact ⟨s₅, l, hs₅, hreads₀₃.trans hI hr hreads₅, hl.up_left hida.iff hand⟩
    · have hle' : s.depth a ≤ s.depth b := (not_le.1 hle).le
      obtain ⟨hbe, hbnd⟩ := hup b a hb ha (Ne.symm hab) hle'
      obtain ⟨s₃, b', hs₃, hreads₃, hidb⟩ := hN s₂ hon₂ b hb hbe hbr k hkN
      have hon₃ := On.of_reads hr hon₂ hreads₃
      have hltb := hidb.lt
      obtain ⟨s₅, l, hs₅, hreads₅, hl⟩ := hM s₃ hon₃ a b' ha hidb.live har (by omega) (by omega) k hkM
      rw [if_neg hle, Option.bind_some, if_pos hle', hs₃, Option.bind_some]
      exact ⟨s₅, l, hs₅, (hreads₀₂.trans hI hr hreads₃).trans hI hr hreads₅,
        (hl.symm.up_left hidb.iff hbnd).symm⟩

omit hr in
theorem computeLca_zero (n : ℕ) (p : NodeId) : computeLca (n + 1) s 0 p = some (s, p) := by
  rw [computeLca]
  by_cases h : 0 = p
  · rw [if_pos h, h]
  · rw [if_neg h, if_pos rfl]

/-- What a `Region` folds its inputs to. -/
theorem foldlM_lca (hwf : c.WF) {r k : ℕ} (hM : LcaOk c rank r (2 * r) k) {id : NodeId}
    (hid : c.Live id) (hrid : rank id ≤ r) (l : List NodeId)
    (hl : ∀ p ∈ l, p ≠ 0 → c.Forward p id) (l₀ : NodeId) (hl₀ : l₀ ≠ 0 → c.Live l₀ ∧ rank l₀ < r)
    (s : CfgProc) (hs : On c s) :
    ∃ s₁ l₁, l.foldlM (fun (acc : CfgProc × NodeId) inp => computeLca (k + 1) acc.1 acc.2 inp)
        (s, l₀) = some (s₁, l₁) ∧ s.Reads s₁ ∧ (l₁ = 0 → l₀ = 0 ∧ ∀ p ∈ l, p = 0) ∧
      (l₁ ≠ 0 → c.Live l₁ ∧ rank l₁ < r ∧
        ∀ d, c.Dom d l₁ ↔ (l₀ ≠ 0 → c.Dom d l₀) ∧ ∀ p ∈ l, p ≠ 0 → c.Dom d p) := by
  induction l generalizing l₀ s with
  | nil =>
    refine ⟨s, l₀, rfl, Reads.refl hs.inv, fun h => ⟨h, fun p hp => by cases hp⟩, fun h => ?_⟩
    exact ⟨(hl₀ h).1, (hl₀ h).2, fun d => ⟨fun hd => ⟨fun _ => hd, fun p hp => by cases hp⟩,
      fun hd => hd.1 h⟩⟩
  | cons p l ih =>
    have hlive : p ≠ 0 → c.Live p ∧ rank p < r := fun hp => by
      have hf := hl p List.mem_cons_self hp
      exact ⟨hwf.inps_live p id hid hf.edge, (hr.lt p id hid hf).trans_le hrid⟩
    -- the first input with what there is so far
    obtain ⟨s₁, l₁, hs₁, hreads₁, hzero₁, hone₁⟩ : ∃ s₁ l₁,
        computeLca (k + 1) s l₀ p = some (s₁, l₁) ∧ s.Reads s₁ ∧ (l₁ = 0 → l₀ = 0 ∧ p = 0) ∧
        (l₁ ≠ 0 → c.Live l₁ ∧ rank l₁ < r ∧
          ∀ d, c.Dom d l₁ ↔ (l₀ ≠ 0 → c.Dom d l₀) ∧ (p ≠ 0 → c.Dom d p)) := by
      by_cases h₀ : l₀ = 0
      · subst h₀
        refine ⟨s, p, computeLca_zero k p, Reads.refl hs.inv, fun h => ⟨rfl, h⟩, fun h => ?_⟩
        exact ⟨(hlive h).1, (hlive h).2, fun d => ⟨fun hd => ⟨fun h => absurd rfl h, fun _ => hd⟩,
          fun hd => hd.2 h⟩⟩
      by_cases hp : p = 0
      · subst hp
        refine ⟨s, l₀, ?_, Reads.refl hs.inv, fun h => absurd h h₀, fun h => ?_⟩
        · rw [computeLca, if_neg h₀, if_neg h₀, if_pos rfl]
        · exact ⟨(hl₀ h).1, (hl₀ h).2, fun d => ⟨fun hd => ⟨fun _ => hd, fun h => absurd rfl h⟩,
            fun hd => hd.1 h⟩⟩
      · obtain ⟨hl₀l, hl₀r⟩ := hl₀ h₀
        obtain ⟨hpl, hpr⟩ := hlive hp
        obtain ⟨s₁, l₁, hs₁, hreads₁, hnear⟩ := hM s hs l₀ p hl₀l hpl hl₀r hpr (by omega) (k + 1)
          (Nat.le_succ k)
        have hl₁ := Cfg.live_of_dom hwf hr hl₀l hnear.left
        refine ⟨s₁, l₁, hs₁, hreads₁, fun h => absurd h (Cfg.live_ne_zero hwf hl₁), fun _ =>
          ⟨hl₁, ?_, fun d => ?_⟩⟩
        · by_cases heq : l₁ = l₀
          · exact heq ▸ hl₀r
          · exact (Cfg.rank_lt_of_dom hwf hr hl₀l hnear.left heq).trans hl₀r
        · rw [Cfg.Dom, hnear.dominates_iff]
          exact ⟨fun hd => ⟨fun _ => hd.1, fun _ => hd.2⟩, fun hd => ⟨hd.1 h₀, hd.2 hp⟩⟩
    have hon₁ := On.of_reads hr hs hreads₁
    obtain ⟨s₂, l₂, hs₂, hreads₂, hzero₂, hone₂⟩ := ih (fun q hq => hl q (List.mem_cons_of_mem _ hq))
      l₁ (fun h => ⟨(hone₁ h).1, (hone₁ h).2.1⟩) s₁ hon₁
    refine ⟨s₂, l₂, ?_, On.trans hr hs hreads₁ hreads₂, fun h => ?_, fun h => ?_⟩
    · rw [List.foldlM_cons, hs₁]
      exact hs₂
    · obtain ⟨h₁, hall⟩ := hzero₂ h
      obtain ⟨h₀, hp⟩ := hzero₁ h₁
      exact ⟨h₀, List.forall_mem_cons.2 ⟨hp, hall⟩⟩
    · obtain ⟨hlive₂, hr₂, hiff₂⟩ := hone₂ h
      refine ⟨hlive₂, hr₂, fun d => ?_⟩
      rw [hiff₂ d, List.forall_mem_cons, ← and_assoc]
      refine and_congr_left fun _ => ?_
      by_cases h₁ : l₁ = 0
      · obtain ⟨h₀, hp⟩ := hzero₁ h₁
        simp [h₁, h₀, hp]
      · rw [← (hone₁ h₁).2.2 d]
        exact ⟨fun hd => hd h₁, fun hd _ => hd⟩

/-- With `compute_lca` right below a rank, `get_idom` is so at it. -/
theorem idomOk_of_lcaOk (hwf : c.WF) {r k : ℕ} (hM : LcaOk c rank r (2 * r) k) :
    IdomOk c rank (r + 1) (k + 2) := by
  intro s hs id hid hne hrid n hn
  obtain ⟨n, rfl⟩ := Nat.exists_eq_add_of_le' hn
  obtain ht | ht := Cfg.live_itype hwf hid hne
  · have hM' : LcaOk c rank r (2 * r) (n + k) :=
      fun s hs a b ha hb har hbr hm j hj => hM s hs a b ha hb har hbr hm j (by omega)
    obtain ⟨s₁, l₁, hs₁, hreads₁, hzero₁, hone₁⟩ := foldlM_lca hr hwf hM' hid
      (Nat.le_of_lt_succ hrid) (c.inps id) (fun p hp h0 => (Cfg.forward_region ht).2 ⟨hp, h0⟩) 0
      (fun h => absurd rfl h) s hs
    refine ⟨s₁, l₁, ?_, hreads₁, ?_⟩
    · have ht' : s.cfg.itype id = .region := hs.cfg ▸ ht
      rw [← Nat.add_assoc, getIdom_region ht', hs.cfg]
      exact hs₁
    · obtain ⟨p, hp⟩ := hwf.forward id hid hne
      obtain ⟨hmem, h0⟩ := (Cfg.forward_region ht).1 hp
      have hl₁ : l₁ ≠ 0 := fun h => h0 ((hzero₁ h).2 p hmem)
      obtain ⟨hlive, hlt, hiff⟩ := hone₁ hl₁
      have hdom : ∀ d, c.Dom d l₁ ↔ ∀ p, c.Forward p id → c.Dom d p := fun d => by
        rw [hiff d]
        exact ⟨fun hd q hq => hd.2 q ((Cfg.forward_region ht).1 hq).1 hq.2,
          fun hd => ⟨fun h => absurd rfl h, fun q hq hq0 =>
            hd q ((Cfg.forward_region ht).2 ⟨hq, hq0⟩)⟩⟩
      refine ⟨hlive, ?_, fun d => ?_⟩
      · -- it is not below the input `p`
        have hpd := (hdom l₁).1 dominates_self p hp
        have hplt := hr.lt p id hid hp
        by_cases heq : l₁ = p
        · exact heq ▸ hplt
        · exact (Cfg.rank_lt_of_dom hwf hr (hwf.inps_live p id hid hp.edge) hpd heq).trans hplt
      · rw [Cfg.dom_iff hwf hid hne, hdom d]
  · obtain ⟨p, hp⟩ := hwf.forward id hid hne
    have hget := ((Cfg.forward_of_hasCtrl ht).1 hp).1
    have ht' : (s.cfg.itype id).hasCtrl = true := hs.cfg ▸ ht
    refine ⟨s, p, ?_, Reads.refl hs.inv, hwf.inps_live p id hid hp.edge, hr.lt p id hid hp, fun d => ?_⟩
    · rw [← Nat.add_assoc, getIdom_ctrl ht', hs.cfg, hget]
      rfl
    · rw [Cfg.dom_iff hwf hid hne]
      refine or_congr_right ⟨fun hd => hd p hp, fun hd q hq => ?_⟩
      have := ((Cfg.forward_of_hasCtrl ht).1 hq).1
      rw [hget] at this
      exact Option.some.inj this ▸ hd

/-- **`get_idom` and `compute_lca` are right below every rank.** -/
theorem idom_lca (hwf : c.WF) (r : ℕ) :
    (∃ N, IdomOk c rank r N) ∧ ∀ m, ∃ M, LcaOk c rank r m M := by
  induction r with
  | zero =>
    have hzero : IdomOk c rank 0 0 := fun s _ id _ _ h => absurd h (Nat.not_lt_zero _)
    exact ⟨⟨0, hzero⟩, lcaOk_of_idomOk hr hzero⟩
  | succ r ih =>
    obtain ⟨k, hk⟩ := ih.2 (2 * r)
    have hN := idomOk_of_lcaOk hr hwf hk
    exact ⟨⟨_, hN⟩, lcaOk_of_idomOk hr hN⟩

end Dominators

end CfgProc

end OdinSon
