import OdinSon.Bac.IdomLca
import Mathlib.Tactic.IntervalCases

/-!
# Dominators over whole runs

A run reads depths and nearest common dominators, inlines, rotates loops and puts in `Jump`s, in any
order (`CfgProc.Run`).  Inlining and rotation drop all cached depths.  A `Jump` leaves them, so that a
`Loop` with a cached depth is as deep as a `Jump` that has been put before it
(`not_right_cachedLoop`).  In a run that puts no `Jump` before such a `Loop`, depths get smaller along
immediate dominators and nearest common dominators are found (`right_of_run`).
-/

namespace OdinSon

open Lib

namespace CfgProc

/-! ### Results do not depend on the fuel -/

theorem foldlM_mono {α β : Type*} {f g : β → α → Option β}
    (h : ∀ b a r, f b a = some r → g b a = some r) {l : List α} {b r : β}
    (hf : l.foldlM f b = some r) : l.foldlM g b = some r := by
  induction l generalizing b with
  | nil => exact hf
  | cons a l ih =>
    rw [List.foldlM_cons] at hf ⊢
    obtain ⟨b', hb, hf⟩ := Option.bind_eq_some_iff.1 hf
    rw [h b a b' hb]
    exact ih hf

theorem getIdepth_succ {n : ℕ} {s : CfgProc} {id : NodeId} {r : CfgProc × ℕ}
    (h : getIdepth n s id = some r) : getIdepth (n + 1) s id = some r := by
  induction n generalizing s id r with
  | zero => cases h
  | succ n ih =>
    by_cases hc : s.Cached id
    · have hcached : ∀ k, getIdepth (k + 1) s id = some (s, s.idepth id) := fun k => if_pos hc
      rw [hcached] at h ⊢
      exact h
    by_cases ht : (s.cfg.itype id).hasCtrl = true
    · rw [getIdepth_ctrl hc ht] at h ⊢
      obtain ⟨p, hp, h⟩ := Option.bind_eq_some_iff.1 h
      obtain ⟨r', hr', h⟩ := Option.bind_eq_some_iff.1 h
      rw [hp, Option.bind_some, ih hr']
      exact h
    by_cases hreg : s.cfg.itype id = .region
    · rw [getIdepth_region hc hreg] at h ⊢
      obtain ⟨r', hr', h⟩ := Option.bind_eq_some_iff.1 h
      rw [foldlM_mono (fun b a r hb => ?_) hr']
      · exact h
      · obtain ⟨x, hx, hb⟩ := Option.bind_eq_some_iff.1 hb
        rw [ih hx]
        exact hb
    · -- the other kinds have no inputs
      rw [getIdepth, ite_not_cached hc] at h ⊢
      split at h <;> simp_all [NodeType.hasCtrl]

theorem computeLca_getIdom_succ (n : ℕ) :
    (∀ s a b r, computeLca n s a b = some r → computeLca (n + 1) s a b = some r) ∧
      ∀ s id r, getIdom n s id = some r → getIdom (n + 1) s id = some r := by
  induction n with
  | zero =>
    refine ⟨fun s a b r h => ?_, fun s id r h => ?_⟩
    · cases h
    · cases h
  | succ n ih =>
    refine ⟨fun s a b r h => ?_, fun s id r h => ?_⟩
    · by_cases hab : a = b
      · rw [computeLca, if_pos hab] at h ⊢
        exact h
      by_cases ha : a = 0
      · rw [computeLca, if_neg hab, if_pos ha] at h ⊢
        exact h
      by_cases hb : b = 0
      · rw [computeLca, if_neg hab, if_neg ha, if_pos hb] at h ⊢
        exact h
      have hup : ∀ (c : Prop) [Decidable c] (t : CfgProc) (x : NodeId) (r : CfgProc × NodeId),
          (if c then getIdom n t x else some (t, x)) = some r →
            (if c then getIdom (n + 1) t x else some (t, x)) = some r := by
        intro c _ t x r hr
        split_ifs at hr ⊢
        · exact ih.2 t x r hr
        · exact hr
      rw [computeLca_up hab ha hb] at h ⊢
      obtain ⟨ra, hra, h⟩ := Option.bind_eq_some_iff.1 h
      obtain ⟨rb, hrb, h⟩ := Option.bind_eq_some_iff.1 h
      obtain ⟨ia, hia, h⟩ := Option.bind_eq_some_iff.1 h
      obtain ⟨ib, hib, h⟩ := Option.bind_eq_some_iff.1 h
      rw [getIdepth_succ hra, Option.bind_some, getIdepth_succ hrb, Option.bind_some,
        hup _ _ _ _ hia, Option.bind_some, hup _ _ _ _ hib, Option.bind_some]
      exact ih.1 _ _ _ _ h
    · by_cases hreg : s.cfg.itype id = .region
      · rw [getIdom_region hreg] at h ⊢
        exact foldlM_mono (fun b a r hb => ih.1 _ _ _ _ hb) h
      by_cases ht : (s.cfg.itype id).hasCtrl = true
      · rw [getIdom_ctrl ht] at h ⊢
        exact h
      · rw [getIdom] at h ⊢
        split at h <;> simp_all [NodeType.hasCtrl]

theorem eq_of_mono {α : Type*} {f : ℕ → Option α} (hf : ∀ n r, f n = some r → f (n + 1) = some r)
    {n m : ℕ} {r r' : α} (hn : f n = some r) (hm : f m = some r') : r = r' := by
  have hle : ∀ k n r, f n = some r → f (n + k) = some r := by
    intro k
    induction k with
    | zero => exact fun n r h => h
    | succ k ih => exact fun n r h => hf _ _ (ih n r h)
  have h₁ := hle m n r hn
  have h₂ := hle n m r' hm
  rw [Nat.add_comm m n] at h₂
  exact Option.some.inj (h₁.symm.trans h₂)

/-- A function of the source returns `r`. -/
def Returns {α : Type} (f : ℕ → Option α) (r : α) : Prop := ∃ n, f n = some r

/-! ### Runs -/

/-- What is done to a procedure. -/
inductive Action where
  | idepth (id : NodeId)
  | lca (a b : NodeId)
  | inline (frm : CfgProc)
  | rotate
  | jump (root target : NodeId) (idx : ℕ)

/-- The scheduler puts a `Jump` here. -/
structure JumpSite (s : CfgProc) (root target : NodeId) (idx : ℕ) : Prop where
  root_live : s.cfg.Live root
  target_live : s.cfg.Live target
  inp : (s.cfg.inps target)[idx]? = some root
  target_itype : s.cfg.itype target = .region ∨ s.cfg.itype target = .loop
  root_itype : s.cfg.itype root ≠ .jump ∧ s.cfg.itype root ≠ .trap ∧ s.cfg.itype root ≠ .if_

/-- One step.  Inlining takes over the largest depth of `frm`, invalidates, and then edits the graph,
with clones of the nodes of `frm` and their cached depths; a rotation edits and then invalidates. -/
inductive Step : CfgProc → Action → CfgProc → Prop
  | idepth {s s' : CfgProc} {id : NodeId} {d : ℕ} : s.cfg.Live id →
    Returns (fun n => getIdepth n s id) (s', d) → Step s (.idepth id) s'
  | lca {s s' : CfgProc} {a b l : NodeId} : s.cfg.Live a → s.cfg.Live b →
    Returns (fun n => computeLca n s a b) (s', l) → Step s (.lca a b) s'
  | inline {s frm : CfgProc} {cfg : Cfg} {idepth : NodeId → ℕ} : cfg.WF →
    (∀ id, frm.idepth id ≤ frm.maxIdepth) →
    (∀ id, idepth id = 0 ∨ ∃ y, idepth id = s.idepth y ∨ idepth id = frm.idepth y) →
    Step s (.inline frm) { invalidateIdepth { s with maxIdepth := max s.maxIdepth frm.maxIdepth } with
      cfg, idepth }
  | rotate {s : CfgProc} {cfg : Cfg} {idepth : NodeId → ℕ} : cfg.WF →
    (∀ id, idepth id = 0 ∨ ∃ y, idepth id = s.idepth y) →
    Step s .rotate (invalidateIdepth { s with cfg, idepth })
  | jump {s : CfgProc} {root target : NodeId} {idx : ℕ} : s.JumpSite root target idx →
    Step s (.jump root target idx) (s.insertJump root target idx)

/-- Steps one after another, each of which is `ok` in the state before it. -/
inductive Run (ok : CfgProc → Action → Prop) (s₀ : CfgProc) : CfgProc → Prop
  | init : Run ok s₀ s₀
  | step {s s' : CfgProc} {a : Action} : Run ok s₀ s → ok s a → Step s a s' → Run ok s₀ s'

/-- A procedure that has just been built. -/
structure Start (s : CfgProc) : Prop where
  wf : s.cfg.WF
  idepth : ∀ id, s.idepth id = 0
  minIdepth : s.minIdepth = 0
  maxIdepth : s.maxIdepth = 0

/-- Depths get smaller along immediate dominators when they are read, and of all nodes the nearest
common dominator is found. -/
structure Right (s : CfgProc) : Prop where
  decreasing : ∀ id, s.cfg.Live id → id ≠ s.cfg.entry → ∃ s₁ d s₂ y s₃ e,
    Returns (fun n => getIdepth n s id) (s₁, d) ∧ Returns (fun n => getIdom n s₁ id) (s₂, y) ∧
      Returns (fun n => getIdepth n s₂ y) (s₃, e) ∧ e < d
  lca : ∀ a b, s.cfg.Live a → s.cfg.Live b → ∃ s' l,
    Returns (fun n => computeLca n s a b) (s', l) ∧ IsNearest s.cfg.Edge s.cfg.entry a b l

/-- The depths of all nodes fit a `u32`, whatever has to be computed. -/
def Fits (s : CfgProc) : Prop := s.maxIdepth + s.cfg.gvn + 2 ≤ 2 ^ 32

instance (s : CfgProc) : Decidable s.Fits := inferInstanceAs (Decidable (_ ≤ _))

/-- A `Jump` is put before a `Loop` or as the only live input of a `Region` only if there is no cached
depth; and depths fit. -/
def Meets (s : CfgProc) (a : Action) : Prop :=
  s.Fits ∧ match a with
    | .jump _ target idx => s.Cached target →
      (s.cfg.itype target = .loop → idx ≠ 0) ∧
        (s.cfg.itype target = .region →
          ∃ i p, i ≠ idx ∧ (s.cfg.inps target)[i]? = some p ∧ p ≠ 0)
    | _ => True

/-! ### States between steps -/

section State

variable {s : CfgProc} (hI : s.Inv) (hf : s.Fits)
include hI hf

theorem small_of_fits : s.Small := by
  obtain ⟨rank, hr⟩ := hI.wf.acyclic
  intro id hid
  have hle := depth_le hI hr hid
  have := hr.le id
  rw [Fits] at hf
  omega

theorem getIdepth_returns {id : NodeId} (hid : s.cfg.Live id) :
    ∃ s', Returns (fun n => getIdepth n s id) (s', s.depth id) ∧ s.Reads s' := by
  obtain ⟨rank, hr⟩ := hI.wf.acyclic
  obtain ⟨s', hs', hreads, -⟩ := getIdepth_spec (n := rank id + 1) hI hr (small_of_fits hI hf)
    (.inr hid) (Nat.succ_pos _) fun _ => Nat.lt_succ_self _
  exact ⟨s', ⟨_, hs'⟩, hreads⟩

theorem computeLca_returns {a b : NodeId} (ha : s.cfg.Live a) (hb : s.cfg.Live b) :
    ∃ s' l, Returns (fun n => computeLca n s a b) (s', l) ∧ s.Reads s' ∧
      IsNearest s.cfg.Edge s.cfg.entry a b l := by
  obtain ⟨rank, hr⟩ := hI.wf.acyclic
  obtain ⟨M, hM⟩ := (idom_lca hr hI.wf (max (rank a) (rank b) + 1)).2 (rank a + rank b + 1)
  obtain ⟨s', l, hs', hreads, hl⟩ := hM s ⟨rfl, hI, small_of_fits hI hf⟩ a b ha hb (by omega) (by omega)
    (Nat.lt_succ_self _) M le_rfl
  exact ⟨s', l, ⟨M, hs'⟩, hreads, hl⟩

/-- **In such a state everything is right.** -/
theorem right_of_inv : s.Right where
  decreasing id hid hne := by
    obtain ⟨rank, hr⟩ := hI.wf.acyclic
    have hsmall := small_of_fits hI hf
    obtain ⟨s₁, hs₁, hreads₁⟩ := getIdepth_returns hI hf hid
    have hon₁ := On.of_reads hr ⟨rfl, hI, hsmall⟩ hreads₁
    obtain ⟨N, hN⟩ := (idom_lca hr hI.wf (rank id + 1)).1
    obtain ⟨s₂, y, hs₂, hreads₂, hy⟩ := hN s₁ hon₁ id hid hne (Nat.lt_succ_self _) N le_rfl
    have hon₂ := On.of_reads hr hon₁ hreads₂
    have hyl : s₂.cfg.Live y := hon₂.cfg ▸ hy.live
    obtain ⟨s₃, hs₃, -, -⟩ := getIdepth_spec (n := rank y + 1) hon₂.inv (hon₂.cfg ▸ hr) hon₂.small
      (.inr hyl) (Nat.succ_pos _) fun _ => Nat.lt_succ_self _
    refine ⟨s₁, _, s₂, y, s₃, _, hs₁, ⟨N, hs₂⟩, ⟨_, hs₃⟩, ?_⟩
    have hreads₀₂ := hreads₁.trans hI hr hreads₂
    rw [hreads₀₂.depth hI hr hy.live]
    refine depth_lt hI hr hid ((hy.iff y).2 (.inr dominates_self)) ?_
    rintro rfl
    exact lt_irrefl _ hy.lt
  lca a b ha hb := by
    obtain ⟨s', l, hs', -, hl⟩ := computeLca_returns hI hf ha hb
    exact ⟨s', l, hs', hl⟩

end State

/-! ### A new jump -/

section Jump

variable {s : CfgProc} {root target : NodeId} {idx : ℕ}

/-- The kinds of the old nodes stay. -/
theorem insertJump_itype {id : NodeId} (h : id ≠ s.cfg.pos) :
    (s.insertJump root target idx).cfg.itype id = s.cfg.itype id := Function.update_of_ne h _ _

theorem insertJump_itype_jump :
    (s.insertJump root target idx).cfg.itype s.cfg.pos = .jump := Function.update_self ..

/-- So do their inputs, but for those of the target. -/
theorem insertJump_inps {id : NodeId} (h : id ≠ s.cfg.pos) (ht : id ≠ target) :
    (s.insertJump root target idx).cfg.inps id = s.cfg.inps id := by
  simp only [insertJump, Function.update_of_ne ht, Function.update_of_ne h]

theorem insertJump_inps_target :
    (s.insertJump root target idx).cfg.inps target = (s.cfg.inps target).set idx s.cfg.pos :=
  Function.update_self ..

theorem insertJump_idepth {id : NodeId} (hid : id ≠ s.cfg.pos) :
    (s.insertJump root target idx).idepth id = s.idepth id := Function.update_of_ne hid _ _

theorem insertJump_idepth_jump : (s.insertJump root target idx).idepth s.cfg.pos = 0 :=
  Function.update_self ..

theorem insertJump_cached {id : NodeId} (hid : id ≠ s.cfg.pos) :
    (s.insertJump root target idx).Cached id ↔ s.Cached id := by
  rw [Cached, insertJump_idepth hid]
  rfl

theorem not_insertJump_cached : ¬ (s.insertJump root target idx).Cached s.cfg.pos := by
  rw [Cached, insertJump_idepth_jump]
  exact Nat.not_lt_zero _

theorem pos_ne_zero (hI : s.Inv) : s.cfg.pos ≠ 0 := (Nat.zero_le _).trans_lt hI.wf.entry_lt |>.ne'

/-- The edges to an old node other than the target. -/
theorem insertJump_edge {p id : NodeId} (h : id ≠ s.cfg.pos) (ht : id ≠ target) :
    (s.insertJump root target idx).cfg.Edge p id ↔ s.cfg.Edge p id := by
  have hctrls : (s.insertJump root target idx).cfg.ctrls id = s.cfg.ctrls id := by
    rw [Cfg.ctrls, Cfg.ctrls, insertJump_itype h, insertJump_inps h ht]
  rw [Cfg.Edge, Cfg.Edge, hctrls]

theorem insertJump_forward {p id : NodeId} (h : id ≠ s.cfg.pos) (ht : id ≠ target) :
    (s.insertJump root target idx).cfg.Forward p id ↔ s.cfg.Forward p id := by
  have hforwards : (s.insertJump root target idx).cfg.forwards id = s.cfg.forwards id := by
    rw [Cfg.forwards, Cfg.forwards, Cfg.ctrls, Cfg.ctrls, insertJump_itype h,
      insertJump_inps h ht]
  rw [Cfg.Forward, Cfg.Forward, hforwards]

/-- The edges to the target. -/
theorem edge_target (hsite : s.JumpSite root target idx) {p : NodeId} :
    s.cfg.Edge p target ↔ p ∈ s.cfg.inps target ∧ p ≠ 0 := by
  obtain ht | ht := hsite.target_itype <;> rw [Cfg.Edge, Cfg.ctrls, ht]

variable (hI : s.Inv) (hsite : s.JumpSite root target idx)
include hI hsite

theorem JumpSite.root_lt : root < s.cfg.pos := Cfg.live_lt hI.wf hsite.root_live

theorem JumpSite.target_lt : target < s.cfg.pos := Cfg.live_lt hI.wf hsite.target_live

theorem insertJump_inps_jump :
    (s.insertJump root target idx).cfg.inps s.cfg.pos = [root] := by
  have hne : s.cfg.pos ≠ target := (hsite.target_lt hI).ne'
  simp only [insertJump, Function.update_of_ne hne, Function.update_self]

/-- The only edge to the new node. -/
theorem insertJump_edge_jump {p : NodeId} :
    (s.insertJump root target idx).cfg.Edge p s.cfg.pos ↔ p = root := by
  have hj : ((s.insertJump root target idx).cfg.itype s.cfg.pos).hasCtrl = true := by
    rw [insertJump_itype_jump]
    rfl
  have hl : (s.insertJump root target idx).cfg.itype s.cfg.pos ≠ .loop := by
    rw [insertJump_itype_jump]
    decide
  rw [Cfg.edge_of_hasCtrl hj hl, insertJump_inps_jump hI hsite]
  have h0 := Cfg.live_ne_zero hI.wf hsite.root_live
  constructor
  · exact fun h => (Option.some.inj h.1).symm
  · rintro rfl
    exact ⟨rfl, h0⟩

theorem insertJump_forward_jump {p : NodeId} :
    (s.insertJump root target idx).cfg.Forward p s.cfg.pos ↔ p = root := by
  have hforward : (s.insertJump root target idx).cfg.Forward p s.cfg.pos ↔
      (s.insertJump root target idx).cfg.Edge p s.cfg.pos := by
    rw [Cfg.Forward, Cfg.Edge, Cfg.forwards, insertJump_itype_jump]
  rw [hforward, insertJump_edge_jump hI hsite]

theorem insertJump_edge_target {p : NodeId} :
    (s.insertJump root target idx).cfg.Edge p target ↔
      p ∈ (s.cfg.inps target).set idx s.cfg.pos ∧ p ≠ 0 := by
  have hne : target ≠ s.cfg.pos := (hsite.target_lt hI).ne
  have hi : (s.insertJump root target idx).cfg.itype target = s.cfg.itype target :=
    insertJump_itype hne
  obtain ht | ht := hsite.target_itype <;>
    rw [Cfg.Edge, Cfg.ctrls, hi, ht, insertJump_inps_target]

/-- An old edge to the target is still there, or it goes through the new node. -/
theorem insertJump_edge_target_of_edge {p : NodeId} (h : s.cfg.Edge p target) :
    (s.insertJump root target idx).cfg.Edge p target ∨
      p = root ∧ (s.insertJump root target idx).cfg.Edge s.cfg.pos target := by
  obtain ⟨hmem, h0⟩ := (edge_target hsite).1 h
  obtain ⟨i, hi⟩ := List.mem_iff_getElem?.1 hmem
  have hlt := (List.getElem?_eq_some_iff.1 hsite.inp).1
  by_cases hidx : idx = i
  · subst hidx
    refine .inr ⟨Option.some.inj (hi.symm.trans hsite.inp), ?_⟩
    exact (insertJump_edge_target hI hsite).2 ⟨List.mem_set hlt _, pos_ne_zero hI⟩
  · refine .inl ((insertJump_edge_target hI hsite).2 ⟨List.mem_iff_getElem?.2 ⟨i, ?_⟩, h0⟩)
    rw [List.getElem?_set_ne hidx]
    exact hi

/-- A new edge to the target comes from the new node, or it is an old one. -/
theorem edge_of_insertJump_edge_target {p : NodeId}
    (h : (s.insertJump root target idx).cfg.Edge p target) :
    p = s.cfg.pos ∨ s.cfg.Edge p target := by
  obtain ⟨hmem, h0⟩ := (insertJump_edge_target hI hsite).1 h
  obtain hp | hp := List.mem_or_eq_of_mem_set hmem
  · exact .inr ((edge_target hsite).2 ⟨hp, h0⟩)
  · exact .inl hp

/-- **The live nodes** are the old ones and the new one. -/
theorem insertJump_live {id : NodeId} :
    (s.insertJump root target idx).cfg.Live id ↔ id = s.cfg.pos ∨ s.cfg.Live id := by
  have hold : ∀ id, s.cfg.Live id → (s.insertJump root target idx).cfg.Live id := by
    intro id h
    have hne : ∀ y, s.cfg.Live y → y ≠ s.cfg.pos := fun y hy => (Cfg.live_lt hI.wf hy).ne
    induction h with
    | refl => exact .refl
    | @tail p y hp he ih =>
      have hy : y ≠ s.cfg.pos := hne y (.tail hp he)
      by_cases ht : y = target
      · subst ht
        obtain he' | ⟨rfl, he'⟩ := insertJump_edge_target_of_edge hI hsite he
        · exact ih.tail he'
        · exact (ih.tail ((insertJump_edge_jump hI hsite).2 rfl)).tail he'
      · exact ih.tail ((insertJump_edge hy ht).2 he)
  constructor
  · intro h
    induction h with
    | refl => exact .inr .refl
    | @tail p y _ he ih =>
      by_cases hy : y = s.cfg.pos
      · exact .inl hy
      by_cases ht : y = target
      · exact .inr (ht ▸ hsite.target_live)
      · have he' := (insertJump_edge hy ht).1 he
        obtain rfl | hp := ih
        · exact absurd (hI.wf.inps_lt y _ he'.mem) (lt_irrefl _)
        · exact .inr (hp.tail he')
  · rintro (rfl | h)
    · exact (hold root hsite.root_live).tail ((insertJump_edge_jump hI hsite).2 rfl)
    · exact hold id h

/-- A way around a node in the new graph is one in the old graph. -/
theorem avoids_of_insertJump {d id : NodeId}
    (h : Avoids (s.insertJump root target idx).cfg.Edge s.cfg.entry d id) :
    (id ≠ s.cfg.pos → Avoids s.cfg.Edge s.cfg.entry d id) ∧
      (id = s.cfg.pos → Avoids s.cfg.Edge s.cfg.entry d root) := by
  obtain ⟨hd, hpath⟩ := h
  induction hpath with
  | refl => exact ⟨fun _ => ⟨hd, .refl⟩, fun h => absurd h hI.wf.entry_lt.ne⟩
  | @tail p y _ he ih =>
    refine ⟨fun hy => ?_, fun hy => ?_⟩
    · by_cases ht : y = target
      · subst ht
        obtain rfl | he' := edge_of_insertJump_edge_target hI hsite he.1
        · refine (ih.2 rfl).step ((edge_target hsite).2 ⟨?_, ?_⟩) he.2
          · exact List.mem_of_getElem? hsite.inp
          · exact Cfg.live_ne_zero hI.wf hsite.root_live
        · have hp := hI.wf.inps_lt y p he'.mem
          exact (ih.1 hp.ne).step he' he.2
      · have he' := (insertJump_edge hy ht).1 he.1
        exact (ih.1 (hI.wf.inps_lt y p he'.mem).ne).step he' he.2
    · subst hy
      obtain rfl := (insertJump_edge_jump hI hsite).1 he.1
      exact ih.1 (hsite.root_lt hI).ne

/-- Dominance among old nodes stays. -/
theorem insertJump_dom {d id : NodeId} (hid : id ≠ s.cfg.pos) (h : s.cfg.Dom d id) :
    (s.insertJump root target idx).cfg.Dom d id :=
  fun hav => h ((avoids_of_insertJump hI hsite hav).1 hid)

/-- The rank of the new node is right above that of what is before it. -/
theorem insertJump_ranked {rank : NodeId → ℕ} (hr : s.cfg.Ranked rank) :
    (s.insertJump root target idx).cfg.Ranked fun id =>
      if id = s.cfg.pos then rank root + 1 else if rank root < rank id then rank id + 1 else rank id where
  le id := by
    have hle := hr.le id
    have hle' := hr.le root
    simp only [insertJump]
    split_ifs <;> omega
  lt p id hl hp := by
    rw [insertJump_live hI hsite] at hl
    obtain rfl | hl := hl
    · obtain rfl := (insertJump_edge_jump hI hsite).1 hp.edge
      simp [(hsite.root_lt hI).ne]
    · have hid := (Cfg.live_lt hI.wf hl).ne
      by_cases hpj : p = s.cfg.pos
      · subst hpj
        -- it is before the target only if what is before it was so
        have ht : id = target := by
          by_contra ht
          have he := (insertJump_edge hid ht).1 hp.edge
          exact absurd (hI.wf.inps_lt id _ he.mem) (lt_irrefl _)
        subst ht
        suffices hroot : s.cfg.Forward root id by
          have hlt := hr.lt root id hl hroot
          simp [hid, hlt]
        have h0 := Cfg.live_ne_zero hI.wf hsite.root_live
        have hi : (s.insertJump root id idx).cfg.itype id = s.cfg.itype id := insertJump_itype hid
        obtain ht | ht := hsite.target_itype
        · exact (Cfg.forward_region ht).2 ⟨List.mem_of_getElem? hsite.inp, h0⟩
        · have hc : (s.cfg.itype id).hasCtrl = true := by rw [ht]; rfl
          have hc' : ((s.insertJump root id idx).cfg.itype id).hasCtrl = true := hi ▸ hc
          have hget := ((Cfg.forward_of_hasCtrl hc').1 hp).1
          rw [insertJump_inps_target] at hget
          refine (Cfg.forward_of_hasCtrl hc).2 ⟨?_, h0⟩
          by_cases hidx : idx = 0
          · subst hidx
            exact hsite.inp
          · rw [List.getElem?_set_ne hidx] at hget
            exact absurd (hI.wf.inps_lt id _ (List.mem_of_getElem? hget)) (lt_irrefl _)
      · have hp' : s.cfg.Forward p id := by
          by_cases ht : id = target
          · subst ht
            have hi : (s.insertJump root id idx).cfg.itype id = s.cfg.itype id := insertJump_itype hid
            obtain ht | ht := hsite.target_itype
            · have hmem := ((Cfg.forward_region (hi.trans ht)).1 hp).1
              rw [insertJump_inps_target] at hmem
              obtain hmem | hmem := List.mem_or_eq_of_mem_set hmem
              · exact (Cfg.forward_region ht).2 ⟨hmem, hp.2⟩
              · exact absurd hmem hpj
            · have hc : (s.cfg.itype id).hasCtrl = true := by rw [ht]; rfl
              have hc' : ((s.insertJump root id idx).cfg.itype id).hasCtrl = true := hi ▸ hc
              have hget := ((Cfg.forward_of_hasCtrl hc').1 hp).1
              rw [insertJump_inps_target] at hget
              refine (Cfg.forward_of_hasCtrl hc).2 ⟨?_, hp.2⟩
              by_cases hidx : idx = 0
              · subst hidx
                have hlt := (List.getElem?_eq_some_iff.1 hsite.inp).1
                rw [List.getElem?_set_self hlt] at hget
                exact absurd (Option.some.inj hget).symm hpj
              · rwa [List.getElem?_set_ne hidx] at hget
          · exact (insertJump_forward hid ht).1 hp
        have hlt := hr.lt p id hl hp'
        simp only [hpj, hid, if_false]
        split_ifs <;> omega

/-- **The graph stays well formed.** -/
theorem insertJump_wf : (s.insertJump root target idx).cfg.WF := by
  have hlt := hsite.target_lt hI
  have hpos := pos_ne_zero hI
  have htwo : ∀ id, s.cfg.itype id = .loop → (s.cfg.inps id).length ≤ 2 := hI.wf.two
  have htarget : ∀ id, id ≠ s.cfg.pos → s.cfg.itype id ≠ .region → s.cfg.itype id ≠ .loop →
      (s.insertJump root target idx).cfg.inps id = s.cfg.inps id := by
    intro id hid hreg hloop
    refine insertJump_inps hid ?_
    rintro rfl
    exact hsite.target_itype.elim hreg hloop
  constructor
  · rw [insertJump_itype hpos.symm]
    exact hI.wf.nil
  · exact (insertJump_itype hI.wf.entry_lt.ne).trans hI.wf.entry
  · -- no other node starts the procedure
    intro id hl ht
    rw [insertJump_live hI hsite] at hl
    obtain rfl | hl := hl
    · rw [insertJump_itype_jump] at ht
      cases ht
    · rw [insertJump_itype (Cfg.live_lt hI.wf hl).ne] at ht
      exact hI.wf.eq_entry id hl ht
  · intro id hl hne
    rw [insertJump_live hI hsite] at hl
    obtain rfl | hl := hl
    · -- the new node comes after `root`
      exact ⟨root, (insertJump_forward_jump hI hsite).2 rfl⟩
    have hid := (Cfg.live_lt hI.wf hl).ne
    obtain ⟨p, hp⟩ := hI.wf.forward id hl hne
    by_cases ht : id = target
    · subst ht
      have hi : (s.insertJump root id idx).cfg.itype id = s.cfg.itype id := insertJump_itype hid
      have hlen := (List.getElem?_eq_some_iff.1 hsite.inp).1
      obtain ht | ht := hsite.target_itype
      · refine ⟨s.cfg.pos, (Cfg.forward_region (hi.trans ht)).2 ⟨?_, hpos⟩⟩
        rw [insertJump_inps_target]
        exact List.mem_set hlen _
      · have hc : (s.cfg.itype id).hasCtrl = true := by rw [ht]; rfl
        have hc' : ((s.insertJump root id idx).cfg.itype id).hasCtrl = true := hi ▸ hc
        -- the first input of a loop is the way in, the other one the back edge
        by_cases hidx : idx = 0
        · subst hidx
          refine ⟨s.cfg.pos, (Cfg.forward_of_hasCtrl hc').2 ⟨?_, hpos⟩⟩
          rw [insertJump_inps_target, List.getElem?_set_self hlen]
        · refine ⟨p, (Cfg.forward_of_hasCtrl hc').2 ⟨?_, hp.2⟩⟩
          rw [insertJump_inps_target, List.getElem?_set_ne hidx]
          exact ((Cfg.forward_of_hasCtrl hc).1 hp).1
    · exact ⟨p, (insertJump_forward hid ht).2 hp⟩
  · intro p id hl he
    rw [insertJump_live hI hsite] at hl
    obtain rfl | hl := hl
    · obtain rfl := (insertJump_edge_jump hI hsite).1 he
      exact (insertJump_live hI hsite).2 (.inr hsite.root_live)
    have hid := (Cfg.live_lt hI.wf hl).ne
    refine (insertJump_live hI hsite).2 ?_
    by_cases ht : id = target
    · subst ht
      exact (edge_of_insertJump_edge_target hI hsite he).imp_right (hI.wf.inps_live p id hl)
    · exact .inr (hI.wf.inps_live p id hl ((insertJump_edge hid ht).1 he))
  · intro id p hl ht hp h0
    rw [insertJump_live hI hsite] at hl
    obtain rfl | hl := hl
    · rw [insertJump_itype_jump] at ht
      cases ht
    have hid := (Cfg.live_lt hI.wf hl).ne
    rw [insertJump_itype hid] at ht
    by_cases htgt : id = target
    · subst htgt
      rw [insertJump_inps_target] at hp
      by_cases hidx : idx = 1
      · -- the new node is on the back edge
        subst hidx
        have hlen := (List.getElem?_eq_some_iff.1 hsite.inp).1
        rw [List.getElem?_set_self hlen] at hp
        obtain rfl := Option.some.inj hp
        have hdom := hI.wf.back id root hl ht hsite.inp (Cfg.live_ne_zero hI.wf hsite.root_live)
        exact fun hav => hdom ((avoids_of_insertJump hI hsite hav).2 rfl)
      · rw [List.getElem?_set_ne hidx] at hp
        have hpl := hI.wf.inps_lt id p (List.mem_of_getElem? hp)
        exact insertJump_dom hI hsite hpl.ne (hI.wf.back id p hl ht hp h0)
    · rw [insertJump_inps hid htgt] at hp
      have hpl := hI.wf.inps_lt id p (List.mem_of_getElem? hp)
      exact insertJump_dom hI hsite hpl.ne (hI.wf.back id p hl ht hp h0)
  · intro id ht
    by_cases hid : id = s.cfg.pos
    · rw [hid, insertJump_itype_jump] at ht
      cases ht
    rw [insertJump_itype hid] at ht
    by_cases htgt : id = target
    · subst htgt
      rw [insertJump_inps_target, List.length_set]
      exact htwo id ht
    · rw [insertJump_inps hid htgt]
      exact htwo id ht
  · -- the new node is ranked between `root` and the target
    obtain ⟨rank, hr⟩ := hI.wf.acyclic
    exact ⟨_, insertJump_ranked hI hsite hr⟩
  · exact hI.wf.entry_lt.trans (Nat.lt_succ_self _)
  · intro id p hp
    change p < s.cfg.pos + 1
    by_cases hid : id = s.cfg.pos
    · subst hid
      rw [insertJump_inps_jump hI hsite, List.mem_singleton] at hp
      exact hp ▸ (hsite.root_lt hI).trans (Nat.lt_succ_self _)
    by_cases htgt : id = target
    · subst htgt
      rw [insertJump_inps_target] at hp
      obtain hp | rfl := List.mem_or_eq_of_mem_set hp
      · exact (hI.wf.inps_lt id p hp).trans (Nat.lt_succ_self _)
      · exact Nat.lt_succ_self _
    · rw [insertJump_inps hid htgt] at hp
      exact (hI.wf.inps_lt id p hp).trans (Nat.lt_succ_self _)
  · intro id hid
    have hid' : s.cfg.pos < id := hid
    obtain ⟨ht, hinps⟩ := hI.wf.free id hid'.le
    rw [insertJump_itype hid'.ne', htarget id hid'.ne' (by rw [ht]; decide) (by rw [ht]; decide)]
    exact ⟨ht, hinps⟩

/-- What is settled stays so. -/
theorem insertJump_settled {p id : NodeId} (hl : s.cfg.Live id) (hp : s.cfg.Forward p id)
    (hnew : id = target → (s.insertJump root target idx).cfg.Forward s.cfg.pos id)
    (h : s.Settled p id) : (s.insertJump root target idx).Settled p id := by
  have hid := (Cfg.live_lt hI.wf hl).ne
  have hpl := hI.wf.inps_live p id hl hp.edge
  have hpj := (Cfg.live_lt hI.wf hpl).ne
  obtain ⟨hc, hlt⟩ | hs := h
  · refine .inl ⟨(insertJump_cached hpj).2 hc, ?_⟩
    rwa [insertJump_idepth hpj, insertJump_idepth hid]
  · have hpt : p ≠ target := by
      rintro rfl
      obtain ht | ht := hsite.target_itype <;> rw [hs.jump] at ht <;> cases ht
    refine .inr ⟨?_, ?_, fun q hq => ?_, fun hc => ?_, fun y hy => ?_, ?_⟩
    · rw [insertJump_itype hid]
      exact hs.region
    · rw [insertJump_itype hpj]
      exact hs.jump
    · have hq' := (insertJump_forward hpj hpt).1 hq
      have hqj := (Cfg.live_lt hI.wf (hI.wf.inps_live q p hpl hq'.edge)).ne
      obtain ⟨hqc, hqlt⟩ := hs.before q hq'
      refine ⟨(insertJump_cached hqj).2 hqc, ?_⟩
      rwa [insertJump_idepth hqj, insertJump_idepth hid]
    · rw [insertJump_idepth hpj, insertJump_idepth hid]
      exact hs.le ((insertJump_cached hpj).1 hc)
    · by_cases hyj : y = s.cfg.pos
      · -- nothing is put after a `Jump`
        subst hyj
        rw [insertJump_inps_jump hI hsite, List.mem_singleton] at hy
        exact absurd (hy ▸ hs.jump) hsite.root_itype.1
      by_cases hyt : y = target
      · subst hyt
        rw [insertJump_inps_target] at hy
        obtain hy | hy := List.mem_or_eq_of_mem_set hy
        · exact hs.user y hy
        · exact absurd hy hpj
      · rw [insertJump_inps hyj hyt] at hy
        exact hs.user y hy
    · by_cases ht : id = target
      · exact ⟨s.cfg.pos, hnew ht, hpj.symm⟩
      · obtain ⟨p', hp', hne⟩ := hs.other
        exact ⟨p', (insertJump_forward hid ht).2 hp', hne⟩

/-- **A new jump keeps the invariant**, if it is not before a `Loop` with a cached depth. -/
theorem insertJump_inv (hok : s.Cached target →
      (s.cfg.itype target = .loop → idx ≠ 0) ∧
        (s.cfg.itype target = .region →
          ∃ i p, i ≠ idx ∧ (s.cfg.inps target)[i]? = some p ∧ p ≠ 0)) :
    (s.insertJump root target idx).Inv where
  wf := insertJump_wf hI hsite
  zero := (insertJump_cached (pos_ne_zero hI).symm).not.2 hI.zero
  entry hc := by
    have hne := hI.wf.entry_lt.ne
    have hc' : s.Cached s.cfg.entry := (insertJump_cached hne).1 hc
    exact (insertJump_idepth hne).trans (hI.entry hc')
  le id := by
    by_cases hid : id = s.cfg.pos
    · subst hid
      rw [insertJump_idepth_jump]
      exact Nat.zero_le _
    · rw [insertJump_idepth hid]
      exact hI.le id
  min_le := hI.min_le
  settled p id hl hc hp := by
    rw [insertJump_live hI hsite] at hl
    obtain rfl | hl := hl
    · exact absurd hc not_insertJump_cached
    have hid := (Cfg.live_lt hI.wf hl).ne
    have hc' := (insertJump_cached hid).1 hc
    by_cases ht : id = target
    · subst ht
      have hi : (s.insertJump root id idx).cfg.itype id = s.cfg.itype id := insertJump_itype hid
      have hlen := (List.getElem?_eq_some_iff.1 hsite.inp).1
      have h0 := Cfg.live_ne_zero hI.wf hsite.root_live
      obtain ht | ht := hsite.target_itype
      · have hnew : (s.insertJump root id idx).cfg.Forward s.cfg.pos id := by
          refine (Cfg.forward_region (hi.trans ht)).2 ⟨?_, pos_ne_zero hI⟩
          rw [insertJump_inps_target]
          exact List.mem_set hlen _
        have hmem := ((Cfg.forward_region (hi.trans ht)).1 hp).1
        rw [insertJump_inps_target] at hmem
        by_cases hpj : p = s.cfg.pos
        · subst hpj
          have hroot : s.cfg.Forward root id :=
            (Cfg.forward_region ht).2 ⟨List.mem_of_getElem? hsite.inp, h0⟩
          obtain ⟨hrc, hrlt⟩ | hs := hI.settled root id hl hc' hroot
          · have hrj := (hsite.root_lt hI).ne
            refine .inr ⟨hi.trans ht, insertJump_itype_jump, fun q hq => ?_, fun hcj => ?_,
              fun y hy => ?_, ?_⟩
            · obtain rfl := (insertJump_forward_jump hI hsite).1 hq
              refine ⟨(insertJump_cached hrj).2 hrc, ?_⟩
              rwa [insertJump_idepth hrj, insertJump_idepth hid]
            · exact absurd hcj not_insertJump_cached
            · by_cases hyj : y = s.cfg.pos
              · subst hyj
                rw [insertJump_inps_jump hI hsite, List.mem_singleton] at hy
                exact absurd hy (hsite.root_lt hI).ne'
              · by_contra hyt
                rw [insertJump_inps hyj hyt] at hy
                exact absurd (hI.wf.inps_lt y _ hy) (lt_irrefl _)
            · obtain ⟨i, p', hne, hget, hp0⟩ := (hok hc').2 ht
              refine ⟨p', (Cfg.forward_region (hi.trans ht)).2 ⟨?_, hp0⟩, ?_⟩
              · rw [insertJump_inps_target]
                refine List.mem_iff_getElem?.2 ⟨i, ?_⟩
                rw [List.getElem?_set_ne (Ne.symm hne)]
                exact hget
              · exact (hI.wf.inps_lt id p' (List.mem_of_getElem? hget)).ne
          · exact absurd hs.jump hsite.root_itype.1
        · have hmem' : p ∈ s.cfg.inps id := (List.mem_or_eq_of_mem_set hmem).resolve_right hpj
          have hp' := (Cfg.forward_region ht).2 ⟨hmem', hp.2⟩
          exact insertJump_settled hI hsite hl hp' (fun _ => hnew) (hI.settled p id hl hc' hp')
      · -- only the back edge has changed
        have hidx := (hok hc').1 ht
        have hcl : (s.cfg.itype id).hasCtrl = true := by rw [ht]; rfl
        have hcl' : ((s.insertJump root id idx).cfg.itype id).hasCtrl = true := hi ▸ hcl
        have hget := ((Cfg.forward_of_hasCtrl hcl').1 hp).1
        rw [insertJump_inps_target, List.getElem?_set_ne hidx] at hget
        have hp' := (Cfg.forward_of_hasCtrl hcl).2 ⟨hget, hp.2⟩
        obtain ⟨hcp, hlt⟩ | hs := hI.settled p id hl hc' hp'
        · have hpj := (hI.wf.inps_lt id p (List.mem_of_getElem? hget)).ne
          refine .inl ⟨(insertJump_cached hpj).2 hcp, ?_⟩
          rwa [insertJump_idepth hpj, insertJump_idepth hid]
        · have := hs.region
          rw [ht] at this
          cases this
    · have hp' := (insertJump_forward hid ht).1 hp
      exact insertJump_settled hI hsite hl hp' (fun h => absurd h ht) (hI.settled p id hl hc' hp')

end Jump

/-! ### Whole runs -/

/-- After an invalidation nothing is cached. -/
theorem inv_of_not_cached {s : CfgProc} (hwf : s.cfg.WF) (hmin : s.minIdepth = s.maxIdepth)
    (hle : ∀ id, s.idepth id ≤ s.maxIdepth) : s.Inv := by
  have hnot : ∀ id, ¬ s.Cached id := fun id hc => (hmin ▸ hle id).not_gt hc
  exact ⟨hwf, hnot 0, fun hc => absurd hc (hnot _), hle, hmin.le, fun _ id _ hc => absurd hc (hnot id)⟩

/-- **Each step keeps the invariant.** -/
theorem Step.inv {s s' : CfgProc} {a : Action} (h : Step s a s') (hI : s.Inv) (hok : Meets s a) :
    s'.Inv := by
  obtain ⟨rank, hr⟩ := hI.wf.acyclic
  cases h with
  | @idepth s' id d hl hret =>
    obtain ⟨s₁, ⟨n, hn⟩, hreads⟩ := getIdepth_returns hI hok.1 hl
    obtain ⟨m, hm⟩ := hret
    have heq := @eq_of_mono _ (fun n => getIdepth n s id) (fun n r => getIdepth_succ) n m _ _ hn hm
    rw [Prod.mk.injEq] at heq
    exact heq.1 ▸ hreads.inv hI hr
  | @lca s' a b l ha hb hret =>
    obtain ⟨s₁, l', ⟨n, hn⟩, hreads, -⟩ := computeLca_returns hI hok.1 ha hb
    obtain ⟨m, hm⟩ := hret
    have heq := @eq_of_mono _ (fun n => computeLca n s a b)
      (fun n r => (computeLca_getIdom_succ n).1 s a b r) n m _ _ hn hm
    rw [Prod.mk.injEq] at heq
    exact heq.1 ▸ hreads.inv hI hr
  | @inline frm cfg idepth hwf hfrm hidepth =>
    refine inv_of_not_cached hwf rfl fun id => ?_
    change idepth id ≤ max s.maxIdepth frm.maxIdepth
    obtain h | ⟨y, h | h⟩ := hidepth id
    · rw [h]
      exact Nat.zero_le _
    · rw [h]
      exact (hI.le y).trans (le_max_left _ _)
    · rw [h]
      exact (hfrm y).trans (le_max_right _ _)
  | @rotate cfg idepth hwf hidepth =>
    refine inv_of_not_cached hwf rfl fun id => ?_
    change idepth id ≤ s.maxIdepth
    obtain h | ⟨y, h⟩ := hidepth id
    · rw [h]
      exact Nat.zero_le _
    · rw [h]
      exact hI.le y
  | jump hsite => exact insertJump_inv hI hsite hok.2

theorem Start.inv {s : CfgProc} (h : s.Start) : s.Inv :=
  inv_of_not_cached h.wf (h.minIdepth.trans h.maxIdepth.symm)
    fun id => (h.idepth id).le.trans (Nat.zero_le _)

theorem Run.inv {s₀ s : CfgProc} (h : Run Meets s₀ s) (hs : s₀.Start) : s.Inv := by
  induction h with
  | init => exact hs.inv
  | step _ hok hstep ih => exact hstep.inv ih hok

/-- A loop that its `If` leaves: the then branch goes round, the else branch returns. -/
def whileLoop : CfgProc where
  cfg := {
    itype := fun
      | 1 => .entry | 2 => .loop | 3 => .if_ | 4 => .then_ | 5 => .else_ | 6 => .return_ | _ => .nil
    inps := fun | 2 => [1, 4] | 3 => [2] | 4 | 5 => [3] | 6 => [5] | _ => []
    entry := 1
    pos := 7
    gvn := 7 }
  idepth := fun _ => 0
  minIdepth := 0
  maxIdepth := 0

theorem free_whileLoop {id : ℕ} (h : 7 ≤ id) :
    whileLoop.cfg.itype id = .nil ∧ whileLoop.cfg.inps id = [] := by
  obtain ⟨n, rfl⟩ := Nat.exists_eq_add_of_le' h
  exact ⟨rfl, rfl⟩

theorem edge_whileLoop {p id : ℕ} : whileLoop.cfg.Edge p id ↔
    (p, id) ∈ [(1, 2), (4, 2), (2, 3), (3, 4), (3, 5), (5, 6)] := by
  by_cases hid : id < 7
  · interval_cases id <;> simp [Cfg.Edge, Cfg.ctrls, whileLoop] <;> grind
  · have h := free_whileLoop (not_lt.1 hid)
    simp [Cfg.Edge, Cfg.ctrls, h]
    omega

theorem live_whileLoop {id : ℕ} : whileLoop.cfg.Live id ↔ 1 ≤ id ∧ id ≤ 6 := by
  have hstep {p id : ℕ} (he : (p, id) ∈ [(1, 2), (4, 2), (2, 3), (3, 4), (3, 5), (5, 6)])
      (h : whileLoop.cfg.Live p) : whileLoop.cfg.Live id := h.tail (edge_whileLoop.2 he)
  constructor
  · intro h
    rcases h.cases_tail with rfl | ⟨p, -, he⟩
    · decide
    · have he := edge_whileLoop.1 he
      simp only [List.mem_cons, Prod.mk.injEq, List.not_mem_nil, or_false] at he
      omega
  · rintro ⟨hle, hge⟩
    have h₂ : whileLoop.cfg.Live 2 := hstep (by decide) .refl
    have h₃ : whileLoop.cfg.Live 3 := hstep (by decide) h₂
    have h₅ : whileLoop.cfg.Live 5 := hstep (by decide) h₃
    interval_cases id
    · exact .refl
    · exact h₂
    · exact h₃
    · exact hstep (by decide) h₃
    · exact h₅
    · exact hstep (by decide) h₅

theorem start_whileLoop : whileLoop.Start where
  idepth _ := rfl
  minIdepth := rfl
  maxIdepth := rfl
  wf := {
    nil := rfl
    entry := rfl
    eq_entry := by
      intro id hid ht
      obtain ⟨hle, hge⟩ := live_whileLoop.1 hid
      interval_cases id <;> first | rfl | cases ht
    forward := by
      intro id hid hne
      obtain ⟨hle, hge⟩ := live_whileLoop.1 hid
      interval_cases id
      · exact absurd rfl hne
      all_goals exact ⟨_, List.mem_cons_self, by decide⟩
    inps_live := by
      intro p id _ he
      have he := edge_whileLoop.1 he
      simp only [List.mem_cons, Prod.mk.injEq, List.not_mem_nil, or_false] at he
      exact live_whileLoop.2 (by omega)
    back := by
      intro id p hid ht hp _
      obtain ⟨hle, hge⟩ := live_whileLoop.1 hid
      interval_cases id <;> cases ht
      obtain rfl := Option.some.inj hp
      -- the `If` is the only way to the back edge
      refine (dominates_iff (by decide)).2 (.inr fun p he => ?_)
      obtain rfl : p = 3 := by simpa using edge_whileLoop.1 he
      refine (dominates_iff (by decide)).2 (.inr fun p he => ?_)
      obtain rfl : p = 2 := by simpa using edge_whileLoop.1 he
      exact dominates_self
    two := by
      intro id ht
      by_cases hid : id < 7
      · interval_cases id <;> first | exact le_rfl | cases ht
      · rw [(free_whileLoop (not_lt.1 hid)).1] at ht
        cases ht
    acyclic := by
      refine ⟨fun id => min id 7, fun id => min_le_right _ _, fun (p id : ℕ) hid hp => ?_⟩
      have he := edge_whileLoop.1 hp.edge
      simp only [List.mem_cons, Prod.mk.injEq, List.not_mem_nil, or_false] at he
      obtain ⟨rfl, rfl⟩ | ⟨rfl, rfl⟩ | he := he
      · decide
      · -- the back edge is not a forward one
        exact absurd (List.mem_singleton.1 hp.1) (by decide)
      · change min p 7 < min id 7
        omega
    entry_lt := by decide
    inps_lt := by
      intro id p hp
      by_cases hid : id < 7
      · change p < 7
        interval_cases id <;> simp [whileLoop] at hp <;> grind
      · rw [(free_whileLoop (not_lt.1 hid)).2] at hp
        cases hp
    free := fun id hid => free_whileLoop hid }
/-- The scheduler puts a `Jump` between the entry and the `Loop`. -/
theorem jumpSite_whileLoop {s : CfgProc} (h : s.cfg = whileLoop.cfg) : s.JumpSite 1 2 0 := by
  refine ⟨?_, ?_, ?_, ?_, ?_⟩
  · rw [h]
    exact live_whileLoop.2 (by decide)
  · rw [h]
    exact live_whileLoop.2 (by decide)
  · rw [h]
    rfl
  · rw [h]
    exact .inr rfl
  · rw [h]
    decide

/-- **A `Loop` whose depth has been read is as deep as a `Jump` before it.** -/
theorem not_right_cachedLoop : ∃ s₀ s, s₀.Start ∧ Run (fun _ _ => True) s₀ s ∧ s.Fits ∧ ¬ s.Right := by
  let s₁ : CfgProc := ((whileLoop.setIdepth 1 1).1.setIdepth 2 2).1
  let s : CfgProc := s₁.insertJump 1 2 0
  have hread : Step whileLoop (.idepth 2) s₁ :=
    .idepth (d := 2) (live_whileLoop.2 (by decide)) ⟨2, rfl⟩
  have hjump : Step s₁ (.jump 1 2 0) s := .jump (jumpSite_whileLoop rfl)
  refine ⟨whileLoop, s, start_whileLoop, (Run.init.step trivial hread).step trivial hjump,
    by decide, fun hright => ?_⟩
  have hedge₁ : s.cfg.Edge 1 7 := ⟨List.mem_singleton.2 rfl, by decide⟩
  have hedge₂ : s.cfg.Edge 7 2 := ⟨List.mem_cons_self, by decide⟩
  have hlive : s.cfg.Live 2 := (Relation.ReflTransGen.single hedge₁).tail hedge₂
  obtain ⟨t₁, d, t₂, y, t₃, e, ⟨n₁, h₁⟩, ⟨n₂, h₂⟩, ⟨n₃, h₃⟩, hlt⟩ := hright.decreasing 2 hlive (by decide)
  have hd := @eq_of_mono _ (fun n => getIdepth n s 2) (fun n r => getIdepth_succ) 1 n₁ (s, 2) _ rfl h₁
  cases hd
  have hy := @eq_of_mono _ (fun n => getIdom n s 2) (fun n r => (computeLca_getIdom_succ n).2 s 2 r)
    1 n₂ (s, 7) _ rfl h₂
  cases hy
  have he := @eq_of_mono _ (fun n => getIdepth n s 7) (fun n r => getIdepth_succ) 2 n₃
    ((s.setIdepth 7 2).1, 2) _ rfl h₃
  cases he
  exact lt_irrefl _ hlt

/-- **In a run that puts no `Jump` before a `Loop` with a cached depth, all is right.** -/
theorem right_of_run {s₀ s : CfgProc} (hs : s₀.Start) (h : Run Meets s₀ s) (hf : s.Fits) : s.Right :=
  right_of_inv (h.inv hs) hf

/-- The `Jump` comes first here. -/
theorem right_uncachedLoop : (whileLoop.insertJump 1 2 0).Right :=
  right_of_run start_whileLoop
    (.step .init ⟨by decide, fun hc => absurd hc (by decide)⟩ (.jump (jumpSite_whileLoop rfl)))
    (by decide)

end CfgProc

end OdinSon
