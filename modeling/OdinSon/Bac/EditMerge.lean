import OdinSon.Bac.EditLinks

/-!
# Merging nodes

`subsume` gives the uses of one node to another.  The users have new inputs then, so they may have
become equal to nodes that the interner has, and are subsumed in turn, in the middle of the outer
call.

What the nested calls do is followed with a set `R` of nodes whose inputs may change and an
equivalence `C` that contains every pair they can merge.  Nodes of the set `z` take no part in it.
For a call from outside nothing has to be excluded, and `R` and `C` are everything; `subsume` with
the nil node needs that its target takes no part.
-/

namespace OdinSon

/-- A node without its links. -/
def Node.shape (n : Node) : Node := { n with inps := [], outs := [] }

theorem Node.eq_of_shape {a b : Node} (hs : a.shape = b.shape) (hi : a.inps = b.inps)
    (ho : a.outs = b.outs) : a = b := by
  calc a = { a.shape with inps := a.inps, outs := a.outs } := rfl
    _ = { b.shape with inps := b.inps, outs := b.outs } := by rw [hs, hi, ho]
    _ = b := rfl

namespace Graph

variable {g g' : Graph} {d : NodeId → NodeOutput → ℤ} {id m w t x : NodeId} {o out : NodeOutput}
  {fuel : ℕ}

/-! ### Time passes -/

/-- Deleted nodes stay deleted, and the arena does not shrink. -/
structure Later (g g' : Graph) : Prop where
  pos : g.pos ≤ g'.pos
  dead : ∀ x, g.getNode x = .dead → g'.getNode x = .dead

theorem Later.refl (g : Graph) : g.Later g := ⟨le_rfl, fun _ h => h⟩

theorem Later.trans {g₁ g₂ g₃ : Graph} (h₁ : g₁.Later g₂) (h₂ : g₂.Later g₃) : g₁.Later g₃ :=
  ⟨h₁.pos.trans h₂.pos, fun x h => h₂.dead x (h₁.dead x h)⟩

theorem Later.of_mem (hpos : g.pos ≤ g'.pos) (hmem : g'.mem = g.mem) : g.Later g' :=
  ⟨hpos, fun x h => (getNode_congr hmem x).trans h⟩

theorem Shrinks.later (h : g.Shrinks g') : g.Later g' :=
  ⟨h.pos.ge, fun _ => h.dead⟩

/-! ### The users get their new input -/

/-- What `redirect` has written. -/
structure Redirected (w : NodeId) (outs : List NodeOutput) (g g' : Graph) : Prop where
  pos : g'.pos = g.pos
  live : ∀ o ∈ outs, o ≠ .pin → (g.getNode o.id).itype ≠ .dead ∧
    o.idx < (g.getNode o.id).inps.length
  no_pin : w = 0 → .pin ∉ outs
  outs_eq : ∀ x, (g'.getNode x).outs = (g.getNode x).outs
  shape : ∀ x, (g'.getNode x).shape = (g.getNode x).shape
  length : ∀ x, (g'.getNode x).inps.length = (g.getNode x).inps.length
  inps : ∀ x i, (g'.getNode x).inps[i]? =
    if (⟨x, i⟩ : NodeOutput) ∈ outs ∧ (⟨x, i⟩ : NodeOutput) ≠ .pin then some w
    else (g.getNode x).inps[i]?

theorem shape_setInps (g : Graph) (id : NodeId) (l : List NodeId) (x : NodeId) :
    ((g.setInps id l).getNode x).shape = (g.getNode x).shape := by
  rw [setInps, getNode_setNode]
  split
  · rename_i h
    rw [h.1]
    rfl
  · rfl

theorem itype_of_shape {a b : Node} (h : a.shape = b.shape) : a.itype = b.itype := by
  have := congrArg Node.itype h
  exact this

/-- One input is written. -/
theorem getElem?_setInps_set {l : List NodeId} {i : ℕ} (hid : out.id ≠ 0) (hlt : out.idx < l.length)
    (hl : (g.getNode out.id).inps = l) :
    ((g.setInps out.id (l.set out.idx w)).getNode x).inps[i]? =
      if (⟨x, i⟩ : NodeOutput) = out then some w else (g.getNode x).inps[i]? := by
  rw [inps_setInps]
  by_cases hx : x = out.id
  · subst hx
    rw [if_pos ⟨rfl, hid⟩, List.getElem?_set, hl]
    by_cases hi : out.idx = i
    · subst hi
      rw [if_pos rfl, if_pos hlt, if_pos rfl]
    · rw [if_neg hi, if_neg]
      intro hc
      exact hi (congrArg NodeOutput.idx hc).symm
  · rw [if_neg fun hc => hx hc.1, if_neg]
    intro hc
    exact hx (congrArg NodeOutput.id hc)

theorem redirect_spec {outs : List NodeOutput} (h : redirect w outs g = some g') :
    Redirected w outs g g' := by
  induction outs generalizing g with
  | nil =>
    cases h
    exact ⟨rfl, fun _ h => (List.not_mem_nil h).elim, fun _ => List.not_mem_nil, fun _ => rfl,
      fun _ => rfl, fun _ => rfl, fun _ _ => by simp⟩
  | cons out outs ih =>
    rw [redirect] at h
    by_cases hpin : out = .pin ∧ w ≠ 0
    · -- a pin is passed over, which only `w ≠ 0` allows
      rw [if_pos hpin] at h
      have hr := ih h
      refine ⟨hr.pos, ?_, fun hw => absurd hw hpin.2, hr.outs_eq, hr.shape, hr.length, ?_⟩
      · intro o ho hne
        rcases List.mem_cons.1 ho with rfl | ho
        · exact absurd hpin.1 hne
        · exact hr.live o ho hne
      · intro x i
        rw [hr.inps x i]
        refine if_congr ⟨fun hc => ⟨List.mem_cons_of_mem _ hc.1, hc.2⟩, fun hc => ⟨?_, hc.2⟩⟩ rfl rfl
        rcases List.mem_cons.1 hc.1 with heq | hmem
        · exact absurd (heq.trans hpin.1) hc.2
        · exact hmem
    · rw [if_neg hpin] at h
      simp only [Option.bind_eq_bind, Option.bind_eq_some_iff, Option.guard_eq_some'] at h
      obtain ⟨g₁, h₁, _, hlt, h₂⟩ := h
      obtain ⟨hlive, hmem, hpos⟩ := unintern_spec h₁
      rw [getNode_congr hmem] at hlt h₂
      -- node 0 has no inputs, so it cannot be a user
      have hid : out.id ≠ 0 := by
        intro h0
        rw [h0] at hlt
        exact absurd hlt (Nat.not_lt_zero _)
      have hr := ih h₂
      have hlen : ∀ x, ((g₁.setInps out.id ((g.getNode out.id).inps.set out.idx w)).getNode
          x).inps.length = (g.getNode x).inps.length := by
        intro x
        rw [inps_setInps, getNode_congr hmem]
        split
        · rename_i hx
          rw [hx.1, List.length_set]
        · rfl
      have hshape : ∀ x, ((g₁.setInps out.id ((g.getNode out.id).inps.set out.idx w)).getNode
          x).shape = (g.getNode x).shape := by
        intro x
        rw [shape_setInps, getNode_congr hmem]
      refine ⟨hr.pos.trans hpos, ?_, fun hw hp => ?_, fun x => ?_, fun x => ?_, fun x => ?_, ?_⟩
      · intro o ho hne
        rcases List.mem_cons.1 ho with rfl | ho
        · exact ⟨hlive, hlt⟩
        · have := hr.live o ho hne
          rwa [hlen, itype_of_shape (hshape o.id)] at this
      · rcases List.mem_cons.1 hp with heq | hp
        · rw [← heq] at hid
          exact hid rfl
        · exact hr.no_pin hw hp
      · rw [hr.outs_eq, outs_setInps, getNode_congr hmem]
      · rw [hr.shape, hshape]
      · rw [hr.length, hlen]
      · intro x i
        rw [hr.inps, getElem?_setInps_set hid hlt (by rw [getNode_congr hmem]), getNode_congr hmem]
        -- an input that later users redirect too ends at `w` all the same
        by_cases hrest : (⟨x, i⟩ : NodeOutput) ∈ outs ∧ (⟨x, i⟩ : NodeOutput) ≠ .pin
        · rw [if_pos hrest, if_pos ⟨List.mem_cons_of_mem _ hrest.1, hrest.2⟩]
        · rw [if_neg hrest]
          by_cases heq : (⟨x, i⟩ : NodeOutput) = out
          · rw [if_pos heq, if_pos]
            refine ⟨heq ▸ List.mem_cons_self, fun hp => hid ?_⟩
            rw [← heq, hp]
            rfl
          · rw [if_neg heq, if_neg]
            rintro ⟨hmem', hne⟩
            rcases List.mem_cons.1 hmem' with h' | h'
            · exact heq h'
            · exact hrest ⟨h', hne⟩

/-! ### What holds between the nested calls -/

/-- Which merges can happen, in terms of the graph `g₀` at the start: `C` contains what the interner
can find equal once equivalent inputs have been replaced by each other, the set `R` is closed under
it, and the nodes of `z` are equivalent to no node of `R` and not in `R` themselves. -/
structure Rules (R : NodeId → Prop) (C : NodeId → NodeId → Prop) (z : NodeId → Prop) (g₀ : Graph) :
    Prop where
  equiv : Equivalence C
  congr : ∀ a b, (g₀.getNode b).itype.isInterned = true →
    (g₀.getNode a).shape = (g₀.getNode b).shape →
    (g₀.getNode a).inps.length = (g₀.getNode b).inps.length →
    (∀ i, C ((g₀.getNode a).inp i) ((g₀.getNode b).inp i)) → C a b
  closed : ∀ a u, R u → C a u → a ≠ 0 → R a
  apart : ∀ a u, R u → a ≠ u → a ≠ 0 → C a u → ¬ z a ∧ ¬ z u

/-- The graph between two merges. -/
structure Mid (R : NodeId → Prop) (C : NodeId → NodeId → Prop) (z : NodeId → Prop) (g₀ g : Graph)
    (d : NodeId → NodeOutput → ℤ) : Prop where
  clean : g.Clean
  links : g.Links d
  node : ∀ x, g.getNode x = .dead ∨ (g.getNode x).shape = (g₀.getNode x).shape ∧
    (g.getNode x).inps.length = (g₀.getNode x).inps.length ∧
    ∀ i, C ((g₀.getNode x).inp i) ((g.getNode x).inp i)
  users : ∀ x, R x → ∀ o ∈ (g.getNode x).outs, o ≠ .pin → R o.id
  unused : ∀ m, z m → ∀ x, m ∉ (g.getNode x).inps

/-- Where the lists may be off between two merges: at a node that takes no part, at places of deleted
nodes, and where `p` allows it. -/
def Off (z : NodeId → Prop) (p : NodeId → NodeOutput → Prop) (g : Graph)
    (d : NodeId → NodeOutput → ℤ) : Prop :=
  ∀ m o, m ≠ 0 → o ≠ .pin → d m o ≠ 0 → z m ∨ 0 < d m o ∧ (g.getNode o.id = .dead ∨ p m o)

variable {R : NodeId → Prop} {C : NodeId → NodeId → Prop} {z : NodeId → Prop} {g₀ : Graph}
  {p : NodeId → NodeOutput → Prop}

theorem Off.later (h : Off z p g d) (hl : g.Later g') : Off z p g' d := by
  intro m o hm ho hd
  rcases h m o hm ho hd with hz | ⟨hpos, hdead | hp⟩
  · exact .inl hz
  · exact .inr ⟨hpos, .inl (hl.dead _ hdead)⟩
  · exact .inr ⟨hpos, .inr hp⟩

theorem Mid.congr (h : Mid R C z g₀ g d) (hmem : g'.mem = g.mem) : Mid R C z g₀ g' d where
  clean := h.clean.congr hmem
  links := h.links.congr hmem
  node x := by
    rw [getNode_congr hmem]
    exact h.node x
  users x hx o ho := by
    rw [getNode_congr hmem] at ho
    exact h.users x hx o ho
  unused m hm x := by
    rw [getNode_congr hmem]
    exact h.unused m hm x

theorem shape_of_key {a b : Node} (h : a.key = b.key) : a.shape = b.shape := by
  have := congrArg Node.shape h
  exact this

theorem inp_of_key {a b : Node} (h : a.key = b.key) (i : ℕ) : a.inp i = b.inp i := by
  rw [Node.inp, Node.inp, inps_of_key h]

theorem Mid.removes (h : Mid R C z g₀ g d) {P : NodeId → Prop} {e : NodeId → NodeOutput → ℤ}
    (hr : g.Removes g' P e) : Mid R C z g₀ g' fun m o => d m o - e m o where
  clean := hr.shrinks.clean h.clean
  links := hr.links d h.links
  node x := by
    rcases hr.shrinks.node x with hd | ⟨hk, -⟩
    · exact .inl hd
    · rcases h.node x with hd | hx
      · exact .inl (hr.shrinks.dead hd)
      · simp only [shape_of_key hk, inps_of_key hk, inp_of_key hk]
        exact .inr hx
  users x hx o ho := by
    rcases hr.shrinks.node x with hd | ⟨-, hsub⟩
    · rw [hd] at ho
      exact (List.not_mem_nil ho).elim
    · exact h.users x hx o (hsub ho)
  unused m hm x hx := by
    rcases hr.shrinks.node x with hd | ⟨hk, -⟩
    · rw [hd] at hx
      exact List.not_mem_nil hx
    · rw [inps_of_key hk] at hx
      exact h.unused m hm x hx

theorem isInterned_ne {t : NodeType} (h : t.isInterned = true) : t ≠ .dead ∧ t ≠ .nil := by
  constructor <;> rintro rfl <;> cases h

/-- What the interner finds equal is equivalent. -/
theorem Mid.intern (hR : Rules R C z g₀) (h : Mid R C z g₀ g d) {nid : NodeId}
    (hi : g.intern id = some (g', nid)) (hne : nid ≠ id) :
    nid ≠ 0 ∧ id ≠ 0 ∧ C nid id := by
  obtain ⟨-, -, -, rfl | ⟨hint, hkey⟩⟩ := intern_spec hi
  · exact absurd rfl hne
  · obtain ⟨hdead, hnil⟩ := isInterned_ne hint
    have hnz {y : NodeId} (hy : (g.getNode y).itype = (g.getNode id).itype) : y ≠ 0 := by
      rintro rfl
      exact hnil hy.symm
    refine ⟨hnz (itype_of_key hkey), hnz rfl, ?_⟩
    have hnode {y : NodeId} (hy : (g.getNode y).itype = (g.getNode id).itype) :=
      (h.node y).resolve_left fun hd => hdead (by rw [← hy, hd]; rfl)
    obtain ⟨hs, hl, hc⟩ := hnode rfl
    obtain ⟨hs', hl', hc'⟩ := hnode (itype_of_key hkey)
    refine hR.congr nid id ?_ ?_ ?_ fun i => ?_
    · rwa [itype_of_shape hs] at hint
    · rw [← hs', ← hs, shape_of_key hkey]
    · rw [← hl', ← hl, inps_of_key hkey]
    · refine hR.equiv.trans (hc' i) (hR.equiv.symm ?_)
      rw [inp_of_key hkey]
      exact hc i

/-! ### One merge -/

theorem Redirected.dead {outs : List NodeOutput} (h : Redirected w outs g g')
    (hx : g.getNode x = .dead) : g'.getNode x = .dead := by
  have hlen := h.length x
  rw [hx] at hlen
  refine Node.eq_of_shape ((h.shape x).trans (by rw [hx])) ?_ ((h.outs_eq x).trans (by rw [hx]))
  exact List.length_eq_zero_iff.1 hlen

/-- The graph with the uses of `t` in the list of `w`. -/
def moveOuts (g : Graph) (w t : NodeId) : Graph :=
  (g.setOuts w ((g.getNode w).outs ++ (g.getNode t).outs)).setOuts t []

theorem key_moveOuts (g : Graph) (w t x : NodeId) :
    ((g.moveOuts w t).getNode x).key = (g.getNode x).key := by
  rw [moveOuts, key_setOuts, key_setOuts]

theorem outs_moveOuts (ht : t ≠ 0) (hw : w ≠ 0) (x : NodeId) :
    ((g.moveOuts w t).getNode x).outs = if x = t then [] else if x = w then
      (g.getNode w).outs ++ (g.getNode t).outs else (g.getNode x).outs := by
  rw [moveOuts, outs_setOuts, outs_setOuts]
  simp only [ht, hw, ne_eq, not_false_eq_true, and_true]

/-- The users of `t` use `w`, and everything is as before. -/
theorem Mid.redirect (hR : Rules R C z g₀) (h : Mid R C z g₀ g d)
    (hoff : Off z (fun m o => o.id = t ∧ m ≠ t) g d) (ht : t ≠ 0) (hw : w ≠ 0) (hwt : w ≠ t)
    (hRt : R t) (hC : C w t) (hzw : ¬ z w) (hzt : ¬ z t)
    (hr : Redirected w (g.getNode t).outs (g.moveOuts w t) g') (hlater : g.Later g') :
    Mid R C z g₀ g' d := by
  have hkey := key_moveOuts g w t
  have houts := outs_moveOuts (g := g) ht hw
  -- a place in the list of `t` is one that holds `t`
  have hdt : ∀ o, o ≠ .pin → d t o = 0 := by
    intro o ho
    by_contra hne
    rcases hoff t o ht ho hne with hz | ⟨hpos, hdead | hp⟩
    · exact hzt hz
    · have hcount := h.links t ht o ho
      rw [useCount_of_dead hdead, zero_add] at hcount
      have hmem : o ∈ (g.getNode t).outs := List.count_pos_iff.1 (by omega)
      refine (hr.live o hmem ho).1 ?_
      rw [itype_of_key (hkey o.id), hdead]
      rfl
    · exact hp.2 rfl
  have hmemt : ∀ o, o ≠ .pin → ((g.getNode t).outs.count o : ℤ) = g.useCount t o := by
    intro o ho
    rw [h.links t ht o ho, hdt o ho, add_zero]
  have hin : ∀ x i, (⟨x, i⟩ : NodeOutput) ∈ (g.getNode t).outs → (⟨x, i⟩ : NodeOutput) ≠ .pin →
      (g.getNode x).inps[i]? = some t := by
    intro x i hmem hne
    have hc := hmemt _ hne
    have hpos := List.count_pos_iff.2 hmem
    rw [useCount] at hc
    by_contra hno
    rw [if_neg hno] at hc
    omega
  refine ⟨?_, ?_, ?_, ?_, ?_⟩
  · intro x hx
    rw [itype_of_shape (hr.shape x), itype_of_key (hkey x)] at hx
    exact hlater.dead x (h.clean x hx)
  · intro m hm o ho
    obtain ⟨n, i⟩ := o
    have hold := h.links m hm _ ho
    have ht' := hmemt _ ho
    have huse : g'.useCount m ⟨n, i⟩ = if (⟨n, i⟩ : NodeOutput) ∈ (g.getNode t).outs then
        if w = m then 1 else 0 else g.useCount m ⟨n, i⟩ := by
      simp only [useCount, hr.inps, inps_of_key (hkey n), ho, ne_eq, not_false_eq_true, and_true]
      split <;> simp
    have htuse : (⟨n, i⟩ : NodeOutput) ∈ (g.getNode t).outs →
        g.useCount m ⟨n, i⟩ = if t = m then 1 else 0 := by
      intro hmem
      simp [useCount, hin n i hmem ho]
    rw [hr.outs_eq, houts, huse]
    by_cases hmem : (⟨n, i⟩ : NodeOutput) ∈ (g.getNode t).outs
    · have hcount : ((g.getNode t).outs.count ⟨n, i⟩ : ℤ) = 1 := by
        rw [ht', useCount, hin n i hmem ho, if_pos rfl]
      rw [htuse hmem] at hold
      rw [if_pos hmem]
      by_cases hmt : m = t
      · subst hmt
        rw [if_pos rfl, if_neg hwt, List.count_nil, hdt _ ho]
        rfl
      · rw [if_neg hmt]
        rw [if_neg (Ne.symm hmt)] at hold
        by_cases hmw : m = w
        · subst hmw
          rw [if_pos rfl, if_pos rfl, List.count_append]
          push_cast
          rw [hold, hcount]
          ring
        · rw [if_neg hmw, if_neg (Ne.symm hmw), hold]
    · rw [if_neg hmem]
      have hzero : (g.getNode t).outs.count ⟨n, i⟩ = 0 := List.count_eq_zero.2 hmem
      by_cases hmt : m = t
      · subst hmt
        rw [if_pos rfl, ← ht', hzero, hdt _ ho]
        rfl
      · rw [if_neg hmt]
        by_cases hmw : m = w
        · subst hmw
          rw [if_pos rfl, List.count_append, hzero]
          exact hold
        · rw [if_neg hmw]
          exact hold
  · intro x
    rcases h.node x with hx | ⟨hs, hl, hc⟩
    · exact .inl (hlater.dead x hx)
    · refine .inr ⟨?_, ?_, fun i => ?_⟩
      · rw [hr.shape, shape_of_key (hkey x), hs]
      · rw [hr.length, inps_of_key (hkey x), hl]
      · have hi := hr.inps x i
        rw [inps_of_key (hkey x)] at hi
        by_cases hmem : (⟨x, i⟩ : NodeOutput) ∈ (g.getNode t).outs ∧ (⟨x, i⟩ : NodeOutput) ≠ .pin
        · rw [if_pos hmem] at hi
          have hold := hc i
          rw [Node.inp, Node.inp, List.getD_eq_getElem?_getD, List.getD_eq_getElem?_getD,
            hin x i hmem.1 hmem.2] at hold
          rw [Node.inp, Node.inp, List.getD_eq_getElem?_getD, List.getD_eq_getElem?_getD, hi]
          exact hR.equiv.trans hold (hR.equiv.symm hC)
        · rw [if_neg hmem] at hi
          have hold := hc i
          rw [Node.inp, Node.inp, List.getD_eq_getElem?_getD, List.getD_eq_getElem?_getD] at hold ⊢
          rwa [hi]
  · intro x hx o ho hne
    rw [hr.outs_eq, houts] at ho
    split at ho
    · exact (List.not_mem_nil ho).elim
    · split at ho
      · rename_i hxw
        subst hxw
        rcases List.mem_append.1 ho with ho | ho
        · exact h.users x hx o ho hne
        · exact h.users t hRt o ho hne
      · exact h.users x hx o ho hne
  · intro m hm x hx
    obtain ⟨i, hi⟩ := List.mem_iff_getElem?.1 hx
    rw [hr.inps] at hi
    split at hi
    · cases hi
      exact hzw hm
    · rw [inps_of_key (hkey x)] at hi
      exact h.unused m hm x (List.mem_of_getElem? hi)

theorem deleteNode_dead (h : deleteNode fuel g id = some g') (hlive : (g.getNode id).itype ≠ .dead)
    (hid : id ≠ 0) (hnil : (g.getNode id).outs = []) : g'.getNode id = .dead := by
  cases fuel with
  | zero => cases h
  | succ fuel =>
    rw [deleteNode, if_neg (by simp [hnil, hid, hlive])] at h
    simp only [Option.bind_eq_bind, Option.bind_eq_some_iff, Option.guard_eq_some'] at h
    obtain ⟨_, -, g₁, -, g₂, -, hkill⟩ := h
    cases hkill
    exact getNode_setNode_self _ hid

theorem pin_spec (h : g.pin w = some g') :
    g.Later g' ∧ (∀ x, (g'.getNode x).key = (g.getNode x).key) ∧
      ∀ x, (g'.getNode x).outs = (g.getNode x).outs ∨
        x = w ∧ (g'.getNode x).outs = (g.getNode x).outs ++ [.pin] := by
  obtain ⟨-, rfl⟩ | ⟨hw, hlive, hpos, hmem⟩ := addOutput_spec h
  · exact ⟨.refl _, fun _ => rfl, fun _ => .inl rfl⟩
  · refine ⟨⟨hpos, fun x hx => ?_⟩, fun x => ?_, fun x => ?_⟩
    · rw [getNode_congr hmem, setOuts, getNode_setNode_ne, hx]
      rintro rfl
      exact hlive (by rw [hx]; rfl)
    · rw [getNode_congr hmem, key_setOuts]
    · rw [getNode_congr hmem, outs_setOuts]
      by_cases hx : x = w
      · subst hx
        exact .inr ⟨rfl, if_pos ⟨rfl, hw⟩⟩
      · exact .inl (if_neg fun hc => hx hc.1)

/-- The graph after each part of a merge into a node: the uses have moved (`g₂`), the target has gone
(`g₄`), and the users are back in the interner (`g₅`). -/
structure MergeSteps (fuel : ℕ) (g : Graph) (w t : NodeId) (g' g₁ g₂ g₃ g₄ g₅ : Graph)
    (kept : List NodeOutput) : Prop where
  target : t ≠ 0
  ne : w ≠ t
  live_w : (g₁.getNode w).itype ≠ .dead
  live_t : (g₁.getNode t).itype ≠ .dead
  mem : g₁.mem = g.mem
  later₁ : g.Later g₁
  moved : Redirected w (g₁.getNode t).outs (g₁.moveOuts w t) g₂
  later₂ : g₁.Later g₂
  pinned : g₂.pin w = some g₃
  deleted : g₃.Removes g₄ (· ≠ t) fun _ _ => 0
  dead : g₄.getNode t = .dead
  mem_kept : ∀ o ∈ kept, o ∈ (g₁.getNode t).outs ∧ o ≠ .pin
  reinterned : reintern (subsume fuel) kept g₄ = some g₅
  unpinned : g₅.Removes g' (fun _ => True) (at_ w .pin)

theorem later_moveOuts (hw : (g.getNode w).itype ≠ .dead) : g.Later (g.moveOuts w t) := by
  refine ⟨le_rfl, fun x hx => Node.eq_dead (by rw [key_moveOuts, hx]) ?_⟩
  have hxw : x ≠ w := by
    rintro rfl
    exact hw (by rw [hx]; rfl)
  rw [moveOuts, outs_setOuts]
  split
  · exact List.Subset.refl _
  · rw [outs_setOuts, if_neg fun hc => hxw hc.1, hx]
    exact List.Subset.refl _

theorem subsume_steps (hw : w ≠ 0) (hg : subsume (fuel + 1) g w t = some g') :
    ∃ g₁ g₂ g₃ g₄ g₅ kept, MergeSteps fuel g w t g' g₁ g₂ g₃ g₄ g₅ kept := by
  rw [subsume] at hg
  simp only [hw, if_false, Option.bind_eq_bind, Option.bind_eq_some_iff,
    Option.guard_eq_some'] at hg
  obtain ⟨_, ht, _, hwl, _, htl, _, hwt, g₁, hcap, _, -, g₂, hred, g₃, hpin, g₄, hdel, g₅, hre,
    hunpin⟩ := hg
  obtain ⟨hmem, hpos⟩ := ensureAvailableOutputCap_spec hcap
  rw [← getNode_congr hmem] at hwl htl hred hre
  have hr : Redirected w (g₁.getNode t).outs (g₁.moveOuts w t) g₂ := redirect_spec hred
  obtain ⟨-, hkey₃, houts₃⟩ := pin_spec hpin
  have htype : (g₃.getNode t).itype ≠ .dead := by
    rwa [itype_of_key (hkey₃ t), itype_of_shape (hr.shape t), itype_of_key (key_moveOuts g₁ w t t)]
  have hnil : (g₃.getNode t).outs = [] := by
    refine ((houts₃ t).resolve_right fun hc => hwt hc.1.symm).trans ?_
    exact (hr.outs_eq t).trans ((outs_moveOuts ht hw t).trans (if_pos rfl))
  refine ⟨g₁, g₂, g₃, g₄, g₅, _, ht, hwt, hwl, htl, hmem, .of_mem hpos hmem, hr,
    (later_moveOuts hwl).trans ⟨hr.pos.ge, fun _ => hr.dead⟩, hpin, deleteNode_spec hdel,
    deleteNode_dead hdel htype ht hnil, fun o ho => ?_, hre,
    removeOutput_spec (fun _ _ _ => deleteNode_spec) hunpin⟩
  simp only [List.mem_reverse, List.mem_flatMap, List.mem_filter, decide_eq_true_eq] at ho
  obtain ⟨out, hout, -, rfl⟩ := ho
  exact hout

/-! ### Deleted nodes stay deleted -/

/-- Deleted nodes stay deleted in `sub`, and its target is gone if it moved to a node. -/
def Kills (sub : Graph → NodeId → NodeId → Option Graph) : Prop :=
  ∀ g w t g', sub g w t = some g' → g.Later g' ∧ (w ≠ 0 → g'.getNode t = .dead)

theorem Kills.giveWay {sub : Graph → NodeId → NodeId → Option Graph} (hsub : Kills sub)
    {nid : NodeId} (hg : g.giveWay sub nid id = some g') : g.Later g' := by
  unfold Graph.giveWay at hg
  split at hg
  · cases hg
    exact .refl _
  · exact (hsub _ _ _ _ hg).1

theorem later_intern {nid : NodeId} (h : g.intern id = some (g', nid)) : g.Later g' := by
  obtain ⟨-, hmem, hpos, -⟩ := intern_spec h
  exact .of_mem hpos hmem

theorem Kills.reintern {sub : Graph → NodeId → NodeId → Option Graph} (hsub : Kills sub)
    {outs : List NodeOutput} (hg : Graph.reintern sub outs g = some g') : g.Later g' := by
  induction outs generalizing g with
  | nil =>
    cases hg
    exact .refl _
  | cons out outs ih =>
    rw [Graph.reintern] at hg
    split at hg
    · exact ih hg
    · simp only [Option.bind_eq_bind, Option.bind_eq_some_iff, Prod.exists] at hg
      obtain ⟨g₁, nid, hi, g₂, hg₂, hg⟩ := hg
      exact (later_intern hi).trans ((hsub.giveWay hg₂).trans (ih hg))

theorem Kills.reinternRound {sub : Graph → NodeId → NodeId → Option Graph} (hsub : Kills sub)
    {outs outs' : List NodeOutput} {c : Bool}
    (hg : Graph.reinternRound sub outs g = some (g', outs', c)) : g.Later g' := by
  induction outs generalizing g outs' c with
  | nil =>
    cases hg
    exact .refl _
  | cons out outs ih =>
    simp only [Graph.reinternRound, Option.bind_eq_bind, Option.bind_eq_some_iff, Prod.exists] at hg
    obtain ⟨g₁, nid, hi, g₂, hg₂, g₃, outs₃, c₃, hrest, hg⟩ := hg
    cases hg
    exact (later_intern hi).trans ((hsub.giveWay hg₂).trans (ih hrest))

theorem Kills.reinternRounds {sub : Graph → NodeId → NodeId → Option Graph} (hsub : Kills sub)
    {outs : List NodeOutput} {n : ℕ} (hg : Graph.reinternRounds sub n outs g = some g') :
    g.Later g' := by
  induction n generalizing g outs with
  | zero => cases hg
  | succ n ih =>
    simp only [Graph.reinternRounds, Option.bind_eq_bind, Option.bind_eq_some_iff,
      Prod.exists] at hg
    obtain ⟨g₁, outs₁, c, hround, hg⟩ := hg
    have hl := hsub.reinternRound hround
    split at hg
    · exact hl.trans (ih hg)
    · cases hg
      exact hl

theorem later_setOuts {l : List NodeOutput} (h : (g.getNode id).itype ≠ .dead ∨ l = []) :
    g.Later (g.setOuts id l) := by
  refine ⟨le_rfl, fun x hx => ?_⟩
  rw [setOuts, getNode_setNode]
  split
  · rename_i hxid
    obtain ⟨rfl, -⟩ := hxid
    rcases h with hlive | rfl
    · exact absurd (by rw [hx]; rfl) hlive
    · rw [hx]
      rfl
  · exact hx

theorem subsume_kills (fuel : ℕ) : Kills (subsume fuel) := by
  induction fuel with
  | zero =>
    intro g w t g' hg
    cases hg
  | succ fuel ih =>
    intro g w t g' hg
    by_cases hw : w = 0
    · rw [subsume] at hg
      simp only [hw, if_true, Option.bind_eq_bind, Option.bind_eq_some_iff,
        Option.guard_eq_some'] at hg
      obtain ⟨_, ht, _, -, _, -, g₁, hred, g₂, hround, hdel⟩ := hg
      have hr := redirect_spec hred
      refine ⟨?_, fun hw' => absurd hw hw'⟩
      have hl₁ : g.Later g₁ := ⟨hr.pos.ge, fun _ => hr.dead⟩
      exact hl₁.trans ((ih.reinternRounds hround).trans
        ((later_setOuts (.inr rfl)).trans (deleteNode_spec hdel).shrinks.later))
    · obtain ⟨g₁, g₂, g₃, g₄, g₅, kept, hs⟩ := subsume_steps hw hg
      have hl₄ := hs.deleted.shrinks.later
      have hl₅ := ih.reintern hs.reinterned
      have hl₆ := hs.unpinned.shrinks.later
      refine ⟨?_, fun _ => hl₆.dead t (hl₅.dead t hs.dead)⟩
      exact hs.later₁.trans (hs.later₂.trans ((pin_spec hs.pinned).1.trans
        (hl₄.trans (hl₅.trans hl₆))))

/-! ### The links are kept -/

theorem Mid.pin (h : Mid R C z g₀ g d) (hg : g.pin w = some g') : Mid R C z g₀ g' d := by
  obtain ⟨hlater, hkey, houts⟩ := pin_spec hg
  have hmem {x : NodeId} {o : NodeOutput} (ho : o ∈ (g'.getNode x).outs) (hne : o ≠ .pin) :
      o ∈ (g.getNode x).outs := by
    rcases houts x with heq | ⟨-, heq⟩
    · rwa [heq] at ho
    · rw [heq] at ho
      exact (List.mem_append.1 ho).resolve_right fun hc => hne (List.mem_singleton.1 hc)
  refine ⟨fun x hx => ?_, ?_, fun x => ?_, fun x hx o ho hne => ?_, fun m hm x => ?_⟩
  · rw [itype_of_key (hkey x)] at hx
    exact hlater.dead x (h.clean x hx)
  · refine (h.links.addOutput hg).congr_off fun m o _ ho => ?_
    rw [at_, if_neg fun hc => ho hc.2, add_zero]
  · simp only [shape_of_key (hkey x), inps_of_key (hkey x), inp_of_key (hkey x)]
    exact (h.node x).imp_left (hlater.dead x)
  · exact h.users x hx o (hmem ho hne) hne
  · rw [inps_of_key (hkey x)]
    exact h.unused m hm x

theorem Off.mono {q : NodeId → NodeOutput → Prop} (h : Off z p g d) (hq : ∀ m o, p m o → q m o) :
    Off z q g d := by
  intro m o hm ho hd
  exact (h m o hm ho hd).imp_right fun ⟨hpos, h⟩ => ⟨hpos, h.imp_right (hq m o)⟩

/-- What a merge of `t` into `w` keeps between the calls. -/
def Merges (R : NodeId → Prop) (C : NodeId → NodeId → Prop) (z : NodeId → Prop) (g₀ : Graph)
    (sub : Graph → NodeId → NodeId → Option Graph) : Prop :=
  ∀ g w t g' d, sub g w t = some g' → w ≠ 0 → R t → C w t → ¬ z w → ¬ z t → Mid R C z g₀ g d →
    Off z (fun m o => o.id = t ∧ m ≠ t) g d →
    Mid R C z g₀ g' d ∧ Off z (fun _ _ => False) g' d

section Reintern

variable {sub : Graph → NodeId → NodeId → Option Graph} (hR : Rules R C z g₀)
  (hsub : Merges R C z g₀ sub)

include hR hsub

/-- A node goes back into the interner, or is merged. -/
theorem Mid.giveWay (h : Mid R C z g₀ g d) (hoff : Off z (fun _ _ => False) g d) {g₁ : Graph}
    {nid : NodeId} (hi : g.intern id = some (g₁, nid)) (hid : R id)
    (hg : g₁.giveWay sub nid id = some g') :
    Mid R C z g₀ g' d ∧ Off z (fun _ _ => False) g' d ∧ R nid := by
  obtain ⟨-, hmem, hpos, -⟩ := intern_spec hi
  have hoff₁ := hoff.later (later_intern hi)
  unfold Graph.giveWay at hg
  by_cases hne : nid = id
  · rw [if_pos hne] at hg
    cases hg
    exact ⟨h.congr hmem, hoff₁, hne ▸ hid⟩
  · rw [if_neg hne] at hg
    obtain ⟨hn0, -, hC⟩ := h.intern hR hi hne
    obtain ⟨hzn, hzi⟩ := hR.apart nid id hid hne hn0 hC
    obtain ⟨hm, ho⟩ := hsub g₁ nid id g' d hg hn0 hid hC hzn hzi (h.congr hmem)
      (hoff₁.mono fun _ _ hf => hf.elim)
    exact ⟨hm, ho, hR.closed nid id hid hC hn0⟩

theorem Mid.reintern {outs : List NodeOutput} (houts : ∀ o ∈ outs, R o.id)
    (h : Mid R C z g₀ g d) (hoff : Off z (fun _ _ => False) g d)
    (hg : Graph.reintern sub outs g = some g') :
    Mid R C z g₀ g' d ∧ Off z (fun _ _ => False) g' d := by
  induction outs generalizing g with
  | nil =>
    cases hg
    exact ⟨h, hoff⟩
  | cons out outs ih =>
    have hrest : ∀ o ∈ outs, R o.id := fun o ho => houts o (List.mem_cons_of_mem _ ho)
    rw [Graph.reintern] at hg
    split at hg
    · exact ih hrest h hoff hg
    · simp only [Option.bind_eq_bind, Option.bind_eq_some_iff, Prod.exists] at hg
      obtain ⟨g₁, nid, hi, g₂, hg₂, hg⟩ := hg
      obtain ⟨h₂, hoff₂, -⟩ := h.giveWay hR hsub hoff hi (houts out List.mem_cons_self) hg₂
      exact ih hrest h₂ hoff₂ hg

theorem Mid.reinternRound {outs outs' : List NodeOutput} {c : Bool} (houts : ∀ o ∈ outs, R o.id)
    (h : Mid R C z g₀ g d) (hoff : Off z (fun _ _ => False) g d)
    (hg : Graph.reinternRound sub outs g = some (g', outs', c)) :
    Mid R C z g₀ g' d ∧ Off z (fun _ _ => False) g' d ∧ ∀ o ∈ outs', R o.id := by
  induction outs generalizing g outs' c with
  | nil =>
    cases hg
    exact ⟨h, hoff, houts⟩
  | cons out outs ih =>
    have hrest : ∀ o ∈ outs, R o.id := fun o ho => houts o (List.mem_cons_of_mem _ ho)
    simp only [Graph.reinternRound, Option.bind_eq_bind, Option.bind_eq_some_iff, Prod.exists] at hg
    obtain ⟨g₁, nid, hi, g₂, hg₂, g₃, outs₃, c₃, hg₃, hg⟩ := hg
    cases hg
    obtain ⟨h₂, hoff₂, hnid⟩ := h.giveWay hR hsub hoff hi (houts out List.mem_cons_self) hg₂
    obtain ⟨h₃, hoff₃, houts₃⟩ := ih hrest h₂ hoff₂ hg₃
    refine ⟨h₃, hoff₃, fun o ho => ?_⟩
    rcases List.mem_cons.1 ho with rfl | ho
    · exact hnid
    · exact houts₃ o ho

theorem Mid.reinternRounds {outs : List NodeOutput} {n : ℕ} (houts : ∀ o ∈ outs, R o.id)
    (h : Mid R C z g₀ g d) (hoff : Off z (fun _ _ => False) g d)
    (hg : Graph.reinternRounds sub n outs g = some g') : Mid R C z g₀ g' d := by
  induction n generalizing g outs with
  | zero => cases hg
  | succ n ih =>
    simp only [Graph.reinternRounds, Option.bind_eq_bind, Option.bind_eq_some_iff,
      Prod.exists] at hg
    obtain ⟨g₁, outs₁, c, hround, hg⟩ := hg
    obtain ⟨h₁, hoff₁, houts₁⟩ := h.reinternRound hR hsub houts hoff hround
    split at hg
    · exact ih houts₁ h₁ hoff₁ hg
    · cases hg
      exact h₁

end Reintern

/-- **Merging a node keeps the links**, with all the merges that follow from it. -/
theorem subsume_merges (hR : Rules R C z g₀) (fuel : ℕ) : Merges R C z g₀ (subsume fuel) := by
  induction fuel with
  | zero =>
    intro g w t g' d hg
    cases hg
  | succ fuel ih =>
    intro g w t g' d hg hw hRt hC hzw hzt h hoff
    obtain ⟨g₁, g₂, g₃, g₄, g₅, kept, hs⟩ := subsume_steps hw hg
    have h₁ := h.congr hs.mem
    have hoff₁ := hoff.later hs.later₁
    have h₂ := h₁.redirect hR hoff₁ hs.target hw hs.ne hRt hC hzw hzt hs.moved hs.later₂
    have h₃ := h₂.pin hs.pinned
    have hl₃ := (pin_spec hs.pinned).1
    have hl₄ := hs.deleted.shrinks.later
    have h₄ : Mid R C z g₀ g₄ d := by simpa only [sub_zero] using h₃.removes hs.deleted
    -- the places of the target are those of a deleted node from here on
    have hoff₄ : Off z (fun _ _ => False) g₄ d := by
      intro m o hm ho hd
      refine (((hoff₁.later hs.later₂).later hl₃).later hl₄ m o hm ho hd).imp_right ?_
      rintro ⟨hpos, hdead | ⟨rfl, -⟩⟩
      · exact ⟨hpos, .inl hdead⟩
      · exact ⟨hpos, .inl hs.dead⟩
    have hkept : ∀ o ∈ kept, R o.id := fun o ho =>
      h₁.users t hRt o (hs.mem_kept o ho).1 (hs.mem_kept o ho).2
    obtain ⟨h₅, hoff₅⟩ := h₄.reintern hR ih hkept hoff₄ hs.reinterned
    have h₆ := h₅.removes hs.unpinned
    refine ⟨⟨h₆.clean, h₆.links.congr_off fun m o _ ho => ?_, h₆.node, h₆.users, h₆.unused⟩,
      hoff₅.later hs.unpinned.shrinks.later⟩
    rw [at_, if_neg fun hc => ho hc.2, sub_zero]

end Graph

end OdinSon
