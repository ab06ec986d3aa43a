import OdinSon.Bac.EditMerge

/-!
# Runs of edits keep the links of a graph

Starting from the empty graph, any sequence of edits leaves a graph in which every node lists exactly
the places that hold it, each once, and nothing names a deleted node, with one exception.  When
`subsume` is given the nil node, it deletes its target with whatever is in the target's list by then.
A user of the target that has become equal to the target was merged into it by the interner, and the
users of that user are left with a deleted input (`defUse_fails`).  `Safe` excludes that, in terms
of the graph before the edit.
-/

namespace OdinSon

namespace Graph

variable {g g' : Graph} {d : NodeId → NodeOutput → ℤ} {id m w t x : NodeId} {o out : NodeOutput}
  {fuel : ℕ}

/-- **The two directions of the links agree**, and nothing names a deleted node.  A pin is an entry
for the nil node. -/
structure DefUse (g : Graph) : Prop where
  count : ∀ m n i, m ≠ 0 → n ≠ 0 → g.live m = true → g.live n = true →
    (g.getNode m).outs.count ⟨n, i⟩ = if (g.getNode n).inps[i]? = some m then 1 else 0
  inps_live : ∀ n, g.live n = true → ∀ m ∈ (g.getNode n).inps, g.live m = true
  outs_live : ∀ m, g.live m = true → ∀ o ∈ (g.getNode m).outs, g.live o.id = true

/-- What holds between two edits. -/
structure Good (g : Graph) : Prop where
  clean : g.Clean
  links : g.Links fun _ _ => 0
  pos : 0 < g.pos
  fresh : ∀ x, g.pos ≤ x → g.getNode x = .dead

theorem dead_of_not_live (hc : g.Clean) (h : ¬ g.live x = true) : g.getNode x = .dead := by
  refine hc x ?_
  simpa [Proc.live] using h

/-- A place that holds a node is in its list. -/
theorem Links.mem_outs (h : g.Links fun _ _ => 0) {i : ℕ} (hm : m ≠ 0)
    (hi : (g.getNode x).inps[i]? = some m) : (⟨x, i⟩ : NodeOutput) ∈ (g.getNode m).outs := by
  have hx : (⟨x, i⟩ : NodeOutput) ≠ .pin := by
    intro hp
    obtain ⟨rfl, rfl⟩ := NodeOutput.mk.inj hp
    cases hi
  have hcount : ((g.getNode m).outs.count ⟨x, i⟩ : ℤ) = g.useCount m ⟨x, i⟩ + 0 := h m hm _ hx
  rw [useCount, if_pos hi] at hcount
  exact List.count_pos_iff.1 (by omega)

/-- A place in the list of a node holds it. -/
theorem Links.inps_of_mem (h : g.Links fun _ _ => 0) (hm : m ≠ 0) (ho : o ≠ .pin)
    (hmem : o ∈ (g.getNode m).outs) : (g.getNode o.id).inps[o.idx]? = some m := by
  have hcount : ((g.getNode m).outs.count o : ℤ) = g.useCount m o + 0 := h m hm o ho
  have hpos := List.count_pos_iff.2 hmem
  rw [useCount] at hcount
  by_contra hno
  rw [if_neg hno] at hcount
  omega

theorem Good.agree (h : g.Good) : g.DefUse where
  count m n i hm hn _ _ := by
    have hcount := h.links m hm ⟨n, i⟩ fun hp => hn (congrArg NodeOutput.id hp)
    rw [useCount] at hcount
    split at hcount <;> split <;> simp_all
  inps_live n _ m hmem := by
    by_contra hm
    obtain ⟨i, hi⟩ := List.mem_iff_getElem?.1 hmem
    have hm0 : m ≠ 0 := by
      rintro rfl
      exact hm rfl
    have hout := h.links.mem_outs hm0 hi
    rw [dead_of_not_live h.clean hm] at hout
    exact List.not_mem_nil hout
  outs_live m _ o ho := by
    by_contra hno
    have hm0 : m ≠ 0 := by
      rintro rfl
      exact List.not_mem_nil ho
    have hpin : o ≠ .pin := by
      rintro rfl
      exact hno rfl
    have hi := h.links.inps_of_mem hm0 hpin ho
    rw [dead_of_not_live h.clean hno] at hi
    cases hi

theorem good_empty (hasDbg : Bool) : (empty hasDbg).Good := by
  have hdead : ∀ x, x ≠ 0 → (empty hasDbg).getNode x = .dead := fun x hx => Proc.getNode_of_ne _ hx
  refine ⟨fun x hx => ?_, fun m hm o ho => ?_, Nat.one_pos, fun x hx => ?_⟩
  · refine hdead x ?_
    rintro rfl
    cases hx
  · rw [hdead m hm, useCount]
    by_cases h0 : o.id = 0
    · rw [h0]
      rfl
    · rw [hdead _ h0]
      rfl
  · exact hdead x (Nat.one_le_iff_ne_zero.1 hx)

theorem Good.later (h : g.Good) (hl : g.Later g') (hc : g'.Clean)
    (hlinks : g'.Links fun _ _ => 0) : g'.Good :=
  ⟨hc, hlinks, h.pos.trans_le hl.pos, fun x hx => hl.dead x (h.fresh x (hl.pos.trans hx))⟩

/-! ### The edits that end where they began -/

theorem Good.deleteNode (h : g.Good) (hg : deleteNode fuel g id = some g') : g'.Good := by
  have hr := deleteNode_spec hg
  refine h.later hr.shrinks.later (hr.shrinks.clean h.clean) ?_
  simpa only [sub_zero] using hr.links _ h.links

theorem rules_all (g₀ : Graph) :
    Rules (fun _ => True) (fun _ _ => True) (fun _ => False) g₀ :=
  ⟨⟨fun _ => trivial, fun _ => trivial, fun _ _ => trivial⟩, fun _ _ _ _ _ _ => trivial,
    fun _ _ _ _ _ => trivial, fun _ _ _ _ _ _ => ⟨not_false, not_false⟩⟩

theorem mid_all (hc : g.Clean) (hl : g.Links d) :
    Mid (fun _ => True) (fun _ _ => True) (fun _ => False) g g d :=
  ⟨hc, hl, fun _ => .inr ⟨rfl, rfl, fun _ => trivial⟩, fun _ _ _ _ _ => trivial,
    fun _ hf => hf.elim⟩

/-- A merge into a node, from any state whose lists are off only where the target is used. -/
theorem subsume_links (hc : g.Clean) (hl : g.Links d) (hw : w ≠ 0)
    (hoff : ∀ m o, m ≠ 0 → o ≠ .pin → d m o ≠ 0 → 0 < d m o ∧ o.id = t ∧ m ≠ t)
    (hg : subsume fuel g w t = some g') :
    g'.Clean ∧ g'.Links d ∧ g.Later g' := by
  obtain ⟨hmid, -⟩ := subsume_merges (rules_all g) fuel g w t g' d hg hw trivial
    trivial not_false not_false (mid_all hc hl) fun m o hm ho hd =>
      .inr ⟨(hoff m o hm ho hd).1, .inr (hoff m o hm ho hd).2⟩
  exact ⟨hmid.clean, hmid.links, (subsume_kills fuel g w t g' hg).1⟩

theorem Good.subsume (h : g.Good) (hw : w ≠ 0) (hg : subsume fuel g w t = some g') : g'.Good := by
  obtain ⟨hc, hl, hlater⟩ := subsume_links h.clean h.links hw
    (fun _ _ _ _ hd => absurd rfl hd) hg
  exact h.later hlater hc hl

theorem Good.congr (h : g.Good) (hpos : g.pos ≤ g'.pos) (hmem : g'.mem = g.mem) : g'.Good :=
  h.later (.of_mem hpos hmem) (h.clean.congr hmem) (h.links.congr hmem)

/-- A node that goes back into the interner may give way to another. -/
theorem Good.giveWay {g₁ : Graph} {nid : NodeId} (h : g.Good) (hi : g.intern id = some (g₁, nid))
    (hg : g₁.giveWay (Graph.subsume fuel) nid id = some g') : g'.Good := by
  obtain ⟨-, hmem, hpos, -⟩ := intern_spec hi
  have h₁ := h.congr hpos hmem
  unfold Graph.giveWay at hg
  split at hg
  · cases hg
    exact h₁
  · rename_i hne
    exact h₁.subsume ((mid_all h.clean h.links).intern (rules_all g) hi hne).1 hg

/-! ### Writing inputs -/

theorem addOutput_later {i : ℕ} (h : g.addOutput m id i = some g') : g.Later g' := by
  obtain ⟨-, rfl⟩ | ⟨-, hlive, hpos, hmem⟩ := addOutput_spec h
  · exact .refl _
  · exact (later_setOuts (.inl hlive)).trans (.of_mem hpos hmem)

theorem setInps_later (hlive : (g.getNode id).itype ≠ .dead) (l : List NodeId) :
    g.Later (g.setInps id l) := by
  refine ⟨le_rfl, fun x hx => ?_⟩
  rw [setInps, getNode_setNode_ne, hx]
  rintro rfl
  exact hlive (by rw [hx]; rfl)

theorem later_addOutput {i : ℕ} (hc : g.Clean) (h : g.addOutput m id i = some g') :
    g'.Clean ∧ g.Later g' ∧ ∀ x, (g'.getNode x).key = (g.getNode x).key := by
  refine ⟨?_, addOutput_later h, fun x => ?_⟩
  · obtain ⟨-, rfl⟩ | ⟨-, hlive, -, hmem⟩ := addOutput_spec h
    · exact hc
    · exact (hc.setOuts hlive).congr hmem
  · obtain ⟨-, rfl⟩ | ⟨-, -, -, hmem⟩ := addOutput_spec h
    · rfl
    · rw [getNode_congr hmem, key_setOuts]

theorem later_setInps (hc : g.Clean) (hlive : (g.getNode id).itype ≠ .dead) (l : List NodeId) :
    (g.setInps id l).Clean ∧ g.Later (g.setInps id l) :=
  ⟨hc.setInps hlive, setInps_later hlive l⟩

theorem ne_zero_of_lt {i : ℕ} (h : i < (g.getNode id).inps.length) : id ≠ 0 := by
  rintro rfl
  exact absurd h (Nat.not_lt_zero _)

theorem getElem?_inp {i : ℕ} {n : Node} (h : i < n.inps.length) : n.inps[i]? = some (n.inp i) := by
  rw [Node.inp, List.getD_eq_getElem?_getD, List.getElem?_eq_getElem h, Option.getD_some]

/-- One input of a node is written. -/
theorem Links.set {i : ℕ} (hl : g.Links d) (hi : i < (g.getNode id).inps.length) (v : NodeId) :
    (g.setInps id ((g.getNode id).inps.set i v)).Links fun m o =>
      d m o + at_ ((g.getNode id).inp i) ⟨id, i⟩ m o - at_ v ⟨id, i⟩ m o := by
  refine hl.setInps (ne_zero_of_lt hi) (fun m j _ => ?_) fun m o _ ho _ => ?_
  · by_cases hj : i = j
    · subst hj
      rw [List.getElem?_set_self hi, getElem?_inp hi]
      simp only [at_, and_true, Option.some.injEq, eq_comm]
      ring
    · rw [List.getElem?_set_ne hj]
      have hne : (⟨id, j⟩ : NodeOutput) ≠ ⟨id, i⟩ := fun hc => hj (NodeOutput.mk.inj hc).2.symm
      simp only [at_, hne, and_false, if_false]
      ring
  · have hne : o ≠ ⟨id, i⟩ := fun hc => ho (congrArg NodeOutput.id hc)
    simp only [at_, hne, and_false, if_false]
    ring

theorem setInps_mem_eq {l : List NodeId} (hid : id ≠ 0) (hmem : g'.mem = (g.setInps id l).mem) :
    (g'.setInps id (g.getNode id).inps).mem = g.mem := by
  have hn : g'.getNode id = { g.getNode id with inps := l } := by
    rw [getNode_congr hmem]
    exact getNode_setNode_self _ hid
  simp only [setInps, setNode, hn, hmem, Function.update_idem]
  exact Function.update_eq_self_iff.2 (Proc.getNode_of_ne _ hid)

theorem Good.setInput {idx : ℕ} {value nid : NodeId} {sub : Bool} (h : g.Good)
    (hg : g.setInput fuel id idx value sub = some (g', nid)) : g'.Good := by
  unfold Graph.setInput at hg
  simp only [Option.bind_eq_bind, Option.bind_eq_some_iff, Option.guard_eq_some'] at hg
  obtain ⟨_, hlive, _, hlt, hg⟩ := hg
  have hid := ne_zero_of_lt hlt
  split at hg
  · cases hg
    exact h
  · simp only [Option.bind_eq_some_iff] at hg
    obtain ⟨g₁, hadd, g₃, hrem, hg⟩ := hg
    obtain ⟨hc₁, hl₁, hkey₁⟩ := later_addOutput h.clean hadd
    have hinps₁ : (g₁.getNode id).inps = (g.getNode id).inps := inps_of_key (hkey₁ id)
    have hlive₁ : (g₁.getNode id).itype ≠ .dead := by rwa [itype_of_key (hkey₁ id)]
    obtain ⟨hc₂, hl₂⟩ := later_setInps hc₁ hlive₁ ((g₁.getNode id).inps.set idx value)
    have hr := removeOutput_spec (fun _ _ _ => deleteNode_spec) hrem
    have hlinks₂ := (h.links.addOutput hadd).set (by rwa [hinps₁]) value
    have hgood₃ : g₃.Good := by
      refine h.later (hl₁.trans (hl₂.trans hr.shrinks.later)) (hr.shrinks.clean hc₂) ?_
      refine (hr.links _ hlinks₂).congr_off fun m o _ _ => ?_
      rw [inp_of_key (hkey₁ id)]
      ring
    split at hg
    · cases hg
      exact hgood₃
    · rename_i hlive₃
      -- for the interner the node has its former input for a moment
      simp only [Option.bind_eq_some_iff] at hg
      obtain ⟨g₅, hun, hg⟩ := hg
      obtain ⟨-, hmem₅, hpos₅⟩ := unintern_spec hun
      have hkey₃ := ((hr.shrinks.node id).resolve_left fun hd => hlive₃ (by rw [hd]; rfl)).1
      have hinps₃ : (g₃.getNode id).inps = (g.getNode id).inps.set idx value := by
        rw [inps_of_key hkey₃, inps_setInps, if_pos ⟨rfl, hid⟩, hinps₁]
      have hinps₅ : (g₅.getNode id).inps.set idx value = (g₃.getNode id).inps := by
        rw [getNode_congr hmem₅, inps_setInps, if_pos ⟨rfl, hid⟩, hinps₃, List.set_set, List.set_set]
      rw [hinps₅] at hg
      have hgood₆ : (g₅.setInps id (g₃.getNode id).inps).Good :=
        hgood₃.congr hpos₅.ge (setInps_mem_eq hid hmem₅)
      obtain ⟨⟨g₇, nid'⟩, hint, hg⟩ := hg
      cases sub with
      | true =>
        simp only [if_true, Option.bind_eq_some_iff] at hg
        obtain ⟨g₈, hway, hg⟩ := hg
        cases hg
        exact hgood₆.giveWay hint hway
      | false =>
        simp only [Bool.false_eq_true, if_false, Option.bind_eq_some_iff] at hg
        obtain ⟨_, -, hg⟩ := hg
        cases hg
        obtain ⟨-, hmem₇, hpos₇, -⟩ := intern_spec hint
        exact hgood₆.congr hpos₇ hmem₇

/-- An input is added to a node. -/
theorem Links.append (hl : g.Links d) (hid : id ≠ 0) (m : NodeId) :
    (g.setInps id ((g.getNode id).inps ++ [m])).Links fun m' o =>
      d m' o - at_ m ⟨id, (g.getNode id).inps.length⟩ m' o := by
  refine hl.setInps hid (fun m' j _ => ?_) fun m' o _ ho _ => ?_
  · simp only [at_, NodeOutput.mk.injEq, true_and, List.getElem?_append]
    rcases lt_trichotomy j (g.getNode id).inps.length with hj | rfl | hj
    · simp [hj, hj.ne]
    · simp [eq_comm]
    · have hk : j - (g.getNode id).inps.length ≠ 0 := Nat.sub_ne_zero_of_lt hj
      simp [hj.not_gt, hj.ne', hk]
  · have hne : o ≠ ⟨id, (g.getNode id).inps.length⟩ := fun hc => ho (congrArg NodeOutput.id hc)
    simp only [at_, hne, and_false, if_false]
    ring

theorem Good.connect {n : ℕ} (h : g.Good) (hg : g.connect id m = some (g', n)) : g'.Good := by
  unfold Graph.connect addInput at hg
  by_cases hid : id = 0
  · -- without a user the entry is a pin
    subst hid
    simp only [if_true, Option.bind_eq_bind, Option.pure_def, Option.bind_some,
      Option.bind_eq_some_iff] at hg
    obtain ⟨g₁, hadd, hg⟩ := hg
    cases hg
    obtain ⟨hc₁, hl₁, -⟩ := later_addOutput h.clean hadd
    refine h.later hl₁ hc₁ ((h.links.addOutput hadd).congr_off fun m' o _ ho => ?_)
    rw [at_, if_neg fun hc => ho hc.2, add_zero]
  · simp only [hid, if_false, Option.bind_eq_bind, Option.bind_eq_some_iff, Option.guard_eq_some',
      Option.pure_def, Prod.exists] at hg
    obtain ⟨g₁, idx, ⟨_, -, g₂, hun, g₃, nid, hint, _, -, hg₁⟩, g₄, hadd, hg⟩ := hg
    cases hg₁
    cases hg
    obtain ⟨hlive, hmem₂, hpos₂⟩ := unintern_spec hun
    obtain ⟨-, hmem₃, hpos₃, -⟩ := intern_spec hint
    have hgood₂ : g₂.Good := by
      refine Good.congr (h.congr ?_ ?_) hpos₂.ge hmem₂
      · split
        · exact Nat.le_add_right _ _
        · exact le_rfl
      · split <;> rfl
    have hinps : (g₂.getNode id).inps = (g.getNode id).inps := by
      rw [getNode_congr hmem₂]
      split <;> rfl
    have hlive₂ : (g₂.getNode id).itype ≠ .dead := by rwa [getNode_congr hmem₂]
    obtain ⟨hc, hl⟩ := later_setInps hgood₂.clean hlive₂ ((g₂.getNode id).inps ++ [m])
    have hl₃ := hl.trans (.of_mem hpos₃ hmem₃)
    obtain ⟨hc₄, hl₄, -⟩ := later_addOutput (hc.congr hmem₃) hadd
    have hlinks := ((hgood₂.links.append hid m).congr hmem₃).addOutput hadd
    refine hgood₂.later (hl₃.trans hl₄) hc₄ (hlinks.congr_off fun m' o _ _ => ?_)
    rw [hinps]
    ring

/-! ### Moving places about -/

theorem count_moveOutput {i j : ℕ} {l : List NodeOutput} (h : ⟨id, i⟩ ∈ l) (o : NodeOutput) :
    ((moveOutput id i j l).count o : ℤ) =
      l.count o - (if o = ⟨id, i⟩ then 1 else 0) + if o = ⟨id, j⟩ then 1 else 0 := by
  induction l with
  | nil => exact (List.not_mem_nil h).elim
  | cons out l ih =>
    rw [moveOutput]
    by_cases hout : out.id = id ∧ out.idx = i
    · obtain ⟨rfl, rfl⟩ := hout
      rw [if_pos ⟨rfl, rfl⟩, List.count_cons, List.count_cons]
      simp only [beq_iff_eq, eq_comm (a := o)]
      push_cast
      ring
    · have hne : out ≠ ⟨id, i⟩ := by
        rintro rfl
        exact hout ⟨rfl, rfl⟩
      rw [if_neg hout, List.count_cons, List.count_cons]
      have hmem : (⟨id, i⟩ : NodeOutput) ∈ l := (List.mem_cons.1 h).resolve_left (Ne.symm hne)
      have := ih hmem
      push_cast
      rw [this]
      ring

theorem Links.moveOutput {i j : ℕ} (hl : g.Links d) (hm : ⟨id, i⟩ ∈ (g.getNode m).outs) :
    (g.setOuts m (moveOutput id i j (g.getNode m).outs)).Links fun m' o =>
      d m' o - at_ m ⟨id, i⟩ m' o + at_ m ⟨id, j⟩ m' o := by
  refine hl.setOuts (fun o _ => ?_) fun m' o hm' _ => ?_
  · rw [count_moveOutput hm]
    simp only [at_, true_and]
    ring
  · simp only [at_, hm', false_and, if_false]
    ring

/-- The first entry for `i` becomes one for `j`, if there is a list. -/
theorem later_moveOutput {i j : ℕ} (hc : g.Clean) (hl : g.Links d)
    (hm : m ≠ 0 → ⟨id, i⟩ ∈ (g.getNode m).outs)
    (hg : g' = if m = 0 then g else g.setOuts m (moveOutput id i j (g.getNode m).outs)) :
    g'.Clean ∧ g.Later g' ∧ (∀ x, (g'.getNode x).key = (g.getNode x).key) ∧
      g'.Links fun m' o => d m' o - at_ m ⟨id, i⟩ m' o + at_ m ⟨id, j⟩ m' o := by
  by_cases hm0 : m = 0
  · rw [if_pos hm0] at hg
    subst hg
    refine ⟨hc, .refl _, fun _ => rfl, hl.congr_off fun m' o hm' _ => ?_⟩
    have hne : m' ≠ m := fun hc => hm' (hc.trans hm0)
    simp only [at_, hne, false_and, if_false]
    ring
  · rw [if_neg hm0] at hg
    subst hg
    have hlive : (g.getNode m).itype ≠ .dead := by
      intro hd
      have := hm hm0
      rw [hc m hd] at this
      exact List.not_mem_nil this
    refine ⟨hc.setOuts hlive, ⟨le_rfl, fun x hx => ?_⟩, key_setOuts g m _,
      hl.moveOutput (hm hm0)⟩
    rw [setOuts, getNode_setNode_ne, hx]
    rintro rfl
    exact hlive (by rw [hx]; rfl)

theorem Good.swapInputs {i j : ℕ} (h : g.Good) (hg : g.swapInputs id i j = some g') : g'.Good := by
  unfold Graph.swapInputs at hg
  simp only [Option.bind_eq_bind, Option.bind_eq_some_iff, Option.guard_eq_some'] at hg
  obtain ⟨_, hlive, _, ⟨hi, hj⟩, _, -, _, -, g₃, hun, ⟨g₄, nid⟩, hint, _, -, hg⟩ := hg
  cases hg
  have hid := ne_zero_of_lt hi
  have hmemi {k : ℕ} (hk : k < (g.getNode id).inps.length) (h0 : (g.getNode id).inp k ≠ 0) :
      (⟨id, k⟩ : NodeOutput) ∈ (g.getNode ((g.getNode id).inp k)).outs :=
    h.links.mem_outs h0 (getElem?_inp hk)
  obtain ⟨hc₁, hl₁, hkey₁, hlinks₁⟩ := later_moveOutput (j := j) h.clean h.links (hmemi hi) rfl
  generalize (if (g.getNode id).inp i = 0 then g
    else g.setOuts ((g.getNode id).inp i) (Graph.moveOutput id i j _)) = g₁
    at hc₁ hl₁ hkey₁ hlinks₁ hun
  -- the first move leaves the use at `j`: it is counted once more, or as before
  have hmemj (h0 : (g.getNode id).inp j ≠ 0) :
      (⟨id, j⟩ : NodeOutput) ∈ (g₁.getNode ((g.getNode id).inp j)).outs := by
    have hne : (⟨id, j⟩ : NodeOutput) ≠ .pin := fun hp => hid (congrArg NodeOutput.id hp)
    have hcount := hlinks₁ _ h0 _ hne
    rw [useCount, inps_of_key (hkey₁ id), if_pos (getElem?_inp hj)] at hcount
    refine List.count_pos_iff.1 ?_
    simp only [at_, NodeOutput.mk.injEq, true_and, and_true] at hcount
    split_ifs at hcount with h₁ h₂
    · omega
    · exact absurd h₁.1 h₂
    · omega
    · omega
  obtain ⟨hc₂, hl₂, hkey₂, hlinks₂⟩ := later_moveOutput (j := i) hc₁ hlinks₁ hmemj rfl
  generalize (if (g.getNode id).inp j = 0 then g₁
    else g₁.setOuts ((g.getNode id).inp j) (Graph.moveOutput id j i _)) = g₂
    at hc₂ hl₂ hkey₂ hlinks₂ hun
  obtain ⟨-, hmem₃, hpos₃⟩ := unintern_spec hun
  obtain ⟨-, hmem₄, hpos₄, -⟩ := intern_spec hint
  have hinps₃ : (g₃.getNode id).inps = (g.getNode id).inps := by
    rw [getNode_congr hmem₃, inps_of_key (hkey₂ id), inps_of_key (hkey₁ id)]
  have hlive₃ : (g₃.getNode id).itype ≠ .dead := by
    rwa [getNode_congr hmem₃, itype_of_key (hkey₂ id), itype_of_key (hkey₁ id)]
  have hl₃ : g.Later g₃ := hl₁.trans (hl₂.trans (.of_mem hpos₃.ge hmem₃))
  obtain ⟨hc, hl⟩ := later_setInps (hc₂.congr hmem₃) hlive₃
    (((g.getNode id).inps.set j ((g.getNode id).inp i)).set i ((g.getNode id).inp j))
  refine h.later (hl₃.trans (hl.trans (.of_mem hpos₄ hmem₄))) (hc.congr hmem₄) ?_
  refine Links.congr ((hlinks₂.congr hmem₃).setInps hid (fun m k _ => ?_) fun m o _ ho _ => ?_) hmem₄
  · rw [hinps₃]
    simp only [at_, NodeOutput.mk.injEq, true_and, List.getElem?_set, List.length_set]
    by_cases hki : i = k
    · subst hki
      rw [if_pos rfl, if_pos hi, getElem?_inp hi]
      by_cases hij : i = j
      · subst hij
        simp
      · simp [hij, eq_comm]
    · rw [if_neg hki]
      by_cases hkj : j = k
      · subst hkj
        rw [if_pos rfl, if_pos hj, getElem?_inp hj]
        simp [Ne.symm hki, eq_comm]
      · simp [hkj, Ne.symm hki, Ne.symm hkj]
  · have hne (k : ℕ) : o ≠ ⟨id, k⟩ := fun hc => ho (congrArg NodeOutput.id hc)
    simp [at_, hne]

/-- The inputs from the `i`-th on are taken away, one by one. -/
theorem dropInputs_spec {i : ℕ} {inps : List NodeId} (hc : g.Clean) (hl : g.Links fun _ _ => 0)
    (hlive : (g.getNode id).itype ≠ .dead)
    (hinps : ∀ k < inps.length, (g.getNode id).inps[i + k]? = inps[k]?)
    (hg : dropInputs fuel id i inps g = some g') :
    g'.Clean ∧ g.Later g' ∧ g'.Links (fun _ _ => 0) ∧ (g'.getNode id).itype ≠ .dead ∧
      ∀ k, (g'.getNode id).inps[k]? = if i ≤ k ∧ k < i + inps.length then some 0
        else (g.getNode id).inps[k]? := by
  induction inps generalizing g i with
  | nil =>
    cases hg
    refine ⟨hc, .refl _, hl, hlive, fun k => ?_⟩
    rw [if_neg]
    simp only [List.length_nil]
    omega
  | cons inp inps ih =>
    simp only [dropInputs, Option.bind_eq_bind, Option.bind_eq_some_iff] at hg
    obtain ⟨g₁, hrem, hg⟩ := hg
    have hr := removeOutput_spec (fun _ _ _ => deleteNode_spec) hrem
    have hi : (g.getNode id).inps[i]? = some inp := hinps 0 (Nat.succ_pos _)
    have hlt : i < (g.getNode id).inps.length := (List.getElem?_eq_some_iff.1 hi).1
    have hid := ne_zero_of_lt hlt
    have hinp : (g.getNode id).inp i = inp := Option.some.inj ((getElem?_inp hlt).symm.trans hi)
    -- had the node gone too, the list of `inp` would hold less than nothing
    have hlive₁ : (g₁.getNode id).itype ≠ .dead := by
      intro hd
      have hdead := hr.shrinks.clean hc id hd
      by_cases h0 : inp = 0
      · simp only [removeOutput, h0, if_true] at hrem
        cases hrem
        exact hlive hd
      · have hcount := hr.links _ hl inp h0 ⟨id, i⟩ fun hp => hid (congrArg NodeOutput.id hp)
        have hu : g₁.useCount inp ⟨id, i⟩ = 0 := useCount_of_dead hdead
        simp only [hu, at_self] at hcount
        omega
    have hkey₁ := ((hr.shrinks.node id).resolve_left fun hd => hlive₁ (by rw [hd]; rfl)).1
    have hinps₁ := inps_of_key hkey₁
    obtain ⟨hc₂, hl₂⟩ := later_setInps (hr.shrinks.clean hc) hlive₁ ((g₁.getNode id).inps.set i 0)
    have hlinks₂ := (hr.links _ hl).set (by rwa [hinps₁]) 0
    have hset (k : ℕ) : ((g₁.setInps id ((g₁.getNode id).inps.set i 0)).getNode id).inps[k]? =
        if k = i then some 0 else (g.getNode id).inps[k]? := by
      rw [inps_setInps, if_pos ⟨rfl, hid⟩, hinps₁, List.getElem?_set, if_pos hlt]
      simp only [eq_comm]
    have hzero : (g₁.setInps id ((g₁.getNode id).inps.set i 0)).Links fun _ _ => 0 := by
      refine hlinks₂.congr_off fun m o hm _ => ?_
      have hz : at_ 0 ⟨id, i⟩ m o = 0 := if_neg fun hc => hm hc.1
      rw [inp_of_key hkey₁, hinp, hz]
      ring
    have hrest : ∀ k < inps.length, ((g₁.setInps id ((g₁.getNode id).inps.set i 0)).getNode
        id).inps[i + 1 + k]? = inps[k]? := by
      intro k hk
      have hk' := hinps (k + 1) (Nat.succ_lt_succ hk)
      rw [hset, if_neg (by omega), Nat.add_assoc, Nat.add_comm 1 k, hk', List.getElem?_cons_succ]
    obtain ⟨hc', hl', hlinks', hlive', hk'⟩ := ih hc₂ hzero
      (by rwa [itype_of_shape (shape_setInps ..)]) hrest hg
    refine ⟨hc', hr.shrinks.later.trans (hl₂.trans hl'), hlinks', hlive', fun k => ?_⟩
    rw [hk', hset]
    simp only [List.length_cons]
    split_ifs <;> first | rfl | omega

theorem Good.truncateInputs {n : ℕ} (h : g.Good) (hg : g.truncateInputs fuel id n = some g') :
    g'.Good := by
  unfold Graph.truncateInputs at hg
  by_cases hid : id = 0
  · rw [if_pos hid] at hg
    cases hg
    exact h
  · simp only [hid, if_false, Option.bind_eq_bind, Option.bind_eq_some_iff,
      Option.guard_eq_some'] at hg
    obtain ⟨_, hlive, _, hn, g₁, hdrop, hg⟩ := hg
    cases hg
    obtain ⟨hc₁, hl₁, hlinks₁, hlive₁, hk⟩ := dropInputs_spec h.clean h.links hlive
      (fun k _ => by rw [List.getElem?_drop]) hdrop
    obtain ⟨hc₂, hl₂⟩ := later_setInps hc₁ hlive₁ ((g₁.getNode id).inps.take n)
    refine h.later (hl₁.trans hl₂) hc₂ (hlinks₁.setInps hid (fun m k hm => ?_) fun _ _ _ _ _ => rfl)
    rw [List.getElem?_take]
    by_cases hkn : k < n
    · rw [if_pos hkn]
    · have hno : (g₁.getNode id).inps[k]? ≠ some m := by
        rw [hk, List.length_drop]
        by_cases hlen : n ≤ k ∧ k < n + ((g.getNode id).inps.length - n)
        · rw [if_pos hlen]
          exact fun hc => hm (Option.some.inj hc).symm
        · rw [if_neg hlen, List.getElem?_eq_none (by omega)]
          exact Option.some_ne_none m ∘ Eq.symm
      rw [if_neg hkn, if_neg hno, if_neg (Option.some_ne_none m ∘ Eq.symm)]

/-! ### New nodes -/

theorem addOutputs_spec {i : ℕ} {inps : List NodeId} (hc : g.Clean) (hl : g.Links d)
    (hg : addOutputs id i inps g = some g') :
    g'.Clean ∧ g.Later g' ∧ (∀ x, (g'.getNode x).key = (g.getNode x).key) ∧
      g'.Links fun m o => d m o + atInputs id i inps m o := by
  induction inps generalizing g i d with
  | nil =>
    cases hg
    refine ⟨hc, .refl _, fun _ => rfl, hl.congr_off fun m o _ _ => ?_⟩
    simp [atInputs]
  | cons inp inps ih =>
    simp only [addOutputs, Option.bind_eq_bind, Option.bind_eq_some_iff] at hg
    obtain ⟨g₁, hadd, hg⟩ := hg
    obtain ⟨hc₁, hl₁, hkey₁⟩ := later_addOutput hc hadd
    obtain ⟨hc', hl', hkey', hlinks'⟩ := ih hc₁ (hl.addOutput hadd) hg
    refine ⟨hc', hl₁.trans hl', fun x => (hkey' x).trans (hkey₁ x), ?_⟩
    refine hlinks'.congr_off fun m o _ _ => ?_
    rw [← at_add_atInputs]
    ring

/-- A node is put behind the others and takes its places in the lists of its inputs. -/
theorem Good.newNode {g₁ : Graph} {n : Node} (h : g.Good) (hn : n.outs = [])
    (hlive : n.itype ≠ .dead) (hmem : g₁.mem = (g.setNode g.pos n).mem) (hpos : g.pos < g₁.pos)
    (hg : addOutputs g.pos 0 n.inps g₁ = some g') : g'.Good := by
  have hid : g.pos ≠ 0 := h.pos.ne'
  have hnew : g₁.getNode g.pos = n := (getNode_congr hmem _).trans (getNode_setNode_self _ hid)
  have hold : g.getNode g.pos = .dead := h.fresh _ le_rfl
  have hne {x : NodeId} (hx : x ≠ g.pos) : g₁.getNode x = g.getNode x :=
    (getNode_congr hmem _).trans (getNode_setNode_ne _ hx)
  have hc₁ : g₁.Clean := (h.clean.setNode fun hd => absurd hd hlive).congr hmem
  have hlinks₁ : g₁.Links fun m o => 0 - atInputs g.pos 0 n.inps m o := by
    intro m hm o ho
    have hcount : ((g₁.getNode m).outs.count o : ℤ) = (g.getNode m).outs.count o := by
      by_cases hm' : m = g.pos
      · rw [hm', hnew, hold, hn]
        rfl
      · rw [hne hm']
    have hlink : ((g.getNode m).outs.count o : ℤ) = g.useCount m o + 0 := h.links m hm o ho
    rw [hcount, hlink]
    by_cases hx : o.id = g.pos
    · rw [useCount_of_dead (hx ▸ hold), useCount, hx, hnew]
      simp only [atInputs, hx, Nat.zero_le, true_and, Nat.sub_zero]
      ring
    · have hu : g₁.useCount m o = g.useCount m o := useCount_congr (by rw [hne hx])
      simp only [hu, atInputs, hx, false_and, if_false]
      ring
  obtain ⟨hc', hl', -, hlinks'⟩ := addOutputs_spec hc₁ hlinks₁ hg
  refine ⟨hc', hlinks'.congr_off fun m o _ _ => ?_, ?_, fun x hx => hl'.dead x ?_⟩
  · ring
  · exact (Nat.zero_le _).trans_lt (hpos.trans_le hl'.pos)
  · have hx' : g.pos < x := (hpos.trans_le hl'.pos).trans_le hx
    rw [hne hx'.ne']
    exact h.fresh x hx'.le

theorem Good.addRaw {itype : NodeType} {dt : Datatype} {lane : LaneType} {extra : List ℕ}
    {inps : List NodeId} {cap : ℕ} (h : g.Good)
    (hg : g.addRaw itype dt lane extra inps cap = some (g', id)) : g'.Good := by
  unfold Graph.addRaw at hg
  simp only [Option.bind_eq_bind, Option.bind_eq_some_iff, Option.guard_eq_some', Prod.exists] at hg
  obtain ⟨_, hdead, _, -, _, -, g₁, inode, hint, hg⟩ := hg
  obtain ⟨-, hmem, hpos, -⟩ := intern_spec hint
  split at hg
  · cases hg
    exact h
  · simp only [Option.bind_eq_some_iff] at hg
    obtain ⟨g₂, hadd, hg⟩ := hg
    cases hg
    refine h.newNode rfl hdead hmem (lt_of_lt_of_le ?_ hpos) hadd
    simp only [setNode, alloc, nodeWords]
    omega

theorem Good.clone {new : NodeId} (h : g.Good) (hg : g.clone id = some (g', new)) : g'.Good := by
  unfold Graph.clone at hg
  simp only [Option.bind_eq_bind, Option.bind_eq_some_iff, Option.guard_eq_some'] at hg
  obtain ⟨_, hlive, _, -, _, -, _, -, _, -, g₁, hadd, hg⟩ := hg
  cases hg
  refine h.newNode (n := { g.getNode id with outs := [] }) rfl hlive ?_ ?_ hadd
  · rfl
  · simp only [setNode, alloc, nodeWords]
    omega

/-! ### Taking an input out of the middle -/

/-- `1` at the places where the inputs from the `i`-th on go, one below their own. -/
theorem shiftOutputs_spec {i : ℕ} {inps : List NodeId} (hi : 0 < i) (hc : g.Clean) (hl : g.Links d)
    (hg : shiftOutputs fuel id i inps g = some g') :
    g'.Clean ∧ g.Later g' ∧
      (∀ x, g'.getNode x = .dead ∨ (g'.getNode x).key = (g.getNode x).key) ∧
      g'.Links fun m o => d m o + atInputs id (i - 1) inps m o - atInputs id i inps m o := by
  induction inps generalizing g i d with
  | nil =>
    cases hg
    refine ⟨hc, .refl _, fun _ => .inr rfl, hl.congr_off fun m o _ _ => ?_⟩
    simp [atInputs]
  | cons inp inps ih =>
    simp only [shiftOutputs, Option.bind_eq_bind, Option.bind_eq_some_iff] at hg
    obtain ⟨g₁, hadd, g₂, hrem, hg⟩ := hg
    obtain ⟨hc₁, hl₁, hkey₁⟩ := later_addOutput hc hadd
    have hr := removeOutput_spec (fun _ _ _ => deleteNode_spec) hrem
    obtain ⟨hc', hl', hnode', hlinks'⟩ := ih (Nat.succ_pos i) (hr.shrinks.clean hc₁)
      (hr.links _ (hl.addOutput hadd)) hg
    refine ⟨hc', hl₁.trans (hr.shrinks.later.trans hl'), fun x => ?_, ?_⟩
    · rcases hnode' x with hd | hk
      · exact .inl hd
      · rcases hr.shrinks.node x with hd | ⟨hk₂, -⟩
        · exact .inl (hl'.dead x hd)
        · exact .inr (hk.trans (hk₂.trans (hkey₁ x)))
    · refine hlinks'.congr_off fun m o _ _ => ?_
      have hlow := at_add_atInputs id inp (i - 1) inps m o
      have hhigh := at_add_atInputs id inp i inps m o
      rw [Nat.sub_add_cancel hi] at hlow
      rw [← hlow, ← hhigh, Nat.succ_sub_one]
      ring

/-- The places of the inputs behind the one that goes, before and after. -/
theorem eraseIdx_places {l : List NodeId} {i : ℕ} (hi : i < l.length) (m : NodeId) (k : ℕ) :
    (if (l.eraseIdx i)[k]? = some m then (1 : ℤ) else 0) +
        at_ l[i] ⟨id, i⟩ m ⟨id, k⟩ =
      (if l[k]? = some m then 1 else 0) + (atInputs id i (l.drop (i + 1)) m ⟨id, k⟩ -
        atInputs id (i + 1) (l.drop (i + 1)) m ⟨id, k⟩) := by
  simp only [at_, atInputs, NodeOutput.mk.injEq, true_and, List.getElem?_eraseIdx,
    List.getElem?_drop]
  rcases lt_trichotomy k i with hk | rfl | hk
  · simp [hk, hk.ne, hk.not_ge, Nat.not_le.2 (Nat.lt_succ_of_lt hk)]
  · rw [List.getElem?_eq_getElem hi]
    simp [eq_comm, add_comm]
  · have h₁ : i + 1 + (k - i) = k + 1 := by omega
    have h₂ : i + 1 + (k - (i + 1)) = k := by omega
    simp [hk.not_gt, hk.ne', hk.le, h₁, h₂, Nat.succ_le_of_lt hk]

theorem Good.orderedRemove {i : ℕ} (h : g.Good) (hg : g.orderedRemove fuel id i = some g') :
    g'.Good := by
  unfold Graph.orderedRemove at hg
  simp only [Option.bind_eq_bind, Option.bind_eq_some_iff, Option.guard_eq_some'] at hg
  obtain ⟨_, hlive, _, hi, g₁, hshift, g₂, hun, ⟨g₄, nid⟩, hint, g₅, hway, hrem⟩ := hg
  have hid := ne_zero_of_lt hi
  obtain ⟨hc₁, hl₁, hnode₁, hlinks₁⟩ := shiftOutputs_spec (Nat.succ_pos i) h.clean h.links hshift
  obtain ⟨hlive₁, hmem₂, hpos₂⟩ := unintern_spec hun
  have hkey₁ := (hnode₁ id).resolve_left fun hd => hlive₁ (by rw [hd]; rfl)
  have hinps₂ : (g₂.getNode id).inps = (g.getNode id).inps := by
    rw [getNode_congr hmem₂, inps_of_key hkey₁]
  have hlive₂ : (g₂.getNode id).itype ≠ .dead := by rwa [getNode_congr hmem₂]
  obtain ⟨hc₃, hl₃⟩ := later_setInps (hc₁.congr hmem₂) hlive₂ ((g.getNode id).inps.eraseIdx i)
  -- what is left over is the entry of the input that goes
  have hlinks₃ : (g₂.setInps id ((g.getNode id).inps.eraseIdx i)).Links
      (at_ ((g.getNode id).inp i) ⟨id, i⟩) := by
    refine (hlinks₁.congr hmem₂).setInps hid (fun m k _ => ?_) fun m o _ ho _ => ?_
    · have hinp : (g.getNode id).inp i = (g.getNode id).inps[i] := by
        rw [Node.inp, List.getD_eq_getElem _ _ hi]
      rw [hinps₂, hinp, eraseIdx_places hi]
      simp
    · have hne (k : ℕ) : o ≠ ⟨id, k⟩ := fun hc => ho (congrArg NodeOutput.id hc)
      simp [at_, atInputs, hne, ho]
  obtain ⟨-, hmem₄, hpos₄, -⟩ := intern_spec hint
  have hl₄ := hl₁.trans ((Later.of_mem hpos₂.ge hmem₂).trans (hl₃.trans (.of_mem hpos₄ hmem₄)))
  have hr := removeOutput_spec (fun _ _ _ => deleteNode_spec) hrem
  have h₅ : g₅.Clean ∧ g₅.Links (at_ ((g.getNode id).inp i) ⟨id, i⟩) ∧ g₄.Later g₅ := by
    unfold Graph.giveWay at hway
    split at hway
    · cases hway
      exact ⟨hc₃.congr hmem₄, hlinks₃.congr hmem₄, .refl _⟩
    · rename_i hne
      obtain ⟨hn0, -, -⟩ := (mid_all hc₃ hlinks₃).intern (rules_all _) hint hne
      refine subsume_links (hc₃.congr hmem₄) (hlinks₃.congr hmem₄) hn0 (fun m o _ _ hd => ?_) hway
      have hmo : m = (g.getNode id).inp i ∧ o = ⟨id, i⟩ := by
        by_contra hc
        exact hd (if_neg hc)
      obtain ⟨rfl, rfl⟩ := hmo
      rw [at_self]
      refine ⟨Int.one_pos, rfl, fun hself => ?_⟩
      -- a node that used itself there is gone, and its list with it
      have hdead := (subsume_kills fuel g₄ nid id g₅ hway).2 hn0
      rw [hself] at hrem
      simp [removeOutput, hid, hdead, Node.dead] at hrem
  refine h.later (hl₄.trans (h₅.2.2.trans hr.shrinks.later)) (hr.shrinks.clean h₅.1) ?_
  refine (hr.links _ h₅.2.1).congr_off fun m o _ _ => ?_
  ring

/-! ### Merging into the nil node -/

/-- What the interner can find equal when the node `t` has been replaced by the nil node: the
congruence that this one equation generates. -/
inductive Congruent (g : Graph) (t : NodeId) : NodeId → NodeId → Prop
  | target : Congruent g t t 0
  | refl (a : NodeId) : Congruent g t a a
  | symm {a b : NodeId} : Congruent g t a b → Congruent g t b a
  | trans {a b c : NodeId} : Congruent g t a b → Congruent g t b c → Congruent g t a c
  | node (a b : NodeId) : (g.getNode b).itype.isInterned = true →
    (g.getNode a).shape = (g.getNode b).shape →
    (g.getNode a).inps.length = (g.getNode b).inps.length →
    (∀ i, Congruent g t ((g.getNode a).inp i) ((g.getNode b).inp i)) → Congruent g t a b

/-- The nodes that such a replacement can touch: the users of `t`, the users of these, and what they
are merged into. -/
inductive Affected (g : Graph) (t : NodeId) : NodeId → Prop
  | user (o : NodeOutput) : o ∈ (g.getNode t).outs → o ≠ .pin → Affected g t o.id
  | next (x : NodeId) (o : NodeOutput) : Affected g t x → o ∈ (g.getNode x).outs → o ≠ .pin →
    Affected g t o.id
  | equal (a x : NodeId) : Affected g t x → Congruent g t a x → a ≠ 0 → Affected g t a

/-- Replacing `t` by the nil node makes no node that it touches equal to `t`. -/
def NilSafe (g : Graph) (t : NodeId) : Prop :=
  ∀ a u, Affected g t u → a ≠ u → a ≠ 0 → Congruent g t a u → a ≠ t ∧ u ≠ t

theorem rules_nil (h : g.NilSafe t) :
    Rules (Affected g t) (Congruent g t) (· = t) g where
  equiv := ⟨.refl, .symm, .trans⟩
  congr := .node
  closed a u hu hc h0 := .equal a u hu hc h0
  apart a u hu hne h0 hc := h a u hu hne h0 hc

/-- How far the lists are off when the users of `t` have been given the nil node. -/
def atOuts (g : Graph) (t : NodeId) : NodeId → NodeOutput → ℤ :=
  fun m o => if m = t ∧ o ∈ (g.getNode t).outs then 1 else 0

theorem mid_nil (h : g.Good) (ht : t ≠ 0) (hr : Redirected 0 (g.getNode t).outs g g') :
    Mid (Affected g t) (Congruent g t) (· = t) g g' (atOuts g t) := by
  have hin {x : NodeId} {i : ℕ} (hmem : (⟨x, i⟩ : NodeOutput) ∈ (g.getNode t).outs)
      (hne : (⟨x, i⟩ : NodeOutput) ≠ .pin) : (g.getNode x).inps[i]? = some t :=
    h.links.inps_of_mem ht hne hmem
  refine ⟨fun x hx => ?_, fun m hm o ho => ?_, fun x => .inr ⟨hr.shape x, hr.length x, fun i => ?_⟩,
    fun x hx o ho hne => ?_, ?_⟩
  · rw [itype_of_shape (hr.shape x)] at hx
    exact hr.dead (h.clean x hx)
  · obtain ⟨n, i⟩ := o
    have hlink : ((g.getNode m).outs.count ⟨n, i⟩ : ℤ) = g.useCount m ⟨n, i⟩ + 0 :=
      h.links m hm _ ho
    rw [hr.outs_eq, hlink, useCount, useCount, hr.inps, atOuts]
    by_cases hmem : (⟨n, i⟩ : NodeOutput) ∈ (g.getNode t).outs
    · simp [hmem, ho, hin hmem ho, hm, eq_comm]
    · simp [hmem]
  · have hi := hr.inps x i
    rw [Node.inp, Node.inp, List.getD_eq_getElem?_getD, List.getD_eq_getElem?_getD, hi]
    split
    · rename_i hmem
      rw [hin hmem.1 hmem.2]
      exact .target
    · exact .refl _
  · rw [hr.outs_eq] at ho
    exact .next x o hx ho hne
  · rintro m rfl x hx
    obtain ⟨i, hi⟩ := List.mem_iff_getElem?.1 hx
    rw [hr.inps] at hi
    split at hi
    · exact ht (Option.some.inj hi).symm
    · rename_i hno
      refine hno ⟨h.links.mem_outs ht hi, fun hp => ?_⟩
      obtain ⟨rfl, rfl⟩ := NodeOutput.mk.inj hp
      cases hi

theorem Good.subsume_nil (h : g.Good) (hs : g.NilSafe t)
    (hg : Graph.subsume fuel g 0 t = some g') : g'.Good := by
  have hlater := (subsume_kills fuel g 0 t g' hg).1
  cases fuel with
  | zero => cases hg
  | succ fuel =>
    rw [Graph.subsume] at hg
    simp only [if_true, Option.bind_eq_bind, Option.bind_eq_some_iff, Option.guard_eq_some'] at hg
    obtain ⟨_, ht, _, -, _, -, g₁, hred, g₂, hround, hdel⟩ := hg
    have hr := redirect_spec hred
    have h₁ := mid_nil h ht hr
    have hoff : Off (· = t) (fun _ _ => False) g₁ (atOuts g t) := by
      intro m o _ _ hd
      left
      by_contra hm
      exact hd (if_neg fun hc => hm hc.1)
    have houts : ∀ o ∈ (g.getNode t).outs, Affected g t o.id := fun o ho =>
      .user o ho fun hp => hr.no_pin rfl (hp ▸ ho)
    have h₂ := h₁.reinternRounds (rules_nil hs) (subsume_merges (rules_nil hs) fuel) houts hoff hround
    -- nothing uses `t` any more, so its list can be dropped
    have hlinks : (g₂.setOuts t []).Links fun _ _ => 0 := by
      refine h₂.links.setOuts (fun o ho => ?_) fun m o hm _ => ?_
      · have hu : g₂.useCount t o = 0 := if_neg fun hc => h₂.unused t rfl o.id (List.mem_of_getElem? hc)
        have hlink := h₂.links t ht o ho
        rw [hu] at hlink
        rw [hlink, List.count_nil]
        push_cast
        ring
      · exact (if_neg fun hc => hm hc.1).symm
    have hclean : (g₂.setOuts t []).Clean := by
      refine h₂.clean.setNode fun hd => ?_
      have hdead := h₂.clean t hd
      rw [hdead]
      rfl
    have hr' := deleteNode_spec hdel
    refine h.later hlater (hr'.shrinks.clean hclean) ?_
    simpa only [sub_zero] using hr'.links _ hlinks

end Graph

/-! ### Runs -/

/-- The edits that keep the links: all of them, but a merge into the nil node only if it makes no
node equal to its target. -/
def Edit.Safe (g : Graph) : Edit → Prop
  | .subsume w t => w = 0 → g.NilSafe t
  | _ => True

namespace Graph

variable {g g' : Graph} {fuel : ℕ}

theorem Good.edit (h : g.Good) {e : Edit} (hs : e.Safe g) (hg : g.edit fuel e = some g') :
    g'.Good := by
  cases e with
  | addRaw itype dt lane extra inps cap =>
    obtain ⟨⟨g₁, id⟩, h₁, rfl⟩ := Option.map_eq_some_iff.1 hg
    exact h.addRaw h₁
  | setInput id idx value sub =>
    obtain ⟨⟨g₁, id⟩, h₁, rfl⟩ := Option.map_eq_some_iff.1 hg
    exact h.setInput h₁
  | connect use def_ =>
    obtain ⟨⟨g₁, id⟩, h₁, rfl⟩ := Option.map_eq_some_iff.1 hg
    exact h.connect h₁
  | orderedRemove id i => exact h.orderedRemove hg
  | subsume w t =>
    by_cases hw : w = 0
    · subst hw
      exact h.subsume_nil (hs rfl) hg
    · exact h.subsume hw hg
  | swapInputs id i j => exact h.swapInputs hg
  | truncateInputs id n => exact h.truncateInputs hg
  | clone id =>
    obtain ⟨⟨g₁, id⟩, h₁, rfl⟩ := Option.map_eq_some_iff.1 hg
    exact h.clone h₁
  | deleteNode id => exact h.deleteNode hg

/-- The graphs that safe edits reach from the empty one. -/
inductive Reachable : Graph → Prop
  | empty (hasDbg : Bool) : Reachable (empty hasDbg)
  | edit {g g' : Graph} (fuel : ℕ) (e : Edit) : Reachable g → e.Safe g →
    g.edit fuel e = some g' → Reachable g'

theorem Reachable.good (h : g.Reachable) : g.Good := by
  induction h with
  | empty hasDbg => exact good_empty hasDbg
  | edit fuel e _ hs hg ih => exact ih.edit hs hg

/-- **Def-use consistency of every reachable graph.** -/
theorem Reachable.defUse (h : g.Reachable) : g.DefUse := h.good.agree

/-- `Not` of `Neg` of a constant and a `Return` of it: the `Neg` is node `36`, the `Not` node `45`. -/
def negatedTwoWays : List Edit :=
  [.addRaw .entry .void .i8 [0] [] 0, .addRaw .cInt .i64 .i8 [7, 0] [] 0,
    .addRaw .neg .i64 .i8 [] [8] 0, .addRaw .not .i64 .i8 [] [36] 0,
    .addRaw .return_ .void .i8 [0] [1, 45] 0]

theorem edits_append (es es' : List Edit) (g : Graph) :
    edits fuel (es ++ es') g = (edits fuel es g).bind (edits fuel es') := by
  induction es generalizing g with
  | nil => rfl
  | cons e es ih =>
    simp only [List.cons_append, edits, Option.bind_eq_bind, Option.bind_assoc, ih]

theorem Reachable.edits {es : List Edit} (hs : ∀ e ∈ es, ∀ g, e.Safe g) (h : g.Reachable)
    (hg : Graph.edits fuel es g = some g') : g'.Reachable := by
  induction es generalizing g with
  | nil =>
    cases hg
    exact h
  | cons e es ih =>
    simp only [Graph.edits, Option.bind_eq_bind, Option.bind_eq_some_iff] at hg
    obtain ⟨g₁, he, hg⟩ := hg
    exact ih (fun e he => hs e (List.mem_cons_of_mem _ he))
      (.edit fuel e h (hs e List.mem_cons_self g) he) hg

/-- If no two pure nodes have the same kind and datatype, nothing can become equal. -/
theorem nilSafe_of_shapes (h : g.Good) {t : NodeId}
    (hshape : ∀ a < g.pos, ∀ b < g.pos, (g.getNode b).itype.isInterned = true →
      (g.getNode a).shape = (g.getNode b).shape → a = b)
    (houts : ∀ x < g.pos, ∀ o ∈ (g.getNode x).outs, o.id ≠ 0) : g.NilSafe t := by
  have hlt {x : NodeId} (hx : (g.getNode x).itype ≠ .dead) : x < g.pos := by
    by_contra hc
    exact hx (by rw [h.fresh x (not_lt.1 hc)]; rfl)
  have hcong {a b : NodeId} (hc : Congruent g t a b) :
      a = b ∨ (a = 0 ∨ a = t) ∧ (b = 0 ∨ b = t) := by
    induction hc with
    | target => exact .inr ⟨.inr rfl, .inl rfl⟩
    | refl a => exact .inl rfl
    | symm _ ih => exact ih.imp Eq.symm And.symm
    | trans _ _ ih₁ ih₂ =>
      rcases ih₁ with rfl | h₁
      · exact ih₂
      · rcases ih₂ with rfl | h₂
        · exact .inr h₁
        · exact .inr ⟨h₁.1, h₂.2⟩
    | node a b hint hs _ _ _ =>
      have hb := (isInterned_ne hint).1
      exact .inl (hshape a (hlt (by rwa [itype_of_shape hs])) b (hlt hb) hint hs)
  have hnil {x : NodeId} {o : NodeOutput} (ho : o ∈ (g.getNode x).outs) : o.id ≠ 0 := by
    refine houts x (hlt fun hd => ?_) o ho
    rw [h.clean x hd] at ho
    exact List.not_mem_nil ho
  have haff {u : NodeId} (hu : Affected g t u) : u ≠ 0 := by
    cases hu with
    | user o ho _ => exact hnil ho
    | next x o _ ho _ => exact hnil ho
    | equal x _ _ _ h0 => exact h0
  intro a u hu hne h0 hc
  rcases hcong hc with rfl | ⟨ha, hu'⟩
  · exact absurd rfl hne
  · exact absurd ((ha.resolve_left h0).trans (hu'.resolve_left (haff hu)).symm) hne

/-- After the `Neg` has been replaced by nothing, the `Not` is still what the `Return` gives. -/
theorem defUse_negatedTwoWays :
    ∃ g, edits 4 (negatedTwoWays ++ [.subsume 0 36]) (empty false) = some g ∧ g.DefUse := by
  have hrun : (edits 4 negatedTwoWays (empty false)).map (fun g => (g.pos,
      decide (∀ a < g.pos, ∀ b < g.pos, (g.getNode b).itype.isInterned = true →
        (g.getNode a).shape = (g.getNode b).shape → a = b),
      decide (∀ x < g.pos, ∀ o ∈ (g.getNode x).outs, o.id ≠ 0),
      (g.edit 4 (.subsume 0 36)).isSome)) = some (67, true, true, true) := by
    decide
  obtain ⟨g, hg, hvals⟩ := Option.map_eq_some_iff.1 hrun
  simp only [Prod.mk.injEq, decide_eq_true_eq] at hvals
  obtain ⟨-, hshape, houts, hsome⟩ := hvals
  obtain ⟨g', hg'⟩ := Option.isSome_iff_exists.1 hsome
  have hreach : g.Reachable := by
    refine Reachable.edits (fun e he g => ?_) (.empty false) hg
    simp only [negatedTwoWays, List.mem_cons, List.not_mem_nil, or_false] at he
    rcases he with rfl | rfl | rfl | rfl | rfl <;> exact trivial
  have hsafe := nilSafe_of_shapes (t := 36) hreach.good hshape houts
  have hsafe' : (Edit.subsume 0 36).Safe g := fun _ => hsafe
  refine ⟨g', ?_, Reachable.defUse (.edit 4 _ hreach hsafe' hg')⟩
  rw [edits_append, hg, Option.bind_some]
  exact Option.bind_eq_some_iff.2 ⟨g', hg', rfl⟩

/-! ### The merge that goes wrong -/

/-- `Neg` of nothing, `Neg` of that, and a `Return` of the second: the first `Neg` is node `8`, the
second node `36`. -/
def twiceNegated : List Edit :=
  [.addRaw .entry .void .i8 [0] [] 0, .addRaw .neg .i64 .i8 [] [0] 0,
    .addRaw .neg .i64 .i8 [] [8] 0, .addRaw .return_ .void .i8 [0] [1, 36] 0]

/-- Without its operand the second `Neg` is the first one, which is about to be deleted: the `Return`
is left with a deleted input. -/
theorem defUse_fails :
    ∃ g, edits 4 (twiceNegated ++ [.subsume 0 8]) (empty false) = some g ∧ ¬ g.DefUse := by
  have hrun : (edits 4 (twiceNegated ++ [.subsume 0 8]) (empty false)).map
      (fun g => (g.live 45, g.live 8, (g.getNode 45).inps)) = some (true, false, [1, 8]) := by
    decide
  obtain ⟨g, hg, hvals⟩ := Option.map_eq_some_iff.1 hrun
  simp only [Prod.mk.injEq] at hvals
  obtain ⟨h45, h8, hinps⟩ := hvals
  refine ⟨g, hg, fun hdu => ?_⟩
  have hlive := hdu.inps_live 45 h45 8 (by rw [hinps]; decide)
  rw [h8] at hlive
  cases hlive

end Graph

end OdinSon
