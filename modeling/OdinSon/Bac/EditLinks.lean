import OdinSon.Bac.Edit
import Mathlib.Data.Option.Basic
import Mathlib.Logic.Relation
import Mathlib.Tactic.Linarith

/-!
# The links while a graph is edited

In the middle of an edit the two directions of the links disagree.  `Links g d` says by how much: a
node `m` lists the place `o` once if `o` holds `m`, and `d m o` times more.  An edit moves `d` away
from zero and back; what it calls in between keeps `d` whatever it is, so that a deletion that starts
in the middle of another edit needs no invariant of its own.

The lists of deleted nodes are empty.  So with `d = 0` nothing names one.
-/

namespace OdinSon

/-- What is left of a deleted node. -/
def Node.dead : Node := { itype := .dead }

theorem Node.eq_dead {n : Node} (hk : n.key = Node.dead.key) (ho : n.outs ⊆ []) : n = .dead := by
  have hnil : n.outs = [] := List.subset_nil.1 ho
  calc n = { n.key with outs := n.outs } := rfl
    _ = .dead := by rw [hk, hnil]; rfl

namespace Graph

/-- `1` if the place `o` holds `m`. -/
def useCount (g : Graph) (m : NodeId) (o : NodeOutput) : ℤ :=
  if (g.getNode o.id).inps[o.idx]? = some m then 1 else 0

/-- The nodes list the places that hold them, off by `d`. -/
def Links (g : Graph) (d : NodeId → NodeOutput → ℤ) : Prop :=
  ∀ m, m ≠ 0 → ∀ o, o ≠ .pin → ((g.getNode m).outs.count o : ℤ) = g.useCount m o + d m o

/-- Nothing is left of a deleted node. -/
def Clean (g : Graph) : Prop := ∀ x, (g.getNode x).itype = .dead → g.getNode x = .dead

/-- `1` at the place `o` of the list of `m`. -/
def at_ (m : NodeId) (o : NodeOutput) : NodeId → NodeOutput → ℤ :=
  fun m' o' => if m' = m ∧ o' = o then 1 else 0

/-- `1` at each place of `id` that holds its node, where `inps` are the inputs from the `i`-th on. -/
def atInputs (id : NodeId) (i : ℕ) (inps : List NodeId) : NodeId → NodeOutput → ℤ :=
  fun m o => if o.id = id ∧ i ≤ o.idx ∧ inps[o.idx - i]? = some m then 1 else 0

variable {g g' : Graph} {d : NodeId → NodeOutput → ℤ} {id m w x : NodeId} {o out : NodeOutput}

/-! ### Reading back what was written -/

theorem getNode_congr (h : g'.mem = g.mem) (x : NodeId) : g'.getNode x = g.getNode x := by
  simp only [Proc.getNode, h]

theorem getNode_setNode (g : Graph) (id : NodeId) (n : Node) (x : NodeId) :
    (g.setNode id n).getNode x = if x = id ∧ id ≠ 0 then n else g.getNode x := by
  simp only [Proc.getNode, setNode, Function.update_apply]
  by_cases h0 : x = 0
  · subst h0
    by_cases hid : id = 0
    · simp [hid]
    · simp [Ne.symm hid]
  · by_cases hx : x = id
    · subst hx
      simp [h0]
    · simp [hx]

theorem getNode_setNode_self (n : Node) (h : id ≠ 0) : (g.setNode id n).getNode id = n := by
  rw [getNode_setNode, if_pos ⟨rfl, h⟩]

theorem getNode_setNode_ne (n : Node) (h : x ≠ id) : (g.setNode id n).getNode x = g.getNode x := by
  rw [getNode_setNode, if_neg fun hc => h hc.1]

theorem outs_setOuts (g : Graph) (id : NodeId) (l : List NodeOutput) (x : NodeId) :
    ((g.setOuts id l).getNode x).outs = if x = id ∧ id ≠ 0 then l else (g.getNode x).outs := by
  rw [setOuts, getNode_setNode]
  split <;> rfl

theorem key_setOuts (g : Graph) (id : NodeId) (l : List NodeOutput) (x : NodeId) :
    ((g.setOuts id l).getNode x).key = (g.getNode x).key := by
  rw [setOuts, getNode_setNode]
  split
  · rename_i h
    rw [h.1]
    rfl
  · rfl

theorem outs_setInps (g : Graph) (id : NodeId) (l : List NodeId) (x : NodeId) :
    ((g.setInps id l).getNode x).outs = (g.getNode x).outs := by
  rw [setInps, getNode_setNode]
  split
  · rename_i h
    rw [h.1]
  · rfl

theorem inps_setInps (g : Graph) (id : NodeId) (l : List NodeId) (x : NodeId) :
    ((g.setInps id l).getNode x).inps = if x = id ∧ id ≠ 0 then l else (g.getNode x).inps := by
  rw [setInps, getNode_setNode]
  split <;> rfl

theorem inps_of_key {a b : Node} (h : a.key = b.key) : a.inps = b.inps := by
  have := congrArg Node.inps h
  exact this

theorem itype_of_key {a b : Node} (h : a.key = b.key) : a.itype = b.itype := by
  have := congrArg Node.itype h
  exact this

theorem useCount_congr (h : (g'.getNode o.id).inps = (g.getNode o.id).inps) :
    g'.useCount m o = g.useCount m o := by
  rw [useCount, useCount, h]

theorem useCount_of_dead (h : g.getNode o.id = .dead) : g.useCount m o = 0 := by
  rw [useCount, h, if_neg]
  simp [Node.dead]

theorem Links.congr (hl : g.Links d) (h : g'.mem = g.mem) : g'.Links d := by
  intro m hm o ho
  have hu : g'.useCount m o = g.useCount m o := useCount_congr (by rw [getNode_congr h])
  rw [getNode_congr h, hu]
  exact hl m hm o ho

theorem Links.congr_off {d' : NodeId → NodeOutput → ℤ} (hl : g.Links d)
    (h : ∀ m o, m ≠ 0 → o ≠ .pin → d' m o = d m o) : g.Links d' := by
  intro m hm o ho
  rw [h m o hm ho]
  exact hl m hm o ho

theorem Clean.congr (hc : g.Clean) (h : g'.mem = g.mem) : g'.Clean := by
  intro x hx
  rw [getNode_congr h] at hx ⊢
  exact hc x hx

/-- A list of uses changes. -/
theorem Links.setOuts {d' : NodeId → NodeOutput → ℤ} {l : List NodeOutput} (hl : g.Links d)
    (he : ∀ o, o ≠ .pin → (l.count o : ℤ) - d' id o = (g.getNode id).outs.count o - d id o)
    (hd : ∀ m o, m ≠ id → o ≠ .pin → d' m o = d m o) : (g.setOuts id l).Links d' := by
  intro m hm o ho
  have hu : (g.setOuts id l).useCount m o = g.useCount m o :=
    useCount_congr (inps_of_key (key_setOuts g id l o.id))
  have hold := hl m hm o ho
  rw [hu, outs_setOuts]
  by_cases h : m = id
  · subst h
    have := he o ho
    rw [if_pos ⟨rfl, hm⟩]
    linarith
  · rw [if_neg fun hc => h hc.1, hd m o h ho, hold]

/-- The inputs of a node change. -/
theorem Links.setInps {d' : NodeId → NodeOutput → ℤ} {l : List NodeId} (hl : g.Links d)
    (hid : id ≠ 0)
    (he : ∀ m i, m ≠ 0 → (if l[i]? = some m then 1 else 0) + d' m ⟨id, i⟩ =
      (if (g.getNode id).inps[i]? = some m then 1 else 0) + d m ⟨id, i⟩)
    (hd : ∀ m o, m ≠ 0 → o.id ≠ id → o ≠ .pin → d' m o = d m o) : (g.setInps id l).Links d' := by
  intro m hm o ho
  obtain ⟨n, i⟩ := o
  rw [outs_setInps, hl m hm _ ho]
  by_cases h : n = id
  · subst h
    have hinps : ((g.setInps n l).getNode n).inps = l := by rw [inps_setInps, if_pos ⟨rfl, hid⟩]
    rw [useCount, useCount, hinps]
    exact (he m i hm).symm
  · have hinps : ((g.setInps id l).getNode n).inps = (g.getNode n).inps := by
      rw [inps_setInps, if_neg fun hc => h hc.1]
    rw [useCount, useCount, hinps, hd m _ hm h ho]

theorem Clean.setNode (hc : g.Clean) {n : Node} (hn : n.itype = .dead → n = .dead) :
    (g.setNode id n).Clean := by
  intro y hy
  rw [getNode_setNode] at hy ⊢
  split at hy
  · rename_i h
    rw [if_pos h]
    exact hn hy
  · rename_i h
    rw [if_neg h]
    exact hc y hy

theorem Clean.setOuts (hc : g.Clean) {l : List NodeOutput} (h : (g.getNode id).itype ≠ .dead) :
    (g.setOuts id l).Clean :=
  hc.setNode fun hd => absurd hd h

theorem Clean.setInps (hc : g.Clean) {l : List NodeId} (h : (g.getNode id).itype ≠ .dead) :
    (g.setInps id l).Clean :=
  hc.setNode fun hd => absurd hd h

/-! ### The interner and the capacities leave the nodes alone -/

theorem unintern_spec (h : g.unintern id = some g') :
    (g.getNode id).itype ≠ .dead ∧ g'.mem = g.mem ∧ g'.pos = g.pos := by
  unfold unintern hasInternedFlag at h
  by_cases hd : (g.getNode id).itype = .dead
  · simp [hd] at h
  · refine ⟨hd, ?_⟩
    simp only [hd, if_false, Option.bind_eq_bind, Option.bind_some] at h
    split at h
    · cases h
      exact ⟨rfl, rfl⟩
    · split at h
      · split at h <;> cases h <;> exact ⟨rfl, rfl⟩
      · cases h
        exact ⟨rfl, rfl⟩

/-- `intern` gives the node itself, or another with the same key. -/
theorem intern_spec {nid : NodeId} (h : g.intern id = some (g', nid)) :
    (g.getNode id).itype ≠ .dead ∧ g'.mem = g.mem ∧ g.pos ≤ g'.pos ∧
      (nid = id ∨ (g.getNode id).itype.isInterned = true ∧
        (g.getNode nid).key = (g.getNode id).key) := by
  unfold intern hasInternedFlag at h
  by_cases hd : (g.getNode id).itype = .dead
  · simp [hd] at h
  · refine ⟨hd, ?_⟩
    simp only [hd, if_false, Option.bind_eq_bind, Option.bind_some] at h
    split at h
    · cases h
      exact ⟨rfl, le_rfl, .inl rfl⟩
    · rename_i hi
      split at h
      · rename_i idx hfind
        cases h
        refine ⟨rfl, le_rfl, ?_⟩
        obtain ⟨hlt, heq, -⟩ := List.findIdx?_eq_some_iff_getElem.1 hfind
        rw [List.getD_eq_getElem?_getD, List.getElem?_eq_getElem hlt, Option.getD_some]
        simp only [nodeEq, Bool.and_eq_true, Bool.or_eq_true, decide_eq_true_eq] at heq
        rcases heq.2 with h' | h'
        · exact .inl h'
        · exact .inr ⟨by simpa using hi, h'⟩
      · cases h
        refine ⟨?_, ?_, .inl rfl⟩
        · simp only
          split <;> rfl
        · simp only
          split
          · simp only [internerGrow]
            omega
          · exact le_rfl

theorem ensureAvailableOutputCap_spec {n : ℕ} (h : g.ensureAvailableOutputCap id n = some g') :
    g'.mem = g.mem ∧ g.pos ≤ g'.pos := by
  unfold ensureAvailableOutputCap at h
  simp only at h
  split at h
  · split at h
    · cases h
      exact ⟨rfl, Nat.le_add_right _ _⟩
    · cases h
  · cases h
    exact ⟨rfl, le_rfl⟩

/-! ### Adding and removing one use -/

theorem at_self : at_ m o m o = 1 := if_pos ⟨rfl, rfl⟩

/-- The first of the places and the others. -/
theorem at_add_atInputs (id inp : NodeId) (i : ℕ) (inps : List NodeId) (m : NodeId)
    (o : NodeOutput) :
    at_ inp ⟨id, i⟩ m o + atInputs id (i + 1) inps m o = atInputs id i (inp :: inps) m o := by
  obtain ⟨n, j⟩ := o
  simp only [at_, atInputs, NodeOutput.mk.injEq]
  rcases lt_trichotomy j i with hj | rfl | hj
  · rw [if_neg (by omega), if_neg (by omega), if_neg (by omega), add_zero]
  · rw [Nat.sub_self, List.getElem?_cons_zero]
    simp [eq_comm, and_comm]
  · obtain ⟨k, rfl⟩ := Nat.exists_eq_add_of_lt hj
    have h₁ : i + k + 1 - i = k + 1 := by omega
    have h₂ : i + k + 1 - (i + 1) = k := by omega
    rw [if_neg (by omega), h₁, h₂, zero_add, List.getElem?_cons_succ]
    simp only [show i + 1 ≤ i + k + 1 by omega, show i ≤ i + k + 1 by omega, true_and]

/-- `add_output` puts the place at the end of the list. -/
theorem addOutput_spec {i : ℕ} (h : g.addOutput m id i = some g') :
    m = 0 ∧ g' = g ∨ m ≠ 0 ∧ (g.getNode m).itype ≠ .dead ∧ g.pos ≤ g'.pos ∧
      g'.mem = (g.setOuts m ((g.getNode m).outs ++ [⟨id, i⟩])).mem := by
  unfold addOutput at h
  by_cases hm : m = 0
  · simp only [hm, if_true] at h
    cases h
    exact .inl ⟨hm, rfl⟩
  · refine .inr ⟨hm, ?_⟩
    simp only [hm, if_false, Option.bind_eq_bind, Option.bind_eq_some_iff,
      Option.guard_eq_some'] at h
    obtain ⟨_, hlive, g₁, hcap, _, -, _, -, hset⟩ := h
    obtain ⟨hmem, hpos⟩ := ensureAvailableOutputCap_spec hcap
    cases hset
    refine ⟨hlive, hpos, ?_⟩
    simp only [setOuts, setNode, getNode_congr hmem, hmem]

theorem Links.addOutput {i : ℕ} (hl : g.Links d) (h : g.addOutput m id i = some g') :
    g'.Links fun m' o' => d m' o' + at_ m ⟨id, i⟩ m' o' := by
  obtain ⟨rfl, rfl⟩ | ⟨hm, -, -, hmem⟩ := addOutput_spec h
  · refine hl.congr_off fun m' o' hm' _ => ?_
    rw [at_, if_neg fun hc => hm' hc.1, add_zero]
  · refine Links.congr (hl.setOuts (fun o' _ => ?_) fun m' o' hm' _ => ?_) hmem
    · rw [List.count_append, List.count_singleton]
      by_cases ho : o' = ⟨id, i⟩
      · subst ho
        simp [at_]
      · simp [at_, ho, Ne.symm ho]
    · rw [at_, if_neg fun hc => hm' hc.1, add_zero]

/-- Nodes have gone, and uses with them; the nodes that are left are the same. -/
structure Shrinks (g g' : Graph) : Prop where
  node : ∀ x, g'.getNode x = .dead ∨
    (g'.getNode x).key = (g.getNode x).key ∧ (g'.getNode x).outs ⊆ (g.getNode x).outs
  pos : g'.pos = g.pos

theorem Shrinks.refl (g : Graph) : g.Shrinks g :=
  ⟨fun _ => .inr ⟨rfl, List.Subset.refl _⟩, rfl⟩

/-- What a deletion keeps.  The last part is why it never comes back to the node it started with: a
node without uses is not found by `remove_output`. -/
structure Removes (g g' : Graph) (P : NodeId → Prop) (e : NodeId → NodeOutput → ℤ) : Prop where
  shrinks : g.Shrinks g'
  links : ∀ d, g.Links d → g'.Links fun m o => d m o - e m o
  unused : ∀ x, P x → (g.getNode x).outs = [] → g'.getNode x = g.getNode x

theorem Shrinks.trans {g₁ g₂ g₃ : Graph} (h₁ : g₁.Shrinks g₂) (h₂ : g₂.Shrinks g₃) :
    g₁.Shrinks g₃ := by
  refine ⟨fun x => ?_, h₂.pos.trans h₁.pos⟩
  rcases h₂.node x with h | ⟨hk, ho⟩
  · exact .inl h
  · rcases h₁.node x with h | ⟨hk', ho'⟩
    · rw [h] at hk ho
      exact .inl (Node.eq_dead hk ho)
    · exact .inr ⟨hk.trans hk', List.Subset.trans ho ho'⟩

theorem Shrinks.dead (h : g.Shrinks g') (hx : g.getNode x = .dead) : g'.getNode x = .dead := by
  rcases h.node x with hd | ⟨hk, ho⟩
  · exact hd
  · rw [hx] at hk ho
    exact Node.eq_dead hk ho

theorem Shrinks.clean (h : g.Shrinks g') (hc : g.Clean) : g'.Clean := by
  intro x hx
  rcases h.node x with hd | ⟨hk, ho⟩
  · exact hd
  · exact h.dead (hc x ((itype_of_key hk).symm.trans hx))

theorem Removes.trans {g₁ g₂ g₃ : Graph} {P : NodeId → Prop} {e₁ e₂ : NodeId → NodeOutput → ℤ}
    (h₁ : g₁.Removes g₂ P e₁) (h₂ : g₂.Removes g₃ P e₂) :
    g₁.Removes g₃ P fun m o => e₁ m o + e₂ m o := by
  refine ⟨h₁.shrinks.trans h₂.shrinks, fun d hl => ?_, fun x hx hnil => ?_⟩
  · refine (h₂.links _ (h₁.links d hl)).congr_off fun m o _ _ => ?_
    ring
  · have hx₁ := h₁.unused x hx hnil
    rw [h₂.unused x hx (by rw [hx₁, hnil]), hx₁]

theorem count_swapRemove {l : List NodeOutput} {idx : ℕ} (h : l.idxOf? out = some idx)
    (o : NodeOutput) : ((swapRemove l idx).count o : ℤ) = l.count o - if o = out then 1 else 0 := by
  obtain ⟨hlt, hout, -⟩ := List.idxOf?_eq_some_iff.1 h
  have herase : l.erase out = l.eraseIdx idx := by rw [List.erase_eq_eraseIdx, h]
  rw [(swapRemove_perm hlt).count_eq, ← herase, List.count_erase]
  by_cases ho : o = out
  · subst ho
    have hpos : 0 < l.count o := List.count_pos_iff.2 (hout ▸ List.getElem_mem hlt)
    simp only [beq_self_eq_true, if_true]
    omega
  · simp [ho, Ne.symm ho]

section Delete

variable {del : Graph → NodeId → Option Graph}
  (hdel : ∀ g id g', del g id = some g' → g.Removes g' (· ≠ id) fun _ _ => 0)

include hdel

theorem removeOutput_spec (h : g.removeOutput del m out = some g') :
    g.Removes g' (fun _ => True) (at_ m out) := by
  unfold removeOutput at h
  by_cases hm : m = 0
  · simp only [hm, if_true] at h
    cases h
    refine ⟨.refl g, fun d hl => hl.congr_off fun m' o' hm' _ => ?_, fun x _ _ => rfl⟩
    rw [at_, if_neg fun hc => hm' (hc.1.trans hm), sub_zero]
  · simp only [hm, if_false, Option.bind_eq_bind, Option.bind_eq_some_iff] at h
    obtain ⟨idx, hidx, hdel'⟩ := h
    have hr := hdel _ _ _ hdel'
    obtain ⟨hlt, hout, -⟩ := List.idxOf?_eq_some_iff.1 hidx
    have hshrink : g.Shrinks (g.setOuts m (swapRemove (g.getNode m).outs idx)) := by
      refine ⟨fun x => .inr ⟨key_setOuts .., ?_⟩, rfl⟩
      rw [outs_setOuts]
      split
      · rename_i hx
        rw [hx.1]
        exact fun o ho => List.eraseIdx_subset ((swapRemove_perm hlt).mem_iff.1 ho)
      · exact List.Subset.refl _
    refine ⟨hshrink.trans hr.shrinks, fun d hl => ?_, fun x _ hnil => ?_⟩
    · refine (hr.links (fun m' o' => d m' o' - at_ m out m' o')
        (hl.setOuts (fun o ho => ?_) fun m' o' hm' _ => ?_)).congr_off fun _ _ _ _ => by ring
      · rw [count_swapRemove hidx]
        simp only [at_, true_and]
        ring
      · rw [at_, if_neg fun hc => hm' hc.1, sub_zero]
    · have hx : x ≠ m := by
        rintro rfl
        rw [hnil] at hlt
        exact absurd hlt (Nat.not_lt_zero _)
      have hx' : (g.setOuts m (swapRemove (g.getNode m).outs idx)).getNode x = g.getNode x :=
        getNode_setNode_ne _ hx
      rw [hr.unused x hx (by rw [hx', hnil]), hx']

theorem removeInputs_spec {inps : List NodeId} {i : ℕ}
    (h : removeInputs del id i inps g = some g') :
    g.Removes g' (fun _ => True) (atInputs id i inps) := by
  induction inps generalizing g i with
  | nil =>
    cases h
    refine ⟨.refl _, fun d hl => hl.congr_off fun m o _ _ => ?_, fun x _ _ => rfl⟩
    simp [atInputs]
  | cons inp inps ih =>
    simp only [removeInputs, Option.bind_eq_bind, Option.bind_eq_some_iff] at h
    obtain ⟨g₁, h₁, h₂⟩ := h
    have hr := (removeOutput_spec hdel h₁).trans (ih h₂)
    refine ⟨hr.shrinks, fun d hl => (hr.links d hl).congr_off fun m o _ _ => ?_, hr.unused⟩
    rw [← at_add_atInputs]

end Delete

/-- **A deletion keeps the links**, at whatever point of an edit it starts. -/
theorem deleteNode_spec {fuel : ℕ} (h : deleteNode fuel g id = some g') :
    g.Removes g' (· ≠ id) fun _ _ => 0 := by
  induction fuel generalizing g id g' with
  | zero => cases h
  | succ fuel ih =>
    have hdel : ∀ g id g', deleteNode fuel g id = some g' →
        g.Removes g' (· ≠ id) fun _ _ => 0 := fun _ _ _ => ih
    rw [deleteNode] at h
    by_cases hc : (g.getNode id).outs ≠ [] ∨ id = 0 ∨ (g.getNode id).itype = .dead
    · rw [if_pos hc] at h
      cases h
      exact ⟨.refl _, fun d hl => hl.congr_off fun _ _ _ _ => sub_zero _, fun x _ _ => rfl⟩
    · rw [if_neg hc] at h
      simp only [not_or, not_not] at hc
      obtain ⟨hnil, hid, -⟩ := hc
      simp only [Option.bind_eq_bind, Option.bind_eq_some_iff, Option.guard_eq_some'] at h
      obtain ⟨_, -, g₁, h₁, g₂, h₂, hkill⟩ := h
      cases hkill
      have hr := removeInputs_spec hdel h₁
      obtain ⟨-, hmem, hpos⟩ := unintern_spec h₂
      have hne {x : NodeId} (hx : x ≠ id) :
          (g₂.setNode id { itype := .dead }).getNode x = g₁.getNode x :=
        (getNode_setNode_ne _ hx).trans (getNode_congr hmem x)
      have hkilled : (g₂.setNode id { itype := .dead }).getNode id = .dead :=
        getNode_setNode_self _ hid
      refine ⟨⟨fun x => ?_, hpos.trans hr.shrinks.pos⟩, fun d hl => ?_, fun x hx hx' => ?_⟩
      · by_cases hx : x = id
        · exact .inl (hx ▸ hkilled)
        · rw [hne hx]
          exact hr.shrinks.node x
      · -- the entries of the node are gone, and so are the places they stood for
        intro m hm o ho
        have hold := hr.links d hl m hm o ho
        have houts : ((g₂.setNode id { itype := .dead }).getNode m).outs = (g₁.getNode m).outs := by
          by_cases hx : m = id
          · rw [hx, hkilled, hr.unused id trivial hnil, hnil]
            rfl
          · rw [hne hx]
        rw [houts, hold]
        by_cases hx : o.id = id
        · have hu : (g₂.setNode id { itype := .dead }).useCount m o = 0 :=
            useCount_of_dead (hx ▸ hkilled)
          rw [hu, useCount, hx, hr.unused id trivial hnil]
          simp only [atInputs, hx, Nat.zero_le, true_and, Nat.sub_zero]
          ring
        · have hu : (g₂.setNode id { itype := .dead }).useCount m o = g₁.useCount m o :=
            useCount_congr (by rw [hne hx])
          simp only [hu, atInputs, hx, false_and, if_false]
      · rw [hne hx]
        exact hr.unused x trivial hx'

end Graph

end OdinSon
