import OdinSon.Codegen.Amd64Fold

/-!
# A folded load reads what the load read

The search of `has_no_clobbers` stops at the first node with the flag `is_store`, so it is right as
long as every node that writes memory has that flag.  `add_raw` sets it by the kind, `make_node`
copies it, and a store that `peep` turns into an operation on memory keeps it in place: so it is in
every graph that the backend builds (`Built.flagged`).

A folding takes away the load and the operation, puts the new node in the place of the operation and
leaves everything else as it is (`fold_spec`).  So the blocks stay in order, and the writes stay
where they were, through all foldings (`inv_step`).
-/

namespace OdinSon.Codegen.Amd64

open AmdGraph

/-! ### Writes -/

/-- The kinds that write memory on every target. -/
def writeKinds : List NodeType := [.store, .copy, .set, .call]

/-- The nodes for which `emit_instr` writes to memory: stores, calls (those to the library too), and
operations with a destination in memory, of which a comparison only reads. -/
def AmdNode.writesMemory (n : AmdNode) : Bool :=
  match n.rtype with
  | .base t => t ∈ writeKinds
  | .store => true
  | .bin op => n.memOp.memMode = .dest && !op.isComparison
  | .neg | .not => n.memOp.memMode = .dest
  | _ => false

/-- A node that writes memory has the flag, but for a call, which ends its block. -/
def AmdNode.Flagged (n : AmdNode) : Prop :=
  n.writesMemory = true → n.isStore = true ∨ n.rtype = .base .call

/-- What the flag depends on. -/
def AmdNode.SameWrites (n n' : AmdNode) : Prop :=
  n'.rtype = n.rtype ∧ n'.isStore = n.isStore ∧ n'.memOp.memMode = n.memOp.memMode

/-- The graphs that the backend builds, as far as writes go.  A node comes from `add_node` or from
`make_node`, which makes an `AMD64_Store` of a `Store` only, and a memory destination of comparisons
only; an `AMD64_Store` becomes an operation in place; a node may get another kind that writes nothing
(a swapped comparison, a phi, `AMD64_Mul8`, `AMD64_Pcmpeq`); all other edits leave kinds, flags and
modes alone, or delete. -/
inductive Built : AmdGraph → Prop
  | empty : Built { mem := fun _ => { rtype := .base .dead }, pos := 1 }
  | addNode {g : AmdGraph} (h : Built g) (rtype : AmdType) (dt : Datatype) (inps : List NodeId)
      (extra : FoldOp) (lane : LaneType) (hm : extra.memMode ≠ .dest) :
      Built (g.addNode rtype dt inps extra lane).1
  | makeNode {g : AmdGraph} (h : Built g) (src : NodeId) (rtype : AmdType) (inps : List NodeId)
      (extra : FoldOp) (forceLoad : Bool) (hbase : ∀ t, rtype ≠ .base t)
      (hstore : rtype = .store → (g.getNode src).rtype = .base .store)
      (hdest : extra.memMode = .dest → ∃ op, rtype = .bin op ∧ op.isComparison = true) :
      Built (g.makeNode src rtype inps extra forceLoad).1
  | destOp {g : AmdGraph} (h : Built g) (id : NodeId) (hid : (g.getNode id).rtype = .store)
      (rtype : AmdType) (inps : List NodeId) (memOp : FoldOp) :
      Built (g.setNode id { g.getNode id with rtype, inps, memOp })
  | retype {g : AmdGraph} (h : Built g) (id : NodeId) (rtype : AmdType)
      (ht : rtype = .mul8 ∨ rtype = .pcmpeq ∨ ∃ t, rtype = .base t ∧ t ∉ writeKinds) :
      Built (g.setNode id { g.getNode id with rtype })
  | edit {g g' : AmdGraph} (h : Built g) (hpos : g'.pos = g.pos) (hnode : ∀ id,
      (g'.getNode id).isDead = true ∨ (g.getNode id).SameWrites (g'.getNode id)) : Built g'

namespace AmdGraph

theorem getNode_setNode {g : AmdGraph} {id : NodeId} (h : id ≠ 0) (n : AmdNode) (m : NodeId) :
    (g.setNode id n).getNode m = if m = id then n else g.getNode m := by
  by_cases hm : m = id
  · subst hm
    simp [getNode, setNode, h]
  · simp [getNode, setNode, hm]

theorem getNode_addRaw {g : AmdGraph} (hpos : g.pos ≠ 0) (rtype : AmdType) (dt : Datatype)
    (inps : List NodeId) (m : NodeId) :
    (g.addRaw rtype dt inps).1.getNode m = if m = g.pos then
      { rtype, dt, isStore := rtype.hasStoreFlag, isLoad := rtype.hasLoadFlag, inps }
      else g.getNode m :=
  getNode_setNode hpos _ m

theorem getNode_addNode {g : AmdGraph} (hpos : g.pos ≠ 0) (rtype : AmdType) (dt : Datatype)
    (inps : List NodeId) (extra : FoldOp) (lane : LaneType) (m : NodeId) :
    (g.addNode rtype dt inps extra lane).1.getNode m = if m = g.pos then
      { rtype, dt, isStore := rtype.hasStoreFlag, isLoad := rtype.hasLoadFlag, lane
        memOp := extra, inps }
      else g.getNode m := by
  have hadd := getNode_addRaw hpos rtype dt inps
  have hid : (g.addRaw rtype dt inps).2 = g.pos := rfl
  unfold addNode
  rw [getNode_setNode (by rw [hid]; exact hpos), hid, hadd g.pos, if_pos rfl]
  by_cases hm : m = g.pos
  · rw [if_pos hm, if_pos hm]
  · rw [if_neg hm, if_neg hm, hadd m, if_neg hm]

theorem getNode_makeNode {g : AmdGraph} (hpos : g.pos ≠ 0) (src : NodeId) (rtype : AmdType)
    (inps : List NodeId) (extra : FoldOp) (forceLoad : Bool) (m : NodeId) :
    (g.makeNode src rtype inps extra forceLoad).1.getNode m = if m = g.pos then
      { rtype, inps
        dt := (g.getNode src).dt
        isStore := (g.getNode src).isStore
        isLoad := (g.getNode src).isLoad || rtype = .load || forceLoad
        lane := (g.getNode src).lane
        memOp := extra }
      else g.getNode m := by
  have hadd := getNode_addRaw hpos rtype (g.getNode src).dt inps
  have hid : (g.addRaw rtype (g.getNode src).dt inps).2 = g.pos := rfl
  unfold makeNode
  rw [getNode_setNode (by rw [hid]; exact hpos), hid, hadd g.pos, if_pos rfl]
  by_cases hm : m = g.pos
  · rw [if_pos hm, if_pos hm]
  · rw [if_neg hm, if_neg hm, hadd m, if_neg hm]

end AmdGraph

theorem AmdNode.Flagged.of_dead {n : AmdNode} (h : n.isDead = true) : n.Flagged := by
  have hr : n.rtype = .base .dead := by simpa [AmdNode.isDead, AmdType.isDead] using h
  intro hw
  simp [AmdNode.writesMemory, hr, writeKinds] at hw

theorem AmdNode.SameWrites.writes {n n' : AmdNode} (h : n.SameWrites n') :
    n'.writesMemory = n.writesMemory := by
  obtain ⟨ht, _, hm⟩ := h
  simp only [AmdNode.writesMemory, ht, hm]

theorem AmdNode.SameWrites.flagged {n n' : AmdNode} (h : n.SameWrites n') (hf : n.Flagged) :
    n'.Flagged := by
  intro hw
  rw [h.2.1, h.1]
  exact hf (h.writes ▸ hw)

theorem AmdNode.flagged_of_isStore {n : AmdNode} (h : n.isStore = true) : n.Flagged :=
  fun _ => .inl h

/-- A node with the flags of its kind, and no destination in memory. -/
theorem AmdNode.flagged_of_kind {n : AmdNode} (hf : n.isStore = n.rtype.hasStoreFlag)
    (hm : n.memOp.memMode ≠ .dest) : n.Flagged := by
  intro hw
  rw [hf]
  cases hr : n.rtype with
  | base t =>
    simp only [AmdNode.writesMemory, hr, writeKinds, List.mem_cons, List.not_mem_nil, or_false,
      decide_eq_true_eq] at hw
    obtain rfl | rfl | rfl | rfl := hw
    · exact .inl rfl
    · exact .inl rfl
    · exact .inl rfl
    · exact .inr rfl
  | store => exact .inl rfl
  | _ => simp [AmdNode.writesMemory, hr, hm] at hw

theorem Built.pos_ne_zero {g : AmdGraph} (h : Built g) : g.pos ≠ 0 := by
  induction h with
  | empty => exact one_ne_zero
  | addNode h => exact Nat.succ_ne_zero _
  | makeNode h => exact Nat.succ_ne_zero _
  | destOp _ _ _ _ _ _ ih => exact ih
  | retype _ _ _ _ ih => exact ih
  | edit _ hpos _ ih => rw [hpos]; exact ih

/-- **Every node that writes memory has the flag**, in every graph that the backend builds. -/
theorem Built.flagged {g : AmdGraph} (h : Built g) (id : NodeId) : (g.getNode id).Flagged := by
  induction h generalizing id with
  | empty =>
    by_cases hid : id = 0
    · subst hid
      exact fun hw => absurd hw (by decide)
    · exact .of_dead (by simp [getNode, hid, AmdNode.isDead, AmdType.isDead])
  | @addNode g h rtype dt inps extra lane hm ih =>
    rw [getNode_addNode h.pos_ne_zero]
    split_ifs with hid
    · exact AmdNode.flagged_of_kind rfl hm
    · exact ih id
  | @makeNode g h src rtype inps extra forceLoad hbase hstore hdest ih =>
    rw [getNode_makeNode h.pos_ne_zero]
    split_ifs with hid
    · intro hw
      -- the flag comes from `src`: a store for a store, and nothing else of these writes
      cases rtype with
      | store => exact .inl ((ih src (by rw [AmdNode.writesMemory, hstore rfl]; rfl)).resolve_right
          (by simp [hstore rfl]))
      | base t => exact absurd rfl (hbase t)
      | bin op =>
        simp only [AmdNode.writesMemory, Bool.and_eq_true, decide_eq_true_eq] at hw
        obtain ⟨op', hop, hc⟩ := hdest hw.1
        cases hop
        simp [hc] at hw
      | neg =>
        obtain ⟨op', hop, _⟩ := hdest (by simpa [AmdNode.writesMemory] using hw)
        cases hop
      | not =>
        obtain ⟨op', hop, _⟩ := hdest (by simpa [AmdNode.writesMemory] using hw)
        cases hop
      | _ => simp [AmdNode.writesMemory] at hw
    · exact ih id
  | @destOp g h m hm rtype inps memOp ih =>
    have hm0 : m ≠ 0 := by
      rintro rfl
      simp [getNode] at hm
    rw [getNode_setNode hm0]
    split_ifs with hid
    · exact AmdNode.flagged_of_isStore ((ih m (by simp [AmdNode.writesMemory, hm])).resolve_right
        (by simp [hm]))
    · exact ih id
  | @retype g h m rtype ht ih =>
    by_cases hm0 : m = 0
    · have : (g.setNode m { g.getNode m with rtype }).getNode id = g.getNode id := by
        by_cases hid : id = 0 <;> simp [getNode, setNode, hid, hm0]
      rw [this]
      exact ih id
    · rw [getNode_setNode hm0]
      split_ifs with hid
      · intro hw
        obtain rfl | rfl | ⟨t, rfl, ht⟩ := ht
        · cases hw
        · cases hw
        · exact absurd (of_decide_eq_true hw) ht
      · exact ih id
  | @edit g g' h hpos hnode ih =>
    obtain hd | hs := hnode id
    · exact .of_dead hd
    · exact hs.flagged (ih id)

/-! ### What a folding changes -/

namespace AmdGraph

/-- A node that is there uses another. -/
def Uses (g : AmdGraph) (n m : NodeId) : Prop :=
  n < g.pos ∧ (g.getNode n).isDead = false ∧ m ∈ (g.getNode n).inps

/-- The graph after a node has gone. -/
def kill (g : AmdGraph) (id : NodeId) : AmdGraph := g.setNode id { rtype := .base .dead }

variable {g g₁ : AmdGraph} {instr load m n : NodeId}

theorem mem_outs {o : NodeOutput} : o ∈ g.outs m ↔ o.id < g.pos ∧
    (g.getNode o.id).isDead = false ∧ (g.getNode o.id).inps[o.idx]? = some m := by
  simp only [outs, List.mem_flatMap, List.mem_filter, List.mem_range, List.mem_map,
    Bool.not_eq_true', decide_eq_true_eq]
  constructor
  · rintro ⟨n, ⟨hlt, hlive⟩, ⟨inp, i⟩, ⟨hmem, rfl⟩, rfl⟩
    exact ⟨hlt, hlive, List.mem_zipIdx_iff_getElem?.1 hmem⟩
  · rintro ⟨hlt, hlive, hget⟩
    exact ⟨o.id, ⟨hlt, hlive⟩, (m, o.idx), ⟨List.mem_zipIdx_iff_getElem?.2 hget, rfl⟩, rfl⟩

theorem outs_ne_nil_iff : g.outs m ≠ [] ↔ ∃ n, g.Uses n m := by
  constructor
  · intro h
    obtain ⟨out, hout⟩ := List.exists_mem_of_ne_nil _ h
    obtain ⟨hlt, hlive, hget⟩ := mem_outs.1 hout
    exact ⟨out.id, hlt, hlive, List.mem_of_getElem? hget⟩
  · rintro ⟨n, hlt, hlive, hmem⟩
    obtain ⟨i, hi⟩ := List.mem_iff_getElem?.1 hmem
    exact List.ne_nil_of_mem (mem_outs (o := ⟨n, i⟩).2 ⟨hlt, hlive, hi⟩)

/-- A node with one output is used at one place. -/
theorem eq_of_outs_length (h : (g.outs m).length = 1) {a b : NodeOutput} (ha : a ∈ g.outs m)
    (hb : b ∈ g.outs m) : a = b := by
  obtain ⟨out, hout⟩ := List.length_eq_one_iff.1 h
  rw [hout, List.mem_singleton] at ha hb
  rw [ha, hb]

theorem deleteNode_of_kept (fuel : ℕ) (h : m = 0 ∨ (g.getNode m).isDead = true ∨ ∃ n, g.Uses n m) :
    deleteNode fuel g m = g := by
  cases fuel with
  | zero => rfl
  | succ fuel =>
    rw [deleteNode, if_pos]
    obtain h | h | h := h
    · exact .inr (.inl h)
    · exact .inr (.inr h)
    · exact .inl (outs_ne_nil_iff.2 h)

theorem foldl_deleteNode_of_kept (fuel : ℕ) {l : List NodeId}
    (h : ∀ m ∈ l, m = 0 ∨ (g.getNode m).isDead = true ∨ ∃ n, g.Uses n m) :
    l.foldl (deleteNode fuel) g = g := by
  induction l with
  | nil => rfl
  | cons m l ih =>
    rw [List.foldl_cons, deleteNode_of_kept fuel (h m List.mem_cons_self)]
    exact ih fun m hm => h m (List.mem_cons_of_mem _ hm)

/-- A node that nothing uses goes; its inputs stay if they have other uses. -/
theorem deleteNode_of_unused (fuel : ℕ) (h0 : m ≠ 0) (hlive : (g.getNode m).isDead = false)
    (huses : ∀ n, ¬g.Uses n m) :
    deleteNode (fuel + 1) g m = (g.getNode m).inps.foldl (deleteNode fuel) (g.kill m) := by
  have houts : g.outs m = [] := by
    by_contra h
    obtain ⟨n, hn⟩ := outs_ne_nil_iff.1 h
    exact huses n hn
  rw [deleteNode, if_neg (by simp [houts, h0, hlive])]
  rfl

theorem getNode_redirect (w target : NodeId) : (g.redirect w target).getNode m =
    { g.getNode m with
      inps := (g.getNode m).inps.map fun inp => if inp = target then w else inp } := by
  by_cases h : m = 0 <;> simp [getNode, redirect, h]

/-- `instr` is about to give way to the new node `g.pos`, and `load` has no other use. -/
structure Folding (g g₁ : AmdGraph) (instr load : NodeId) : Prop where
  pos : g₁.pos = g.pos + 1
  old : ∀ m, m ≠ g.pos → g₁.getNode m = g.getNode m
  instr_ne : instr ≠ 0
  instr_lt : instr < g.pos
  instr_live : (g.getNode instr).isDead = false
  load_ne : load ≠ 0
  load_lt : load < g.pos
  load_live : (g.getNode load).isDead = false
  uses : load ∈ (g.getNode instr).inps
  only : ∀ n, g.Uses n load → n = instr
  used : ∃ n, g.Uses n instr
  instr_self : instr ∉ (g.getNode instr).inps
  instr_load : instr ∉ (g.getNode load).inps
  new_live : (g₁.getNode g.pos).isDead = false
  new_instr : instr ∉ (g₁.getNode g.pos).inps
  new_load : load ∉ (g₁.getNode g.pos).inps
  keeps : ∀ m, m ∈ (g.getNode instr).inps ∨ m ∈ (g.getNode load).inps → m ≠ load →
    m = 0 ∨ m ∈ (g₁.getNode g.pos).inps

namespace Folding

variable (h : Folding g g₁ instr load)
include h

theorem ne : load ≠ instr := by
  intro he
  have huses := h.uses
  rw [he] at huses
  exact h.instr_self huses

theorem load_self : load ∉ (g.getNode load).inps :=
  fun hm => h.ne (h.only load ⟨h.load_lt, h.load_live, hm⟩)

/-- What is in the place of a node after the folding. -/
theorem getNode_kills (m : NodeId) :
    ((((g₁.redirect g.pos instr).kill instr).kill load).getNode m) =
      if m = instr ∨ m = load then { rtype := .base .dead } else
        { g₁.getNode m with
          inps := (g₁.getNode m).inps.map fun inp => if inp = instr then g.pos else inp } := by
  rw [kill, kill, getNode_setNode h.load_ne, getNode_setNode h.instr_ne, getNode_redirect]
  split_ifs <;> tauto

/-- What the new node uses is in use, whether the load has gone yet or not. -/
theorem kept {m : NodeId} (hm : m ∈ (g₁.getNode g.pos).inps) :
    ((g₁.redirect g.pos instr).kill instr).Uses g.pos m ∧
      (((g₁.redirect g.pos instr).kill instr).kill load).Uses g.pos m := by
  have hne : m ≠ instr := by
    rintro rfl
    exact h.new_instr hm
  have hmem : m ∈ (g₁.getNode g.pos).inps.map fun inp => if inp = instr then g.pos else inp :=
    List.mem_map.2 ⟨m, hm, if_neg hne⟩
  have hlt : g.pos < g₁.pos := by rw [h.pos]; exact Nat.lt_succ_self _
  have hi : g.pos ≠ instr := h.instr_lt.ne'
  have hl : g.pos ≠ load := h.load_lt.ne'
  have h₁ : (((g₁.redirect g.pos instr).kill instr).getNode g.pos) =
      { g₁.getNode g.pos with
        inps := (g₁.getNode g.pos).inps.map fun inp => if inp = instr then g.pos else inp } := by
    rw [kill, getNode_setNode h.instr_ne, if_neg hi, getNode_redirect]
  have h₂ := h.getNode_kills g.pos
  rw [if_neg (by tauto)] at h₂
  exact ⟨⟨hlt, by rw [h₁]; exact h.new_live, by rw [h₁]; exact hmem⟩,
    ⟨hlt, by rw [h₂]; exact h.new_live, by rw [h₂]; exact hmem⟩⟩

/-- **A folding deletes the operation and the load, and nothing else.** -/
theorem subsume_eq : g₁.subsume g.pos instr =
    ((g₁.redirect g.pos instr).kill instr).kill load := by
  have hk := h.getNode_kills
  set g₂ := g₁.redirect g.pos instr with hg₂
  have hpos₂ : g₂.pos = g.pos + 1 := h.pos
  have hnode₂ (m : NodeId) : g₂.getNode m = { g₁.getNode m with
      inps := (g₁.getNode m).inps.map fun inp => if inp = instr then g.pos else inp } :=
    getNode_redirect _ _
  have hsame {m : NodeId} (hm : m ≠ g.pos) (hi : instr ∉ (g.getNode m).inps) :
      (g₂.getNode m).inps = (g.getNode m).inps := by
    rw [hnode₂, h.old m hm]
    refine (List.map_congr_left fun inp hinp => ?_).trans (List.map_id _)
    exact if_neg fun he : inp = instr => hi (he ▸ hinp)
  have hinstr₂ := hsame h.instr_lt.ne h.instr_self
  have hload₂ := hsame h.load_lt.ne h.instr_load
  have hload₃ : (g₂.kill instr).getNode load = g₂.getNode load := by
    rw [kill, getNode_setNode h.instr_ne, if_neg h.ne]
  -- the operation has no uses left, the load loses its only one with the operation
  have hunused (n : NodeId) : ¬g₂.Uses n instr := by
    rintro ⟨-, -, hm⟩
    rw [hnode₂] at hm
    obtain ⟨inp, -, heq⟩ := List.mem_map.1 hm
    split_ifs at heq with hc
    · exact h.instr_lt.ne' heq
    · exact hc heq
  have hload_unused (n : NodeId) : ¬(g₂.kill instr).Uses n load := by
    rintro ⟨hlt, hlive, hm⟩
    rw [kill, getNode_setNode h.instr_ne] at hlive hm
    split_ifs at hlive hm with hn
    · cases hlive
    · rw [hnode₂] at hlive hm
      obtain ⟨inp, hinp, heq⟩ := List.mem_map.1 hm
      split_ifs at heq with hc
      · exact h.load_lt.ne' heq
      · subst heq
        by_cases hnp : n = g.pos
        · exact h.new_load (hnp ▸ hinp)
        · rw [h.old n hnp] at hlive hinp
          have hle : n < g.pos + 1 := lt_of_lt_of_eq hlt hpos₂
          exact hn (h.only n ⟨lt_of_le_of_ne (Nat.le_of_lt_succ hle) hnp, hlive, hinp⟩)
  have hlive₂ {m : NodeId} (hm : m ≠ g.pos) (hl : (g.getNode m).isDead = false) :
      (g₂.getNode m).isDead = false := by
    rw [hnode₂, h.old m hm]
    exact hl
  -- the inputs of both are in use by the new node
  have hkept {m : NodeId} (hm : m ∈ (g.getNode instr).inps ∨ m ∈ (g.getNode load).inps)
      (hne : m ≠ load) : m = 0 ∨ (g₂.kill instr).Uses g.pos m ∧
        ((g₂.kill instr).kill load).Uses g.pos m :=
    (h.keeps m hm hne).imp_right h.kept
  obtain ⟨fuel, hfuel⟩ : ∃ fuel, g.pos = fuel + 1 := Nat.exists_eq_succ_of_ne_zero
    (Nat.ne_of_gt (lt_of_le_of_lt (Nat.zero_le _) h.instr_lt))
  have hdel_load : deleteNode g.pos (g₂.kill instr) load = (g₂.kill instr).kill load := by
    rw [hfuel, deleteNode_of_unused fuel h.load_ne
      (by rw [hload₃]; exact hlive₂ h.load_lt.ne h.load_live) hload_unused, hload₃, hload₂]
    refine foldl_deleteNode_of_kept fuel fun m hm => ?_
    have hne : m ≠ load := fun he => h.load_self (he ▸ hm)
    exact (hkept (.inr hm) hne).imp_right fun hu => .inr ⟨_, hu.2⟩
  have hdel_inps : ∀ l : List NodeId, (∀ m ∈ l, m ∈ (g.getNode instr).inps) → load ∈ l →
      l.foldl (deleteNode g.pos) (g₂.kill instr) = (g₂.kill instr).kill load := by
    intro l hl hmem
    induction l with
    | nil => cases hmem
    | cons m l ih =>
      have hml := hl m List.mem_cons_self
      have hll := fun k hk => hl k (List.mem_cons_of_mem _ hk)
      rw [List.foldl_cons]
      by_cases hm : m = load
      · rw [hm, hdel_load]
        refine foldl_deleteNode_of_kept _ fun k hk => ?_
        by_cases hkl : k = load
        · exact .inr (.inl (by rw [hkl, kill, getNode_setNode h.load_ne, if_pos rfl]; rfl))
        · exact (hkept (.inl (hll k hk)) hkl).imp_right fun hu => .inr ⟨_, hu.2⟩
      · rw [deleteNode_of_kept _ ((hkept (.inl hml) hm).imp_right fun hu => .inr ⟨_, hu.1⟩)]
        exact ih hll ((List.mem_cons.1 hmem).resolve_left (Ne.symm hm))
  have hdel : deleteNode g₁.pos g₂ instr = (g₂.kill instr).kill load := by
    rw [h.pos, deleteNode_of_unused g.pos h.instr_ne (hlive₂ h.instr_lt.ne h.instr_live) hunused,
      hinstr₂]
    exact hdel_inps _ (fun m hm => hm) h.uses
  have hdel_new : deleteNode g₁.pos ((g₂.kill instr).kill load) g.pos =
      (g₂.kill instr).kill load := by
    obtain ⟨u, hlt, hlive, hmem⟩ := h.used
    have hui : u ≠ instr := fun he => h.instr_self (he ▸ hmem)
    have hul : u ≠ load := fun he => h.instr_load (he ▸ hmem)
    have hu := hk u
    rw [if_neg (by tauto), h.old u hlt.ne] at hu
    refine deleteNode_of_kept _ (.inr (.inr ⟨u, lt_of_lt_of_eq (Nat.lt_succ_of_lt hlt) hpos₂.symm,
      by rw [hu]; exact hlive, ?_⟩))
    rw [hu]
    exact List.mem_map.2 ⟨instr, hmem, if_pos rfl⟩
  rw [subsume, ← hg₂, hdel, hdel_new]

/-- The node in the place `m` after a folding. -/
theorem getNode_subsume (m : NodeId) : (g₁.subsume g.pos instr).getNode m =
    if m = instr ∨ m = load then { rtype := .base .dead } else
      { g₁.getNode m with
        inps := (g₁.getNode m).inps.map fun inp => if inp = instr then g.pos else inp } := by
  rw [h.subsume_eq, h.getNode_kills]

theorem pos_subsume : (g₁.subsume g.pos instr).pos = g.pos + 1 := by
  rw [h.subsume_eq]
  exact h.pos

end Folding

end AmdGraph

/-! ### Scheduled blocks -/

/-- What a node looks like that has to do with foldings: an operation has two inputs, or one and a
constant; a load has an index if it has a scale; and the operands have the datatype of the
operation. -/
structure AmdNode.Shaped (g : AmdGraph) (n : AmdNode) : Prop where
  bin : ∀ op, n.rtype = .base (.bin op) → n.inps.length = 2
  cmp : ∀ op, n.rtype = .bin op → op.isComparison = true → n.memOp.memMode = .none →
    n.inps.length = 1
  load : n.rtype = .load → if n.memOp.scale = 0 then n.inps.length = 3
    else n.inps.length = 4 ∧ n.inp 3 ≠ 0
  dt : ∀ op, n.rtype = .base (.bin op) → op.isComparison = false → isFoldKind op = true →
    (g.getNode (n.inp 1)).rtype = .load →
    (g.getNode (n.inp 1)).memOp.dt = (g.getNode (n.inp 1)).dt → (g.getNode (n.inp 1)).dt = n.dt

/-- The operations that a load may be folded into. -/
def AmdNode.isFoldUser (n : AmdNode) : Bool :=
  match n.rtype with
  | .base (.bin _) => true
  | .bin op => op.isComparison && n.memOp.memMode = .none
  | _ => false

/-- The blocks as `schedule_graph` leaves them: an instruction comes after what it uses, operations
are used, and a call is the last instruction of its block. -/
structure Scheduled (g : AmdGraph) (bbs : List (List NodeId)) : Prop where
  ids : ∀ b ∈ bbs, ∀ id ∈ b, id ≠ 0 ∧ id < g.pos
  nodup : ∀ b ∈ bbs, b.Nodup
  bound : ∀ id, ∀ m ∈ (g.getNode id).inps, m < g.pos
  order : ∀ b ∈ bbs, ∀ (i j : ℕ) (a c : NodeId), i ≤ j → b[i]? = some a → b[j]? = some c →
    (g.getNode a).rtype.isSilent = false → c ∉ (g.getNode a).inps
  calls : ∀ b ∈ bbs, ∀ (i : ℕ) (a : NodeId), b[i]? = some a → (g.getNode a).rtype = .base .call → i + 1 = b.length
  used : ∀ b ∈ bbs, ∀ id ∈ b, (g.getNode id).isFoldUser = true → ∃ n, g.Uses n id
  shaped : ∀ b ∈ bbs, ∀ id ∈ b, (g.getNode id).Shaped g

theorem hasNoClobbers_spec {g : AmdGraph} {id : NodeId} {preds : List NodeId}
    (h : g.hasNoClobbers id preds = true) : ∃ l₁ l₂, preds = l₁ ++ id :: l₂ ∧
      ∀ x ∈ l₁, (g.getNode x).isDead = true ∨ (g.getNode x).isStore = false := by
  induction preds with
  | nil => cases h
  | cons pred preds ih =>
    rw [hasNoClobbers] at h
    split_ifs at h with hid hdead hstore
    · exact ⟨[], preds, by rw [hid]; rfl, fun x hx => by cases hx⟩
    all_goals
      obtain ⟨l₁, l₂, rfl, hl⟩ := ih h
      refine ⟨pred :: l₁, l₂, rfl, fun x hx => ?_⟩
      obtain rfl | hx := List.mem_cons.1 hx
      · first | exact .inl hdead | exact .inr (Bool.eq_false_iff.2 hstore)
      · exact hl x hx

/-- A load that may be folded stands among the nodes before, with nothing flagged behind it. -/
theorem isFoldable_spec {g : AmdGraph} {preds : List NodeId} {load : NodeId}
    (h : g.isFoldable preds load = true) : (g.getNode load).rtype = .load ∧
      (g.outs load).length = 1 ∧ (g.getNode load).memOp.dt = (g.getNode load).dt ∧
      ∃ l₁ l₂, preds = l₁ ++ load :: l₂ ∧
        ∀ x ∈ l₂, (g.getNode x).isDead = true ∨ (g.getNode x).isStore = false := by
  simp only [isFoldable, Bool.and_eq_true, decide_eq_true_eq] at h
  obtain ⟨⟨⟨ht, hlen⟩, hdt⟩, hno⟩ := h
  obtain ⟨l₁, l₂, hl, hx⟩ := hasNoClobbers_spec hno
  refine ⟨ht, hlen, hdt, l₂.reverse, l₁.reverse, ?_, fun x hx' => hx x (List.mem_reverse.1 hx')⟩
  rw [← List.reverse_reverse preds, hl, List.reverse_append, List.reverse_cons, List.append_assoc]
  rfl

/-- The two kinds of foldings, with the new node. -/
theorem postSchedulePeep_cases {g g₁ : AmdGraph} {preds : List NodeId} {id new : NodeId}
    (h : g.postSchedulePeep preds id = some (g₁, new)) : new = g.pos ∧
      ((∃ op, (g.getNode id).rtype = .base (.bin op) ∧ isFoldKind op = true ∧
        g.isFoldable preds ((g.getNode id).inp 1) = true ∧
        g₁ = (g.makeNode id (.bin op)
          (foldSlots (g.getNode ((g.getNode id).inp 1)).inps ((g.getNode id).inp 0))
          { (g.getNode ((g.getNode id).inp 1)).memOp with
            memMode := .src, dt := (g.getNode ((g.getNode id).inp 1)).dt } true).1) ∨
      ∃ op, (g.getNode id).rtype = .bin op ∧ op.isComparison = true ∧
        (g.getNode id).memOp.memMode = .none ∧
        g.isFoldable preds ((g.getNode id).inp 0) = true ∧
        g₁ = (g.makeNode id (.bin op) (g.getNode ((g.getNode id).inp 0)).inps
          { (g.getNode ((g.getNode id).inp 0)).memOp with
            imm := (g.getNode id).memOp.imm, memMode := .dest
            dt := (g.getNode ((g.getNode id).inp 0)).dt } false).1) := by
  unfold postSchedulePeep at h
  dsimp only at h
  split at h
  · rename_i op ht
    split_ifs at h with hc
    rw [Bool.and_eq_true, mayFold, Bool.and_eq_true] at hc
    cases h
    exact ⟨rfl, .inl ⟨op, ht, hc.1.1, hc.2, rfl⟩⟩
  · rename_i op ht
    split_ifs at h with hc
    simp only [Bool.and_eq_true, decide_eq_true_eq] at hc
    cases h
    exact ⟨rfl, .inr ⟨op, ht, hc.1.1, hc.1.2, hc.2, rfl⟩⟩
  · cases h

/-- The address of the memory operand of a node, from the values of its inputs. -/
def AmdNode.address (n : AmdNode) (word : NodeId → BitVec 64) : BitVec 64 :=
  word (n.inp 2) + n.memOp.dis.signExtend 64 +
    if n.memOp.scale = 0 then 0
    else word (n.inps.getLastD 0) * n.memOp.scale.setWidth 64

/-- The datatype that `emit_instr` reads from memory for a node. -/
def AmdNode.readDt (n : AmdNode) : Datatype :=
  match n.rtype with
  | .bin op =>
    if n.memOp.memMode = .src ∧ n.memOp.dt.isFloat = false ∧ op.isComparison = false then n.dt
    else n.memOp.dt
  | _ => n.memOp.dt

/-- The node that a load is folded into, and what it takes over from the operation and the load. -/
structure NewNode (n instr load : AmdNode) : Prop where
  kind : ∃ op, n.rtype = .bin op ∧ n.memOp.memMode ≠ .none ∧
    (n.memOp.memMode = .dest → op.isComparison = true)
  inps : ∀ m ∈ n.inps, m ∈ load.inps ∨ m ∈ instr.inps
  address : ∀ word, n.address word = load.address word
  readDt : n.readDt = load.readDt

theorem AmdNode.Shaped.load_inps {g : AmdGraph} {n : AmdNode} (h : n.Shaped g)
    (ht : n.rtype = .load) : n.memOp.scale = 0 ∧ (∃ a b c, n.inps = [a, b, c]) ∨
      n.memOp.scale ≠ 0 ∧ ∃ a b c d, n.inps = [a, b, c, d] ∧ d ≠ 0 := by
  have hl := h.load ht
  split_ifs at hl with hs
  · obtain ⟨a, b, c, habc⟩ := List.length_eq_three.1 hl
    exact .inl ⟨hs, a, b, c, habc⟩
  · obtain ⟨hlen, h3⟩ := hl
    match hn : n.inps, hlen with
    | [a, b, c, d], _ =>
      refine .inr ⟨hs, a, b, c, d, rfl, ?_⟩
      simpa [AmdNode.inp, hn] using h3

/-- The operand in memory is that of the load, once the left operand stands among its inputs. -/
theorem foldSlots_spec {g : AmdGraph} {n : AmdNode} (h : n.Shaped g) (ht : n.rtype = .load)
    (lhs : NodeId) : (∀ m ∈ foldSlots n.inps lhs, m ∈ n.inps ∨ m = lhs) ∧
      (∀ m ∈ n.inps, m ∈ foldSlots n.inps lhs) ∧ (foldSlots n.inps lhs).getD 2 0 = n.inp 2 ∧
      (n.memOp.scale ≠ 0 → (foldSlots n.inps lhs).getLastD 0 = n.inps.getLastD 0) := by
  obtain ⟨hs, a, b, c, hn⟩ | ⟨hs, a, b, c, d, hn, hd⟩ := h.load_inps ht
  · rw [AmdNode.inp, hn]
    exact ⟨by simp [foldSlots], by simp [foldSlots], rfl, fun hc => absurd hs hc⟩
  · rw [AmdNode.inp, hn]
    exact ⟨by simp [foldSlots, hd], by simp [foldSlots, hd], rfl,
      fun _ => by simp [foldSlots, hd]⟩

section Fold

variable {g g₁ : AmdGraph} {bbs : List (List NodeId)} {b : List NodeId} {i : ℕ}
  {instr new : NodeId}

theorem not_isDead_of_rtype {n : AmdNode} {t : AmdType} (h : n.rtype = t) (ht : t.isDead = false) :
    n.isDead = false := by
  rw [AmdNode.isDead, h, ht]

theorem not_isSilent_of_isFoldUser {n : AmdNode} (h : n.isFoldUser = true) :
    n.rtype.isSilent = false ∧ n.isDead = false := by
  unfold AmdNode.isFoldUser at h
  split at h
  · rename_i ht
    exact ⟨by rw [ht]; rfl, not_isDead_of_rtype ht rfl⟩
  · rename_i ht
    exact ⟨by rw [ht]; rfl, not_isDead_of_rtype ht rfl⟩
  · cases h

/-- A load among the inputs of an operation is folded: what the two kinds of foldings have in
common. -/
theorem folding_of (hpos : g.pos ≠ 0) (hs : Scheduled g bbs) (hb : b ∈ bbs)
    (hi : b[i]? = some instr) (huser : (g.getNode instr).isFoldUser = true) {load : NodeId}
    (hf : g.isFoldable (b.take i) load = true) (idx : ℕ)
    (hidx : (g.getNode instr).inps[idx]? = some load) (op : BinOp) {inps : List NodeId}
    (extra : FoldOp) (forceLoad : Bool)
    (hinps : ∀ m ∈ inps, m ∈ (g.getNode load).inps ∨
      ∃ k, (g.getNode instr).inps[k]? = some m ∧ k ≠ idx)
    (hkeeps : ∀ m, m ∈ (g.getNode instr).inps ∨ m ∈ (g.getNode load).inps → m ≠ load → m ∈ inps) :
    Folding g (g.makeNode instr (.bin op) inps extra forceLoad).1 instr load := by
  obtain ⟨ht, hlen, -, l₁, l₂, hl, -⟩ := isFoldable_spec hf
  have hget : (b.take i)[l₁.length]? = some load := by simp [hl]
  rw [List.getElem?_take] at hget
  split_ifs at hget with hlt
  obtain ⟨hload_ne, hload_lt⟩ := hs.ids b hb load (List.mem_of_getElem? hget)
  obtain ⟨hinstr_ne, hinstr_lt⟩ := hs.ids b hb instr (List.mem_of_getElem? hi)
  obtain ⟨hsilent, hlive⟩ := not_isSilent_of_isFoldUser huser
  have hself : instr ∉ (g.getNode instr).inps := hs.order b hb _ _ _ _ (le_refl i) hi hi hsilent
  have hload : instr ∉ (g.getNode load).inps :=
    hs.order b hb _ _ load instr hlt.le hget hi (by rw [ht]; rfl)
  have hload_live := not_isDead_of_rtype ht rfl
  -- the one output of the load is at `idx` of the operation
  have hout : (⟨instr, idx⟩ : NodeOutput) ∈ g.outs load := mem_outs.2 ⟨hinstr_lt, hlive, hidx⟩
  have honly (n : NodeId) (hn : g.Uses n load) : n = instr := by
    obtain ⟨hnlt, hnlive, hnmem⟩ := hn
    obtain ⟨k, hk⟩ := List.mem_iff_getElem?.1 hnmem
    have := eq_of_outs_length hlen (mem_outs (o := ⟨n, k⟩).2 ⟨hnlt, hnlive, hk⟩) hout
    exact congrArg NodeOutput.id this
  have hload_self : load ∉ (g.getNode load).inps := by
    intro hm
    have := honly load ⟨hload_lt, hload_live, hm⟩
    rw [this] at hm
    exact hself hm
  have hnode : ((g.makeNode instr (.bin op) inps extra forceLoad).1.getNode g.pos).inps = inps := by
    rw [getNode_makeNode hpos, if_pos rfl]
  refine ⟨rfl, fun m hm => by rw [getNode_makeNode hpos, if_neg hm], hinstr_ne, hinstr_lt, hlive,
    hload_ne, hload_lt, hload_live, List.mem_of_getElem? hidx, honly,
    hs.used b hb instr (List.mem_of_getElem? hi) huser, hself, hload, ?_, ?_, ?_, ?_⟩
  · rw [getNode_makeNode hpos, if_pos rfl]
    rfl
  · rw [hnode]
    intro hm
    obtain hm | ⟨k, hk, -⟩ := hinps _ hm
    · exact hload hm
    · exact hself (List.mem_of_getElem? hk)
  · rw [hnode]
    intro hm
    obtain hm | ⟨k, hk, hne⟩ := hinps _ hm
    · exact hload_self hm
    · have := eq_of_outs_length hlen (mem_outs (o := ⟨instr, k⟩).2 ⟨hinstr_lt, hlive, hk⟩) hout
      exact hne (congrArg NodeOutput.idx this)
  · rw [hnode]
    exact fun m hm hne => .inr (hkeeps m hm hne)

/-- **A folding**, with the load that stands in the block before the operation. -/
theorem fold_spec (hpos : g.pos ≠ 0) (hs : Scheduled g bbs) (hb : b ∈ bbs) (hi : b[i]? = some instr)
    (h : g.postSchedulePeep (b.take i) instr = some (g₁, new)) : new = g.pos ∧ ∃ load l₁ l₂,
      b.take i = l₁ ++ load :: l₂ ∧ (g.getNode load).rtype = .load ∧
      (g.getNode instr).isFoldUser = true ∧
      (∀ x ∈ l₂, (g.getNode x).isDead = true ∨ (g.getNode x).isStore = false) ∧
      Folding g g₁ instr load ∧
      NewNode (g₁.getNode g.pos) (g.getNode instr) (g.getNode load) := by
  obtain ⟨rfl, hcases⟩ := postSchedulePeep_cases h
  refine ⟨rfl, ?_⟩
  have hbi : instr ∈ b := List.mem_of_getElem? hi
  have hshape := hs.shaped b hb instr hbi
  obtain ⟨op, ht, hkind, hf, rfl⟩ | ⟨op, ht, hcmp, hmode, hf, rfl⟩ := hcases
  · -- the right operand moves into the operation
    obtain ⟨lhs, load, hlr⟩ := List.length_eq_two.1 (hshape.bin op ht)
    have hrhs : (g.getNode instr).inp 1 = load := by rw [AmdNode.inp, hlr]; rfl
    have hlhs : (g.getNode instr).inp 0 = lhs := by rw [AmdNode.inp, hlr]; rfl
    have hdts := hshape.dt op ht
    rw [hrhs] at hf hdts
    rw [hrhs, hlhs]
    obtain ⟨hload, -, hdt, l₁, l₂, hl, hclear⟩ := isFoldable_spec hf
    have hlb : load ∈ b := List.mem_of_mem_take (hl ▸ List.mem_append_right _ List.mem_cons_self)
    obtain ⟨hin, hkeep, hbase, hlast⟩ := foldSlots_spec (hs.shaped b hb load hlb) hload lhs
    have huser : (g.getNode instr).isFoldUser = true := by simp [AmdNode.isFoldUser, ht]
    refine ⟨load, l₁, l₂, hl, hload, huser, hclear, ?_, ?_⟩
    · refine folding_of hpos hs hb hi huser hf 1
        (by rw [hlr]; rfl) op _ true ?_ ?_
      · exact fun m hm => (hin m hm).imp_right fun he => ⟨0, by rw [hlr, he]; rfl, zero_ne_one⟩
      · rintro m (hm | hm) hne
        · rw [hlr, List.mem_cons, List.mem_singleton] at hm
          rw [hm.resolve_right hne]
          simp [foldSlots]
        · exact hkeep m hm
    · rw [getNode_makeNode hpos, if_pos rfl]
      constructor
      · exact ⟨op, rfl, nofun, nofun⟩
      · exact fun m hm => (hin m hm).imp_right fun he => by rw [hlr, he]; exact List.mem_cons_self
      · intro word
        simp only [AmdNode.address, AmdNode.inp, hbase]
        by_cases hsc : (g.getNode load).memOp.scale = 0
        · rw [if_pos hsc, if_pos hsc]
        · rw [if_neg hsc, if_neg hsc, hlast hsc]
      · simp only [AmdNode.readDt, hload]
        split_ifs with hc
        · rw [hdt]
          exact (hdts hc.2.2 hkind hload hdt).symm
        · exact hdt.symm
  · -- a comparison with a constant compares the memory
    obtain ⟨load, hlr⟩ := List.length_eq_one_iff.1 (hshape.cmp op ht hcmp hmode)
    have hlhs : (g.getNode instr).inp 0 = load := by rw [AmdNode.inp, hlr]; rfl
    rw [hlhs] at hf
    rw [hlhs]
    obtain ⟨hload, -, hdt, l₁, l₂, hl, hclear⟩ := isFoldable_spec hf
    have huser : (g.getNode instr).isFoldUser = true := by
      simp [AmdNode.isFoldUser, ht, hcmp, hmode]
    refine ⟨load, l₁, l₂, hl, hload, huser, hclear, ?_, ?_⟩
    · refine folding_of hpos hs hb hi huser hf 0
        (by rw [hlr]; rfl) op _ false (fun m hm => .inl hm) ?_
      rintro m (hm | hm) hne
      · rw [hlr, List.mem_singleton] at hm
        exact absurd hm hne
      · exact hm
    · rw [getNode_makeNode hpos, if_pos rfl]
      constructor
      · exact ⟨op, rfl, nofun, fun _ => hcmp⟩
      · exact fun m hm => .inl hm
      · exact fun word => rfl
      · simp only [AmdNode.readDt, hload]
        rw [if_neg (by simp)]
        exact hdt.symm

end Fold

/-! ### The graph after a folding -/

theorem not_writesMemory_of_isFoldUser {n : AmdNode} (h : n.isFoldUser = true) :
    n.writesMemory = false := by
  unfold AmdNode.isFoldUser at h
  split at h
  · rename_i op ht
    simp [AmdNode.writesMemory, ht, writeKinds]
  · rename_i op ht
    simp only [Bool.and_eq_true] at h
    simp [AmdNode.writesMemory, ht, h.1]
  · cases h

theorem NewNode.not_writesMemory {n instr load : AmdNode} (h : NewNode n instr load) :
    n.writesMemory = false := by
  obtain ⟨op, ht, -, hdest⟩ := h.kind
  by_cases hd : n.memOp.memMode = .dest
  · simp [AmdNode.writesMemory, ht, hdest hd]
  · simp [AmdNode.writesMemory, ht, hd]

section After

variable {g g₁ : AmdGraph} {instr load m : NodeId} (hF : Folding g g₁ instr load)
include hF

theorem getNode_after (hm : m ≠ g.pos) (hi : m ≠ instr) (hl : m ≠ load) :
    (g₁.subsume g.pos instr).getNode m = { g.getNode m with
      inps := (g.getNode m).inps.map fun inp => if inp = instr then g.pos else inp } := by
  rw [hF.getNode_subsume, if_neg (by tauto), hF.old m hm]

theorem getNode_after_new : (g₁.subsume g.pos instr).getNode g.pos = g₁.getNode g.pos := by
  have hi : g.pos ≠ instr := hF.instr_lt.ne'
  have hl : g.pos ≠ load := hF.load_lt.ne'
  rw [hF.getNode_subsume, if_neg (by tauto)]
  have hmap : ((g₁.getNode g.pos).inps.map fun inp => if inp = instr then g.pos else inp) =
      (g₁.getNode g.pos).inps := by
    refine (List.map_congr_left fun inp hinp => ?_).trans (List.map_id _)
    exact if_neg fun he : inp = instr => hF.new_instr (he ▸ hinp)
  rw [hmap]

theorem getNode_after_gone (h : m = instr ∨ m = load) :
    (g₁.subsume g.pos instr).getNode m = { rtype := .base .dead } := by
  rw [hF.getNode_subsume, if_pos h]

/-- What a node is does not change, unless it goes. -/
theorem data_after (hm : m ≠ g.pos) (hi : m ≠ instr) (hl : m ≠ load) :
    ((g₁.subsume g.pos instr).getNode m).data = (g.getNode m).data := by
  rw [getNode_after hF hm hi hl]
  rfl

/-- What is used stays in use. -/
theorem uses_after {n : NodeId} (h0 : m ≠ 0) (hi : m ≠ instr) (hl : m ≠ load) (hu : g.Uses n m) :
    ∃ n, (g₁.subsume g.pos instr).Uses n m := by
  by_cases hn : n = instr ∨ n = load
  · refine ⟨g.pos, ?_⟩
    rw [hF.subsume_eq]
    refine (hF.kept ((hF.keeps m ?_ hl).resolve_left h0)).2
    obtain rfl | rfl := hn
    · exact .inl hu.2.2
    · exact .inr hu.2.2
  · rw [not_or] at hn
    have hnode := getNode_after hF hu.1.ne hn.1 hn.2
    refine ⟨n, by rw [hF.pos_subsume]; exact Nat.lt_succ_of_lt hu.1, by rw [hnode]; exact hu.2.1, ?_⟩
    rw [hnode]
    exact List.mem_map.2 ⟨m, hu.2.2, if_neg hi⟩

/-- An input in the new graph that is not the new node was one before. -/
theorem mem_inps_after {n : NodeId} (hn : n ≠ g.pos) (hm : m ≠ g.pos)
    (h : m ∈ ((g₁.subsume g.pos instr).getNode n).inps) : m ∈ (g.getNode n).inps := by
  by_cases hgone : n = instr ∨ n = load
  · rw [getNode_after_gone hF hgone] at h
    cases h
  · rw [not_or] at hgone
    rw [getNode_after hF hn hgone.1 hgone.2] at h
    obtain ⟨inp, hinp, heq⟩ := List.mem_map.1 h
    split_ifs at heq with hc
    · exact absurd heq.symm hm
    · exact heq ▸ hinp

/-- The new node is used where the operation was. -/
theorem new_mem_inps_after {n : NodeId} (hn : n ≠ g.pos) (hbound : g.pos ∉ (g.getNode n).inps)
    (h : g.pos ∈ ((g₁.subsume g.pos instr).getNode n).inps) : instr ∈ (g.getNode n).inps := by
  by_cases hgone : n = instr ∨ n = load
  · rw [getNode_after_gone hF hgone] at h
    cases h
  · rw [not_or] at hgone
    rw [getNode_after hF hn hgone.1 hgone.2] at h
    obtain ⟨inp, hinp, heq⟩ := List.mem_map.1 h
    split_ifs at heq with hc
    · exact hc ▸ hinp
    · exact absurd (heq ▸ hinp) hbound

/-- The writes are where they were. -/
theorem writesMemory_after (huser : (g.getNode instr).isFoldUser = true)
    (hload : (g.getNode load).rtype = .load) (hm : m ≠ g.pos) :
    ((g₁.subsume g.pos instr).getNode m).writesMemory = (g.getNode m).writesMemory := by
  by_cases hgone : m = instr ∨ m = load
  · rw [getNode_after_gone hF hgone]
    obtain rfl | rfl := hgone
    · rw [not_writesMemory_of_isFoldUser huser]
      rfl
    · simp [AmdNode.writesMemory, hload, writeKinds]
  · rw [not_or] at hgone
    rw [getNode_after hF hm hgone.1 hgone.2]
    rfl

end After

theorem getElem?_set_cases {α : Type*} {l : List α} {i k : ℕ} {x a : α}
    (h : (l.set i x)[k]? = some a) : k = i ∧ a = x ∨ k ≠ i ∧ l[k]? = some a := by
  rw [List.getElem?_set] at h
  split_ifs at h with hik hlt
  · exact .inl ⟨hik.symm, (Option.some.inj h).symm⟩
  · exact .inr ⟨Ne.symm hik, h⟩

section Blocks

variable {g g₁ : AmdGraph} {bbs : List (List NodeId)} {bb i : ℕ} {b l₁ l₂ : List NodeId}
  {instr load : NodeId} (hs : Scheduled g bbs) (hb : bbs[bb]? = some b) (hi : b[i]? = some instr)
  (hl : b.take i = l₁ ++ load :: l₂) (hload : (g.getNode load).rtype = .load)
  (huser : (g.getNode instr).isFoldUser = true) (hF : Folding g g₁ instr load)
  (hN : NewNode (g₁.getNode g.pos) (g.getNode instr) (g.getNode load))
include hs hb hi hl hload huser hF hN

omit hF in
/-- What is at `i` or behind is no input of the new node. -/
theorem not_mem_new {j : ℕ} {c : NodeId} (hij : i ≤ j) (hc : b[j]? = some c) :
    c ∉ (g₁.getNode g.pos).inps := by
  have hbm := List.mem_of_getElem? hb
  have hget : (b.take i)[l₁.length]? = some load := by simp [hl]
  rw [List.getElem?_take] at hget
  split_ifs at hget with hlt
  intro hm
  obtain hm | hm := hN.inps c hm
  · exact hs.order b hbm _ j load c (hlt.le.trans hij) hget hc (by rw [hload]; rfl) hm
  · exact hs.order b hbm i j instr c hij hi hc (not_isSilent_of_isFoldUser huser).1 hm

theorem order_after : ∀ b' ∈ bbs.set bb (b.set i g.pos), ∀ (j k : ℕ) (a c : NodeId), j ≤ k →
    b'[j]? = some a → b'[k]? = some c →
    ((g₁.subsume g.pos instr).getNode a).rtype.isSilent = false →
    c ∉ ((g₁.subsume g.pos instr).getNode a).inps := by
  have hbm := List.mem_of_getElem? hb
  have hbound (id : NodeId) : g.pos ∉ (g.getNode id).inps :=
    fun hm => absurd (hs.bound id _ hm) (lt_irrefl _)
  -- two nodes that were in one block before
  have hold {b' : List NodeId} (hb' : b' ∈ bbs) {j k : ℕ} {a c : NodeId} (hjk : j ≤ k)
      (ha : b'[j]? = some a) (hc : b'[k]? = some c)
      (hsil : ((g₁.subsume g.pos instr).getNode a).rtype.isSilent = false) :
      c ∉ ((g₁.subsume g.pos instr).getNode a).inps := by
    have ha' := (hs.ids b' hb' a (List.mem_of_getElem? ha)).2.ne
    have hc' := (hs.ids b' hb' c (List.mem_of_getElem? hc)).2.ne
    intro hm
    have hmem := mem_inps_after hF ha' hc' hm
    by_cases hgone : a = instr ∨ a = load
    · rw [getNode_after_gone hF hgone] at hm
      cases hm
    · rw [not_or] at hgone
      rw [getNode_after hF ha' hgone.1 hgone.2] at hsil
      exact hs.order b' hb' j k a c hjk ha hc hsil hmem
  intro b' hb' j k a c hjk ha hc hsil
  obtain hb' | rfl := List.mem_or_eq_of_mem_set hb'
  · exact hold hb' hjk ha hc hsil
  obtain ⟨rfl, rfl⟩ | ⟨-, haj⟩ := getElem?_set_cases ha
  · rw [getNode_after_new hF]
    obtain ⟨rfl, rfl⟩ | ⟨-, hck⟩ := getElem?_set_cases hc
    · intro hm
      obtain hm | hm := hN.inps _ hm
      · exact hbound _ hm
      · exact hbound _ hm
    · exact not_mem_new hs hb hi hl hload huser hN hjk hck
  · obtain ⟨rfl, rfl⟩ | ⟨-, hck⟩ := getElem?_set_cases hc
    · have ha' := (hs.ids b hbm a (List.mem_of_getElem? haj)).2.ne
      intro hm
      have hmem := new_mem_inps_after hF ha' (hbound a) hm
      by_cases hgone : a = instr ∨ a = load
      · rw [getNode_after_gone hF hgone] at hm
        cases hm
      · rw [not_or] at hgone
        rw [getNode_after hF ha' hgone.1 hgone.2] at hsil
        exact hs.order b hbm j _ a instr hjk haj hi hsil hmem
    · exact hold hbm hjk haj hck hsil

omit hb hi hl hload huser in
theorem shaped_after {id : NodeId} (hid : id ≠ g.pos) (hsh : (g.getNode id).Shaped g) :
    ((g₁.subsume g.pos instr).getNode id).Shaped (g₁.subsume g.pos instr) := by
  by_cases hgone : id = instr ∨ id = load
  · rw [getNode_after_gone hF hgone]
    exact ⟨nofun, nofun, nofun, nofun⟩
  · rw [not_or] at hgone
    rw [getNode_after hF hid hgone.1 hgone.2]
    constructor
    · exact fun op ht => (List.length_map _).trans (hsh.bin op ht)
    · exact fun op ht hc hm => (List.length_map _).trans (hsh.cmp op ht hc hm)
    · intro ht
      obtain ⟨hsc, x, y, z, hn⟩ | ⟨hsc, x, y, z, w, hn, hw⟩ := hsh.load_inps ht
      · simp [hsc, hn]
      · have hpos : g.pos ≠ 0 := (lt_of_le_of_lt (Nat.zero_le _) hF.instr_lt).ne'
        simp only [hsc, if_false, hn, AmdNode.inp, List.map_cons, List.map_nil]
        refine ⟨rfl, ?_⟩
        change (if w = instr then g.pos else w) ≠ 0
        split_ifs
        · exact hpos
        · exact hw
    · intro op ht hc hk
      obtain ⟨x, y, hn⟩ := List.length_eq_two.1 (hsh.bin op ht)
      have hy : (g.getNode id).inp 1 = y := by rw [AmdNode.inp, hn]; rfl
      have hdt := hsh.dt op ht hc hk
      rw [hy] at hdt
      have hinp : ({ g.getNode id with
          inps := (g.getNode id).inps.map fun inp => if inp = instr then g.pos else inp } :
            AmdNode).inp 1 = if y = instr then g.pos else y := by
        simp [AmdNode.inp, hn]
      rw [hinp]
      split_ifs with hyi
      · -- the operation is no load, and neither is what takes its place
        obtain ⟨op', hop, -⟩ := hN.kind
        rw [getNode_after_new hF, hop]
        exact nofun
      · by_cases hyl : y = load
        · rw [getNode_after_gone hF (.inr hyl)]
          exact nofun
        · have hyp : y ≠ g.pos := by
            have := hs.bound id y (by rw [hn]; simp)
            exact this.ne
          rw [getNode_after hF hyp hyi hyl]
          exact hdt

/-- **The blocks stay in order.** -/
theorem scheduled_after :
    Scheduled (g₁.subsume g.pos instr) (bbs.set bb (b.set i g.pos)) := by
  have hbm := List.mem_of_getElem? hb
  have hpos : (g₁.subsume g.pos instr).pos = g.pos + 1 := hF.pos_subsume
  have hpos0 : g.pos ≠ 0 := (lt_of_le_of_lt (Nat.zero_le _) hF.instr_lt).ne'
  have hfresh : g.pos ∉ b := fun hm => absurd (hs.ids b hbm _ hm).2 (lt_irrefl _)
  -- what is in a block now was in one before, or is the new node
  have hmem {b' : List NodeId} (hb' : b' ∈ bbs.set bb (b.set i g.pos)) {id : NodeId}
      (hid : id ∈ b') : id = g.pos ∨ ∃ b₀ ∈ bbs, id ∈ b₀ := by
    obtain hb' | rfl := List.mem_or_eq_of_mem_set hb'
    · exact .inr ⟨b', hb', hid⟩
    · exact (List.mem_or_eq_of_mem_set hid).symm.imp_right fun h => ⟨b, hbm, h⟩
  obtain ⟨op, hop, hmode, -⟩ := hN.kind
  constructor
  · intro b' hb' id hid
    rw [hpos]
    obtain rfl | ⟨b₀, hb₀, hid⟩ := hmem hb' hid
    · exact ⟨hpos0, Nat.lt_succ_self _⟩
    · exact ⟨(hs.ids b₀ hb₀ id hid).1, Nat.lt_succ_of_lt (hs.ids b₀ hb₀ id hid).2⟩
  · intro b' hb'
    obtain hb' | rfl := List.mem_or_eq_of_mem_set hb'
    · exact hs.nodup b' hb'
    · exact (hs.nodup b hbm).set hfresh
  · intro id m hm
    rw [hpos]
    by_cases hmp : m = g.pos
    · exact hmp ▸ Nat.lt_succ_self _
    · by_cases hid : id = g.pos
      · rw [hid, getNode_after_new hF] at hm
        obtain hm | hm := hN.inps _ hm
        · exact Nat.lt_succ_of_lt (hs.bound _ m hm)
        · exact Nat.lt_succ_of_lt (hs.bound _ m hm)
      · exact Nat.lt_succ_of_lt (hs.bound id m (mem_inps_after hF hid hmp hm))
  · exact order_after hs hb hi hl hload huser hF hN
  · intro b' hb' k a ha hcall
    have hold {b₀ : List NodeId} (hb₀ : b₀ ∈ bbs) (ha : b₀[k]? = some a) : k + 1 = b₀.length := by
      have ha' := (hs.ids b₀ hb₀ a (List.mem_of_getElem? ha)).2.ne
      by_cases hgone : a = instr ∨ a = load
      · rw [getNode_after_gone hF hgone] at hcall
        cases hcall
      · rw [not_or] at hgone
        rw [getNode_after hF ha' hgone.1 hgone.2] at hcall
        exact hs.calls b₀ hb₀ k a ha hcall
    obtain hb' | rfl := List.mem_or_eq_of_mem_set hb'
    · exact hold hb' ha
    · obtain ⟨rfl, rfl⟩ | ⟨-, hak⟩ := getElem?_set_cases ha
      · rw [getNode_after_new hF, hop] at hcall
        cases hcall
      · rw [List.length_set]
        exact hold hbm hak
  · intro b' hb' id hid hu
    obtain rfl | ⟨b₀, hb₀, hid⟩ := hmem hb' hid
    · rw [getNode_after_new hF] at hu
      simp [AmdNode.isFoldUser, hop, hmode] at hu
    · have hlt := (hs.ids b₀ hb₀ id hid).2.ne
      by_cases hgone : id = instr ∨ id = load
      · rw [getNode_after_gone hF hgone] at hu
        cases hu
      · rw [not_or] at hgone
        rw [getNode_after hF hlt hgone.1 hgone.2] at hu
        obtain ⟨n, hn⟩ := hs.used b₀ hb₀ id hid hu
        exact uses_after hF (hs.ids b₀ hb₀ id hid).1 hgone.1 hgone.2 hn
  · intro b' hb' id hid
    obtain rfl | ⟨b₀, hb₀, hid⟩ := hmem hb' hid
    · rw [getNode_after_new hF]
      refine ⟨fun op' ht => ?_, fun op' _ _ hm => absurd hm hmode, fun ht => ?_, fun op' ht => ?_⟩
      all_goals
        rw [hop] at ht
        cases ht
    · exact shaped_after hs hF hN (hs.ids b₀ hb₀ id hid).2.ne (hs.shaped b₀ hb₀ id hid)

end Blocks

/-! ### All foldings -/

/-- The instruction at a place of a block writes memory. -/
def WritesAt (g : AmdGraph) (bbs : List (List NodeId)) (bb i : ℕ) : Prop :=
  ∃ b a, bbs[bb]? = some b ∧ b[i]? = some a ∧ (g.getNode a).writesMemory = true

/-- What holds all along the loop. -/
structure PeepInv (g₀ : AmdGraph) (bbs₀ : List (List NodeId)) (s : PeepState) : Prop where
  pos : s.g.pos ≠ 0
  flagged : ∀ id, (s.g.getNode id).Flagged
  sched : Scheduled s.g s.bbs
  writes : ∀ bb i, WritesAt s.g s.bbs bb i ↔ WritesAt g₀ bbs₀ bb i

theorem inv_init {g₀ : AmdGraph} {bbs₀ : List (List NodeId)} (hb : Built g₀)
    (hs : Scheduled g₀ bbs₀) : PeepInv g₀ bbs₀ { g := g₀, bbs := bbs₀ } :=
  ⟨hb.pos_ne_zero, hb.flagged, hs, fun _ _ => Iff.rfl⟩

theorem writesAt_after {g g₁ : AmdGraph} {bbs : List (List NodeId)} {bb i : ℕ} {b : List NodeId}
    {instr load : NodeId} (hs : Scheduled g bbs) (hb : bbs[bb]? = some b)
    (hi : b[i]? = some instr) (hload : (g.getNode load).rtype = .load)
    (huser : (g.getNode instr).isFoldUser = true) (hF : Folding g g₁ instr load)
    (hN : NewNode (g₁.getNode g.pos) (g.getNode instr) (g.getNode load)) (bb' k : ℕ) :
    WritesAt (g₁.subsume g.pos instr) (bbs.set bb (b.set i g.pos)) bb' k ↔
      WritesAt g bbs bb' k := by
  have hsame {b₀ : List NodeId} (hb₀ : b₀ ∈ bbs) {a : NodeId} (ha : b₀[k]? = some a) :
      ((g₁.subsume g.pos instr).getNode a).writesMemory = (g.getNode a).writesMemory :=
    writesMemory_after hF huser hload (hs.ids b₀ hb₀ a (List.mem_of_getElem? ha)).2.ne
  constructor
  · rintro ⟨b', a, hb', ha, hw⟩
    obtain ⟨rfl, rfl⟩ | ⟨-, hb'⟩ := getElem?_set_cases hb'
    · obtain ⟨rfl, rfl⟩ | ⟨-, hak⟩ := getElem?_set_cases ha
      · rw [getNode_after_new hF, hN.not_writesMemory] at hw
        cases hw
      · exact ⟨b, a, hb, hak, hsame (List.mem_of_getElem? hb) hak ▸ hw⟩
    · exact ⟨b', a, hb', ha, hsame (List.mem_of_getElem? hb') ha ▸ hw⟩
  · rintro ⟨b', a, hb', ha, hw⟩
    have hw' := (hsame (List.mem_of_getElem? hb') ha).trans hw
    by_cases hbb : bb' = bb
    · subst hbb
      rw [hb] at hb'
      cases hb'
      have hk : k ≠ i := by
        rintro rfl
        rw [hi] at ha
        cases ha
        rw [not_writesMemory_of_isFoldUser huser] at hw
        cases hw
      have hlt := (List.getElem?_eq_some_iff.1 hb).1
      exact ⟨b.set i g.pos, a, by rw [List.getElem?_set_self hlt],
        by rw [List.getElem?_set_ne (Ne.symm hk)]; exact ha, hw'⟩
    · exact ⟨b', a, by rw [List.getElem?_set_ne (Ne.symm hbb)]; exact hb', ha, hw'⟩

/-- One round keeps it all. -/
theorem inv_step {g₀ : AmdGraph} {bbs₀ : List (List NodeId)} {s : PeepState}
    (h : PeepInv g₀ bbs₀ s) : PeepInv g₀ bbs₀ s.step := by
  unfold PeepState.step
  split
  · exact h
  rename_i b hb
  split
  · exact ⟨h.pos, h.flagged, h.sched, h.writes⟩
  rename_i instr hi
  split
  · exact ⟨h.pos, h.flagged, h.sched, h.writes⟩
  rename_i g₁ new hp
  obtain ⟨rfl, load, l₁, l₂, hl, hload, huser, -, hF, hN⟩ :=
    fold_spec h.pos h.sched (List.mem_of_getElem? hb) hi hp
  refine ⟨?_, fun id => ?_, scheduled_after h.sched hb hi hl hload huser hF hN, fun bb k => ?_⟩
  · change (g₁.subsume s.g.pos instr).pos ≠ 0
    rw [hF.pos_subsume]
    exact Nat.succ_ne_zero _
  · change ((g₁.subsume s.g.pos instr).getNode id).Flagged
    by_cases hid : id = s.g.pos
    · rw [hid, getNode_after_new hF]
      intro hw
      rw [hN.not_writesMemory] at hw
      cases hw
    · by_cases hgone : id = instr ∨ id = load
      · rw [getNode_after_gone hF hgone]
        exact .of_dead rfl
      · rw [not_or] at hgone
        rw [getNode_after hF hid hgone.1 hgone.2]
        exact h.flagged id
  · exact (writesAt_after h.sched hb hi hload huser hF hN bb k).trans (h.writes bb k)

theorem inv_run {g₀ : AmdGraph} {bbs₀ : List (List NodeId)} (hb : Built g₀)
    (hs : Scheduled g₀ bbs₀) (n : ℕ) :
    PeepInv g₀ bbs₀ (PeepState.step^[n] { g := g₀, bbs := bbs₀ }) := by
  induction n with
  | zero => exact inv_init hb hs
  | succ n ih =>
    rw [Function.iterate_succ_apply']
    exact inv_step ih

end OdinSon.Codegen.Amd64
