import OdinSon.Bac.CompactPlaces
import OdinSon.Bac.EditIntern

/-!
# Compacting and stencilling are isomorphisms

The graph that `compact` leaves is the part of the old one that is kept, with other names, and so is
what a stencil is mounted to (`compact_mount_isoBy_iff`).  Two things can go wrong.  The copy may not
fit in what the arena has committed behind the old nodes (`compact_writes_behind`).  And the place of a
user may need more than the twenty two bits of a `Node_Output`; then the output names another node,
and no choice of names makes the graphs isomorphic (`Compacted.narrow`): either a node is listed twice
where it is used once, or there are more pins than before.
-/

namespace OdinSon

open Relocation

namespace Graph

variable {prev g g' : Graph} {order ids ns : List NodeId} {n m x : NodeId}

/-! ### The second loop of `compact` -/

/-- A `Node_Output` that is renamed. -/
def renameOutput (order ids : List NodeId) (o : NodeOutput) : NodeOutput :=
  ⟨rename order ids 0 o.id % 2 ^ 22, o.idx⟩

/-- A node whose links are renamed. -/
def renameNode (order ids : List NodeId) (node : Node) : Node :=
  { node with
    inps := node.inps.map (rename order ids 0)
    outs := node.outs.map (renameOutput order ids) }

theorem project_eq (h : n ∈ order) : project order ids n = some (rename order ids 0 n) := if_pos h

/-- The entries of the nodes of interned kinds, as the nodes are in `g`. -/
def entriesOf (g : Graph) (ns : List NodeId) : List SSEntry :=
  (ns.filter fun n => (g.getNode n).itype.isInterned).map fun n => ⟨nodeHash (g.getNode n), n⟩

theorem length_entriesOf (g : Graph) (ns : List NodeId) :
    (g.entriesOf ns).length = ns.countP fun n => (g.getNode n).itype.isInterned := by
  rw [entriesOf, List.length_map, List.countP_eq_length_filter]

theorem entriesOf_append (g : Graph) (ns ns' : List NodeId) :
    g.entriesOf (ns ++ ns') = g.entriesOf ns ++ g.entriesOf ns' := by
  simp only [entriesOf, List.filter_append, List.map_append]

theorem entriesOf_singleton (g : Graph) (n : NodeId) :
    g.entriesOf [n] = if (g.getNode n).itype.isInterned = true then [⟨nodeHash (g.getNode n), n⟩]
      else [] := by
  rw [entriesOf, List.filter_singleton]
  cases (g.getNode n).itype.isInterned <;> rfl

theorem enter_spec (h : (g.getNode n).itype.isInterned = true →
    g.interner.length < g.internerCap) :
    ∃ g', g.enter n = some g' ∧ g'.mem = g.mem ∧ g'.interner = g.interner ++ g.entriesOf [n] ∧
      g'.internerCap = g.internerCap ∧ g'.pos = g.pos := by
  rw [entriesOf_singleton]
  unfold enter
  split
  next hi => exact ⟨_, Option.bind_eq_some_iff.2 ⟨(), if_pos (h hi), rfl⟩, rfl, rfl, rfl, rfl⟩
  next hi => exact ⟨g, rfl, rfl, (List.append_nil _).symm, rfl, rfl⟩

/-- Each node is renamed once, and enters the interner as what it is then. -/
theorem relinkNodes_spec (hnd : ns.Nodup) (h0 : 0 ∉ ns)
    (hnames : ∀ n ∈ ns, ∀ m ∈ neighbours (g.getNode n), m ∈ order)
    (hkind : ∀ m ∈ order, (prev.getNode m).itype = (g.getNode (rename order ids 0 m)).itype)
    (hroom : g.interner.length + ns.countP (fun n => (g.getNode n).itype.isInterned) ≤
      g.internerCap) :
    ∃ g', relinkNodes prev order ids ns g = some g' ∧
      (∀ n ∈ ns, g'.getNode n = renameNode order ids (g.getNode n)) ∧
      (∀ n, n ∉ ns → g'.getNode n = g.getNode n) ∧
      g'.interner = g.interner ++ g'.entriesOf ns ∧
      g'.pos = g.pos := by
  induction ns generalizing g with
  | nil => exact ⟨g, rfl, by simp, by simp, (List.append_nil _).symm, rfl⟩
  | cons n ns ih =>
    obtain ⟨hn, hnd⟩ := List.nodup_cons.1 hnd
    obtain ⟨hn0, h0⟩ := List.ne_and_not_mem_of_not_mem_cons h0
    -- every input and output is named by `order`, so no projection fails
    have hinps : (g.getNode n).inps.mapM (relinkInput prev g order ids) =
        some ((g.getNode n).inps.map (rename order ids 0)) := by
      refine mapM_eq_map fun m hm => ?_
      have hmo := hnames n List.mem_cons_self m (List.mem_append_left _ hm)
      simp only [relinkInput, Option.bind_eq_bind, Option.bind_eq_some_iff, Option.guard_eq_some']
      exact ⟨_, project_eq hmo, (), hkind m hmo, rfl⟩
    have houts : (g.getNode n).outs.mapM (projectOutput order ids) =
        some ((g.getNode n).outs.map (renameOutput order ids)) := by
      refine mapM_eq_map fun o ho => ?_
      have hmo := hnames n List.mem_cons_self o.id
        (List.mem_append_right _ (List.mem_map_of_mem ho))
      simp only [projectOutput, project_eq hmo]
      rfl
    let g₁ := g.setNode n (renameNode order ids (g.getNode n))
    have hself : g₁.getNode n = renameNode order ids (g.getNode n) := getNode_setNode_self _ hn0.symm
    -- the other nodes are as they were: each is renamed when it is its turn
    have hother (y : NodeId) (hy : y ≠ n) : g₁.getNode y = g.getNode y := getNode_setNode_ne _ hy
    have htype (y : NodeId) : (g₁.getNode y).itype = (g.getNode y).itype := by
      by_cases hy : y = n
      · rw [hy, hself]
        rfl
      · rw [hother y hy]
    -- the room that is left counts the nodes that are still to enter
    have hlen : (g₁.getNode n).itype.isInterned = true →
        g₁.interner.length < g₁.internerCap := by
      intro hi
      rw [htype] at hi
      rw [List.countP_cons, if_pos hi] at hroom
      simp only [g₁, setNode]
      omega
    obtain ⟨g₂, hg₂, hmem, hint, hcap, hpos⟩ := enter_spec hlen
    have hget (y : NodeId) : g₂.getNode y = g₁.getNode y := getNode_congr hmem y
    have hrest (y : NodeId) (hy : y ∈ ns) : g₂.getNode y = g.getNode y := by
      rw [hget, hother y fun h => hn (h ▸ hy)]
    have hcount : ns.countP (fun n => (g₂.getNode n).itype.isInterned) =
        ns.countP (fun n => (g.getNode n).itype.isInterned) :=
      List.countP_congr fun y hy => by rw [hrest y hy]
    have hlen₂ : g₂.interner.length + ns.countP (fun n => (g₂.getNode n).itype.isInterned) ≤
        g₂.internerCap := by
      have hone : (g₁.entriesOf [n]).length =
          [n].countP fun n => (g.getNode n).itype.isInterned := by
        rw [length_entriesOf]
        exact List.countP_congr fun y _ => by rw [htype]
      have hfirst : g₁.interner = g.interner := rfl
      have hlast : g₁.internerCap = g.internerCap := rfl
      rw [hint, hcap, hcount, List.length_append, hone, hfirst, hlast, Nat.add_assoc,
        ← List.countP_append]
      exact hroom
    obtain ⟨g₃, hg₃, hin, hout, hint₃, hpos₃⟩ := ih (g := g₂) hnd h0
      (fun y hy m hm => hnames y (List.mem_cons_of_mem _ hy) m (by rwa [hrest y hy] at hm))
      (fun m hm => by rw [hkind m hm, hget, htype]) hlen₂
    have hn₃ : g₃.getNode n = renameNode order ids (g.getNode n) := by
      rw [hout n hn, hget, hself]
    refine ⟨g₃, ?_, ?_, ?_, ?_, hpos₃.trans hpos⟩
    · simp only [relinkNodes, hinps, houts, Option.bind_eq_bind, Option.bind_some]
      exact Option.bind_eq_some_iff.2 ⟨g₂, hg₂, hg₃⟩
    · intro y hy
      rcases List.mem_cons.1 hy with rfl | hy
      · exact hn₃
      · rw [hin y hy, hrest y hy]
    · intro y hy
      obtain ⟨hyn, hy⟩ := List.ne_and_not_mem_of_not_mem_cons hy
      rw [hout y hy, hget, hother y hyn]
    · have hone : g₁.entriesOf [n] = g₃.entriesOf [n] := by
        rw [entriesOf_singleton, entriesOf_singleton, hn₃, hself]
      have hfirst : g₁.interner = g.interner := rfl
      rw [hint₃, hint, hone, hfirst, List.append_assoc, ← entriesOf_append]
      rfl

/-! ### What compacting makes of a graph -/

/-- The nodes that are copied. -/
def copied (g : Graph) : List NodeId := (collectNodes g.toProc).tail

/-- Where they go. -/
def newPlaces (g : Graph) : List NodeId := places g.ownWords 1 g.copied

/-- Where a node goes. -/
def newPlace (g : Graph) : NodeId → NodeId := rename (collectNodes g.toProc) (0 :: g.newPlaces) 0

/-- The capacity of the new interner. -/
def newInternerCap (g : Graph) : ℕ :=
  alignForward (g.copied.countP fun n => (g.getNode n).itype.isInterned) 16

/-- How long the new graph is. -/
def compactedWords (g : Graph) : ℕ :=
  internerEnd (endPlace g.ownWords 1 g.copied) g.newInternerCap

/-- A graph between two edits: its links and its interner are whole, the pinned nodes are what they
should be, and the nodes lie in the arena. -/
structure Whole (g : Graph) : Prop where
  good : g.Good
  consed : g.Consed
  entry : (g.getNode g.entry).itype = .entry
  end_ : (g.getNode g.end_).itype = .end_
  inside : ∀ n : ℕ, n ≠ 0 → g.live n = true → n + g.nodeWords (g.getNode n).extra ≤ g.pos

/-- What `compact` makes of `g`. -/
structure Compacted (g g' : Graph) : Prop where
  node : ∀ n ∈ g.copied,
    g'.getNode (g.newPlace n) = renameNode (collectNodes g.toProc) (0 :: g.newPlaces) (g.getNode n)
  rest : ∀ x, x ≠ 0 → x ∉ g.newPlaces → g'.getNode x = .dead
  interner : g'.interner = g'.entriesOf g.newPlaces
  pos : g'.pos = g.compactedWords
  entry : g'.entry = g.newPlace g.entry
  end_ : g'.end_ = g.newPlace g.end_

section Compacted

theorem collectNodes_copied (g : Graph) : collectNodes g.toProc = 0 :: g.copied := by
  obtain ⟨ns, hns⟩ : ∃ ns, collectNodes g.toProc = 0 :: ns := collectNodes_eq_cons
  rw [copied, hns, List.tail_cons]

theorem nodup_copied (g : Graph) : (0 :: g.copied).Nodup :=
  collectNodes_copied g ▸ nodup_collectNodes

theorem nodup_newPlaces (g : Graph) : (0 :: g.newPlaces).Nodup := by
  refine List.nodup_cons.2 ⟨fun h => ?_, nodup_places g.ownWords_pos⟩
  have hle := le_of_mem_places h
  omega

theorem length_newPlaces (g : Graph) : g.copied.length = g.newPlaces.length :=
  length_places.symm

@[simp] theorem newPlace_zero (g : Graph) : g.newPlace 0 = 0 := by
  rw [newPlace, collectNodes_copied, rename_cons_self]

theorem newPlace_of_copied (hn : n ∈ g.copied) :
    g.newPlace n = rename g.copied g.newPlaces 0 n := by
  have hne : n ≠ 0 := fun h => (List.nodup_cons.1 g.nodup_copied).1 (h ▸ hn)
  rw [newPlace, collectNodes_copied, rename_cons_of_ne hne]

theorem newPlace_mem (hn : n ∈ g.copied) : g.newPlace n ∈ g.newPlaces := by
  rw [newPlace_of_copied hn]
  exact rename_mem g.length_newPlaces hn

theorem newPlace_inj (hn : n ∈ collectNodes g.toProc) (hm : m ∈ collectNodes g.toProc)
    (h : g.newPlace n = g.newPlace m) : n = m := by
  refine rename_inj g.nodup_newPlaces ?_ hn hm h
  rw [collectNodes_copied, List.length_cons, List.length_cons, length_newPlaces]

theorem exists_newPlace (h : x ∈ g.newPlaces) : ∃ n ∈ g.copied, g.newPlace n = x := by
  obtain ⟨n, hn, rfl⟩ :=
    exists_rename (d := 0) (List.nodup_cons.1 g.nodup_copied).2 g.length_newPlaces h
  exact ⟨n, hn, newPlace_of_copied hn⟩

theorem newPlaces_eq_map (g : Graph) : g.newPlaces = g.copied.map g.newPlace := by
  refine List.ext_getElem? fun i => ?_
  rw [List.getElem?_map]
  rcases hi : g.copied[i]? with _ | n
  · rw [Option.map_none, List.getElem?_eq_none_iff, ← length_newPlaces]
    exact List.getElem?_eq_none_iff.1 hi
  · rw [Option.map_some, newPlace_of_copied (List.mem_of_getElem? hi)]
    exact rename_getElem? (List.nodup_cons.1 g.nodup_copied).2 g.length_newPlaces hi

/-- What stands at the places before the links are renamed. -/
theorem getNode_placed (hn : n ∈ g.copied) :
    (placeNodes g g.copied (empty g.hasDbg)).getNode (g.newPlace n) = g.getNode n := by
  obtain ⟨i, hi⟩ := List.mem_iff_getElem?.1 hn
  have hplace : g.newPlaces[i]? = some (g.newPlace n) := by
    rw [newPlace_of_copied hn]
    exact rename_getElem? (List.nodup_cons.1 g.nodup_copied).2 g.length_newPlaces hi
  exact getNode_placeNodes Nat.one_pos hi hplace

theorem Whole.wellLinked (h : g.Whole) : g.WellLinked where
  dead_of_le id hid := by
    rw [Proc.live, h.good.fresh id hid]
    rfl
  entry_live := by simp [Proc.live, h.entry]
  end_live := by simp [Proc.live, h.end_]
  inps_live := h.good.agree.inps_live
  outs_live := h.good.agree.outs_live
  mem_outs id _ inp hinp h0 := by
    obtain ⟨i, hi⟩ := List.mem_iff_getElem?.1 hinp
    exact List.mem_map.2 ⟨⟨id, i⟩, h.good.links.mem_outs h0 hi, rfl⟩

variable {a : Arena}

theorem Whole.copied_of_live (h : g.Whole) (hk : g.Kept n) (hn : n ≠ 0) : n ∈ g.copied := by
  have hmem := (mem_collectNodes_iff h.wellLinked).2 hk
  rw [collectNodes_copied] at hmem
  exact (List.mem_cons.1 hmem).resolve_left hn

theorem Whole.entry_ne (h : g.Whole) : g.entry ≠ 0 := by
  intro h0
  have := h.entry
  rw [h0] at this
  cases this

theorem Whole.end_ne (h : g.Whole) : g.end_ ≠ 0 := by
  intro h0
  have := h.end_
  rw [h0] at this
  cases this

/-- The nodes as they stand before the second loop. -/
def moved (g : Graph) : Graph :=
  { placeNodes g g.copied (empty g.hasDbg) with
    pos := g.compactedWords, internerCap := g.newInternerCap }

theorem dvd_alignForward (x : ℕ) : 4 ∣ alignForward x 16 ∧ x ≤ alignForward x 16 := by
  unfold alignForward
  omega

theorem Whole.lt_pos (h : g.Whole) : 4 < g.pos := by
  have hwords : 6 ≤ g.nodeWords (g.getNode g.entry).extra := by
    unfold nodeWords
    omega
  have hbody := h.inside g.entry h.entry_ne h.wellLinked.entry_live
  omega

theorem endPlace_le_compactedWords (g : Graph) :
    endPlace g.ownWords 1 g.copied ≤ g.compactedWords := by
  have hle := le_alignForward_four (endPlace g.ownWords 1 g.copied)
  unfold compactedWords internerEnd
  split <;> omega

/-- The first loop, on the graph without nodes. -/
theorem moveNodes_copied (h : g.Whole) (ha : a.Plain) (hpos : g.pos ≤ a.usable)
    {r : Arena × Graph × List NodeId} :
    g.moveNodes g.copied (a.shift g.pos) (empty g.hasDbg) = some r ↔
      g.pos + endPlace g.ownWords 1 g.copied ≤ a.usable ∧
        (a.shift g.pos, placeNodes g g.copied (empty g.hasDbg), g.newPlaces) = r := by
  refine moveNodes_shift ha h.lt_pos (by simp only [empty]; omega) (.inl fun hnil => ?_)
    (List.nodup_cons.1 g.nodup_copied).1
  have := h.copied_of_live .entry h.entry_ne
  rw [hnil] at this
  cases this

theorem growInterner_moved (h : g.Whole) (ha : a.Plain)
    (hpos : g.pos + endPlace g.ownWords 1 g.copied ≤ a.usable) {r : Arena × Graph} :
    (placeNodes g g.copied (empty g.hasDbg)).growInterner (a.shift g.pos) g.newInternerCap =
        some r ↔ g.pos + g.compactedWords ≤ a.usable ∧ (a.shift g.pos, g.moved) = r := by
  have hlast : (placeNodes g g.copied (empty g.hasDbg)).pos = endPlace g.ownWords 1 g.copied :=
    placeNodes_pos
  refine (growInterner_shift ha h.lt_pos (hlast ▸ hpos) (dvd_alignForward _).1
    placeNodes_internerCap).trans ?_
  rw [hlast]
  rfl

theorem getNode_moved (hn : n ∈ g.copied) : g.moved.getNode (g.newPlace n) = g.getNode n :=
  (getNode_congr rfl _).trans (getNode_placed hn)

theorem getNode_moved_rest (hx : x ≠ 0) (h : x ∉ g.newPlaces) : g.moved.getNode x = .dead := by
  have hrest : (placeNodes g g.copied (empty g.hasDbg)).getNode x = (empty g.hasDbg).getNode x :=
    getNode_placeNodes_of_not_mem Nat.one_pos h
  exact hrest.trans (Proc.getNode_of_ne _ hx)

/-- The second loop, on the nodes that have been moved. -/
theorem relinkNodes_moved (h : g.Whole) :
    ∃ g₁, relinkNodes g (collectNodes g.toProc) (0 :: g.newPlaces) g.newPlaces g.moved = some g₁ ∧
      (∀ n ∈ g.copied, g₁.getNode (g.newPlace n) =
        renameNode (collectNodes g.toProc) (0 :: g.newPlaces) (g.getNode n)) ∧
      (∀ x, x ≠ 0 → x ∉ g.newPlaces → g₁.getNode x = .dead) ∧
      g₁.interner = g₁.entriesOf g.newPlaces ∧ g₁.pos = g.compactedWords := by
  have hnd := List.nodup_cons.1 g.nodup_newPlaces
  have hmem {n : NodeId} (hn : n ∈ g.copied) : n ∈ collectNodes g.toProc := by
    rw [collectNodes_copied]
    exact List.mem_cons_of_mem _ hn
  have hnames : ∀ q ∈ g.newPlaces, ∀ m ∈ neighbours (g.moved.getNode q),
      m ∈ collectNodes g.toProc := by
    intro q hq m hm
    obtain ⟨n, hn, rfl⟩ := exists_newPlace hq
    rw [getNode_moved hn] at hm
    exact neighbours_mem_collectNodes h.wellLinked (hmem hn) hm
  have hkind : ∀ m ∈ collectNodes g.toProc,
      (g.getNode m).itype = (g.moved.getNode (g.newPlace m)).itype := by
    intro m hm
    rw [collectNodes_copied] at hm
    rcases List.mem_cons.1 hm with rfl | hm
    · rw [newPlace_zero]
      rfl
    · rw [getNode_moved hm]
  have hcount : g.newPlaces.countP (fun q => (g.moved.getNode q).itype.isInterned) =
      g.copied.countP fun n => (g.getNode n).itype.isInterned := by
    rw [newPlaces_eq_map, List.countP_map]
    exact List.countP_congr fun n hn => by rw [Function.comp_apply, getNode_moved hn]
  have hempty : g.moved.interner = [] := placeNodes_interner
  obtain ⟨g₁, hg₁, hin, hout, hint, hpos⟩ := relinkNodes_spec hnd.2 hnd.1 hnames hkind
    (by rw [hempty, hcount, List.length_nil, Nat.zero_add]; exact (dvd_alignForward _).2)
  refine ⟨g₁, hg₁, fun n hn => ?_, fun x hx hq => ?_, ?_, hpos⟩
  · rw [hin _ (newPlace_mem hn), getNode_moved hn]
  · rw [hout x hq, getNode_moved_rest hx hq]
  · rw [hint, hempty, List.nil_append]

/-- **Compacting ends well only if there is room** for the new nodes behind the old ones. -/
theorem compact_room (h : g.Whole) (ha : a.Plain) (hpos : g.pos ≤ a.usable) {r : Arena × Graph}
    (hr : compact a g = some r) : g.pos + g.compactedWords ≤ a.usable := by
  simp only [compact, Option.bind_eq_bind, Option.bind_eq_some_iff] at hr
  obtain ⟨-, -, r₁, h₁, r₂, h₂, -⟩ := hr
  obtain ⟨hroom, rfl⟩ := (moveNodes_copied h ha hpos).1 h₁
  exact ((growInterner_moved h ha hroom).1 h₂).1

/-- **Compacting ends with the compacted graph**, in the same arena. -/
theorem compact_some (h : g.Whole) (ha : a.Plain) (hroom : g.pos + g.compactedWords ≤ a.usable) :
    ∃ g', compact a g = some (a, g') ∧ Compacted g g' := by
  obtain ⟨g₁, hg₁, hnode, hrest, hint, hpos⟩ := relinkNodes_moved h
  have hentry := h.copied_of_live .entry h.entry_ne
  have hend := h.copied_of_live .end_ h.end_ne
  have hmem {n : NodeId} (hn : n ∈ g.copied) : n ∈ collectNodes g.toProc := by
    rw [collectNodes_copied]
    exact List.mem_cons_of_mem _ hn
  have hlast := endPlace_le_compactedWords g
  have hmove := (moveNodes_copied h ha (by omega)).2 ⟨by omega, rfl⟩
  have hgrow := (growInterner_moved h ha (by omega)).2 ⟨hroom, rfl⟩
  have hlen : g₁.interner.length = g.copied.countP fun n => (g.getNode n).itype.isInterned := by
    rw [hint, length_entriesOf, newPlaces_eq_map, List.countP_map]
    exact List.countP_congr fun n hn => by
      rw [Function.comp_apply, hnode n hn]
      rfl
  have hwrite : a.writable 0 g₁.pos = true := ha.writable (by omega)
  let g₂ : Graph := { g₁ with entry := g.newPlace g.entry, end_ := g.newPlace g.end_ }
  have hget (x : NodeId) : g₂.getNode x = g₁.getNode x := getNode_congr rfl x
  have hpins : g₂.pinsLive = true := by
    have h₁ : (g₂.getNode (g.newPlace g.entry)).itype = .entry := by
      rw [hget, hnode _ hentry]
      exact h.entry
    have h₂ : (g₂.getNode (g.newPlace g.end_)).itype = .end_ := by
      rw [hget, hnode _ hend]
      exact h.end_
    exact decide_eq_true ⟨h₁, h₂⟩
  refine ⟨g₂, ?_, hnode, hrest, hint, hpos, rfl, rfl⟩
  simp only [compact, Option.bind_eq_bind, Option.bind_eq_some_iff, Option.guard_eq_some']
  exact ⟨(), decide_eq_true ⟨h.entry, h.end_⟩, _, hmove, _, hgrow, g₁, hg₁, (), hlen, _,
    project_eq (hmem hentry), _, project_eq (hmem hend), (), hwrite, (), hpins, rfl⟩

end Compacted

/-! ### Isomorphic graphs -/

/-- `φ` takes what `g` keeps to what `g'` keeps: the same kinds, datatypes and extras, the inputs in
their order and the outputs in some order, the pinned nodes and nothing else.  The interner of `g'` is
that of its nodes. -/
structure IsoBy (φ : NodeId → NodeId) (g g' : Graph) : Prop where
  nil : φ 0 = 0
  entry : φ g.entry = g'.entry
  end_ : φ g.end_ = g'.end_
  injective : ∀ m n, g.Kept m → g.Kept n → φ m = φ n → m = n
  node : ∀ n, g.Kept n →
    (g'.getNode (φ n)).key = { (g.getNode n).key with inps := (g.getNode n).inps.map φ }
  outs : ∀ n, g.Kept n →
    ((g'.getNode (φ n)).outs).Perm ((g.getNode n).outs.map fun o => ⟨φ o.id, o.idx⟩)
  kept : ∀ x, g'.Kept x ↔ ∃ n, g.Kept n ∧ φ n = x
  interner : g'.Exact

variable {φ : NodeId → NodeId}

/-- What is kept follows the links. -/
theorem kept_iff_of_links (nil : φ 0 = 0) (entry : φ g.entry = g'.entry)
    (end_ : φ g.end_ = g'.end_)
    (inps : ∀ n, g.Kept n → (g'.getNode (φ n)).inps = (g.getNode n).inps.map φ)
    (outs : ∀ n, g.Kept n → ∀ o, o ∈ (g'.getNode (φ n)).outs ↔
      ∃ o' ∈ (g.getNode n).outs, (⟨φ o'.id, o'.idx⟩ : NodeOutput) = o) (x : NodeId) :
    g'.Kept x ↔ ∃ n, g.Kept n ∧ φ n = x := by
  constructor
  · intro h
    induction h with
    | nil => exact ⟨0, .nil, nil⟩
    | entry => exact ⟨_, .entry, entry⟩
    | end_ => exact ⟨_, .end_, end_⟩
    | input _ hm ih =>
      obtain ⟨n, hn, rfl⟩ := ih
      rw [inps n hn] at hm
      obtain ⟨m, hm', rfl⟩ := List.mem_map.1 hm
      exact ⟨m, .input hn hm', rfl⟩
    | output _ ho ih =>
      obtain ⟨n, hn, rfl⟩ := ih
      obtain ⟨o, ho', rfl⟩ := (outs n hn _).1 ho
      exact ⟨o.id, .output hn ho', rfl⟩
  · rintro ⟨n, hn, rfl⟩
    induction hn with
    | nil =>
      rw [nil]
      exact .nil
    | entry =>
      rw [entry]
      exact .entry
    | end_ =>
      rw [end_]
      exact .end_
    | input hn hm ih => exact .input ih (inps _ hn ▸ List.mem_map_of_mem hm)
    | output hn ho ih => exact .output ih ((outs _ hn _).2 ⟨_, ho, rfl⟩)

/-! ### The compacted graph is isomorphic -/

section Iso

variable (h : g.Whole) (hc : Compacted g g')
include h

theorem Whole.mem_copied (hk : g.Kept n) : n = 0 ∨ n ∈ g.copied := by
  by_cases hn : n = 0
  · exact .inl hn
  · exact .inr (h.copied_of_live hk hn)

theorem Whole.kept_of_copied (hn : n ∈ g.copied) : g.Kept n := by
  rw [← mem_collectNodes_iff h.wellLinked, collectNodes_copied]
  exact List.mem_cons_of_mem _ hn

theorem Whole.newPlace_inj (hm : g.Kept m) (hn : g.Kept n) (he : g.newPlace m = g.newPlace n) :
    m = n := by
  rw [← mem_collectNodes_iff h.wellLinked] at hm hn
  exact Graph.newPlace_inj hm hn he

include hc

/-- Apart from its outputs a node is the renamed one. -/
theorem Compacted.key_eq (hn : g.Kept n) : (g'.getNode (g.newPlace n)).key =
    { (g.getNode n).key with inps := (g.getNode n).inps.map g.newPlace } := by
  rcases h.mem_copied hn with rfl | hn
  · rw [newPlace_zero]
    rfl
  · rw [hc.node n hn]
    rfl

theorem Compacted.inps_eq (hn : g.Kept n) :
    (g'.getNode (g.newPlace n)).inps = (g.getNode n).inps.map g.newPlace :=
  (congrArg Node.inps (hc.key_eq h hn) :)

theorem Compacted.outs_eq (hn : g.Kept n) : (g'.getNode (g.newPlace n)).outs =
    (g.getNode n).outs.map (renameOutput (collectNodes g.toProc) (0 :: g.newPlaces)) := by
  rcases h.mem_copied hn with rfl | hn
  · rw [newPlace_zero]
    rfl
  · rw [hc.node n hn]
    rfl

/-- The table of the new interner: different nodes stay different. -/
theorem Compacted.consed : g'.Consed := by
  have hinterned {q : NodeId} (hq : (g'.getNode q).itype.isInterned = true) :
      ∃ n ∈ g.copied, g.newPlace n = q := by
    refine exists_newPlace ?_
    by_contra hno
    have hq0 : q ≠ 0 := by
      rintro rfl
      cases hq
    rw [hc.rest q hq0 hno] at hq
    cases hq
  have hentry {e : SSEntry} (he : e ∈ g'.interner) :
      (g'.getNode e.id).itype.isInterned = true ∧ e.hash = nodeHash (g'.getNode e.id) := by
    rw [hc.interner] at he
    obtain ⟨q, hq, rfl⟩ := List.mem_map.1 he
    exact ⟨(List.mem_filter.1 hq).2, rfl⟩
  -- equal keys after the renaming were equal before it
  have hkey {m n : NodeId} (hm : g.Kept m) (hn : g.Kept n)
      (he : (g'.getNode (g.newPlace m)).key = (g'.getNode (g.newPlace n)).key) :
      (g.getNode m).key = (g.getNode n).key := by
    rw [hc.key_eq h hm, hc.key_eq h hn] at he
    have hinps : (g.getNode m).inps = (g.getNode n).inps :=
      eq_of_map_eq (fun x hx y hy hxy => h.newPlace_inj (.input hm hx) (.input hn hy) hxy)
        (congrArg Node.inps he)
    have hback : (g.getNode m).key =
        { ({ (g.getNode m).key with inps := (g.getNode m).inps.map g.newPlace } : Node) with
          inps := (g.getNode m).inps } := rfl
    rw [hback, he, hinps]
    rfl
  have htable : Table g'.keys g'.interner fun _ => False := by
    refine ⟨fun e he => hentry he, ?_, ?_⟩
    · rw [hc.interner, entriesOf, List.pairwise_map]
      refine ((List.nodup_cons.1 g.nodup_newPlaces).2.filter _).imp_of_mem ?_
      intro q q' hq hq' hne hkeys
      have hq := (List.mem_filter.1 hq).2
      have hq' := (List.mem_filter.1 hq').2
      obtain ⟨n, hn, rfl⟩ := hinterned hq
      obtain ⟨n', hn', rfl⟩ := hinterned hq'
      have hsame := hkey (h.kept_of_copied hn) (h.kept_of_copied hn') hkeys
      rw [hc.node n hn] at hq
      rw [hc.node n' hn'] at hq'
      obtain ⟨e, he, rfl⟩ := h.consed.table.all n hq not_false
      obtain ⟨e', he', rfl⟩ := h.consed.table.all n' hq' not_false
      exact hne (by rw [h.consed.table.eq_of_key he he' hsame])
    · intro q hq _
      have hq' : (g'.getNode q).itype.isInterned = true := hq
      obtain ⟨n, hn, rfl⟩ := hinterned hq'
      refine ⟨⟨nodeHash (g'.getNode (g.newPlace n)), g.newPlace n⟩, ?_, rfl⟩
      rw [hc.interner]
      exact List.mem_map.2 ⟨_, List.mem_filter.2 ⟨newPlace_mem hn, hq'⟩, rfl⟩
  have hlast := endPlace_le_compactedWords g
  have hpos : 1 ≤ endPlace g.ownWords 1 g.copied := le_endPlace
  rw [← hc.pos] at hlast
  refine ⟨htable, by omega, fun x hx => hc.rest x (Nat.ne_of_gt (by omega)) fun hq => ?_⟩
  have hlt := lt_of_mem_places g.ownWords_pos hq
  omega

/-- **Compacting is an isomorphism**, if the places of all users fit in a `Node_Output`. -/
theorem Compacted.isoBy
    (hnarrow : ∀ n, g.Kept n → ∀ o ∈ (g.getNode n).outs, g.newPlace o.id < 2 ^ 22) :
    IsoBy g.newPlace g g' := by
  have houts (n : NodeId) (hn : g.Kept n) : (g'.getNode (g.newPlace n)).outs =
      (g.getNode n).outs.map fun o => ⟨g.newPlace o.id, o.idx⟩ := by
    rw [hc.outs_eq h hn]
    refine List.map_congr_left fun o ho => ?_
    rw [renameOutput]
    exact congrArg (NodeOutput.mk · o.idx) (Nat.mod_eq_of_lt (hnarrow n hn o ho))
  refine ⟨newPlace_zero g, hc.entry.symm, hc.end_.symm, fun m n hm hn => h.newPlace_inj hm hn,
    fun n hn => hc.key_eq h hn, fun n hn => .of_eq (houts n hn), ?_, (hc.consed h).exact⟩
  exact kept_iff_of_links (newPlace_zero g) hc.entry.symm hc.end_.symm
    (fun n hn => hc.inps_eq h hn) fun n hn o => by
    rw [houts n hn, List.mem_map]

/-! ### The places that do not fit -/

/-- An isomorphism takes the copied nodes to the places. -/
theorem Compacted.perm_newPlaces (hiso : IsoBy φ g g') :
    (g.copied.map φ).Perm g.newPlaces := by
  have hnd := List.nodup_cons.1 g.nodup_copied
  have hmem {n : NodeId} (hn : n ∈ g.copied) : φ n ∈ g.newPlaces := by
    have hk := h.kept_of_copied hn
    by_contra hno
    have h0 : φ n ≠ 0 := by
      intro h0
      have hn0 : n = 0 := hiso.injective n 0 hk .nil (h0.trans hiso.nil.symm)
      exact hnd.1 (hn0 ▸ hn)
    have hdead := congrArg Node.itype (hiso.node n hk)
    rw [hc.rest _ h0 hno] at hdead
    have hlive : g.live n = true := live_of_mem_collectNodes (by
      rw [collectNodes_copied]
      exact List.mem_cons_of_mem _ hn)
    simp only [Proc.live] at hlive
    exact of_decide_eq_true hlive hdead.symm
  have hmap : (g.copied.map φ).Nodup := by
    refine List.Nodup.map_on (fun m hm n hn he => ?_) hnd.2
    exact hiso.injective m n (h.kept_of_copied hm) (h.kept_of_copied hn) he
  refine (List.subperm_of_subset hmap fun q hq => ?_).perm_of_length_le ?_
  · obtain ⟨n, hn, rfl⟩ := List.mem_map.1 hq
    exact hmem hn
  · rw [List.length_map, length_newPlaces]

omit h hc in
theorem IsoBy.inps_eq (hiso : IsoBy φ g g') (hn : g.Kept n) :
    (g'.getNode (φ n)).inps = (g.getNode n).inps.map φ :=
  (congrArg Node.inps (hiso.node n hn) :)

omit h hc in
/-- An isomorphism keeps the number of copies of an output. -/
theorem IsoBy.count_eq (hiso : IsoBy φ g g') (hn : g.Kept n) {p : NodeOutput} (hp : g.Kept p.id) :
    (g'.getNode (φ n)).outs.count ⟨φ p.id, p.idx⟩ = (g.getNode n).outs.count p := by
  rw [(hiso.outs n hn).count_eq, List.count_eq_countP, List.countP_map, List.count_eq_countP]
  refine List.countP_congr fun x hx => ?_
  rw [Function.comp_apply, beq_iff_eq, beq_iff_eq, NodeOutput.mk.injEq]
  constructor
  · rintro ⟨hid, hidx⟩
    have hid' := hiso.injective _ _ (.output hn hx) hp hid
    cases x
    cases p
    exact NodeOutput.mk.injEq .. ▸ ⟨hid', hidx⟩
  · rintro rfl
    exact ⟨rfl, rfl⟩

omit h hc in
theorem renameOutput_pin (g : Graph) :
    renameOutput (collectNodes g.toProc) (0 :: g.newPlaces) .pin = .pin := by
  have hzero : rename (collectNodes g.toProc) (0 :: g.newPlaces) 0 0 = 0 := newPlace_zero g
  rw [renameOutput, NodeOutput.pin, hzero]
  rfl

/-- **No output of an isomorphic graph becomes a pin**: there would be more pins than before. -/
theorem Compacted.ne_pin (hiso : IsoBy φ g g') (hn : g.Kept n) {o : NodeOutput}
    (ho : o ∈ (g.getNode n).outs) (hopin : o ≠ .pin) :
    renameOutput (collectNodes g.toProc) (0 :: g.newPlaces) o ≠ .pin := by
  intro hpin
  have hn0 : n ≠ 0 := by
    rintro rfl
    cases ho
  have hlt : (g.copied.map fun c => (g.getNode c).outs.count .pin).sum <
      (g.copied.map fun c => (g'.getNode (g.newPlace c)).outs.count .pin).sum := by
    refine List.sum_lt_sum _ _ (fun c hcc => ?_) ⟨n, h.copied_of_live hn hn0, ?_⟩
    · have hle : (g.getNode c).outs.count .pin ≤ List.count
          (renameOutput (collectNodes g.toProc) (0 :: g.newPlaces) .pin)
          ((g.getNode c).outs.map (renameOutput (collectNodes g.toProc) (0 :: g.newPlaces))) :=
        List.count_le_count_map
      rw [renameOutput_pin] at hle
      rw [hc.outs_eq h (h.kept_of_copied hcc)]
      exact hle
    · rw [hc.outs_eq h hn]
      exact count_lt_count_map (renameOutput_pin g) ho hopin hpin
  have hsame : (g.copied.map fun c => (g.getNode c).outs.count .pin) =
      (g.copied.map φ).map fun x => (g'.getNode x).outs.count .pin := by
    rw [List.map_map]
    refine List.map_congr_left fun c hcc => ?_
    have hcount := hiso.count_eq (h.kept_of_copied hcc) (p := .pin) .nil
    rw [← hcount, NodeOutput.pin, hiso.nil]
    rfl
  have hperm := ((hc.perm_newPlaces h hiso).map fun x => (g'.getNode x).outs.count .pin).sum_eq
  rw [hsame, hperm, newPlaces_eq_map, List.map_map] at hlt
  exact lt_irrefl _ hlt

/-- **In an isomorphic graph the places of all users fit.** -/
theorem Compacted.narrow (hiso : IsoBy φ g g') :
    ∀ n, g.Kept n → ∀ o ∈ (g.getNode n).outs, g.newPlace o.id < 2 ^ 22 := by
  intro n hn o ho
  by_contra hwide
  have hperm := hc.perm_newPlaces h hiso
  have hn0 : n ≠ 0 := by
    rintro rfl
    cases ho
  have hnc := h.copied_of_live hn hn0
  -- the node whose image stands at the place of `n`
  obtain ⟨n₂, hn₂, hφn₂⟩ := List.mem_map.1 (hperm.symm.subset (newPlace_mem hnc))
  have hk₂ := h.kept_of_copied hn₂
  have hn₂0 : n₂ ≠ 0 := fun h0 => (List.nodup_cons.1 g.nodup_copied).1 (h0 ▸ hn₂)
  let o' := renameOutput (collectNodes g.toProc) (0 :: g.newPlaces) o
  have ho' : o' ∈ (g'.getNode (g.newPlace n)).outs := by
    rw [hc.outs_eq h hn]
    exact List.mem_map_of_mem ho
  have houts₂ := hiso.outs n₂ hk₂
  rw [hφn₂] at houts₂
  obtain ⟨p, hp, hpo⟩ := List.mem_map.1 (houts₂.subset ho')
  have hpk : g.Kept p.id := .output hk₂ hp
  obtain ⟨hpid, hpidx⟩ := NodeOutput.mk.inj hpo
  by_cases hpin : p = .pin
  · refine hc.ne_pin h hiso hn ho ?_ ?_
    · rintro rfl
      exact hwide (by rw [NodeOutput.pin, newPlace_zero]; decide)
    · refine hpo.symm.trans ?_
      rw [hpin]
      exact congrArg (NodeOutput.mk · 0) hiso.nil
  · have hinp := h.good.links.inps_of_mem hn₂0 hpin hp
    have hk0 : p.id ≠ 0 := by
      intro h0
      rw [h0] at hinp
      cases hinp
    -- the node at the place of the user uses `n` too, and so is in its list a second time
    obtain ⟨c, hcc, hφc⟩ := exists_newPlace
      (hperm.subset (List.mem_map_of_mem (f := φ) (h.copied_of_live hpk hk0)))
    have hck := h.kept_of_copied hcc
    have hinps : (g.getNode p.id).inps.map φ = (g.getNode c).inps.map g.newPlace := by
      have h₁ : (g'.getNode (φ p.id)).inps = _ := hiso.inps_eq hpk
      have h₂ : (g'.getNode (g.newPlace c)).inps = _ := hc.inps_eq h hck
      rw [hφc] at h₂
      exact h₁.symm.trans h₂
    have hcn : (g.getNode c).inps[p.idx]? = some n := by
      have h₁ := congrArg (·[p.idx]?) hinps
      simp only [List.getElem?_map, hinp, Option.map_some] at h₁
      obtain ⟨c', hc', he⟩ := Option.map_eq_some_iff.1 h₁.symm
      rw [hφn₂] at he
      rw [hc', h.newPlace_inj (.input hck (List.mem_of_getElem? hc')) hn he]
    have hmem := h.good.links.mem_outs hn0 hcn
    have htwo : 2 ≤ (g'.getNode (g.newPlace n)).outs.count o' := by
      rw [hc.outs_eq h hn, List.count_eq_countP, List.countP_map]
      refine two_le_countP ho hmem ?_ ?_ ?_
      · rintro rfl
        rw [hφc, hpid] at hwide
        exact hwide (Nat.mod_lt _ (by decide))
      · exact beq_self_eq_true o'
      · rw [Function.comp_apply, beq_iff_eq]
        have hsmall : g.newPlace c % 2 ^ 22 = g.newPlace o.id % 2 ^ 22 :=
          (congrArg (· % 2 ^ 22) (hφc.trans hpid)).trans (Nat.mod_mod _ _)
        exact NodeOutput.mk.injEq .. ▸ ⟨hsmall, hpidx⟩
    have hone : (g'.getNode (g.newPlace n)).outs.count o' ≤ 1 := by
      have hlinks := h.good.links n₂ hn₂0 p hpin
      rw [← hφn₂, ← hpo, hiso.count_eq hk₂ hpk]
      simp only [useCount, add_zero] at hlinks
      split at hlinks <;> omega
    omega

end Iso

/-! ### Stencils -/

section Stencil

variable {a : Arena}

theorem ofStencil_getNode (h : g.Whole) (x : NodeId) :
    (ofStencil (getStencil a g)).getNode x = g.getNode x := by
  by_cases h0 : x = 0
  · rw [h0, Proc.getNode_zero, Proc.getNode_zero]
  · rw [Proc.getNode_of_ne _ h0]
    by_cases hx : x < g.pos
    · exact (if_pos hx).trans (Proc.getNode_of_ne _ h0).symm
    · exact (if_neg hx).trans (h.good.fresh x (not_lt.1 hx)).symm

/-- **A mounted stencil is the graph** that it was taken of. -/
theorem isoBy_ofStencil (h : g.Whole) : IsoBy id g (ofStencil (getStencil a g)) := by
  have hget := ofStencil_getNode (a := a) h
  have hkeys : (ofStencil (getStencil a g)).keys = g.keys := funext fun x => congrArg Node.key (hget x)
  have hcons : (ofStencil (getStencil a g)).Consed :=
    ⟨hkeys.symm ▸ h.consed.table, h.consed.pos, fun x hx => (hget x).trans (h.consed.fresh x hx)⟩
  refine ⟨rfl, rfl, rfl, fun m n _ _ he => he, fun n _ => ?_, fun n _ => ?_, ?_, hcons.exact⟩
  · rw [id_eq, hget, List.map_id]
    rfl
  · rw [id_eq, hget]
    exact .of_eq (List.map_id _).symm
  · exact kept_iff_of_links rfl rfl rfl (fun n _ => by rw [id_eq, hget, List.map_id])
      fun n _ o => by simp [hget]

theorem mountStencil_graph {b : Option Arena} {s : Stencil} {r : Arena × Graph}
    (h : mountStencil b s = some r) : r.2 = ofStencil s := by
  cases b with
  | none => exact (Option.some.inj h) ▸ rfl
  | some c =>
    obtain ⟨_, -, hr⟩ := Option.bind_eq_some_iff.1 h
    exact (Option.some.inj hr) ▸ rfl

/-- A stencil can be mounted if it fits in the reserved words. -/
theorem mountStencil_iff {b : Option Arena} (hb : ∀ c ∈ b, c.Fresh) {s : Stencil} :
    (∃ b', mountStencil b s = some (b', ofStencil s)) ↔ ∀ c ∈ b, s.len ≤ c.reserved := by
  cases b with
  | none => exact ⟨fun _ c hc => absurd hc (Option.not_mem_none c), fun _ => ⟨_, rfl⟩⟩
  | some c =>
    have hc := hb c rfl
    constructor
    · rintro ⟨b', h⟩ c' hc'
      obtain rfl := Option.some.inj hc'
      simp only [mountStencil, Option.bind_eq_bind, Option.bind_eq_some_iff] at h
      obtain ⟨r, hr, -⟩ := h
      exact hc.alloc_iff.1 ⟨r, hr⟩
    · intro h
      obtain ⟨r, hr⟩ := hc.alloc_iff.2 (h c rfl)
      exact ⟨r.1, Option.bind_eq_some_iff.2 ⟨r, hr, rfl⟩⟩

end Stencil

/-! ### When both are isomorphisms -/

/-- The words of the nodes that are found before `n`. -/
def wordsBefore (g : Graph) (n : NodeId) : ℕ := ((g.copied.takeWhile (· ≠ n)).map g.ownWords).sum

/-- The compacted graph has room behind the old one in what `a` has committed, the nodes found before
a user take less than `2 ^ 22` words, and the graph has room in `b`. -/
structure Fits (a : Arena) (b : Option Arena) (g : Graph) : Prop where
  room : g.pos + g.compactedWords ≤ a.usable
  narrow : ∀ n, g.Kept n → ∀ o ∈ (g.getNode n).outs, o.id = 0 ∨ 1 + g.wordsBefore o.id < 2 ^ 22
  mount : ∀ c ∈ b, g.pos ≤ c.reserved

theorem newPlace_eq (hn : n ∈ g.copied) : g.newPlace n = 1 + g.wordsBefore n := by
  rw [newPlace_of_copied hn]
  exact rename_places hn

theorem Whole.narrow_iff (h : g.Whole) {o : NodeOutput} (ho : g.Kept o.id) :
    g.newPlace o.id < 2 ^ 22 ↔ o.id = 0 ∨ 1 + g.wordsBefore o.id < 2 ^ 22 := by
  rcases h.mem_copied ho with h0 | hc
  · rw [h0, newPlace_zero]
    exact iff_of_true (by decide) (.inl rfl)
  · have hne : o.id ≠ 0 := fun h0 => (List.nodup_cons.1 g.nodup_copied).1 (h0 ▸ hc)
    rw [newPlace_eq hc, or_iff_right hne]

/-- **Compacting, and mounting a stencil, are isomorphisms of what a graph keeps, exactly if it
fits.** -/
theorem compact_mount_isoBy_iff {a : Arena} {b : Option Arena} (h : g.Whole) (ha : a.Plain)
    (hpos : g.pos ≤ a.usable) (hb : ∀ c ∈ b, c.Fresh) :
    ((∃ a' g' φ, compact a g = some (a', g') ∧ IsoBy φ g g') ∧
      ∃ b' g' φ, mountStencil b (getStencil a g) = some (b', g') ∧ IsoBy φ g g') ↔
      Fits a b g := by
  constructor
  · rintro ⟨⟨a', g', φ, hg', hiso⟩, b', s', -, hs', -⟩
    have hroom := compact_room h ha hpos hg'
    obtain ⟨g₁, hg₁, hc⟩ := compact_some h ha hroom
    rw [hg', Option.some.injEq, Prod.mk.injEq] at hg₁
    obtain ⟨-, rfl⟩ := hg₁
    refine ⟨hroom, fun n hn o ho => ?_, ?_⟩
    · exact (h.narrow_iff (.output hn ho)).1 (hc.narrow h hiso n hn o ho)
    · refine (mountStencil_iff (s := getStencil a g) hb).1 ⟨b', ?_⟩
      rw [hs', ← mountStencil_graph hs']
  · intro hfit
    obtain ⟨g', hg', hc⟩ := compact_some h ha hfit.room
    obtain ⟨b', hb'⟩ := (mountStencil_iff (s := getStencil a g) hb).2 hfit.mount
    refine ⟨⟨a, g', g.newPlace, hg', hc.isoBy h fun n hn o ho => ?_⟩,
      b', _, id, hb', isoBy_ofStencil h⟩
    exact (h.narrow_iff (.output hn ho)).2 (hfit.narrow n hn o ho)

/-- A procedure that returns `7`: the `Entry` is node `1`, the constant node `8`, the `Return` node
`36` and the `End` node `45`. -/
def returnSeven : List Edit :=
  [.addRaw .entry .void .i8 [0] [] 0, .addRaw .cInt .i64 .i8 [7, 0] [] 0,
    .addRaw .return_ .void .i8 [0] [1, 8] 0, .addRaw .end_ .void .i8 [] [36] 0]

/-- The graph, in an arena that is filled up to `pos`: behind its nodes are deleted ones. -/
def returnSevenIn (g : Graph) (pos : ℕ) : Graph := { g with pos := pos, entry := 1, end_ := 49 }

theorem whole_returnSeven (h : edits 4 returnSeven (empty false) = some g) {pos : ℕ}
    (hpos : 58 ≤ pos) : (g.returnSevenIn pos).Whole := by
  have hrun : (edits 4 returnSeven (empty false)).map (fun g => (g.pos,
      decide ((g.getNode 1).itype = .entry ∧ (g.getNode 49).itype = .end_),
      decide (∀ n < g.pos, n ≠ 0 → g.live n = true →
        n + g.nodeWords (g.getNode n).extra ≤ 58))) = some (58, true, true) := by
    decide
  rw [h] at hrun
  simp only [Option.map_some, Option.some.injEq, Prod.mk.injEq, decide_eq_true_eq] at hrun
  obtain ⟨hlen, ⟨hentry, hend⟩, hinside⟩ := hrun
  have hsafe : ∀ e ∈ returnSeven, (∀ g, e.Safe g) ∧ ∀ g, e.InternSafe g := by
    intro e he
    simp only [returnSeven, List.mem_cons, List.not_mem_nil, or_false] at he
    rcases he with rfl | rfl | rfl | rfl <;> exact ⟨fun _ => trivial, fun _ => trivial⟩
  have hgood : g.Good :=
    (Reachable.edits (fun e he => (hsafe e he).1) (.empty false) h).good
  have hcons : g.Consed :=
    (InternReachable.edits (fun e he => (hsafe e he).2) (.empty false) h).consed
  have hfresh : ∀ x, pos ≤ x → g.getNode x = .dead := fun x hx =>
    hcons.fresh x ((hlen.le.trans hpos).trans hx)
  refine ⟨hgood.congr (hlen.le.trans hpos) rfl, ⟨hcons.table, by simp only [returnSevenIn]; omega,
    hfresh⟩, hentry, hend, fun n hn hl => ?_⟩
  by_cases hlt : n < g.pos
  · exact (hinside n hlt hn hl).trans hpos
  · have hdead : g.live n = false := by
      rw [Proc.live, hcons.fresh n (not_lt.1 hlt)]
      rfl
    cases hdead.symm.trans hl

/-- The arena after the first chunk has been committed. -/
def oneChunk : Arena where
  ptr := 0
  commited := 2 ^ 18
  reserved := 2 ^ 24
  mapped x := decide (x < 2 ^ 18)

theorem plain_oneChunk : oneChunk.Plain := by
  intro x
  simp [oneChunk, Arena.usable]

/-- The procedure goes through both. -/
theorem compact_mount_isoBy_returnSeven :
    ∃ g, edits 4 returnSeven (empty false) = some g ∧
      (∃ a' g' φ, compact oneChunk (g.returnSevenIn 58) = some (a', g') ∧
        IsoBy φ (g.returnSevenIn 58) g') ∧
      ∃ b' g' φ, mountStencil none (getStencil oneChunk (g.returnSevenIn 58)) = some (b', g') ∧
        IsoBy φ (g.returnSevenIn 58) g' := by
  have hrun : (edits 4 returnSeven (empty false)).map (fun g => let g := g.returnSevenIn 58
      (g.compactedWords, decide (∀ n ∈ collectNodes g.toProc, ∀ o ∈ (g.getNode n).outs,
        o.id = 0 ∨ 1 + g.wordsBefore o.id < 2 ^ 22))) = some (56, true) := by
    decide
  obtain ⟨g, hg, hvals⟩ := Option.map_eq_some_iff.1 hrun
  simp only [Prod.mk.injEq, decide_eq_true_eq] at hvals
  obtain ⟨hwords, houts⟩ := hvals
  have h := whole_returnSeven hg le_rfl
  have hfit : Fits oneChunk none (g.returnSevenIn 58) := by
    refine ⟨?_, fun n hn => houts n ((mem_collectNodes_iff h.wellLinked).2 hn), by simp⟩
    rw [hwords]
    exact (by decide : 58 + 56 ≤ oneChunk.usable)
  exact ⟨g, hg, (compact_mount_isoBy_iff h plain_oneChunk (by decide : 58 ≤ oneChunk.usable)
    fun c hc => absurd hc (Option.not_mem_none c)).2 hfit⟩

/-- In an arena that is nearly full the copy is written to words that nobody has committed. -/
theorem compact_writes_behind :
    ∃ g, g.Whole ∧ oneChunk.Plain ∧ g.pos ≤ oneChunk.usable ∧ compact oneChunk g = none := by
  have hrun : (edits 4 returnSeven (empty false)).map (fun g =>
      (g.returnSevenIn (2 ^ 18 - 50)).compactedWords) = some 56 := by
    decide
  obtain ⟨g, hg, hwords⟩ := Option.map_eq_some_iff.1 hrun
  have h := whole_returnSeven hg (by decide : 58 ≤ 2 ^ 18 - 50)
  have hpos : (g.returnSevenIn (2 ^ 18 - 50)).pos ≤ oneChunk.usable :=
    (by decide : 2 ^ 18 - 50 ≤ oneChunk.usable)
  refine ⟨_, h, plain_oneChunk, hpos, ?_⟩
  rw [Option.eq_none_iff_forall_ne_some]
  intro r hr
  have hroom := compact_room h plain_oneChunk hpos hr
  rw [hwords] at hroom
  exact (by decide : ¬ 2 ^ 18 - 50 + 56 ≤ oneChunk.usable) hroom

end Graph

end OdinSon
