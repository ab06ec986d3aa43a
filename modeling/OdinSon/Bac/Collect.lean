import OdinSon.Bac.Graph
import OdinSon.Lib.Worklist

/-!
# Collecting the nodes of a graph

`collect_nodes` (`bac/graph.odin`) finds what can be reached from the pinned nodes over inputs and
outputs.  In a graph whose links are whole it finds everything that its nodes name.
-/

namespace OdinSon

/-- `worklist_add` for the nodes of a list, one after another. -/
def worklistAdd (prc : Proc) (queue ids : List NodeId) : List NodeId :=
  Worklist.pushAll prc.live queue ids

/-- The nodes that one round of `collect_nodes` looks at. -/
def neighbours (node : Node) : List NodeId := node.inps ++ node.outs.map NodeOutput.id

/-- `collect_nodes`; the arena has no more than `pos` nodes. -/
def collectNodes (prc : Proc) : List NodeId :=
  Worklist.closure prc.live (fun n => neighbours (prc.getNode n)) prc.pos 1
    (worklistAdd prc [] [0, prc.entry, prc.end_])

/-- What `prc` keeps: the nil node, the pinned nodes, and what the nodes it keeps name. -/
inductive Proc.Kept (prc : Proc) : NodeId → Prop
  | nil : Kept prc 0
  | entry : Kept prc prc.entry
  | end_ : Kept prc prc.end_
  | input {n m : NodeId} : Kept prc n → m ∈ (prc.getNode n).inps → Kept prc m
  | output {n : NodeId} {o : NodeOutput} : Kept prc n → o ∈ (prc.getNode n).outs → Kept prc o.id

/-- The links of a graph: live nodes use live nodes, and are listed by what they use. -/
structure Proc.WellLinked (prc : Proc) : Prop where
  dead_of_le : ∀ id, prc.pos ≤ id → prc.live id = false
  entry_live : prc.live prc.entry = true
  end_live : prc.live prc.end_ = true
  inps_live : ∀ id, prc.live id = true → ∀ inp ∈ (prc.getNode id).inps, prc.live inp = true
  outs_live : ∀ id, prc.live id = true → ∀ out ∈ (prc.getNode id).outs, prc.live out.id = true
  /-- A use of a node other than nil is among its outputs. -/
  mem_outs : ∀ id, prc.live id = true → ∀ inp ∈ (prc.getNode id).inps, inp ≠ 0 →
    id ∈ (prc.getNode inp).outs.map NodeOutput.id

section Collect

variable {prc : Proc}

theorem nodup_collectNodes : (collectNodes prc).Nodup :=
  Worklist.nodup_closure (Worklist.nodup_pushAll List.nodup_nil)

theorem live_of_mem_collectNodes {id : NodeId} (h : id ∈ collectNodes prc) :
    prc.live id = true := by
  refine Worklist.live_closure (fun z hz => ?_) id h
  rcases Worklist.mem_pushAll.1 hz with hz | hz
  · cases hz
  · exact hz.2

theorem zero_mem_collectNodes : 0 ∈ collectNodes prc :=
  Worklist.subset_closure 0 (Worklist.mem_pushAll.2 (.inr ⟨List.mem_cons_self, rfl⟩))

/-- The collected nodes are closed under inputs and outputs. -/
theorem neighbours_mem_collectNodes (hK : prc.WellLinked) {id id' : NodeId}
    (h : id ∈ collectNodes prc) (h' : id' ∈ neighbours (prc.getNode id)) :
    id' ∈ collectNodes prc := by
  have hlive : prc.live id' = true := by
    have hl := live_of_mem_collectNodes h
    rcases List.mem_append.1 h' with h' | h'
    · exact hK.inps_live id hl id' h'
    · obtain ⟨o, ho, rfl⟩ := List.mem_map.1 h'
      exact hK.outs_live id hl o ho
  have hstart : ∀ z ∈ worklistAdd prc [] [0, prc.entry, prc.end_], prc.live z = true := by
    intro z hz
    rcases Worklist.mem_pushAll.1 hz with hz | hz
    · cases hz
    · exact hz.2
  refine Worklist.closure_closed (fun l hnd hl => ?_) (Worklist.nodup_pushAll List.nodup_nil)
    hstart (fun j hj z hz y hy _ => ?_) id h id' h' hlive
  · have hsub : l.toFinset ⊆ Finset.range prc.pos := by
      intro z hz
      rw [Finset.mem_range]
      by_contra hc
      have := hK.dead_of_le z (not_lt.1 hc)
      rw [hl z (List.mem_toFinset.1 hz)] at this
      cases this
    have hcard := Finset.card_le_card hsub
    rw [List.toFinset_card_of_nodup hnd, Finset.card_range] at hcard
    omega
  · -- the nil node comes first and has no neighbours
    obtain rfl : j = 0 := by omega
    have hz0 : z = 0 := by
      obtain ⟨t, ht⟩ : [0] <+: Worklist.pushAll prc.live [] [0, prc.entry, prc.end_] :=
        Worklist.pushAll_extends (q := [0]) (l := [prc.entry, prc.end_])
      rw [← ht] at hz
      simpa using hz.symm
    rw [hz0] at hy
    cases hy

/-- The nil node is collected first. -/
theorem collectNodes_eq_cons : ∃ ns, collectNodes prc = 0 :: ns := by
  have hpre : [0] <+: collectNodes prc :=
    (Worklist.pushAll_extends (q := [0]) (l := [prc.entry, prc.end_])).trans
      Worklist.closure_extends
  obtain ⟨ns, hns⟩ := hpre
  exact ⟨ns, hns.symm⟩

/-- **What is collected is what is kept.** -/
theorem mem_collectNodes_iff (hK : prc.WellLinked) {id : NodeId} :
    id ∈ collectNodes prc ↔ prc.Kept id := by
  constructor
  · refine Worklist.closure_induction (fun z hz => ?_) (fun z hz y hy _ => ?_) id
    · rcases Worklist.mem_pushAll.1 hz with hz | ⟨hz, -⟩
      · cases hz
      · simp only [List.mem_cons, List.not_mem_nil, or_false] at hz
        rcases hz with rfl | rfl | rfl
        · exact .nil
        · exact .entry
        · exact .end_
    · rcases List.mem_append.1 hy with hy | hy
      · exact .input hz hy
      · obtain ⟨o, ho, rfl⟩ := List.mem_map.1 hy
        exact .output hz ho
  · have hstart {x : NodeId} (hx : x ∈ [0, prc.entry, prc.end_]) (hlive : prc.live x = true) :
        x ∈ collectNodes prc :=
      Worklist.subset_closure x (Worklist.mem_pushAll.2 (.inr ⟨hx, hlive⟩))
    intro h
    induction h with
    | nil => exact zero_mem_collectNodes
    | entry => exact hstart (by simp) hK.entry_live
    | end_ => exact hstart (by simp) hK.end_live
    | input _ hm ih => exact neighbours_mem_collectNodes hK ih (List.mem_append_left _ hm)
    | output _ ho ih =>
      exact neighbours_mem_collectNodes hK ih (List.mem_append_right _ (List.mem_map_of_mem ho))

end Collect

end OdinSon
