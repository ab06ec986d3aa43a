import Mathlib.Data.List.Nodup
import OdinSon.Utils.BitArr

/-!
# The worklist of the passes

The passes keep the nodes that they still have to look at in a queue with an array of bits, one for
each number that a node can have (`bac/graph.odin`).  A node whose bit is set is not added again.
Nodes die while they are in the queue, and `collect_nodes` numbers the nodes that it finds anew.

## Main definitions

* `State`, with `worklistAdd`, `worklistNext` and `collectNodes`.
* `State.Exact` : the live nodes that have been added and not returned are in the queue, once each.
* `State.Fresh` : no node is added whose number a node had that died in the queue.

## Main results

* `State.Inv.step` : what one operation keeps, and when it loses a node.
* `State.run_loses_none_iff` : the runs that lose no node.
-/

namespace OdinSon.WorkQueue

open BitArr

/-- What is read of a node. -/
structure Node where
  /-- The node has been removed from the graph. -/
  dead : Bool
  /-- The number of the node. -/
  gvn : ℕ

/-- The nodes and a worklist. -/
structure State where
  /-- The nodes. -/
  nodes : List Node
  /-- The number of the next node. -/
  gvn : ℕ
  /-- The nodes that are queued. -/
  queue : List ℕ
  /-- The numbers of the nodes that are queued. -/
  inQueue : BitSet
  /-- Of the model only: the nodes that were added while live and not returned since. -/
  waiting : Finset ℕ
  /-- Of the model only: the numbers of the nodes that have died in the queue since the last
  `collect_nodes`. -/
  stale : Finset ℕ

namespace State

/-- A live node and its number. -/
def Live (s : State) (id g : ℕ) : Prop := s.nodes[id]? = some ⟨false, g⟩

/-- `worklist_init`. -/
def worklistInit (nodes : List Node) (gvn cap : ℕ) : State where
  nodes := nodes
  gvn := gvn
  queue := []
  inQueue := init cap
  waiting := ∅
  stale := ∅

/-- The bits, with room for a number. -/
def roomFor (inQueue : BitSet) (g : ℕ) : BitSet :=
  if inQueue.bitLength ≤ g then inQueue.resize ((g + 1) * 2) else inQueue

/-- `worklist_add`. -/
def worklistAdd (s : State) (id : ℕ) : Option State := do
  let node ← s.nodes[id]?
  if node.dead then return s
  let (inQueue, changed) ← (roomFor s.inQueue node.gvn).set node.gvn true
  let s := { s with inQueue, waiting := insert id s.waiting }
  if changed then return { s with queue := s.queue ++ [id] } else return s

/-- The loop of `worklist_next`. -/
def nextFrom (s : State) : List ℕ → Option (Option ℕ × State)
  | [] => some (none, { s with queue := [] })
  | id :: queue => do
    let node ← s.nodes[id]?
    if node.dead then nextFrom s queue
    else
      let (inQueue, _) ← s.inQueue.set node.gvn false
      return (some id, { s with queue, inQueue, waiting := s.waiting.erase id })

/-- `worklist_next`. -/
def worklistNext (s : State) : Option (Option ℕ × State) := nextFrom s s.queue

/-- What so many calls of `worklist_next` return. -/
def calls : ℕ → State → Option (List ℕ × State)
  | 0, s => some ([], s)
  | n + 1, s => do
    let (r, s) ← s.worklistNext
    let (l, s) ← calls n s
    return (r.toList ++ l, s)

/-- A new node gets the next number (`init_counts`). -/
def create (s : State) : State :=
  { s with nodes := s.nodes ++ [⟨false, s.gvn⟩], gvn := s.gvn + 1 }

/-- What `delete_node` does to a node without outputs. -/
def delete (s : State) (id : ℕ) : Option State := do
  let node ← s.nodes[id]?
  if id = 0 ∨ node.dead then return s
  return { s with
    nodes := s.nodes.set id ⟨true, 0⟩
    stale := if id ∈ s.queue then insert node.gvn s.stale else s.stale }

/-- Add some nodes. -/
def addAll (s : State) : List ℕ → Option State
  | [] => some s
  | id :: ids => (s.worklistAdd id).bind fun s => s.addAll ids

/-- The loop of `collect_nodes`: add the inputs and outputs of the nodes from `i` on. -/
def collectFrom (links : ℕ → List ℕ) : ℕ → ℕ → State → Option State
  | 0, _, s => some s
  | rest + 1, i, s =>
    match s.queue[i]? with
    | none => some s
    | some id => (s.addAll (links id)).bind (collectFrom links rest (i + 1))

/-- Number the nodes in the order of a list. -/
def renumber : List ℕ → ℕ → List Node → List Node
  | [], _, nodes => nodes
  | id :: ids, i, nodes => renumber ids (i + 1) (nodes.modify id fun node => { node with gvn := i })

/-- `collect_nodes`.  There are no more nodes in the queue than there are at all, so that many steps
of the loop are enough (`Inv.length_queue_le`). -/
def collectNodes (s : State) (entry stop : ℕ) (links : ℕ → List ℕ) : Option State := do
  guard (s.queue = [])
  let s ← s.addAll [0, entry, stop]
  guard (s.queue ≠ [])
  let s ← collectFrom links s.nodes.length 1 s
  let inQueue ← (s.inQueue.setAll false).setRange 0 s.queue.length
  guard (s.queue.head? = some 0)
  return { s with
    gvn := s.queue.length
    inQueue
    nodes := renumber s.queue.tail 1 s.nodes
    stale := ∅ }

end State

/-- What a pass does with the nodes and the worklist. -/
inductive Op where
  | add (id : ℕ)
  | next
  | create
  | delete (id : ℕ)
  | collect (entry stop : ℕ) (links : ℕ → List ℕ)

namespace State

/-- One operation. -/
def step (s : State) : Op → Option State
  | .add id => s.worklistAdd id
  | .next => s.worklistNext.map Prod.snd
  | .create => some s.create
  | .delete id => s.delete id
  | .collect entry stop links => s.collectNodes entry stop links

/-- A sequence of operations. -/
def run : State → List Op → Option State
  | s, [] => some s
  | s, op :: ops => (s.step op).bind fun s => s.run ops

/-- Distinct live nodes have distinct numbers. -/
def Distinct (s : State) : Prop := ∀ g id id', s.Live id g → s.Live id' g → id = id'

/-- **No node is lost or queued twice.**  A live node that has been added and not returned is in the
queue once, with its bit set; calls of `worklist_next` return all of these, only live nodes, and
none twice. -/
structure Exact (s : State) : Prop where
  count : ∀ id ∈ s.waiting, ∀ g, s.Live id g → s.queue.count id = 1 ∧ s.inQueue.bit g = true
  calls : ∃ l t, s.calls s.queue.length = some (l, t) ∧ l.Nodup ∧ (∀ id ∈ l, ∃ g, s.Live id g) ∧
    ∀ id ∈ s.waiting, ∀ g, s.Live id g → id ∈ l

/-- The nodes that `collect_nodes` comes to: the inputs and outputs of node 0 are not looked at. -/
inductive Found (s : State) (entry stop : ℕ) (links : ℕ → List ℕ) : ℕ → Prop
  | zero : Found s entry stop links 0
  | entry : Found s entry stop links entry
  | stop : Found s entry stop links stop
  | link {id g id' : ℕ} : Found s entry stop links id → id ≠ 0 → s.Live id g → id' ∈ links id →
      Found s entry stop links id'

/-- No node is added whose number a node had that has died in the queue. -/
def FreshOp (s : State) : Op → Prop
  | .add id => ∀ g, s.Live id g → g ∉ s.stale
  | .collect entry stop links =>
    ∀ id g, Found s entry stop links id → s.Live id g → g ∉ s.stale
  | _ => True

/-- No operation of a run adds such a node. -/
def Fresh : State → List Op → Prop
  | _, [] => True
  | s, op :: ops => ∀ t, s.step op = some t → s.FreshOp op ∧ Fresh t ops

variable {s t u : State} {id g : ℕ} {op : Op} {ops : List Op}

/-! ### What always holds -/

/-- The bits are set for the live nodes in the queue, and for those that have died there. -/
structure Inv (s : State) : Prop where
  nil : s.Live 0 0
  nodup : s.queue.Nodup
  lt : ∀ id ∈ s.queue, id < s.nodes.length
  lt_waiting : ∀ id ∈ s.waiting, id < s.nodes.length
  bits : ∃ e, s.inQueue.Holds e ∧
    ∀ g, g ∈ e ↔ g ∈ s.stale ∨ ∃ id ∈ s.queue, s.Live id g
  stale : ∀ g ∈ s.stale, ∀ id ∈ s.queue, ¬ s.Live id g
  zero : 0 ∉ s.stale

/-- No node that has been added is missing. -/
def Kept (s : State) : Prop := ∀ id ∈ s.waiting, ∀ g, s.Live id g → id ∈ s.queue

theorem Live.lt (h : s.Live id g) : id < s.nodes.length := by
  unfold Live at h
  exact (List.getElem?_eq_some_iff.1 h).1

theorem Live.unique {g' : ℕ} (h : s.Live id g) (h' : s.Live id g') : g = g' := by
  unfold Live at h h'
  rw [h] at h'
  exact congrArg Node.gvn (Option.some.inj h')

theorem roomFor_holds {b : BitSet} {e : Finset ℕ} (h : b.Holds e) (g : ℕ) :
    (roomFor b g).Holds e := by
  unfold roomFor
  split_ifs with hle
  · exact h.resize (by omega)
  · exact h

/-- **What `worklist_add` does** to a live node: it is put into the queue, unless it is there or a
node with its number has died there. -/
theorem Inv.worklistAdd (hs : s.Inv) (hd : s.Distinct) (h : s.worklistAdd id = some t) :
    t.Inv ∧ t.nodes = s.nodes ∧ t.stale = s.stale ∧
      ((∀ g, ¬ s.Live id g) ∧ t = s ∨
        ∃ g, s.Live id g ∧ t.waiting = insert id s.waiting ∧
          t.queue = if g ∈ s.stale ∨ id ∈ s.queue then s.queue else s.queue ++ [id]) := by
  simp only [State.worklistAdd, Option.bind_eq_bind, Option.bind_eq_some_iff, Option.pure_def] at h
  obtain ⟨⟨dead, g⟩, hnode, h⟩ := h
  cases dead with
  | true =>
    rw [if_pos rfl] at h
    obtain rfl := Option.some.inj h
    refine ⟨hs, rfl, rfl, .inl ⟨fun g' hg' => ?_, rfl⟩⟩
    have heq := hnode.symm.trans hg'
    cases heq
  | false =>
    rw [if_neg Bool.false_ne_true, Option.bind_eq_some_iff] at h
    obtain ⟨⟨b, changed⟩, hset, h⟩ := h
    have hlive : s.Live id g := hnode
    obtain ⟨e, hholds, he⟩ := hs.bits
    obtain ⟨hb, -, hchanged⟩ := (roomFor_holds hholds g).set hset
    -- the bit of `g` is set by this node, or by one that has died in the queue
    have hmem : g ∈ e ↔ g ∈ s.stale ∨ id ∈ s.queue := by
      rw [he]
      refine or_congr_right ⟨?_, fun hid => ⟨id, hid, hlive⟩⟩
      rintro ⟨id', hid', hlive'⟩
      rwa [hd g id id' hlive hlive']
    have hwaiting (a : ℕ) (ha : a ∈ insert id s.waiting) : a < s.nodes.length := by
      rcases Finset.mem_insert.1 ha with rfl | ha
      · exact hlive.lt
      · exact hs.lt_waiting a ha
    rw [if_pos rfl] at hb
    by_cases hge : g ∈ e
    · -- the bit is set already
      rw [decide_eq_true hge] at hchanged
      dsimp only at h
      rw [hchanged, if_neg (by decide)] at h
      obtain rfl := Option.some.inj h
      rw [Finset.insert_eq_of_mem hge] at hb
      exact ⟨⟨hs.nil, hs.nodup, hs.lt, hwaiting, ⟨e, hb, he⟩, hs.stale, hs.zero⟩, rfl,
        rfl, .inr ⟨g, hlive, rfl, (if_pos (hmem.1 hge)).symm⟩⟩
    · rw [decide_eq_false hge] at hchanged
      dsimp only at h
      rw [hchanged, if_pos (by decide)] at h
      obtain rfl := Option.some.inj h
      rw [hmem, not_or] at hge
      -- the bit is set now and the node enters the queue, so both sides gain `g`
      refine ⟨⟨hs.nil, ?_, ?_, hwaiting, ⟨insert g e, hb, fun g' => ?_⟩, ?_, hs.zero⟩, rfl,
        rfl, .inr ⟨g, hlive, rfl, (if_neg (not_or.2 hge)).symm⟩⟩
      · exact List.nodup_append.2 ⟨hs.nodup, List.nodup_singleton id, fun a ha b hb' heq =>
          hge.2 (by rwa [← List.mem_singleton.1 hb', ← heq])⟩
      · intro a ha
        rcases List.mem_append.1 ha with ha | ha
        · exact hs.lt a ha
        · rw [List.mem_singleton.1 ha]
          exact hlive.lt
      · rw [Finset.mem_insert, he]
        constructor
        · rintro (rfl | hg' | ⟨a, ha, hlive'⟩)
          · exact .inr ⟨id, List.mem_append_right _ (List.mem_singleton_self id), hlive⟩
          · exact .inl hg'
          · exact .inr ⟨a, List.mem_append_left _ ha, hlive'⟩
        · rintro (hg' | ⟨a, ha, hlive'⟩)
          · exact .inr (.inl hg')
          · rcases List.mem_append.1 ha with ha | ha
            · exact .inr (.inr ⟨a, ha, hlive'⟩)
            · rw [List.mem_singleton.1 ha] at hlive'
              exact .inl (Live.unique hlive' hlive)
      · intro g' hg' a ha hlive'
        rcases List.mem_append.1 ha with ha | ha
        · exact hs.stale g' hg' a ha hlive'
        · rw [List.mem_singleton.1 ha] at hlive'
          exact hge.1 (Live.unique hlive hlive' ▸ hg')

/-- Two states have the same nodes. -/
theorem live_congr (h : t.nodes = s.nodes) (id g : ℕ) : t.Live id g ↔ s.Live id g := by
  rw [Live, Live, h]

theorem distinct_congr (h : t.nodes = s.nodes) : t.Distinct ↔ s.Distinct := by
  simp only [Distinct, live_congr h]

/-! ### Taking nodes out -/

/-- Is the node live? -/
def isLive (s : State) (id : ℕ) : Bool := s.nodes[id]?.any fun node => !node.dead

/-- The live nodes in the queue. -/
def liveQueue (s : State) : List ℕ := s.queue.filter s.isLive

theorem isLive_eq_true : s.isLive id = true ↔ ∃ g, s.Live id g := by
  rw [isLive, Option.any_eq_true]
  constructor
  · rintro ⟨⟨dead, g⟩, hnode, hdead⟩
    cases dead with
    | true => cases hdead
    | false => exact ⟨g, hnode⟩
  · rintro ⟨g, hg⟩
    exact ⟨_, hg, rfl⟩

theorem mem_liveQueue : id ∈ s.liveQueue ↔ id ∈ s.queue ∧ ∃ g, s.Live id g := by
  rw [liveQueue, List.mem_filter, isLive_eq_true]

theorem nextFrom_congr (s : State) (q : List ℕ) :
    ∀ queue, s.nextFrom queue = nextFrom { s with queue := q } queue := by
  intro queue
  induction queue with
  | nil => rfl
  | cons id queue ih =>
    rw [nextFrom, nextFrom, ih]

/-- A dead node at the front of the queue. -/
theorem Inv.tail_of_dead {queue : List ℕ} (hs : s.Inv) (hq : s.queue = id :: queue)
    (hdead : ∀ g, ¬ s.Live id g) : Inv { s with queue := queue } := by
  obtain ⟨e, hholds, he⟩ := hs.bits
  have hnodup := hs.nodup
  rw [hq, List.nodup_cons] at hnodup
  have hsub {a : ℕ} (ha : a ∈ queue) : a ∈ s.queue := hq ▸ List.mem_cons_of_mem id ha
  refine ⟨hs.nil, hnodup.2, fun a ha => hs.lt a (hsub ha), hs.lt_waiting, ⟨e, hholds, fun g => ?_⟩,
    fun g hg a ha => hs.stale g hg a (hsub ha), hs.zero⟩
  refine (he g).trans (or_congr_right ⟨?_, fun ⟨a, ha, hlive⟩ => ⟨a, hsub ha, hlive⟩⟩)
  rintro ⟨a, ha, hlive⟩
  rw [hq, List.mem_cons] at ha
  rcases ha with rfl | ha
  · exact absurd hlive (hdead g)
  · exact ⟨a, ha, hlive⟩

/-- A live node at the front of the queue. -/
theorem Inv.tail_of_live {queue : List ℕ} {b : BitSet} {changed : Bool} (hs : s.Inv)
    (hd : s.Distinct) (hq : s.queue = id :: queue) (hlive : s.Live id g)
    (hset : s.inQueue.set g false = some (b, changed)) :
    Inv { s with queue := queue, inQueue := b, waiting := s.waiting.erase id } := by
  obtain ⟨e, hholds, he⟩ := hs.bits
  obtain ⟨hb, -, -⟩ := hholds.set hset
  rw [if_neg Bool.false_ne_true] at hb
  have hnodup := hs.nodup
  rw [hq, List.nodup_cons] at hnodup
  have hsub {a : ℕ} (ha : a ∈ queue) : a ∈ s.queue := hq ▸ List.mem_cons_of_mem id ha
  have hmem : id ∈ s.queue := hq ▸ List.mem_cons_self
  refine ⟨hs.nil, hnodup.2, fun a ha => hs.lt a (hsub ha),
    fun a ha => hs.lt_waiting a (Finset.mem_of_mem_erase ha), ⟨e.erase g, hb, fun g' => ?_⟩,
    fun g hg a ha => hs.stale g hg a (hsub ha), hs.zero⟩
  rw [Finset.mem_erase, he]
  constructor
  · rintro ⟨hne, hg' | ⟨a, ha, hlive'⟩⟩
    · exact .inl hg'
    · rw [hq, List.mem_cons] at ha
      rcases ha with rfl | ha
      · exact absurd (Live.unique hlive' hlive) hne
      · exact .inr ⟨a, ha, hlive'⟩
  · rintro (hg' | ⟨a, ha, hlive'⟩)
    · refine ⟨?_, .inl hg'⟩
      rintro rfl
      exact hs.stale g' hg' id hmem hlive
    · refine ⟨?_, .inr ⟨a, hsub ha, hlive'⟩⟩
      rintro rfl
      exact hnodup.1 (hd g' id a hlive hlive' ▸ ha)

/-- **What `worklist_next` does**: it returns the first live node of the queue, and forgets it. -/
theorem Inv.worklistNext (hs : s.Inv) (hd : s.Distinct) :
    ∃ r t, s.worklistNext = some (r, t) ∧ t.Inv ∧ t.nodes = s.nodes ∧ t.stale = s.stale ∧
      r = s.liveQueue.head? ∧ t.liveQueue = s.liveQueue.tail ∧
      t.waiting = r.elim s.waiting s.waiting.erase ∧ t.queue.length ≤ s.queue.length - 1 := by
  obtain ⟨queue, hq⟩ : ∃ queue, s.queue = queue := ⟨_, rfl⟩
  rw [State.worklistNext, hq]
  induction queue generalizing s with
  | nil =>
    refine ⟨none, _, rfl, ⟨hs.nil, List.nodup_nil, fun _ h => absurd h List.not_mem_nil,
      hs.lt_waiting, ?_, ?_, hs.zero⟩, rfl, rfl, ?_, ?_, rfl, le_rfl⟩
    · have hbits := hs.bits
      rwa [hq] at hbits
    · exact fun _ _ _ h => absurd h List.not_mem_nil
    · rw [liveQueue, hq]
      rfl
    · rw [show s.liveQueue = [] from (congrArg _ hq).trans List.filter_nil]
      rfl
  | cons id queue ih =>
    have hid : id < s.nodes.length := hs.lt id (hq ▸ List.mem_cons_self)
    obtain ⟨⟨dead, g⟩, hnode⟩ : ∃ node, s.nodes[id]? = some node :=
      ⟨_, List.getElem?_eq_getElem hid⟩
    rw [nextFrom, hnode]
    cases dead with
    | true =>
      have hdead (g' : ℕ) : ¬ s.Live id g' := by
        intro hlive
        cases hnode.symm.trans hlive
      have hs' := hs.tail_of_dead hq hdead
      obtain ⟨r, t, hnext, ht, hnodes, hstale, hr, hlive, hwaiting, hlen⟩ := ih hs' hd rfl
      -- a dead node is passed over, and its bit stays set
      have hskip : liveQueue { s with queue := queue } = s.liveQueue := by
        rw [liveQueue, liveQueue, hq, List.filter_cons_of_neg]
        · rfl
        · rw [isLive_eq_true]
          rintro ⟨g', hg'⟩
          exact hdead g' hg'
      rw [← nextFrom_congr] at hnext
      rw [hskip] at hr hlive
      refine ⟨r, t, hnext, ht, hnodes, hstale, hr, hlive, hwaiting, ?_⟩
      show t.queue.length ≤ queue.length
      exact hlen.trans (Nat.sub_le _ _)
    | false =>
      have hlive : s.Live id g := hnode
      obtain ⟨e, hholds, he⟩ := hs.bits
      -- the bit of a live node in the queue is set, so it is in range
      have hlt : g < s.inQueue.bitLength :=
        hholds.lt ((he g).2 (.inr ⟨id, hq ▸ List.mem_cons_self, hlive⟩))
      obtain ⟨⟨b, changed⟩, hset⟩ : ∃ p, s.inQueue.set g false = some p := by
        rw [BitSet.set, guard, if_pos hlt]
        exact ⟨_, rfl⟩
      have hcons : s.liveQueue = id :: queue.filter s.isLive := by
        rw [liveQueue, hq, List.filter_cons_of_pos (isLive_eq_true.2 ⟨g, hlive⟩)]
      refine ⟨some id, _, ?_, hs.tail_of_live hd hq hlive hset, rfl, rfl, ?_, ?_, rfl, le_rfl⟩
      · show (s.inQueue.set g false).bind _ = _
        rw [hset]
        rfl
      · rw [hcons]
        rfl
      · rw [hcons]
        rfl

/-- **Calls return the live nodes of the queue**, in their order. -/
theorem Inv.calls (hs : s.Inv) (hd : s.Distinct) (n : ℕ) :
    ∃ t, s.calls n = some (s.liveQueue.take n, t) := by
  induction n generalizing s with
  | zero => exact ⟨s, rfl⟩
  | succ n ih =>
    obtain ⟨r, t, hnext, ht, hnodes, -, hr, hlive, -, -⟩ := hs.worklistNext hd
    obtain ⟨u, hu⟩ := ih ht ((distinct_congr hnodes).2 hd)
    refine ⟨u, ?_⟩
    rw [State.calls, hnext]
    show (t.calls n).bind _ = _
    rw [hu, hlive, hr]
    cases s.liveQueue with
    | nil =>
      rw [List.tail_nil, List.take_nil, List.take_nil]
      rfl
    | cons id l => rfl

/-- With the invariant, nothing is missing exactly when the worklist is exact. -/
theorem Inv.exact_iff (hs : s.Inv) (hd : s.Distinct) : s.Exact ↔ s.Kept := by
  constructor
  · intro h id hid g hlive
    exact List.count_pos_iff.1 (by rw [(h.count id hid g hlive).1]; exact Nat.one_pos)
  · intro h
    obtain ⟨e, hholds, he⟩ := hs.bits
    obtain ⟨t, ht⟩ := hs.calls hd s.queue.length
    have hlen : s.liveQueue.length ≤ s.queue.length := List.length_filter_le _ _
    rw [List.take_of_length_le hlen] at ht
    refine ⟨fun id hid g hlive => ⟨?_, ?_⟩, s.liveQueue, t, ht, hs.nodup.filter _, ?_, ?_⟩
    · exact List.count_eq_one_of_mem hs.nodup (h id hid g hlive)
    · rw [hholds.bit_eq]
      exact decide_eq_true ((he g).2 (.inr ⟨id, h id hid g hlive, hlive⟩))
    · exact fun id hid => (mem_liveQueue.1 hid).2
    · exact fun id hid g hlive => mem_liveQueue.2 ⟨h id hid g hlive, g, hlive⟩

/-! ### Adding many nodes -/

/-- What adding some nodes does. -/
structure Adds (p : ℕ → Prop) (s t : State) : Prop where
  inv : t.Inv
  nodes : t.nodes = s.nodes
  stale : t.stale = s.stale
  queue : s.queue <+: t.queue
  waiting : s.waiting ⊆ t.waiting
  mem_queue : ∀ id ∈ t.queue, id ∈ s.queue ∨ p id ∧ ∃ g, s.Live id g
  mem_waiting : ∀ id ∈ t.waiting, id ∈ s.waiting ∨ p id
  added : ∀ id, p id → ∀ g, s.Live id g → id ∈ t.waiting ∧ (g ∉ s.stale → id ∈ t.queue)

variable {p q : ℕ → Prop}

theorem Adds.refl (hs : s.Inv) (hp : ∀ id, ¬ p id) : Adds p s s :=
  ⟨hs, rfl, rfl, List.prefix_rfl, subset_rfl, fun _ h => .inl h, fun _ h => .inl h,
    fun id hid => absurd hid (hp id)⟩

theorem Adds.trans (h : Adds p s t) (h' : Adds q t u) : Adds (fun id => p id ∨ q id) s u where
  inv := h'.inv
  nodes := h'.nodes.trans h.nodes
  stale := h'.stale.trans h.stale
  queue := h.queue.trans h'.queue
  waiting := h.waiting.trans h'.waiting
  mem_queue id hid := by
    rcases h'.mem_queue id hid with hid | ⟨hq, g, hg⟩
    · exact (h.mem_queue id hid).imp_right fun ⟨hp, hg⟩ => ⟨.inl hp, hg⟩
    · exact .inr ⟨.inr hq, g, (live_congr h.nodes id g).1 hg⟩
  mem_waiting id hid := by
    rcases h'.mem_waiting id hid with hid | hq
    · exact (h.mem_waiting id hid).imp_right .inl
    · exact .inr (.inr hq)
  added id hid g hg := by
    rcases hid with hp | hq
    · obtain ⟨hwaiting, hqueue⟩ := h.added id hp g hg
      exact ⟨h'.waiting hwaiting, fun hfresh => h'.queue.subset (hqueue hfresh)⟩
    · have hadded := h'.added id hq g ((live_congr h.nodes id g).2 hg)
      rwa [h.stale] at hadded

theorem Adds.congr (h : Adds p s t) (hpq : ∀ id, p id ↔ q id) : Adds q s t := by
  rwa [show q = p from funext fun id => propext (hpq id).symm]

/-- `worklist_add` adds a node. -/
theorem Inv.adds (hs : s.Inv) (hd : s.Distinct) (h : s.worklistAdd id = some t) :
    Adds (· = id) s t := by
  obtain ⟨ht, hnodes, hstale, ⟨hdead, rfl⟩ | ⟨g, hlive, hwaiting, hqueue⟩⟩ := hs.worklistAdd hd h
  · exact ⟨ht, rfl, rfl, List.prefix_rfl, subset_rfl, fun _ h => .inl h, fun _ h => .inl h,
      fun a ha g hg => absurd (ha ▸ hg) (hdead g)⟩
  · refine ⟨ht, hnodes, hstale, ?_, ?_, fun a ha => ?_, fun a ha => ?_, ?_⟩
    · rw [hqueue]
      split_ifs
      · exact List.prefix_rfl
      · exact List.prefix_append _ _
    · rw [hwaiting]
      exact Finset.subset_insert _ _
    · rw [hqueue] at ha
      split_ifs at ha
      · exact .inl ha
      · rcases List.mem_append.1 ha with ha | ha
        · exact .inl ha
        · rw [List.mem_singleton.1 ha]
          exact .inr ⟨rfl, g, hlive⟩
    · rw [hwaiting] at ha
      exact (Finset.mem_insert.1 ha).symm
    · rintro a rfl g' hlive'
      obtain rfl := Live.unique hlive hlive'
      rw [hwaiting, hqueue]
      refine ⟨Finset.mem_insert_self _ _, fun hfresh => ?_⟩
      split_ifs with h
      · exact h.resolve_left hfresh
      · exact List.mem_append_right _ (List.mem_singleton_self a)

theorem Inv.addAll {ids : List ℕ} (hs : s.Inv) (hd : s.Distinct) (h : s.addAll ids = some t) :
    Adds (· ∈ ids) s t := by
  induction ids generalizing s with
  | nil =>
    obtain rfl := Option.some.inj h
    exact Adds.refl hs fun _ => List.not_mem_nil
  | cons id ids ih =>
    obtain ⟨u, hu, h⟩ := Option.bind_eq_some_iff.1 h
    have hadd := hs.adds hd hu
    refine (hadd.trans (ih hadd.inv ((distinct_congr hadd.nodes).2 hd) h)).congr fun a => ?_
    rw [List.mem_cons]

theorem Inv.length_queue_le (hs : s.Inv) : s.queue.length ≤ s.nodes.length := by
  have hsub := List.subperm_of_subset hs.nodup fun id hid => List.mem_range.2 (hs.lt id hid)
  exact hsub.length_le.trans_eq List.length_range

/-- What the loop of `collect_nodes` adds: the inputs and outputs of the nodes from `i` on. -/
def LinkedFrom (links : ℕ → List ℕ) (i : ℕ) (t : State) (a : ℕ) : Prop :=
  ∃ j id, i ≤ j ∧ t.queue[j]? = some id ∧ a ∈ links id

theorem not_linkedFrom {links : ℕ → List ℕ} {i a : ℕ} (h : s.queue.length ≤ i) :
    ¬ s.LinkedFrom links i a := by
  rintro ⟨j, id, hj, hid, -⟩
  rw [List.getElem?_eq_none (h.trans hj)] at hid
  cases hid

/-- **The loop of `collect_nodes`** adds the inputs and outputs of all nodes that come to be in the
queue, from some place on.  What holds for the nodes in it, and for what they are linked to, holds
for what is added. -/
theorem Inv.collectFrom {links : ℕ → List ℕ} {rest i : ℕ} {f : ℕ → Prop} (hs : s.Inv)
    (hd : s.Distinct) (hzero : s.queue.head? = some 0) (hi : 1 ≤ i)
    (hrest : s.nodes.length ≤ i + rest)
    (hlinks : ∀ id g, f id → id ≠ 0 → s.Live id g → ∀ a ∈ links id, f a)
    (hqueue : ∀ id ∈ s.queue, f id ∧ ∃ g, s.Live id g)
    (h : State.collectFrom links rest i s = some t) :
    Adds (t.LinkedFrom links i) s t ∧ ∀ a, t.LinkedFrom links i a → f a := by
  induction rest generalizing s i with
  | zero =>
    obtain rfl := Option.some.inj h
    have hle := hs.length_queue_le.trans hrest
    exact ⟨Adds.refl hs fun a => not_linkedFrom hle, fun a ha => absurd ha (not_linkedFrom hle)⟩
  | succ rest ih =>
    rw [State.collectFrom] at h
    cases hid : s.queue[i]? with
    | none =>
      rw [hid] at h
      obtain rfl := Option.some.inj h
      have hle := List.getElem?_eq_none_iff.1 hid
      exact ⟨Adds.refl hs fun a => not_linkedFrom hle, fun a ha => absurd ha (not_linkedFrom hle)⟩
    | some id =>
      rw [hid] at h
      obtain ⟨u, hu, h⟩ := Option.bind_eq_some_iff.1 h
      have hadd := hs.addAll hd hu
      obtain ⟨hf, g, hlive⟩ := hqueue id (List.mem_of_getElem? hid)
      -- the root stands first in the queue, and the loop starts behind it
      have hne : id ≠ 0 := by
        rintro rfl
        rw [List.head?_eq_getElem?] at hzero
        have h0 := (List.getElem?_eq_some_iff.1 hzero).1
        have hinj := (List.getElem?_inj h0 hs.nodup).1 (hzero.trans hid.symm)
        omega
      have hlinked := hlinks id g hf hne hlive
      have hlive' (a g : ℕ) := live_congr hadd.nodes a g
      have hzero' : u.queue.head? = some 0 := by
        obtain ⟨l, hl⟩ := hadd.queue
        rw [← hl, List.head?_append, hzero]
        rfl
      obtain ⟨hrec, hfrec⟩ := ih (i := i + 1) hadd.inv ((distinct_congr hadd.nodes).2 hd) hzero'
        (by omega) (by rw [hadd.nodes]; omega)
        (fun a g hfa hne hg => hlinks a g hfa hne ((hlive' a g).1 hg))
        (fun a ha => by
          simp only [hlive']
          rcases hadd.mem_queue a ha with ha | ⟨ha, hg⟩
          · exact hqueue a ha
          · exact ⟨hlinked a ha, hg⟩) h
      have htid : t.queue[i]? = some id := by
        obtain ⟨l, hl⟩ := hadd.queue.trans hrec.queue
        rw [← hl, List.getElem?_append_left (List.getElem?_eq_some_iff.1 hid).1, hid]
      -- what is linked from `i` on is linked from `i`, or from a later place
      have hcases (a : ℕ) : (a ∈ links id ∨ t.LinkedFrom links (i + 1) a) ↔
          t.LinkedFrom links i a := by
        constructor
        · rintro (ha | ⟨j, x, hj, hx, ha⟩)
          · exact ⟨i, id, le_rfl, htid, ha⟩
          · exact ⟨j, x, by omega, hx, ha⟩
        · rintro ⟨j, x, hj, hx, ha⟩
          rcases Nat.eq_or_lt_of_le hj with rfl | hj
          · rw [htid] at hx
            exact .inl (Option.some.inj hx ▸ ha)
          · exact .inr ⟨j, x, hj, hx, ha⟩
      exact ⟨(hadd.trans hrec).congr hcases, fun a ha =>
        ((hcases a).2 ha).elim (hlinked a) (hfrec a)⟩

/-! ### Numbering -/

theorem getElem?_renumber {l : List ℕ} (hl : l.Nodup) (i : ℕ) (nodes : List Node) (id : ℕ) :
    (renumber l i nodes)[id]? =
      if id ∈ l then nodes[id]?.map fun node => { node with gvn := i + l.idxOf id }
      else nodes[id]? := by
  induction l generalizing i nodes with
  | nil => rw [if_neg List.not_mem_nil, renumber]
  | cons a l ih =>
    obtain ⟨hal, hl⟩ := List.nodup_cons.1 hl
    rw [renumber, ih hl, List.getElem?_modify]
    by_cases hid : id = a
    · subst hid
      rw [if_neg hal, if_pos List.mem_cons_self, List.idxOf_cons_self, Nat.add_zero]
      simp only [if_true]
      rfl
    · have hsame : (fun node : Node => if a = id then { node with gvn := i } else node) <$>
          nodes[id]? = nodes[id]? := by
        simp only [if_neg (Ne.symm hid)]
        exact Option.map_id'
      rw [hsame, List.idxOf_cons_ne l (Ne.symm hid)]
      by_cases hmem : id ∈ l
      · rw [if_pos hmem, if_pos (List.mem_cons_of_mem a hmem), Nat.succ_eq_add_one,
          Nat.add_right_comm, Nat.add_assoc i]
      · rw [if_neg hmem, if_neg fun h => hmem ((List.mem_cons.1 h).resolve_left hid)]

theorem length_renumber (l : List ℕ) (i : ℕ) (nodes : List Node) :
    (renumber l i nodes).length = nodes.length := by
  induction l generalizing i nodes with
  | nil => rfl
  | cons a l ih => rw [renumber, ih, List.length_modify]

/-- The state behind the loop of `collect_nodes`, numbered. -/
def renumbered (s : State) (b : BitSet) : State :=
  { s with
    gvn := s.queue.length
    inQueue := b
    nodes := renumber s.queue.tail 1 s.nodes
    stale := ∅ }

theorem live_renumbered {b : BitSet} (hs : s.Inv) (id g : ℕ) : (s.renumbered b).Live id g ↔
    if id ∈ s.queue.tail then (∃ g, s.Live id g) ∧ g = 1 + s.queue.tail.idxOf id
    else s.Live id g := by
  unfold Live
  rw [renumbered, getElem?_renumber (hs.nodup.sublist (List.tail_sublist _))]
  split_ifs
  · rw [Option.map_eq_some_iff]
    constructor
    · rintro ⟨⟨dead, g'⟩, hnode, heq⟩
      cases heq
      exact ⟨⟨g', hnode⟩, rfl⟩
    · rintro ⟨⟨g', hnode⟩, rfl⟩
      exact ⟨_, hnode, rfl⟩
  · rfl

theorem exists_live_renumbered {b : BitSet} (hs : s.Inv) (id : ℕ) :
    (∃ g, (s.renumbered b).Live id g) ↔ ∃ g, s.Live id g := by
  simp only [live_renumbered hs]
  split_ifs
  · exact ⟨fun ⟨_, h, _⟩ => h, fun h => ⟨_, h, rfl⟩⟩
  · rfl

/-- The numbers of the nodes in the queue are the numbers below its length. -/
theorem Inv.renumbered {b : BitSet} (hs : s.Inv) (hzero : s.queue.head? = some 0)
    (hlive : ∀ id ∈ s.queue, ∃ g, s.Live id g)
    (hset : (s.inQueue.setAll false).setRange 0 s.queue.length = some b) :
    (s.renumbered b).Inv := by
  have hq : s.queue = 0 :: s.queue.tail := by
    cases hqueue : s.queue with
    | nil =>
      rw [hqueue] at hzero
      cases hzero
    | cons id queue =>
      rw [hqueue] at hzero
      rw [Option.some.inj hzero]
      rfl
  have hnodup := hs.nodup
  rw [hq, List.nodup_cons] at hnodup
  obtain ⟨hnot, hnodup⟩ := hnodup
  have hlen : s.queue.length = s.queue.tail.length + 1 := congrArg List.length hq
  obtain ⟨e, hholds, -⟩ := hs.bits
  have hnil : (s.renumbered b).Live 0 0 := by
    rw [live_renumbered hs, if_neg hnot]
    exact hs.nil
  have hlength : (s.renumbered b).nodes.length = s.nodes.length := length_renumber _ _ _
  refine ⟨hnil, hs.nodup, fun id hid => hlength ▸ hs.lt id hid,
    fun id hid => hlength ▸ hs.lt_waiting id hid,
    ⟨Finset.range s.queue.length, hholds.clear_setRange hset, fun g => ?_⟩,
    fun g hg => absurd hg (Finset.notMem_empty g), Finset.notMem_empty 0⟩
  rw [Finset.mem_range]
  constructor
  · intro hg
    right
    cases g with
    | zero => exact ⟨0, List.mem_of_mem_head? hzero, hnil⟩
    | succ g =>
      have hg' : g < s.queue.tail.length := by omega
      have hmem := List.getElem_mem hg'
      refine ⟨s.queue.tail[g], List.mem_of_mem_tail hmem, ?_⟩
      rw [live_renumbered hs, if_pos hmem, hnodup.idxOf_getElem g hg']
      exact ⟨hlive _ (List.mem_of_mem_tail hmem), Nat.add_comm g 1⟩
  · rintro (hg | ⟨id, hid, hg⟩)
    · exact absurd hg (Finset.notMem_empty g)
    · rw [live_renumbered hs] at hg
      split_ifs at hg with hmem
      · have := List.idxOf_lt_length_of_mem hmem
        omega
      · have hid : id ∈ s.queue := hid
        rw [hq, List.mem_cons] at hid
        obtain rfl := hid.resolve_right hmem
        rw [Live.unique hg hs.nil]
        omega

/-! ### One operation -/

/-- `collect_nodes` misses no node exactly when it finds no node with a stale number. -/
theorem Inv.collectNodes {entry stop : ℕ} {links : ℕ → List ℕ} (hs : s.Inv) (hd : s.Distinct)
    (hk : s.Kept) (h : s.collectNodes entry stop links = some t) :
    t.Inv ∧ (t.Kept ↔ s.FreshOp (.collect entry stop links)) := by
  simp only [State.collectNodes, Option.bind_eq_bind, Option.bind_eq_some_iff, Option.pure_def,
    Option.guard_eq_some'] at h
  obtain ⟨-, hempty, u, hu, -, hne, v, hv, b, hset, -, hzero, h⟩ := h
  obtain rfl := Option.some.inj h
  have hroots := hs.addAll hd hu
  have hlive (id g : ℕ) := live_congr hroots.nodes id g
  have hmem_nil {id : ℕ} : id ∉ s.queue := hempty ▸ List.not_mem_nil
  have hroot {id : ℕ} (hid : id ∈ [0, entry, stop]) : Found s entry stop links id := by
    simp only [List.mem_cons, List.not_mem_nil, or_false] at hid
    rcases hid with rfl | rfl | rfl
    · exact .zero
    · exact .entry
    · exact .stop
  have hqueue (id : ℕ) (hid : id ∈ u.queue) :
      Found s entry stop links id ∧ ∃ g, u.Live id g := by
    simp only [hlive]
    exact (hroots.mem_queue id hid).elim (fun h => absurd h hmem_nil) fun h => ⟨hroot h.1, h.2⟩
  have huzero : u.queue.head? = some 0 := by
    obtain ⟨w, hw, hu⟩ := Option.bind_eq_some_iff.1 hu
    obtain ⟨hwinv, hwnodes, -, ⟨hdead, -⟩ | ⟨g, hg, -, hwqueue⟩⟩ := hs.worklistAdd hd hw
    · exact absurd hs.nil (hdead 0)
    · obtain rfl := Live.unique hs.nil hg
      rw [if_neg (not_or.2 ⟨hs.zero, hmem_nil⟩), hempty] at hwqueue
      obtain ⟨l, hl⟩ := (hwinv.addAll ((distinct_congr hwnodes).2 hd) hu).queue
      rw [← hl, hwqueue]
      rfl
  obtain ⟨hloop, hfound⟩ := hroots.inv.collectFrom ((distinct_congr hroots.nodes).2 hd) huzero
    le_rfl (Nat.le_add_left _ _) (fun id g hf hne hg a ha => hf.link hne ((hlive id g).1 hg) ha)
    hqueue hv
  have hall := hroots.trans hloop
  have hvlive (id : ℕ) (hid : id ∈ v.queue) : ∃ g, v.Live id g := by
    simp only [live_congr hall.nodes]
    exact (hall.mem_queue id hid).elim (fun h => absurd h hmem_nil) And.right
  have htlive (id : ℕ) : (∃ g, (v.renumbered b).Live id g) ↔ ∃ g, s.Live id g := by
    rw [exists_live_renumbered hall.inv]
    simp only [live_congr hall.nodes]
  refine ⟨hall.inv.renumbered hzero hvlive hset, fun hkept id g hid hg hstale => ?_,
    fun hfresh id hid g hg => ?_⟩
  · -- what is found and live has been added, and is not missing
    have hin {id g : ℕ} (hq : id ∈ [0, entry, stop] ∨ v.LinkedFrom links 1 id) (hg : s.Live id g) :
        id ∈ v.queue := by
      obtain ⟨g', hg'⟩ := (htlive id).2 ⟨g, hg⟩
      exact hkept id (hall.added id hq g hg).1 g' hg'
    have hmem : id ∈ v.queue := by
      clear hstale
      induction hid generalizing g with
      | zero => exact hin (.inl List.mem_cons_self) hg
      | entry => exact hin (.inl (List.mem_cons_of_mem _ List.mem_cons_self)) hg
      | stop =>
        exact hin (.inl (List.mem_cons_of_mem _ (List.mem_cons_of_mem _ List.mem_cons_self))) hg
      | @link x gx y hx hne hgx hy ih =>
        obtain ⟨j, hj⟩ := List.mem_iff_getElem?.1 (ih gx hgx)
        refine hin (.inr ⟨j, x, ?_, hj, hy⟩) hg
        rcases Nat.eq_zero_or_pos j with rfl | hpos
        · rw [← List.head?_eq_getElem?, hzero] at hj
          exact absurd (Option.some.inj hj).symm hne
        · exact hpos
    exact hall.inv.stale g (hall.stale ▸ hstale) id hmem ((live_congr hall.nodes id g).2 hg)
  · obtain ⟨g', hg'⟩ := (htlive id).1 ⟨g, hg⟩
    rcases hall.mem_waiting id hid with hid | hq
    · exact absurd (hk id hid g' hg') hmem_nil
    · exact (hall.added id hq g' hg').2 (hfresh id g' (hq.elim hroot (hfound id)) hg')

theorem live_create (hid : id < s.nodes.length) : s.create.Live id g ↔ s.Live id g := by
  rw [Live, Live, create, List.getElem?_append_left hid]

theorem Inv.create (hs : s.Inv) (hk : s.Kept) : s.create.Inv ∧ s.create.Kept := by
  have hlen {id : ℕ} (hid : id < s.nodes.length) : id < s.create.nodes.length := by
    rw [State.create, List.length_append]
    omega
  obtain ⟨e, hholds, he⟩ := hs.bits
  refine ⟨⟨(live_create hs.nil.lt).2 hs.nil, hs.nodup, fun id hid => hlen (hs.lt id hid),
    fun id hid => hlen (hs.lt_waiting id hid), ⟨e, hholds, fun g => ?_⟩, fun g hg id hid hl => ?_,
    hs.zero⟩, fun id hid g hg => ?_⟩
  · exact (he g).trans (or_congr_right (exists_congr fun id => and_congr_right fun hid =>
      (live_create (hs.lt id hid)).symm))
  · exact hs.stale g hg id hid ((live_create (hs.lt id hid)).1 hl)
  · exact hk id hid g ((live_create (hs.lt_waiting id hid)).1 hg)

/-- A node that dies in the queue leaves its number behind. -/
theorem Inv.delete (hs : s.Inv) (hd : s.Distinct) (hk : s.Kept) (h : s.delete id = some t) :
    t.Inv ∧ t.Kept := by
  simp only [State.delete, Option.bind_eq_bind, Option.bind_eq_some_iff, Option.pure_def] at h
  obtain ⟨⟨dead, g⟩, hnode, h⟩ := h
  by_cases hskip : id = 0 ∨ dead = true
  · rw [if_pos hskip] at h
    obtain rfl := Option.some.inj h
    exact ⟨hs, hk⟩
  rw [if_neg hskip] at h
  obtain rfl := Option.some.inj h
  rw [not_or, Bool.not_eq_true] at hskip
  obtain ⟨hne, rfl⟩ := hskip
  have hg : s.Live id g := hnode
  have hlive (a g' : ℕ) : Live { s with
      nodes := s.nodes.set id ⟨true, 0⟩
      stale := if id ∈ s.queue then insert g s.stale else s.stale } a g' ↔
      a ≠ id ∧ s.Live a g' := by
    unfold Live
    rw [List.getElem?_set]
    by_cases ha : id = a
    · rw [if_pos ha, if_pos (ha ▸ hg.lt)]
      exact ⟨fun h => (by cases h), fun h => absurd ha.symm h.1⟩
    · rw [if_neg ha]
      exact ⟨fun h => ⟨Ne.symm ha, h⟩, And.right⟩
  have hstale (g' : ℕ) : (g' ∈ if id ∈ s.queue then insert g s.stale else s.stale) ↔
      g' ∈ s.stale ∨ id ∈ s.queue ∧ g' = g := by
    split_ifs with hid
    · rw [Finset.mem_insert, or_comm, and_iff_right hid]
    · exact ⟨.inl, fun h => h.resolve_right fun h => hid h.1⟩
  obtain ⟨e, hholds, he⟩ := hs.bits
  have hlen : (s.nodes.set id ⟨true, 0⟩).length = s.nodes.length := List.length_set
  refine ⟨⟨(hlive 0 0).2 ⟨Ne.symm hne, hs.nil⟩, hs.nodup, fun a ha => hlen ▸ hs.lt a ha,
    fun a ha => hlen ▸ hs.lt_waiting a ha, ⟨e, hholds, fun g' => ?_⟩, fun g' hg' a ha hl => ?_, ?_⟩,
    fun a ha g' hl => hk a ha g' ((hlive a g').1 hl).2⟩
  · refine (he g').trans (Iff.trans ?_ (or_congr_left (hstale g')).symm)
    simp only [hlive]
    constructor
    · rintro (hg' | ⟨a, ha, hl⟩)
      · exact .inl (.inl hg')
      · by_cases hid : a = id
        · subst hid
          exact .inl (.inr ⟨ha, Live.unique hl hg⟩)
        · exact .inr ⟨a, ha, hid, hl⟩
    · rintro ((hg' | ⟨hid, rfl⟩) | ⟨a, ha, -, hl⟩)
      · exact .inl hg'
      · exact .inr ⟨id, hid, hg⟩
      · exact .inr ⟨a, ha, hl⟩
  · obtain ⟨hid, hl⟩ := (hlive a g').1 hl
    rcases (hstale g').1 hg' with hg' | ⟨-, hgg⟩
    · exact hs.stale g' hg' a ha hl
    · exact hid (hd g a id (hgg ▸ hl) hg)
  · intro h0
    rcases (hstale 0).1 h0 with h0 | ⟨-, rfl⟩
    · exact hs.zero h0
    · exact hne (hd 0 id 0 hg hs.nil)

/-- **One operation.**  Nothing gets lost exactly when no node with a stale number is added. -/
theorem Inv.step (hs : s.Inv) (hd : s.Distinct) (hk : s.Kept) (h : s.step op = some t) :
    t.Inv ∧ (t.Kept ↔ s.FreshOp op) := by
  cases op with
  | add id =>
    have hadd := hs.adds hd h
    refine ⟨hadd.inv, fun hkept g hg hstale => ?_, fun hfresh a ha g hg => ?_⟩
    · have hmem := hkept id (hadd.added id rfl g hg).1 g ((live_congr hadd.nodes id g).2 hg)
      exact hadd.inv.stale g (hadd.stale ▸ hstale) id hmem ((live_congr hadd.nodes id g).2 hg)
    · have hg := (live_congr hadd.nodes a g).1 hg
      rcases hadd.mem_waiting a ha with ha | rfl
      · exact hadd.queue.subset (hk a ha g hg)
      · exact (hadd.added a rfl g hg).2 (hfresh g hg)
  | next =>
    obtain ⟨r, u, hnext, hu, hnodes, -, hr, hlive, hwaiting, -⟩ := hs.worklistNext hd
    have htu : t = u := by
      rw [State.step, hnext] at h
      exact (Option.some.inj h).symm
    subst htu
    refine ⟨hu, iff_of_true (fun id hid g hg => ?_) trivial⟩
    have hg := (live_congr hnodes id g).1 hg
    have hne : r ≠ some id ∧ id ∈ s.waiting := by
      rw [hwaiting] at hid
      cases r with
      | none => exact ⟨fun h => (by cases h), hid⟩
      | some a =>
        obtain ⟨hne, hid⟩ := Finset.mem_erase.1 hid
        exact ⟨fun h => hne (Option.some.inj h).symm, hid⟩
    have hmem : id ∈ s.liveQueue := mem_liveQueue.2 ⟨hk id hne.2 g hg, g, hg⟩
    have htail : id ∈ t.liveQueue := by
      rw [hlive]
      rw [hr] at hne
      cases hq : s.liveQueue with
      | nil =>
        rw [hq] at hmem
        exact absurd hmem List.not_mem_nil
      | cons a l =>
        rw [hq] at hmem hne
        exact (List.mem_cons.1 hmem).resolve_left fun h => hne.1 (congrArg some h.symm)
    exact (mem_liveQueue.1 htail).1
  | create =>
    obtain rfl := Option.some.inj h
    obtain ⟨ht, hkept⟩ := hs.create hk
    exact ⟨ht, iff_of_true hkept trivial⟩
  | delete id =>
    obtain ⟨ht, hkept⟩ := hs.delete hd hk h
    exact ⟨ht, iff_of_true hkept trivial⟩
  | collect entry stop links => exact hs.collectNodes hd hk h

/-! ### Runs -/

theorem inv_worklistInit {nodes : List Node} (hnil : nodes[0]? = some ⟨false, 0⟩) (gvn cap : ℕ) :
    (worklistInit nodes gvn cap).Inv :=
  ⟨hnil, List.nodup_nil, fun _ h => absurd h List.not_mem_nil,
    fun _ h => absurd h (Finset.notMem_empty _), ⟨∅, BitSet.holds_init cap, fun g => by
      refine iff_of_false (Finset.notMem_empty g) ?_
      rintro (h | ⟨_, h, -⟩)
      · exact Finset.notMem_empty g h
      · exact absurd h List.not_mem_nil⟩,
    fun _ h => absurd h (Finset.notMem_empty _), Finset.notMem_empty 0⟩

theorem kept_worklistInit (nodes : List Node) (gvn cap : ℕ) :
    (worklistInit nodes gvn cap).Kept := fun _ h => absurd h (Finset.notMem_empty _)

theorem Inv.exact_run_iff (hs : s.Inv) (hk : s.Kept)
    (hd : ∀ before, before <+: ops → ∀ t, s.run before = some t → t.Distinct) :
    (∀ before, before <+: ops → ∀ t, s.run before = some t → t.Exact) ↔ s.Fresh ops := by
  have hself : s.Distinct := hd [] List.nil_prefix s rfl
  induction ops generalizing s with
  | nil =>
    refine iff_of_true (fun before hb t ht => ?_) trivial
    obtain rfl := List.prefix_nil.1 hb
    obtain rfl := Option.some.inj ht
    exact (hs.exact_iff hself).2 hk
  | cons op ops ih =>
    have hcons {before : List Op} {t u : State} (hu : s.step op = some u)
        (ht : u.run before = some t) : s.run (op :: before) = some t := by
      rw [run, hu]
      exact ht
    have hnext {u : State} (hu : s.step op = some u) (hkept : u.Kept) :
        (∀ before, before <+: ops → ∀ t, u.run before = some t → t.Exact) ↔ u.Fresh ops := by
      have hdu (before : List Op) (hb : before <+: ops) (t : State) (ht : u.run before = some t) :=
        hd (op :: before) (List.cons_prefix_cons.2 ⟨rfl, hb⟩) t (hcons hu ht)
      exact ih (hs.step hself hk hu).1 hkept hdu (hdu [] List.nil_prefix u rfl)
    constructor
    · intro h u hu
      obtain ⟨hinv, hiff⟩ := hs.step hself hk hu
      have hrun : s.run [op] = some u := hcons hu rfl
      have hone : [op] <+: op :: ops := List.prefix_append [op] ops
      have hkept := (hinv.exact_iff (hd [op] hone u hrun)).1 (h [op] hone u hrun)
      refine ⟨hiff.1 hkept, (hnext hu hkept).1 fun before hb t ht => ?_⟩
      exact h (op :: before) (List.cons_prefix_cons.2 ⟨rfl, hb⟩) t (hcons hu ht)
    · intro h before hb t ht
      cases before with
      | nil =>
        obtain rfl := Option.some.inj ht
        exact (hs.exact_iff hself).2 hk
      | cons op' before =>
        obtain ⟨rfl, hb'⟩ := List.cons_prefix_cons.1 hb
        obtain ⟨u, hu, ht⟩ := Option.bind_eq_some_iff.1 ht
        obtain ⟨hfresh, hrest⟩ := h u hu
        exact (hnext hu ((hs.step hself hk hu).2.2 hfresh)).2 hrest before hb' t ht

/-- **Exactly when the worklist loses no node.**  From an empty worklist on, as long as distinct live
nodes have distinct numbers, all states are exact if and only if no node is added whose number a
node had that has died in the queue. -/
theorem run_loses_none_iff (nodes : List Node) (gvn cap : ℕ) (ops : List Op)
    (hnil : nodes[0]? = some ⟨false, 0⟩)
    (hd : ∀ before, before <+: ops → ∀ t, (worklistInit nodes gvn cap).run before = some t →
      t.Distinct) :
    (∀ before, before <+: ops → ∀ t, (worklistInit nodes gvn cap).run before = some t → t.Exact) ↔
      (worklistInit nodes gvn cap).Fresh ops :=
  (inv_worklistInit hnil gvn cap).exact_run_iff (kept_worklistInit nodes gvn cap) hd

theorem distinct_iff : s.Distinct ↔ ∀ i < s.nodes.length, ∀ j < s.nodes.length,
    s.isLive i = true → s.isLive j = true →
      s.nodes[i]?.map Node.gvn = s.nodes[j]?.map Node.gvn → i = j := by
  constructor
  · intro h i _ j _ hi hj heq
    obtain ⟨g, hg⟩ := isLive_eq_true.1 hi
    obtain ⟨g', hg'⟩ := isLive_eq_true.1 hj
    rw [hg, hg'] at heq
    obtain rfl : g = g' := Option.some.inj heq
    exact h g i j hg hg'
  · intro h g i j hi hj
    refine h i hi.lt j hj.lt (isLive_eq_true.2 ⟨g, hi⟩) (isLive_eq_true.2 ⟨g, hj⟩) ?_
    rw [hi, hj]

instance : Decidable s.Distinct := decidable_of_iff _ distinct_iff.symm

/-- Four nodes, of which `collect_nodes` finds three. -/
def fourNodes : State := worklistInit [⟨false, 0⟩, ⟨false, 1⟩, ⟨false, 2⟩, ⟨false, 3⟩] 4 4

/-- The fourth node is added and dies in the queue, and the number of the next one is 3 again. -/
def loseNode : List Op :=
  [.collect 1 2 fun _ => [], .next, .next, .next, .add 3, .delete 3, .create, .add 4]

/-- Adding a node and taking it out. -/
theorem run_loses_none_iff_addNext :
    (∀ before, before <+: [Op.add 3, .next] → ∀ t, fourNodes.run before = some t → t.Exact) ↔
      fourNodes.Fresh [.add 3, .next] := by
  refine run_loses_none_iff _ 4 4 _ rfl fun before hb t ht => ?_
  have hall : ∀ before ∈ [Op.add 3, .next].inits, ((fourNodes.run before).all fun t =>
      decide t.Distinct) = true := by decide +kernel
  have hdist := hall before ((List.mem_inits _ _).2 hb)
  rw [show fourNodes.run before = some t from ht] at hdist
  exact of_decide_eq_true hdist

/-- A node is lost, though distinct live nodes have distinct numbers all the time: it is live and
has been added, and is neither in the queue nor returned. -/
theorem exists_node_lost :
    (∀ before ∈ loseNode.inits, ((fourNodes.run before).all fun t => decide t.Distinct) = true) ∧
      (fourNodes.run loseNode).map (fun t => (t.waiting, t.isLive 4, t.queue)) =
        some ({3, 4}, true, [3]) ∧
      ((fourNodes.run loseNode).bind worklistNext).map Prod.fst = some none := by
  decide +kernel

end State

end OdinSon.WorkQueue
