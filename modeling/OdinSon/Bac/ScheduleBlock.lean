import OdinSon.Bac.Graph
import OdinSon.Lib.Precedence
import Mathlib.Data.List.Perm.Subperm
import Mathlib.Logic.Relation

/-!
# The order of the instructions in a block

`schedule_block` (`bac/gcm.odin`) puts the instructions of a block in an order: phis first, then by
swapping until nothing comes before what it needs, then with nodes of a single use moved to that
use, and in a loop at last with the values for the next round moved down (`push_down`).

An instruction needs its inputs, and a store the loads of the memory that it overwrites
(`antideps`).  The first three steps keep to both (`ordered_sink`), as far as the swapping comes to
an end within its budget of passes (`Settles`); a block whose length times its depth is below the
budget always does (`settles_of_ranked`).  The last step only looks at the inputs, so that a load
whose value is carried to the next round may be moved behind a store (`scheduleBlock_dependences`,
`scheduleBlock_unsound`).
-/

namespace OdinSon

/-- What `schedule_block` reads of the context. -/
structure BlockCtx where
  /-- The graph. -/
  prc : Proc
  /-- The loads that a store has to come after. -/
  antideps : NodeId → List NodeId := fun _ => []
  /-- The number of the stores that a load has to come before. -/
  extraOutputs : NodeId → ℕ := fun _ => 0

/-! ### Anti-dependences -/

/-- A user of the memory that the load `id` reads, which is placed in `lca` at the latest. -/
def BlockCtx.addAntidep (late : NodeId → NodeId) (id lca : NodeId) (ctx : BlockCtx)
    (out : NodeOutput) : BlockCtx :=
  if (ctx.prc.getNode out.id).isStore = true ∧ late out.id = lca then
    { ctx with
      antideps := Function.update ctx.antideps out.id (ctx.antideps out.id ++ [id])
      extraOutputs := Function.update ctx.extraOutputs id (ctx.extraOutputs id + 1) }
  else ctx

/-- The last loop of `add_mem_antydeps`. -/
def BlockCtx.addMemAntideps (late : NodeId → NodeId) (ctx : BlockCtx) (id lca : NodeId) : BlockCtx :=
  let mnode := ctx.prc.getNode ((ctx.prc.getNode id).inp 1)
  mnode.outs.foldl (BlockCtx.addAntidep late id lca) ctx

/-- The context once all `loads` have been placed, each with its block. -/
def blockCtx (prc : Proc) (late : NodeId → NodeId) (loads : List (NodeId × NodeId)) : BlockCtx :=
  loads.foldl (fun ctx load => ctx.addMemAntideps late load.1 load.2) { prc }

/-! ### The steps of `schedule_block` -/

/-- `PUSHED_UP`. -/
def pushedUp (prc : Proc) (id : NodeId) : Bool :=
  match (prc.getNode id).itype with
  | .phi | .ret | .param => true
  | _ => false

section Code

variable (ctx : BlockCtx)

/-- The first loop: what is pushed up goes to the end of `front`. -/
def pushUp : List NodeId → List NodeId → List NodeId → List NodeId × List NodeId
  | front, mid, [] => (front, mid)
  | front, mid, instr :: rest =>
    if pushedUp ctx.prc instr then pushUp (front ++ [instr]) mid rest
    else pushUp front (mid ++ [instr]) rest

/-- What an instruction needs before it. -/
def needs (id : NodeId) : List NodeId := (ctx.prc.getNode id).inps ++ ctx.antideps id

/-- One pass of the ordering loop, over the last `n` instructions: an instruction changes places with
the first that it needs and that comes later. -/
@[grind =] def orderPass : ℕ → List NodeId → List NodeId × Bool
  | 0, instrs => (instrs, false)
  | _ + 1, [] => ([], false)
  | n + 1, instr :: rest =>
    match if pushedUp ctx.prc instr then none else (needs ctx instr).find? rest.contains with
    | none =>
      let (rest, changed) := orderPass n rest
      (instr :: rest, changed)
    | some inp => (inp :: (orderPass n (rest.set (rest.idxOf inp) instr)).1, true)

/-- The ordering loop; `none` when there is still something to change after `passes`. -/
def orderLoop : ℕ → List NodeId → Option (List NodeId)
  | 0, _ => none
  | passes + 1, instrs =>
    let (instrs, changed) := orderPass ctx instrs.length instrs
    if changed then orderLoop passes instrs else some instrs

/-- Move the last input of the instruction at `i` that has no other use right before it. -/
def sinkAt (i : ℕ) (instrs : List NodeId) : List NodeId :=
  let inode := ctx.prc.getNode (instrs.getD i 0)
  match inode.inps.reverse.find? fun inp =>
      (ctx.prc.getNode inp).outs.length + ctx.extraOutputs inp = 1 && !pushedUp ctx.prc inp &&
        (instrs.take i).contains inp with
  | none => instrs
  | some inp => rotateLeft instrs ((instrs.take i).idxOf inp) i

/-- The loop of these, from the instruction before `i` down. -/
def sink : ℕ → List NodeId → List NodeId
  | 0, instrs => instrs
  | i + 1, instrs => sink i (sinkAt ctx i instrs)

/-- The end of what may be moved down: not behind the control at the end of the block. -/
def boundary (instrs : List NodeId) : ℕ → ℕ
  | 0 => 0
  | b + 1 => if (ctx.prc.getNode (instrs.getD b 0)).dt = .void then boundary instrs b else b + 1

/-- How far the instruction at `pos` can go: up to the first of `outs`, other than `phi`. -/
def lowestSchedule (instrs : List NodeId) (phi : NodeId) (pos : ℕ) (outs : List NodeOutput)
    (lowest : ℕ) : ℕ :=
  outs.foldl (fun lowest out =>
    if out.id = phi then lowest
    else
      match ((instrs.take lowest).drop pos).idxOf? out.id with
      | none => lowest
      | some posa => min lowest (posa + pos)) lowest

/-- `push_down`, for one of the phis. -/
def pushDownPhi (phiCount bound : ℕ) (instrs : List NodeId) (phi : NodeId) : List NodeId :=
  let inode := ctx.prc.getNode phi
  if inode.dt = .void ∨ inode.dt = .mem then instrs
  else
    match ((instrs.take bound).drop phiCount).idxOf? (inode.inp 2) with
    | none => instrs
    | some pos =>
      let pos := pos + phiCount
      let next := ctx.prc.getNode (inode.inp 2)
      rotateLeft instrs pos (lowestSchedule instrs phi pos next.outs bound)

/-- `push_down`. -/
def pushDown (phis instrs : List NodeId) : List NodeId :=
  let bound := boundary ctx instrs (instrs.length - 1)
  if phis.length > bound then instrs
  else phis.foldl (pushDownPhi ctx phis.length bound) instrs

/-- `schedule_block`, of a block that starts at `head`. -/
def scheduleBlock (head : NodeId) (instrs : List NodeId) : Option (List NodeId) := do
  let (phis, rest) := pushUp ctx [] [] instrs
  let instrs ← orderLoop ctx 999 (phis ++ rest)
  let instrs := sink ctx instrs.length instrs
  if (ctx.prc.getNode head).itype = .loop then some (pushDown ctx phis instrs) else some instrs

end Code

/-! ### The first steps keep all dependences -/

section Order

variable {ctx : BlockCtx}

/-- `a` has to come before `b`. -/
def Needs (ctx : BlockCtx) (a b : NodeId) : Prop := pushedUp ctx.prc b = false ∧ a ∈ needs ctx b

theorem pushUp_spec (front mid instrs : List NodeId) :
    ((pushUp ctx front mid instrs).1 ++ (pushUp ctx front mid instrs).2).Perm
        (front ++ mid ++ instrs) ∧
      ((∀ id ∈ front, pushedUp ctx.prc id = true) →
        ∀ id ∈ (pushUp ctx front mid instrs).1, pushedUp ctx.prc id = true) := by
  induction instrs generalizing front mid with
  | nil =>
    rw [List.append_nil]
    exact ⟨List.Perm.refl _, id⟩
  | cons instr rest ih =>
    unfold pushUp
    split_ifs with hp
    · obtain ⟨h1, h2⟩ := ih (front ++ [instr]) mid
      refine ⟨h1.trans ?_, fun hf => h2 fun id hid => ?_⟩
      · simp only [List.append_assoc, List.singleton_append]
        exact List.perm_middle.symm.append_left front
      · rcases List.mem_append.1 hid with hid | hid
        · exact hf id hid
        · rwa [List.mem_singleton.1 hid]
    · obtain ⟨h1, h2⟩ := ih front (mid ++ [instr])
      refine ⟨h1.trans ?_, h2⟩
      simp

/-- Two places of a list changed. -/
theorem perm_swap_head {x y : NodeId} {rest : List NodeId} (h : y ∈ rest) :
    (y :: rest.set (rest.idxOf y) x).Perm (x :: rest) := by
  have hlt := List.idxOf_lt_length_of_mem h
  have hsplit := List.take_append_drop (rest.idxOf y) rest
  rw [List.drop_eq_getElem_cons hlt, List.getElem_idxOf] at hsplit
  rw [List.set_eq_take_append_cons_drop, if_pos hlt]
  conv_rhs => rw [← hsplit]
  refine (List.perm_middle.cons y).trans ?_
  refine (List.Perm.swap x y _).trans ?_
  exact (List.perm_middle.symm).cons x

theorem orderPass_perm (n : ℕ) (instrs : List NodeId) :
    (orderPass ctx n instrs).1.Perm instrs := by
  induction n generalizing instrs with
  | zero => exact List.Perm.refl _
  | succ n ih =>
    cases instrs with
    | nil => exact List.Perm.refl _
    | cons instr rest =>
      unfold orderPass
      split
      · exact (ih rest).cons instr
      · next inp hinp =>
        refine ((ih _).cons inp).trans (perm_swap_head ?_)
        split_ifs at hinp
        exact List.contains_iff_mem.1 (List.find?_some hinp)

/-- A pass without a change has found everything in order. -/
theorem orderPass_ordered {n : ℕ} {instrs : List NodeId} (hn : instrs.length ≤ n)
    (h : (orderPass ctx n instrs).2 = false) :
    (orderPass ctx n instrs).1 = instrs ∧ Ordered (Needs ctx) instrs := by
  induction n generalizing instrs with
  | zero =>
    obtain rfl := List.eq_nil_of_length_eq_zero (Nat.le_zero.1 hn)
    exact ⟨rfl, List.Pairwise.nil⟩
  | succ n ih =>
    cases instrs with
    | nil => exact ⟨rfl, List.Pairwise.nil⟩
    | cons instr rest =>
      unfold orderPass at h ⊢
      split at h
      · next hnone =>
        obtain ⟨h1, h2⟩ := ih (Nat.le_of_succ_le_succ hn) h
        refine ⟨congrArg (List.cons instr) h1, List.Pairwise.cons ?_ h2⟩
        rintro y hy ⟨hpush, hneed⟩
        rw [hpush, if_neg (by decide)] at hnone
        exact List.find?_eq_none.1 hnone y hneed (List.contains_iff_mem.2 hy)
      · cases h

theorem orderLoop_spec {passes : ℕ} {instrs instrs' : List NodeId}
    (h : orderLoop ctx passes instrs = some instrs') :
    instrs'.Perm instrs ∧ Ordered (Needs ctx) instrs' := by
  induction passes generalizing instrs with
  | zero => cases h
  | succ passes ih =>
    unfold orderLoop at h
    dsimp only at h
    split_ifs at h with hc
    · obtain ⟨h1, h2⟩ := ih h
      exact ⟨h1.trans (orderPass_perm _ _), h2⟩
    · obtain ⟨h1, h2⟩ := orderPass_ordered le_rfl (Bool.eq_false_of_not_eq_true hc)
      rw [h1, Option.some.injEq] at h
      exact h ▸ ⟨List.Perm.refl _, h2⟩

/-! ### The budget of the ordering loop -/

/-- The instructions after one pass of the ordering loop. -/
def swapPass (ctx : BlockCtx) (instrs : List NodeId) : List NodeId :=
  (orderPass ctx instrs.length instrs).1

/-- The budget is enough for the block: fewer passes than it allows leave nothing before what it
needs, so that the assertion on the number of passes does not fail. -/
def Settles (ctx : BlockCtx) (instrs : List NodeId) : Prop :=
  ∃ n < 999, Ordered (Needs ctx)
    ((swapPass ctx)^[n] ((pushUp ctx [] [] instrs).1 ++ (pushUp ctx [] [] instrs).2))

theorem swapPass_perm (instrs : List NodeId) : (swapPass ctx instrs).Perm instrs :=
  orderPass_perm _ _

theorem iterate_swapPass_perm (n : ℕ) (instrs : List NodeId) :
    ((swapPass ctx)^[n] instrs).Perm instrs := by
  induction n generalizing instrs with
  | zero => exact List.Perm.refl _
  | succ n ih =>
    rw [Function.iterate_succ_apply]
    exact (ih _).trans (swapPass_perm instrs)

theorem find?_needs_eq_none {x : NodeId} {rest : List NodeId} (h : ∀ y ∈ rest, ¬Needs ctx y x) :
    (if pushedUp ctx.prc x then none else (needs ctx x).find? rest.contains) = none := by
  split_ifs with hpush
  · rfl
  · exact List.find?_eq_none.2 fun y hy hmem =>
      h y (List.contains_iff_mem.1 hmem) ⟨Bool.eq_false_of_not_eq_true hpush, hy⟩

/-- Nothing is swapped where everything is in order. -/
theorem orderPass_of_ordered (n : ℕ) {instrs : List NodeId} (h : Ordered (Needs ctx) instrs) :
    (orderPass ctx n instrs).2 = false := by
  induction n generalizing instrs with
  | zero => rfl
  | succ n ih =>
    cases instrs with
    | nil => rfl
    | cons instr rest =>
      obtain ⟨hfirst, hrest⟩ := List.pairwise_cons.1 h
      unfold orderPass
      rw [find?_needs_eq_none hfirst]
      exact ih hrest

/-- The loop comes to its end exactly when fewer passes than its budget put everything in order. -/
theorem orderLoop_isSome_iff {passes : ℕ} {instrs : List NodeId} :
    (orderLoop ctx passes instrs).isSome = true ↔
      ∃ n < passes, Ordered (Needs ctx) ((swapPass ctx)^[n] instrs) := by
  induction passes generalizing instrs with
  | zero => simp [orderLoop]
  | succ passes ih =>
    unfold orderLoop
    dsimp only
    by_cases hord : Ordered (Needs ctx) instrs
    · rw [if_neg (by rw [orderPass_of_ordered _ hord]; decide)]
      exact iff_of_true rfl ⟨0, Nat.succ_pos _, hord⟩
    · have hchanged : (orderPass ctx instrs.length instrs).2 = true := by
        by_contra hc
        exact hord (orderPass_ordered le_rfl (Bool.eq_false_of_not_eq_true hc)).2
      rw [if_pos hchanged]
      refine (@ih (swapPass ctx instrs)).trans ⟨?_, ?_⟩
      · rintro ⟨n, hn, h⟩
        exact ⟨n + 1, Nat.succ_lt_succ hn, by rwa [Function.iterate_succ_apply]⟩
      · rintro ⟨_ | n, hn, h⟩
        · exact absurd h hord
        · exact ⟨n, Nat.lt_of_succ_lt_succ hn, by rwa [Function.iterate_succ_apply] at h⟩

theorem swapPass_cons_of_none {x : NodeId} {rest : List NodeId}
    (h : ∀ y ∈ rest, ¬Needs ctx y x) : swapPass ctx (x :: rest) = x :: swapPass ctx rest := by
  rw [swapPass, List.length_cons]
  unfold orderPass
  rw [find?_needs_eq_none h]
  rfl

/-- The first instruction gives its place to one that it needs. -/
theorem swapPass_cons_of_needs {x : NodeId} {rest : List NodeId}
    (h : ¬∀ y ∈ rest, ¬Needs ctx y x) :
    ∃ y ∈ rest, Needs ctx y x ∧ ∃ rest', swapPass ctx (x :: rest) = y :: rest' := by
  push Not at h
  obtain ⟨y, hy, hpush, hneed⟩ := h
  cases hfind : (needs ctx x).find? rest.contains with
  | none => exact absurd (List.contains_iff_mem.2 hy) (List.find?_eq_none.1 hfind y hneed)
  | some z =>
    refine ⟨z, List.contains_iff_mem.1 (List.find?_some hfind),
      ⟨hpush, List.mem_of_find?_eq_some hfind⟩, ?_⟩
    rw [swapPass, List.length_cons]
    unfold orderPass
    rw [hpush, if_neg (by decide), hfind]
    exact ⟨_, rfl⟩

theorem iterate_swapPass_cons {x : NodeId} (n : ℕ) {rest : List NodeId}
    (h : ∀ y ∈ rest, ¬Needs ctx y x) :
    (swapPass ctx)^[n] (x :: rest) = x :: (swapPass ctx)^[n] rest := by
  induction n generalizing rest with
  | zero => rfl
  | succ n ih =>
    rw [Function.iterate_succ_apply, Function.iterate_succ_apply, swapPass_cons_of_none h]
    exact ih fun y hy => h y ((swapPass_perm rest).mem_iff.1 hy)

/-- The rank of an instruction is above those of what it needs in the block, and at most `depth`. -/
structure Ranked (ctx : BlockCtx) (r : NodeId → ℕ) (depth : ℕ) (instrs : List NodeId) : Prop where
  lt : ∀ a ∈ instrs, ∀ b ∈ instrs, Needs ctx a b → r a < r b
  le : ∀ a ∈ instrs, r a ≤ depth

theorem Ranked.of_subset {r : NodeId → ℕ} {depth : ℕ} {instrs instrs' : List NodeId}
    (h : Ranked ctx r depth instrs) (hs : instrs' ⊆ instrs) : Ranked ctx r depth instrs' where
  lt := fun a ha b hb => h.lt a (hs ha) b (hs hb)
  le := fun a ha => h.le a (hs ha)

/-- The rank of the first instruction falls in every pass until it needs nothing behind it. -/
theorem Ranked.exists_first {r : NodeId → ℕ} {depth : ℕ} {x : NodeId} {rest : List NodeId}
    (h : Ranked ctx r depth (x :: rest)) : ∃ n ≤ r x, ∃ x' rest',
      (swapPass ctx)^[n] (x :: rest) = x' :: rest' ∧ ∀ y ∈ rest', ¬Needs ctx y x' := by
  induction hk : r x using Nat.strong_induction_on generalizing x rest with
  | _ k ih =>
    by_cases hnone : ∀ y ∈ rest, ¬Needs ctx y x
    · exact ⟨0, Nat.zero_le _, x, rest, rfl, hnone⟩
    · obtain ⟨y, hy, hneed, rest₁, hpass⟩ := swapPass_cons_of_needs hnone
      have hperm := @swapPass_perm ctx (x :: rest)
      rw [hpass] at hperm
      have hlt := h.lt y (List.mem_cons_of_mem _ hy) x List.mem_cons_self hneed
      obtain ⟨n, hn, x', rest', hiter, hfirst⟩ :=
        ih (r y) (hk ▸ hlt) (h.of_subset hperm.subset) rfl
      refine ⟨n + 1, by omega, x', rest', ?_, hfirst⟩
      rw [Function.iterate_succ_apply, hpass, hiter]

/-- One place after the other takes at most `depth` passes. -/
theorem Ranked.exists_ordered {r : NodeId → ℕ} {depth : ℕ} {instrs : List NodeId}
    (h : Ranked ctx r depth instrs) :
    ∃ n ≤ instrs.length * depth, Ordered (Needs ctx) ((swapPass ctx)^[n] instrs) := by
  induction hlen : instrs.length generalizing instrs with
  | zero =>
    obtain rfl := List.eq_nil_of_length_eq_zero hlen
    exact ⟨0, Nat.zero_le _, List.Pairwise.nil⟩
  | succ len ih =>
    obtain ⟨x, rest, rfl⟩ := List.exists_cons_of_length_eq_add_one hlen
    obtain ⟨n, hn, x', rest', hiter, hfirst⟩ := h.exists_first
    have hperm := @iterate_swapPass_perm ctx n (x :: rest)
    rw [hiter] at hperm
    have hlen' : rest'.length = len := by
      have := hperm.length_eq
      rw [hlen, List.length_cons] at this
      omega
    have hranked := h.of_subset fun y hy => hperm.subset (List.mem_cons_of_mem x' hy)
    obtain ⟨m, hm, hord⟩ := ih hranked hlen'
    have hle := h.le x List.mem_cons_self
    refine ⟨m + n, ?_, ?_⟩
    · rw [Nat.succ_mul]
      omega
    · rw [Function.iterate_add_apply, hiter, iterate_swapPass_cons m hfirst]
      refine List.Pairwise.cons (fun y hy => hfirst y ?_) hord
      exact (iterate_swapPass_perm m rest').mem_iff.1 hy

/-- The budget is enough for every block whose length times its depth is below it. -/
theorem settles_of_ranked {r : NodeId → ℕ} {depth : ℕ} {instrs : List NodeId}
    (h : Ranked ctx r depth instrs) (hbudget : instrs.length * depth < 999) :
    Settles ctx instrs := by
  have hperm := (@pushUp_spec ctx [] [] instrs).1
  obtain ⟨n, hn, hord⟩ := (h.of_subset hperm.subset).exists_ordered
  rw [hperm.length_eq] at hn
  exact ⟨n, hn.trans_lt hbudget, hord⟩

/-! ### Nodes with a single use -/

/-- What the block has to be for the steps to work: nodes of the graph, each once. -/
structure BlockOk (prc : Proc) (instrs : List NodeId) : Prop where
  nodup : instrs.Nodup
  ne_zero : ∀ id ∈ instrs, id ≠ 0
  live : ∀ id ∈ instrs, prc.live id = true

theorem BlockOk.perm {prc : Proc} {instrs instrs' : List NodeId} (h : BlockOk prc instrs)
    (hp : instrs'.Perm instrs) : BlockOk prc instrs' where
  nodup := hp.nodup_iff.2 h.nodup
  ne_zero := fun id hid => h.ne_zero id (hp.mem_iff.1 hid)
  live := fun id hid => h.live id (hp.mem_iff.1 hid)

theorem two_le_length {a b : NodeOutput} {l : List NodeOutput} (ha : a ∈ l) (hb : b ∈ l)
    (hab : a ≠ b) : 2 ≤ l.length := by
  have hsub : [a, b] ⊆ l := by
    intro x hx
    rcases List.mem_pair.1 hx with rfl | rfl <;> assumption
  exact (List.subperm_of_subset (by simp [hab]) hsub).length_le

variable (hD : ctx.prc.DefUse) (hanti : ∀ a b, a ∈ ctx.antideps b → 1 ≤ ctx.extraOutputs a)

include hD in
/-- A use in the block is listed by what is used. -/
theorem exists_mem_outs {instrs : List NodeId} (hok : BlockOk ctx.prc instrs) {a b : NodeId}
    (ha : a ∈ instrs) (hb : b ∈ instrs) (hab : a ∈ (ctx.prc.getNode b).inps) :
    ∃ i, (⟨b, i⟩ : NodeOutput) ∈ (ctx.prc.getNode a).outs := by
  obtain ⟨i, hi⟩ := List.mem_iff_getElem?.1 hab
  exact ⟨i, (hD.mem_outs_iff a (hok.ne_zero a ha) (hok.live a ha) b i).2 ⟨hok.live b hb, hi⟩⟩

theorem sinkAt_perm (i : ℕ) (instrs : List NodeId) : (sinkAt ctx i instrs).Perm instrs := by
  unfold sinkAt
  dsimp only
  split
  · exact List.Perm.refl _
  · refine rotateLeft_perm _ ?_
    exact (List.idxOf_le_length).trans (List.length_take_le _ _)

theorem sink_perm (i : ℕ) (instrs : List NodeId) : (sink ctx i instrs).Perm instrs := by
  induction i generalizing instrs with
  | zero => exact List.Perm.refl _
  | succ i ih => exact (ih _).trans (sinkAt_perm i instrs)

include hD hanti

/-- A node with a single use can go to it: nothing else needs it. -/
theorem ordered_sinkAt {i : ℕ} {instrs : List NodeId} (hok : BlockOk ctx.prc instrs)
    (hi : i < instrs.length) (h : Ordered (Needs ctx) instrs) :
    Ordered (Needs ctx) (sinkAt ctx i instrs) := by
  unfold sinkAt
  dsimp only
  split
  · exact h
  next inp hinp =>
  have hmem := List.mem_reverse.1 (List.mem_of_find?_eq_some hinp)
  have hcond := List.find?_some hinp
  simp only [Bool.and_eq_true, decide_eq_true_eq, List.contains_iff_mem] at hcond
  obtain ⟨⟨hcount, -⟩, htake⟩ := hcond
  have hpos := List.idxOf_lt_length_of_mem htake
  rw [List.length_take, Nat.min_eq_left hi.le] at hpos
  have hin := List.mem_of_mem_take htake
  have hget : instrs.getD i 0 = instrs[i] := by
    rw [List.getD_eq_getElem?_getD, List.getElem?_eq_getElem hi, Option.getD_some]
  rw [hget] at hmem
  obtain ⟨j, hj⟩ := exists_mem_outs hD hok hin (List.getElem_mem hi) hmem
  have hget' : instrs[(instrs.take i).idxOf inp]? = some inp := by
    rw [← List.getElem?_take_of_lt hpos]
    exact List.getElem?_idxOf htake
  refine h.rotateLeft hpos hi.le hget' fun b hb hneed => ?_
  have hb' := List.mem_of_mem_drop hb
  have hbi : b ≠ instrs[i] := by
    rintro rfl
    obtain ⟨k, hk, hke⟩ := List.mem_take_iff_getElem.1 hb'
    have := (hok.nodup.getElem_inj_iff).1 hke
    omega
  rcases List.mem_append.1 hneed.2 with hdata | hant
  · obtain ⟨j', hj'⟩ := exists_mem_outs hD hok hin (List.mem_of_mem_take hb') hdata
    have := two_le_length hj hj' fun he => hbi (congrArg NodeOutput.id he).symm
    omega
  · have h1 := hanti inp b hant
    have h2 := List.length_pos_of_mem hj
    omega

/-- **The first steps keep to inputs and anti-dependences.** -/
theorem ordered_sink {i : ℕ} {instrs : List NodeId} (hok : BlockOk ctx.prc instrs)
    (hi : i ≤ instrs.length) (h : Ordered (Needs ctx) instrs) :
    Ordered (Needs ctx) (sink ctx i instrs) := by
  induction i generalizing instrs with
  | zero => exact h
  | succ i ih =>
    have hp : (sinkAt ctx i instrs).Perm instrs := sinkAt_perm i instrs
    refine ih (hok.perm hp) ?_ (ordered_sinkAt hD hanti hok hi h)
    rw [hp.length_eq]
    exact Nat.le_of_succ_le hi

end Order

/-! ### Moving down -/

section PushDown

variable {ctx : BlockCtx}

/-- The value is carried to the next round by one of the phis. -/
def Carried (ctx : BlockCtx) (phis : List NodeId) (a : NodeId) : Prop :=
  ∃ phi ∈ phis, (ctx.prc.getNode phi).dt ≠ .void ∧ (ctx.prc.getNode phi).dt ≠ .mem ∧
    (ctx.prc.getNode phi).inp 2 = a

/-- What `push_down` keeps: inputs, and anti-dependences on what is not carried. -/
def Keeps (ctx : BlockCtx) (phis : List NodeId) (a b : NodeId) : Prop :=
  pushedUp ctx.prc b = false ∧ (a ∈ (ctx.prc.getNode b).inps ∨ a ∈ ctx.antideps b ∧ ¬ Carried ctx phis a)

theorem mem_drop_take_of_le {instrs : List NodeId} {pos low low' : ℕ} {x : NodeId} (h : low' ≤ low)
    (hx : x ∈ (instrs.take low').drop pos) : x ∈ (instrs.take low).drop pos := by
  rw [← Nat.min_eq_left h, ← List.take_take, List.drop_take] at hx
  exact List.mem_of_mem_take hx

/-- There is no other use before the lowest place. -/
theorem lowestSchedule_spec (instrs : List NodeId) (phi : NodeId) (outs : List NodeOutput)
    {pos lowest : ℕ} (hpos : pos ≤ lowest) :
    pos ≤ lowestSchedule instrs phi pos outs lowest ∧
      lowestSchedule instrs phi pos outs lowest ≤ lowest ∧
      ∀ out ∈ outs, out.id ≠ phi →
        out.id ∉ (instrs.take (lowestSchedule instrs phi pos outs lowest)).drop pos := by
  induction outs generalizing lowest with
  | nil => exact ⟨hpos, le_rfl, fun out hout => by cases hout⟩
  | cons e outs ih =>
    unfold lowestSchedule
    rw [List.foldl_cons]
    split_ifs with he
    · obtain ⟨h1, h2, h3⟩ := ih hpos
      refine ⟨h1, h2, fun out hout hne => ?_⟩
      rcases List.mem_cons.1 hout with rfl | hout
      · exact absurd he hne
      · exact h3 out hout hne
    · split
      · next hnone =>
        obtain ⟨h1, h2, h3⟩ := ih hpos
        refine ⟨h1, h2, fun out hout hne hmem => ?_⟩
        rcases List.mem_cons.1 hout with rfl | hout
        · exact List.idxOf?_eq_none_iff.1 hnone (mem_drop_take_of_le h2 hmem)
        · exact h3 out hout hne hmem
      · next posa hsome =>
        obtain ⟨h1, h2, h3⟩ := ih (show pos ≤ min lowest (posa + pos) by omega)
        refine ⟨h1, h2.trans (Nat.min_le_left _ _), fun out hout hne hmem => ?_⟩
        rcases List.mem_cons.1 hout with rfl | hout
        · -- the first place of `out` is `posa`
          have hmem := mem_drop_take_of_le (h2.trans (Nat.min_le_right _ _)) hmem
          obtain ⟨hlt, -, hfirst⟩ := List.idxOf?_eq_some_iff.1 hsome
          rw [List.length_drop, List.length_take] at hlt
          obtain ⟨k, hk, hke⟩ := List.mem_iff_getElem.1 hmem
          rw [List.length_drop, List.length_take] at hk
          refine hfirst k (by omega) ?_
          rw [List.getElem_drop, List.getElem_take] at hke ⊢
          exact hke
        · exact h3 out hout hne hmem

theorem boundary_le (instrs : List NodeId) (b : ℕ) : boundary ctx instrs b ≤ b := by
  induction b with
  | zero => exact le_rfl
  | succ b ih =>
    unfold boundary
    split_ifs
    · exact ih.trans (Nat.le_succ b)
    · exact le_rfl

/-- A value is moved over nothing that uses it. -/
theorem pushDownPhi_spec (hD : ctx.prc.DefUse) {phis instrs : List NodeId} {bound : ℕ}
    {phi : NodeId} (hok : BlockOk ctx.prc instrs) (hphis : ∀ id ∈ phis, pushedUp ctx.prc id = true)
    (hphi : phi ∈ phis) (hbound : bound < instrs.length)
    (h : Ordered (Keeps ctx phis) instrs) :
    (pushDownPhi ctx phis.length bound instrs phi).Perm instrs ∧
      (pushDownPhi ctx phis.length bound instrs phi).getLast? = instrs.getLast? ∧
      Ordered (Keeps ctx phis) (pushDownPhi ctx phis.length bound instrs phi) := by
  unfold pushDownPhi
  dsimp only
  split_ifs with hdt
  · exact ⟨List.Perm.refl _, rfl, h⟩
  split
  · exact ⟨List.Perm.refl _, rfl, h⟩
  next pos hpos =>
  obtain ⟨hlt, hget, -⟩ := List.idxOf?_eq_some_iff.1 hpos
  rw [List.length_drop, List.length_take] at hlt
  rw [List.getElem_drop, List.getElem_take] at hget
  have hposlt : pos + phis.length < bound := by omega
  obtain ⟨x, hx⟩ : ∃ x, x = (ctx.prc.getNode phi).inp 2 := ⟨_, rfl⟩
  rw [← hx] at hget ⊢
  obtain ⟨h1, h2, h3⟩ := lowestSchedule_spec instrs phi (ctx.prc.getNode x).outs hposlt.le
  generalize lowestSchedule instrs phi (pos + phis.length) (ctx.prc.getNode x).outs bound = low at *
  have hidx : phis.length + pos = pos + phis.length := Nat.add_comm _ _
  have hxget : instrs[pos + phis.length]? = some x := by
    rw [List.getElem?_eq_getElem (by omega)]
    simp only [hidx] at hget
    rw [hget]
  refine ⟨rotateLeft_perm _ h1, getLast?_rotateLeft (by omega), ?_⟩
  rcases Nat.eq_or_lt_of_le h1 with heq | hlt'
  · rw [← heq, rotateLeft_self]
    exact h
  refine h.rotateLeft hlt' (by omega) hxget ?_
  rintro b hb ⟨hpush, hdata | ⟨-, hnc⟩⟩
  · have hbin : b ∈ instrs := List.mem_of_mem_take (List.mem_of_mem_drop hb)
    obtain ⟨i, hi⟩ := exists_mem_outs hD hok (List.mem_of_getElem? hxget) hbin hdata
    refine h3 _ hi ?_ ?_
    · rintro rfl
      rw [hphis _ hphi] at hpush
      cases hpush
    · rw [← List.drop_drop] at hb
      exact List.mem_of_mem_drop hb
  · rw [not_or] at hdt
    exact hnc ⟨phi, hphi, hdt.1, hdt.2, hx.symm⟩

theorem foldl_pushDownPhi (hD : ctx.prc.DefUse) {phis instrs : List NodeId} {bound : ℕ}
    (hok : BlockOk ctx.prc instrs) (hphis : ∀ id ∈ phis, pushedUp ctx.prc id = true)
    (hbound : bound < instrs.length) (h : Ordered (Keeps ctx phis) instrs) (ps : List NodeId)
    (hps : ∀ phi ∈ ps, phi ∈ phis) :
    (ps.foldl (pushDownPhi ctx phis.length bound) instrs).Perm instrs ∧
      (ps.foldl (pushDownPhi ctx phis.length bound) instrs).getLast? = instrs.getLast? ∧
      Ordered (Keeps ctx phis) (ps.foldl (pushDownPhi ctx phis.length bound) instrs) := by
  induction ps generalizing instrs with
  | nil => exact ⟨List.Perm.refl _, rfl, h⟩
  | cons phi ps ih =>
    obtain ⟨h1, h2, h3⟩ := pushDownPhi_spec hD hok hphis (hps phi List.mem_cons_self) hbound h
    obtain ⟨h1', h2', h3'⟩ := ih (hok.perm h1) (by rw [h1.length_eq]; exact hbound) h3
      fun p hp => hps p (List.mem_cons_of_mem _ hp)
    exact ⟨h1'.trans h1, h2'.trans h2, h3'⟩

/-- **`push_down` keeps to the inputs**, and to the rest of what it does not move. -/
theorem pushDown_spec (hD : ctx.prc.DefUse) {phis instrs : List NodeId}
    (hok : BlockOk ctx.prc instrs) (hphis : ∀ id ∈ phis, pushedUp ctx.prc id = true)
    (h : Ordered (Needs ctx) instrs) :
    (pushDown ctx phis instrs).Perm instrs ∧
      (pushDown ctx phis instrs).getLast? = instrs.getLast? ∧
      Ordered (Keeps ctx phis) (pushDown ctx phis instrs) := by
  have hkeeps : Ordered (Keeps ctx phis) instrs := h.mono fun a b ⟨hb, hab⟩ =>
    ⟨hb, List.mem_append.2 (hab.imp id And.left)⟩
  unfold pushDown
  dsimp only
  split_ifs with hb
  · exact ⟨List.Perm.refl _, rfl, hkeeps⟩
  rcases instrs.eq_nil_or_concat with rfl | ⟨l, t, rfl⟩
  · rw [List.length_nil, boundary, not_lt, Nat.le_zero, List.length_eq_zero_iff] at hb
    rw [hb]
    exact ⟨List.Perm.refl _, rfl, List.Pairwise.nil⟩
  · refine foldl_pushDownPhi hD hok hphis ?_ hkeeps phis fun _ => id
    have hle : boundary ctx (l.concat t) ((l.concat t).length - 1) ≤ _ := boundary_le _ _
    rw [List.length_concat] at hle ⊢
    omega

end PushDown

/-! ### The end of the block -/

section Last

variable {ctx : BlockCtx} {t : NodeId}

theorem getLast?_set {l : List NodeId} {i : ℕ} {a : NodeId} (hi : i < l.length)
    (h : i + 1 ≠ l.length) :
    (l.set i a).getLast? = l.getLast? := by
  rw [List.getLast?_eq_getElem?, List.getLast?_eq_getElem?, List.length_set,
    List.getElem?_set_ne (by omega)]

theorem getLast?_cons_of_some {l : List NodeId} {a : NodeId} (h : l.getLast? = some t) :
    (a :: l).getLast? = some t := by
  rw [List.getLast?_cons, h, Option.getD_some]

theorem getLast?_pushUp {front mid instrs : List NodeId}
    (ht : (mid ++ instrs).getLast? = some t) (hpush : pushedUp ctx.prc t = false) :
    (pushUp ctx front mid instrs).2.getLast? = some t := by
  induction instrs generalizing front mid with
  | nil =>
    rw [List.append_nil] at ht
    exact ht
  | cons instr rest ih =>
    unfold pushUp
    split_ifs with hp
    · refine ih ?_
      rcases rest.eq_nil_or_concat with rfl | ⟨l, z, rfl⟩
      · rw [List.getLast?_concat, Option.some.injEq] at ht
        rw [← ht, hp] at hpush
        cases hpush
      · rw [List.concat_eq_append, ← List.append_assoc, List.getLast?_concat]
        rw [List.concat_eq_append, ← List.cons_append, ← List.append_assoc,
          List.getLast?_concat] at ht
        exact ht
    · refine ih ?_
      rwa [List.append_assoc, List.singleton_append]

/-- What nothing needs stays at the end. -/
theorem getLast?_orderPass {n : ℕ} {instrs : List NodeId} (ht : instrs.getLast? = some t)
    (hneed : ∀ x ∈ instrs, t ∉ needs ctx x) : (orderPass ctx n instrs).1.getLast? = some t := by
  induction n generalizing instrs with
  | zero => exact ht
  | succ n ih =>
    cases instrs with
    | nil => exact ht
    | cons instr rest =>
      have hrest : rest ≠ [] → rest.getLast? = some t := by
        intro hne
        rw [← ht, ← List.singleton_append, List.getLast?_append_of_ne_nil _ hne]
      unfold orderPass
      split
      · rcases eq_or_ne rest [] with rfl | hne
        · cases n <;> exact ht
        · exact getLast?_cons_of_some (ih (hrest hne)
            fun x hx => hneed x (List.mem_cons_of_mem _ hx))
      · next inp hinp =>
        split_ifs at hinp
        have hmem : inp ∈ rest := List.contains_iff_mem.1 (List.find?_some hinp)
        have hlast := hrest (List.ne_nil_of_mem hmem)
        have hlt := List.idxOf_lt_length_of_mem hmem
        refine getLast?_cons_of_some (ih ?_ fun x hx => hneed x ?_)
        · rw [getLast?_set hlt, hlast]
          intro heq
          rw [List.getLast?_eq_getElem?, ← heq, Nat.add_sub_cancel, List.getElem?_idxOf hmem,
            Option.some.injEq] at hlast
          exact hneed instr List.mem_cons_self (hlast ▸ List.mem_of_find?_eq_some hinp)
        · rcases List.mem_or_eq_of_mem_set hx with hx | rfl
          · exact List.mem_cons_of_mem _ hx
          · exact List.mem_cons_self

theorem getLast?_orderLoop {passes : ℕ} {instrs instrs' : List NodeId}
    (h : orderLoop ctx passes instrs = some instrs') (ht : instrs.getLast? = some t)
    (hneed : ∀ x ∈ instrs, t ∉ needs ctx x) : instrs'.getLast? = some t := by
  induction passes generalizing instrs with
  | zero => cases h
  | succ passes ih =>
    have hpass : (orderPass ctx instrs.length instrs).1.getLast? = some t :=
      getLast?_orderPass ht hneed
    unfold orderLoop at h
    dsimp only at h
    split_ifs at h with hc
    · exact ih h hpass fun x hx => hneed x ((orderPass_perm _ _).mem_iff.1 hx)
    · rwa [← Option.some.inj h]

theorem getLast?_sink {i : ℕ} {instrs : List NodeId} (hi : i ≤ instrs.length) :
    (sink ctx i instrs).getLast? = instrs.getLast? := by
  induction i generalizing instrs with
  | zero => rfl
  | succ i ih =>
    have hp : (sinkAt ctx i instrs).Perm instrs := sinkAt_perm i instrs
    have hat : (sinkAt ctx i instrs).getLast? = instrs.getLast? := by
      unfold sinkAt
      dsimp only
      split
      · rfl
      · exact getLast?_rotateLeft hi
    exact (ih (by rw [hp.length_eq]; omega)).trans hat

/-- What is at the end comes after everything else. -/
theorem idxOf_lt_of_getLast? {l : List NodeId} (hl : l.Nodup) (ht : l.getLast? = some t)
    {a : NodeId} (ha : a ∈ l) (hne : a ≠ t) : l.idxOf a < l.idxOf t := by
  rcases l.eq_nil_or_concat with rfl | ⟨l, z, rfl⟩
  · cases ha
  rw [List.concat_eq_append] at *
  rw [List.getLast?_concat, Option.some.injEq] at ht
  subst ht
  have hal : a ∈ l := by simpa [hne] using ha
  have hz : z ∉ l := fun hz => (List.nodup_append.1 hl).2.2 z hz z (List.mem_singleton_self z) rfl
  rw [List.idxOf_append_of_mem hal, List.idxOf_append_of_notMem hz]
  have := List.idxOf_lt_length_of_mem hal
  omega

end Last

/-! ### The anti-dependences of the loads -/

section Antideps

variable {late : NodeId → NodeId}

/-- What is known about the lists: a load on them counts as used, and is one of the `loads`. -/
def AntidepsOk (loads : List NodeId) (ctx : BlockCtx) : Prop :=
  ∀ a b, a ∈ ctx.antideps b → 1 ≤ ctx.extraOutputs a ∧ a ∈ loads

variable {ctx : BlockCtx} {id lca a b : NodeId} {loads : List NodeId}

theorem addAntidep_prc (out : NodeOutput) : (ctx.addAntidep late id lca out).prc = ctx.prc := by
  unfold BlockCtx.addAntidep
  split_ifs <;> rfl

theorem AntidepsOk.addAntidep (h : AntidepsOk loads ctx) (hid : id ∈ loads) (out : NodeOutput) :
    AntidepsOk loads (ctx.addAntidep late id lca out) := by
  unfold BlockCtx.addAntidep
  split_ifs with hc
  swap
  · exact h
  have hextra (a : NodeId) : ctx.extraOutputs a ≤
      Function.update ctx.extraOutputs id (ctx.extraOutputs id + 1) a := by
    by_cases ha : a = id
    · subst ha
      rw [Function.update_self]
      exact Nat.le_succ _
    · rw [Function.update_of_ne ha]
  intro a b hab
  dsimp only at hab ⊢
  by_cases hb : b = out.id
  · subst hb
    rw [Function.update_self, List.mem_append, List.mem_singleton] at hab
    rcases hab with hab | rfl
    · exact ⟨(h a _ hab).1.trans (hextra a), (h a _ hab).2⟩
    · rw [Function.update_self]
      exact ⟨Nat.succ_le_succ (Nat.zero_le _), hid⟩
  · rw [Function.update_of_ne hb] at hab
    exact ⟨(h a b hab).1.trans (hextra a), (h a b hab).2⟩

theorem mem_addAntidep (h : a ∈ ctx.antideps b) (out : NodeOutput) :
    a ∈ (ctx.addAntidep late id lca out).antideps b := by
  unfold BlockCtx.addAntidep
  split_ifs
  · dsimp only
    by_cases hb : b = out.id
    · subst hb
      rw [Function.update_self]
      exact List.mem_append_left _ h
    · rwa [Function.update_of_ne hb]
  · exact h

theorem mem_addAntidep_self {out : NodeOutput} (hs : (ctx.prc.getNode out.id).isStore = true)
    (hl : late out.id = lca) : id ∈ (ctx.addAntidep late id lca out).antideps out.id := by
  unfold BlockCtx.addAntidep
  rw [if_pos ⟨hs, hl⟩]
  dsimp only
  rw [Function.update_self]
  exact List.mem_append_right _ (List.mem_singleton_self id)

theorem foldl_addAntidep (outs : List NodeOutput) :
    let ctx' := outs.foldl (BlockCtx.addAntidep late id lca) ctx
    ctx'.prc = ctx.prc ∧ (AntidepsOk loads ctx → id ∈ loads → AntidepsOk loads ctx') ∧
      (∀ a b, a ∈ ctx.antideps b → a ∈ ctx'.antideps b) ∧
      ∀ out ∈ outs, (ctx.prc.getNode out.id).isStore = true → late out.id = lca →
        id ∈ ctx'.antideps out.id := by
  induction outs generalizing ctx with
  | nil => exact ⟨rfl, fun h _ => h, fun _ _ h => h, fun out hout => by cases hout⟩
  | cons e outs ih =>
    obtain ⟨h1, h2, h3, h4⟩ := @ih (ctx.addAntidep late id lca e)
    refine ⟨h1.trans (addAntidep_prc e), fun h hid => h2 (h.addAntidep hid e) hid,
      fun a b hab => h3 a b (mem_addAntidep hab e), fun out hout hs hl => ?_⟩
    rcases List.mem_cons.1 hout with rfl | hout
    · exact h3 _ _ (mem_addAntidep_self hs hl)
    · exact h4 out hout (by rwa [addAntidep_prc]) hl

theorem foldl_addMemAntideps {prc : Proc} {loads : List NodeId} (ls : List (NodeId × NodeId))
    (hp : ctx.prc = prc) (hok : AntidepsOk loads ctx) (hsub : ∀ load ∈ ls, load.1 ∈ loads) :
    let ctx' := ls.foldl (fun ctx load => ctx.addMemAntideps late load.1 load.2) ctx
    ctx'.prc = prc ∧ AntidepsOk loads ctx' ∧ (∀ a b, a ∈ ctx.antideps b → a ∈ ctx'.antideps b) ∧
      ∀ load ∈ ls, ∀ out ∈ (prc.getNode ((prc.getNode load.1).inp 1)).outs,
        (prc.getNode out.id).isStore = true → late out.id = load.2 →
        load.1 ∈ ctx'.antideps out.id := by
  induction ls generalizing ctx with
  | nil => exact ⟨hp, hok, fun _ _ h => h, fun load hload => by cases hload⟩
  | cons load ls ih =>
    obtain ⟨h1, h2, h3, h4⟩ := @foldl_addAntidep late ctx load.1 load.2 loads
      (ctx.prc.getNode ((ctx.prc.getNode load.1).inp 1)).outs
    have hok' := h2 hok (hsub load List.mem_cons_self)
    obtain ⟨h1', h2', h3', h4'⟩ := ih (h1.trans hp) hok'
      fun l hl => hsub l (List.mem_cons_of_mem _ hl)
    refine ⟨h1', h2', fun a b hab => h3' a b (h3 a b hab), fun l hl out hout hs hlate => ?_⟩
    rcases List.mem_cons.1 hl with rfl | hl
    · exact h3' _ _ (h4 out (by rwa [hp]) (by rwa [hp]) hlate)
    · exact h4' l hl out hout hs hlate

/-- **The context has the anti-dependences of all loads.** -/
theorem blockCtx_spec (prc : Proc) (loads : List (NodeId × NodeId)) :
    (blockCtx prc late loads).prc = prc ∧
      AntidepsOk (loads.map Prod.fst) (blockCtx prc late loads) ∧
      ∀ load ∈ loads, ∀ out ∈ (prc.getNode ((prc.getNode load.1).inp 1)).outs,
        (prc.getNode out.id).isStore = true → late out.id = load.2 →
        load.1 ∈ (blockCtx prc late loads).antideps out.id := by
  obtain ⟨h1, h2, -, h4⟩ := @foldl_addMemAntideps late { prc } prc (loads.map Prod.fst) loads rfl
    (fun a b hab => by cases hab) fun load hload => List.mem_map_of_mem hload
  exact ⟨h1, h2, h4⟩

end Antideps

/-! ### All dependences -/

/-- What is handed to the scheduler: the nodes that were placed in a block, and its tail. -/
structure BlockIn (prc : Proc) (instrs : List NodeId) : Prop extends BlockOk prc instrs where
  irrefl : ∀ id ∈ instrs, (prc.getNode id).itype ≠ .phi → id ∉ (prc.getNode id).inps
  /-- These hang on the start of the block only. -/
  pinned : ∀ id ∈ instrs, (prc.getNode id).itype = .ret ∨ (prc.getNode id).itype = .param →
    ∀ inp ∈ (prc.getNode id).inps, inp ∉ instrs
  /-- A call ends its block. -/
  calls : ∀ id ∈ instrs, (prc.getNode id).itype = .call →
    instrs.getLast? = some id ∧ ∀ x ∈ instrs, id ∉ (prc.getNode x).inps

/-- A load, of some memory. -/
structure IsLoad (prc : Proc) (id : NodeId) : Prop where
  isLoad : (prc.getNode id).isLoad = true
  isStore : (prc.getNode id).isStore = false
  itype : (prc.getNode id).itype ≠ .call
  mem : (prc.getNode id).inp 1 ≠ 0

/-- The node is a store or a call that overwrites the memory that the load reads. -/
def OverwritesLoad (prc : Proc) (load id : NodeId) : Prop :=
  ((prc.getNode id).isStore = true ∧ pushedUp prc id = false ∨ (prc.getNode id).itype = .call) ∧
    (prc.getNode id).inp 1 = (prc.getNode load).inp 1

/-- One node of the block is an input of another one. -/
def BlockUse (prc : Proc) (instrs : List NodeId) (a b : NodeId) : Prop :=
  a ∈ instrs ∧ b ∈ instrs ∧ pushedUp prc b = false ∧ a ∈ (prc.getNode b).inps

/-- The order has every node after its inputs, and every load before what overwrites its memory. -/
structure Dependences (prc : Proc) (instrs order : List NodeId) : Prop where
  perm : order.Perm instrs
  inputs : ∀ id ∈ instrs, (prc.getNode id).itype ≠ .phi → ∀ inp ∈ (prc.getNode id).inps,
    inp ∈ instrs → order.idxOf inp < order.idxOf id
  antideps : ∀ load ∈ instrs, ∀ id ∈ instrs, IsLoad prc load → OverwritesLoad prc load id →
    order.idxOf load < order.idxOf id

/-- The loads that the context has been made from: all those of the block, and only loads. -/
structure LoadsOk (prc : Proc) (late : NodeId → NodeId) (loads : List (NodeId × NodeId))
    (head : NodeId) (instrs : List NodeId) : Prop where
  complete : ∀ load ∈ instrs, IsLoad prc load → (load, head) ∈ loads
  isLoad : ∀ load ∈ loads, IsLoad prc load.1
  late : ∀ id ∈ instrs, late id = head

/-- What `push_down` takes for granted: a store that overwrites the memory of a load whose value is
carried to the next round uses that value itself. -/
def CarriedLoadsUsed (prc : Proc) (head : NodeId) (instrs : List NodeId) : Prop :=
  (prc.getNode head).itype = .loop → ∀ load ∈ instrs, ∀ id ∈ instrs, IsLoad prc load →
    (prc.getNode id).isStore = true → OverwritesLoad prc load id →
    (∃ phi ∈ instrs, pushedUp prc phi = true ∧ (prc.getNode phi).dt ≠ .void ∧
      (prc.getNode phi).dt ≠ .mem ∧ (prc.getNode phi).inp 2 = load) →
    Relation.TransGen (BlockUse prc instrs) load id

section Schedule

variable {prc : Proc} {late : NodeId → NodeId} {loads : List (NodeId × NodeId)} {head : NodeId}
  {instrs order : List NodeId}

/-- A store in the block has the load among its anti-dependences. -/
theorem mem_antideps (hD : prc.DefUse) (hin : BlockOk prc instrs)
    (hloads : LoadsOk prc late loads head instrs) {load id : NodeId} (hload : load ∈ instrs)
    (hid : id ∈ instrs) (hl : IsLoad prc load) (hs : (prc.getNode id).isStore = true)
    (hmem : (prc.getNode id).inp 1 = (prc.getNode load).inp 1) :
    load ∈ (blockCtx prc late loads).antideps id := by
  have hi : (prc.getNode id).inps[1]? = some ((prc.getNode load).inp 1) := by
    rw [← hmem]
    have h0 : (prc.getNode id).inp 1 ≠ 0 := by rw [hmem]; exact hl.mem
    unfold Node.inp at h0 ⊢
    rw [List.getD_eq_getElem?_getD] at h0 ⊢
    cases hget : (prc.getNode id).inps[1]? with
    | none => rw [hget] at h0; exact absurd rfl h0
    | some m => rfl
  have hlive := hD.inps_live id (hin.live id hid) _ (List.mem_of_getElem? hi)
  have hout := (hD.mem_outs_iff _ hl.mem hlive id 1).2 ⟨hin.live id hid, hi⟩
  exact (blockCtx_spec prc loads).2.2 (load, head) (hloads.complete load hload hl) _ hout hs
    (hloads.late id hid)

/-- What the steps make of a block, before it is told what that means. -/
theorem scheduleBlock_ordered {ctx : BlockCtx} (hD : ctx.prc.DefUse) (hin : BlockOk ctx.prc instrs)
    (hanti : ∀ a b, a ∈ ctx.antideps b → 1 ≤ ctx.extraOutputs a)
    (h : scheduleBlock ctx head instrs = some order) :
    ∃ phis, (∀ id ∈ phis, id ∈ instrs ∧ pushedUp ctx.prc id = true) ∧ order.Perm instrs ∧
      (∀ t, instrs.getLast? = some t → pushedUp ctx.prc t = false →
        (∀ x ∈ instrs, t ∉ needs ctx x) → order.getLast? = some t) ∧
      Ordered (Keeps ctx phis) order ∧
      ((ctx.prc.getNode head).itype ≠ .loop → Ordered (Needs ctx) order) := by
  obtain ⟨hpush, hphis⟩ := @pushUp_spec ctx [] [] instrs
  generalize hpr : pushUp ctx [] [] instrs = pr at *
  obtain ⟨phis, rest⟩ := pr
  rw [scheduleBlock, hpr] at h
  dsimp only at h hpush hphis
  obtain ⟨o₁, ho₁, h⟩ := Option.bind_eq_some_iff.1 h
  obtain ⟨hperm₁, hord₁⟩ := orderLoop_spec ho₁
  have hp₁ : o₁.Perm instrs := hperm₁.trans hpush
  have hok₁ := hin.perm hp₁
  have hp₂ : (sink ctx o₁.length o₁).Perm instrs := (sink_perm _ _).trans hp₁
  have hord₂ := ordered_sink hD hanti hok₁ le_rfl hord₁
  have hlast₂ (t : NodeId) (ht : instrs.getLast? = some t) (hpt : pushedUp ctx.prc t = false)
      (hneed : ∀ x ∈ instrs, t ∉ needs ctx x) : (sink ctx o₁.length o₁).getLast? = some t := by
    have hrest : rest.getLast? = some t := by
      have hpu := @getLast?_pushUp ctx t [] [] instrs ht hpt
      rwa [hpr] at hpu
    have hne : rest ≠ [] := fun he => by rw [he] at hrest; cases hrest
    rw [getLast?_sink le_rfl]
    refine getLast?_orderLoop ho₁ ?_ fun x hx => hneed x (hpush.mem_iff.1 hx)
    rw [List.getLast?_append_of_ne_nil _ hne, hrest]
  have hmem (id : NodeId) (hid : id ∈ phis) : id ∈ instrs ∧ pushedUp ctx.prc id = true :=
    ⟨hpush.mem_iff.1 (List.mem_append_left _ hid), hphis (fun _ h => by cases h) id hid⟩
  refine ⟨phis, hmem, ?_⟩
  split_ifs at h with hloop
  · cases h
    obtain ⟨h1, h2, h3⟩ := pushDown_spec hD (hin.perm hp₂) (fun id hid => (hmem id hid).2) hord₂
    exact ⟨h1.trans hp₂, fun t ht hpt hn => h2.trans (hlast₂ t ht hpt hn), h3,
      fun hne => absurd hloop hne⟩
  · cases h
    exact ⟨hp₂, hlast₂, hord₂.mono fun a b ⟨hb, hab⟩ =>
      ⟨hb, List.mem_append.2 (hab.imp id And.left)⟩, fun _ => hord₂⟩

/-- The scheduler gives an order for the blocks for which the budget is enough. -/
theorem scheduleBlock_isSome_iff (ctx : BlockCtx) (head : NodeId) (instrs : List NodeId) :
    (scheduleBlock ctx head instrs).isSome = true ↔ Settles ctx instrs := by
  rw [Settles, ← orderLoop_isSome_iff, scheduleBlock]
  generalize pushUp ctx [] [] instrs = pr
  obtain ⟨phis, rest⟩ := pr
  dsimp only
  cases orderLoop ctx 999 (phis ++ rest) with
  | none => rfl
  | some instrs' =>
    rw [Option.bind_eq_bind, Option.bind_some]
    split_ifs <;> rfl

/-- An order that the scheduler gives keeps to all dependences where `push_down` has no load to move
over a store. -/
theorem dependences_of_scheduleBlock (hD : prc.DefUse) (hin : BlockIn prc instrs)
    (hloads : LoadsOk prc late loads head instrs) (hsafe : CarriedLoadsUsed prc head instrs)
    (h : scheduleBlock (blockCtx prc late loads) head instrs = some order) :
    Dependences prc instrs order := by
  obtain ⟨hp, hanti, -⟩ := @blockCtx_spec late prc loads
  obtain ⟨phis, hphis, hperm, hlast, hkeeps, hneeds⟩ := scheduleBlock_ordered (by rwa [hp])
    (by rw [hp]; exact hin.toBlockOk) (fun a b hab => (hanti a b hab).1) h
  have hmem {id : NodeId} : id ∈ order ↔ id ∈ instrs := hperm.mem_iff
  rw [hp] at hphis hlast hneeds
  -- an input comes before what uses it
  have hinp {a b : NodeId} (hb : b ∈ instrs) (ha : a ∈ instrs) (hpb : pushedUp prc b = false)
      (hab : a ∈ (prc.getNode b).inps) : order.idxOf a < order.idxOf b := by
    refine hkeeps.idxOf_lt (hmem.2 ha) (hmem.2 hb) ⟨by rwa [hp], .inl (by rwa [hp])⟩ ?_
    rintro rfl
    refine hin.irrefl a hb (fun hphi => ?_) hab
    rw [pushedUp, hphi] at hpb
    cases hpb
  have htrans {a b : NodeId} (hab : Relation.TransGen (BlockUse prc instrs) a b) :
      order.idxOf a < order.idxOf b := by
    induction hab with
    | single hab => exact hinp hab.2.1 hab.1 hab.2.2.1 hab.2.2.2
    | tail _ hbc ih => exact ih.trans (hinp hbc.2.1 hbc.1 hbc.2.2.1 hbc.2.2.2)
  refine ⟨hperm, fun id hid hphi inp hi hii => ?_, fun load hload id hid hl hover => ?_⟩
  · refine hinp hid hii ?_ hi
    by_contra hpush
    unfold pushedUp at hpush
    split at hpush
    · next ht => exact hphi ht
    · next ht => exact hin.pinned id hid (.inl ht) inp hi hii
    · next ht => exact hin.pinned id hid (.inr ht) inp hi hii
    · exact hpush rfl
  rcases hover with ⟨⟨hs, hpush⟩ | hcall, hm⟩
  · have hant := mem_antideps hD hin.toBlockOk hloads hload hid hl hs hm
    have hne : load ≠ id := by
      rintro rfl
      rw [hl.isStore] at hs
      cases hs
    by_cases hloop : (prc.getNode head).itype = .loop
    swap
    · exact (hneeds hloop).idxOf_lt (hmem.2 hload) (hmem.2 hid)
        ⟨by rwa [hp], List.mem_append_right _ hant⟩ hne
    by_cases hcar : Carried (blockCtx prc late loads) phis load
    · obtain ⟨phi, hphi, hd1, hd2, hinp2⟩ := hcar
      rw [hp] at hd1 hd2 hinp2
      have hpath := hsafe hloop load hload id hid hl hs ⟨.inl ⟨hs, hpush⟩, hm⟩
        ⟨phi, (hphis phi hphi).1, (hphis phi hphi).2, hd1, hd2, hinp2⟩
      exact htrans hpath
    · exact hkeeps.idxOf_lt (hmem.2 hload) (hmem.2 hid) ⟨by rwa [hp], .inr ⟨hant, hcar⟩⟩ hne
  · obtain ⟨ht, hunused⟩ := hin.calls id hid hcall
    have hlast' := hlast id ht (by rw [pushedUp, hcall]) fun x hx hneed => by
      rcases List.mem_append.1 hneed with hn | hn
      · rw [hp] at hn
        exact hunused x hx hn
      · obtain ⟨l, hl', he⟩ := List.mem_map.1 (hanti id x hn).2
        exact (hloads.isLoad l hl').itype (he ▸ hcall)
    refine idxOf_lt_of_getLast? (hperm.nodup_iff.2 hin.nodup) hlast' (hmem.2 hload) ?_
    rintro rfl
    exact hl.itype hcall

/-- **A block gets an order that keeps to all dependences**, where `push_down` has no load to move
over a store, exactly when the budget of passes is enough for it. -/
theorem scheduleBlock_dependences (hD : prc.DefUse) (hin : BlockIn prc instrs)
    (hloads : LoadsOk prc late loads head instrs) (hsafe : CarriedLoadsUsed prc head instrs) :
    (∃ order, scheduleBlock (blockCtx prc late loads) head instrs = some order ∧
        Dependences prc instrs order) ↔
      Settles (blockCtx prc late loads) instrs := by
  rw [← scheduleBlock_isSome_iff _ head, Option.isSome_iff_exists]
  constructor
  · rintro ⟨order, h, -⟩
    exact ⟨order, h⟩
  · rintro ⟨order, h⟩
    exact ⟨order, h, dependences_of_scheduleBlock hD hin hloads hsafe h⟩

end Schedule

/-! ### A load that is carried over a store -/

/-- A loop with `x = p^` for the next round and then `p^ = v`: the load is `9`, the store `11`, and
`v` is the loaded value (`uses`) or the parameter `6`. -/
def carryLoad (uses : Bool) : Proc where
  mem := fun id => [
    {},
    { itype := .entry, outs := [⟨2, 0⟩, ⟨4, 0⟩, ⟨5, 0⟩, ⟨6, 0⟩] },
    { itype := .jump, inps := [1], outs := [⟨3, 0⟩] },
    { itype := .loop, inps := [2, 12], outs := [⟨7, 0⟩, ⟨8, 0⟩, ⟨9, 0⟩, ⟨11, 0⟩, ⟨12, 0⟩] },
    { itype := .mem, dt := .mem, isStore := true, inps := [1], outs := [⟨8, 1⟩] },
    { itype := .param, dt := .i64, inps := [1], outs := [⟨9, 2⟩, ⟨11, 2⟩] },
    { itype := .param, dt := .i64, inps := [1],
      outs := if uses then [⟨7, 1⟩] else [⟨7, 1⟩, ⟨11, 3⟩] },
    { itype := .phi, dt := .i64, inps := [3, 6, 9] },
    { itype := .phi, dt := .mem, inps := [3, 4, 11], outs := [⟨9, 1⟩, ⟨11, 1⟩] },
    { itype := .load, dt := .i64, isLoad := true, inps := [3, 8, 5],
      outs := if uses then [⟨7, 2⟩, ⟨11, 3⟩] else [⟨7, 2⟩] },
    { itype := .dead },
    { itype := .store, dt := .mem, isStore := true, inps := [3, 8, 5, if uses then 9 else 6],
      outs := [⟨8, 2⟩] },
    { itype := .jump, inps := [3], outs := [⟨3, 1⟩] }].getD id { itype := .dead }
  pos := 13
  entry := 1
  end_ := 0

/-- The nodes of the loop, in the order in which they were placed. -/
def carryLoadBlock : List NodeId := [7, 8, 9, 11, 12]

theorem defUse_carryLoad (uses : Bool) : (carryLoad uses).DefUse := by
  refine .of_bounded (k := 13) (fun id hid => ?_) ?_ ?_
  · have hd : (carryLoad uses).getNode id = { itype := .dead } :=
      Proc.getNode_of_length_le _ hid (by decide) rfl rfl
    simp [Proc.live, hd]
  · cases uses <;> decide
  · cases uses <;> decide

theorem blockIn_carryLoad (uses : Bool) : BlockIn (carryLoad uses) carryLoadBlock where
  nodup := by decide
  ne_zero := by decide
  live := by cases uses <;> decide
  irrefl := by cases uses <;> decide
  pinned := by cases uses <;> decide
  calls := by cases uses <;> decide

instance (prc : Proc) (id : NodeId) : Decidable (IsLoad prc id) :=
  decidable_of_iff ((prc.getNode id).isLoad = true ∧ (prc.getNode id).isStore = false ∧
    (prc.getNode id).itype ≠ .call ∧ (prc.getNode id).inp 1 ≠ 0)
    ⟨fun ⟨h1, h2, h3, h4⟩ => ⟨h1, h2, h3, h4⟩, fun ⟨h1, h2, h3, h4⟩ => ⟨h1, h2, h3, h4⟩⟩

instance (prc : Proc) (load id : NodeId) : Decidable (OverwritesLoad prc load id) :=
  inferInstanceAs (Decidable (_ ∧ _))

theorem loadsOk_carryLoad (uses : Bool) :
    LoadsOk (carryLoad uses) (fun _ => 3) [(9, 3)] 3 carryLoadBlock where
  complete := by cases uses <;> decide
  isLoad := by cases uses <;> decide
  late := fun _ _ => rfl

theorem carriedLoadsUsed_carryLoad : CarriedLoadsUsed (carryLoad true) 3 carryLoadBlock := by
  have hloads : ∀ load ∈ carryLoadBlock, IsLoad (carryLoad true) load → load = 9 := by decide
  have hstores : ∀ id ∈ carryLoadBlock, ((carryLoad true).getNode id).isStore = true → id = 11 := by
    decide
  intro _ load hload id hid hl hs _ _
  rw [hloads load hload hl, hstores id hid hs]
  exact .single ⟨by decide, by decide, by decide, by decide⟩

theorem settles_carryLoad :
    Settles (blockCtx (carryLoad true) (fun _ => 3) [(9, 3)]) carryLoadBlock := by
  have hneeds : ∀ a ∈ carryLoadBlock, ∀ b ∈ carryLoadBlock,
      pushedUp (carryLoad true) b = false →
        a ∈ needs (blockCtx (carryLoad true) (fun _ => 3) [(9, 3)]) b → a < b := by decide
  have hranked : Ranked (blockCtx (carryLoad true) (fun _ => 3) [(9, 3)]) (fun id => id) 12
      carryLoadBlock := ⟨fun a ha b hb hab => hneeds a ha b hb hab.1 hab.2, by decide⟩
  exact settles_of_ranked hranked (by decide)

/-- The store of the loaded value stays behind the load. -/
theorem scheduleBlock_dependences_carryLoad :
    ∃ order, scheduleBlock (blockCtx (carryLoad true) (fun _ => 3) [(9, 3)]) 3 carryLoadBlock =
      some order ∧ Dependences (carryLoad true) carryLoadBlock order :=
  (scheduleBlock_dependences (defUse_carryLoad true) (blockIn_carryLoad true)
    (loadsOk_carryLoad true) carriedLoadsUsed_carryLoad).2 settles_carryLoad

/-- Any other store comes before it. -/
theorem scheduleBlock_unsound :
    ¬ ∀ (prc : Proc) (late : NodeId → NodeId) (loads : List (NodeId × NodeId)) (head : NodeId)
      (instrs order : List NodeId), prc.DefUse → BlockIn prc instrs →
      LoadsOk prc late loads head instrs →
      scheduleBlock (blockCtx prc late loads) head instrs = some order →
      Dependences prc instrs order := by
  intro h
  have hdep := h (carryLoad false) (fun _ => 3) [(9, 3)] 3 carryLoadBlock [7, 8, 11, 9, 12]
    (defUse_carryLoad false) (blockIn_carryLoad false) (loadsOk_carryLoad false)
    (by decide)
  exact absurd (hdep.antideps 9 (by decide) 11 (by decide) (by decide) (by decide)) (by decide)

end OdinSon
