import OdinSon.Bac.Alias
import OdinSon.Codegen.Amd64FoldSound

/-!
# What a folded load reads

A run of a block goes through its instructions with the values of the nodes and the memory.  Up to
the operation that a load is folded into, the block with the load and the block without it run alike
but for the value of the load (`run_after`), and from the load to the operation the memory stays
what it is, as do the base and the index.  So the operation reads what the load read
(`schedulePeeps_reads`), after whatever foldings.
-/

namespace OdinSon.Codegen.Amd64

open AmdGraph

/-! ### Runs of a block -/

/-- What the code that `emit_instr` emits for a node does. -/
structure RunModel where
  /-- The values of the nodes. -/
  Val : Type
  /-- A value as a word. -/
  word : Val → BitVec 64
  /-- The value and the memory, from what the node is, from its operands, each with what it is, and
  from the memory before. -/
  exec : AmdNode → List (AmdNode × Val) → Memory → Val × Memory
  /-- The code for a node that does not write memory leaves the memory alone. -/
  keeps : ∀ n ops mem, n.writesMemory = false → (exec n ops mem).2 = mem

namespace RunModel

/-- A state. -/
structure State (M : RunModel) where
  /-- The values of the nodes. -/
  env : NodeId → M.Val
  /-- The memory. -/
  mem : Memory

variable (M : RunModel)

/-- What a node does in a state. -/
def result (g : AmdGraph) (st : M.State) (id : NodeId) : M.Val × Memory :=
  M.exec (g.getNode id).data ((g.getNode id).inps.map fun m => ((g.getNode m).data, st.env m)) st.mem

/-- A node that no code is emitted for. -/
def Skipped (g : AmdGraph) (id : NodeId) : Prop :=
  (g.getNode id).isDead = true ∨ (g.getNode id).rtype.isSilent = true

instance (g : AmdGraph) (id : NodeId) : Decidable (Skipped g id) :=
  inferInstanceAs (Decidable (_ ∨ _))

/-- One node of a block. -/
def runInstr (g : AmdGraph) (st : M.State) (id : NodeId) : M.State :=
  if Skipped g id then st
  else { env := Function.update st.env id (M.result g st id).1, mem := (M.result g st id).2 }

/-- The instructions of a block, in order. -/
def run (g : AmdGraph) (instrs : List NodeId) (st : M.State) : M.State :=
  instrs.foldl (M.runInstr g) st

/-- The bytes that the memory operand of a node reads. -/
def bytes (n : AmdNode) (st : M.State) : List (BitVec 8) :=
  st.mem.read (n.address fun m => M.word (st.env m)) n.readDt.size

variable {M} {g : AmdGraph}

theorem runInstr_env {st : M.State} {id m : NodeId} (h : m ≠ id) :
    (M.runInstr g st id).env m = st.env m := by
  unfold runInstr
  split_ifs
  · rfl
  · exact Function.update_of_ne h _ _

theorem runInstr_mem {st : M.State} {id : NodeId}
    (h : (g.getNode id).isDead = true ∨ (g.getNode id).writesMemory = false) :
    (M.runInstr g st id).mem = st.mem := by
  unfold runInstr
  split_ifs with hs
  · rfl
  · exact M.keeps _ _ _ (h.resolve_left fun hd => hs (.inl hd))

/-- A value does not change but by its own node. -/
theorem run_env {instrs : List NodeId} {m : NodeId} (h : m ∉ instrs) (st : M.State) :
    (M.run g instrs st).env m = st.env m := by
  induction instrs generalizing st with
  | nil => rfl
  | cons id instrs ih =>
    rw [List.mem_cons, not_or] at h
    exact (ih h.2 _).trans (runInstr_env h.1)

/-- The memory does not change without a write. -/
theorem run_mem {instrs : List NodeId}
    (h : ∀ id ∈ instrs, (g.getNode id).isDead = true ∨ (g.getNode id).writesMemory = false)
    (st : M.State) : (M.run g instrs st).mem = st.mem := by
  induction instrs generalizing st with
  | nil => rfl
  | cons id instrs ih =>
    exact (ih (fun m hm => h m (List.mem_cons_of_mem _ hm)) _).trans
      (runInstr_mem (h id List.mem_cons_self))

/-- Two states that differ at most in the value of one node. -/
def State.Off (load : NodeId) (st st' : M.State) : Prop :=
  st'.mem = st.mem ∧ ∀ m, m ≠ load → st'.env m = st.env m

end RunModel

section Run

variable {g g₁ : AmdGraph} {bbs : List (List NodeId)} {bb i : ℕ} {b l₁ l₂ : List NodeId}
  {instr load : NodeId} (hs : Scheduled g bbs) (hb : bbs[bb]? = some b) (hi : b[i]? = some instr)
  (hload : (g.getNode load).rtype = .load) (hF : Folding g g₁ instr load) {M : RunModel}
include hs hb hi hload hF

/-- A node before the operation does the same in the new graph, but for the load, which is gone. -/
theorem runInstr_after {id : NodeId} (hid : id ∈ b.take i) {st st' : M.State}
    (h : RunModel.State.Off load st st') :
    RunModel.State.Off load (M.runInstr g st id)
      (M.runInstr (g₁.subsume g.pos instr) st' id) := by
  have hbm := List.mem_of_getElem? hb
  obtain ⟨j, hj⟩ := List.mem_iff_getElem?.1 hid
  rw [List.getElem?_take] at hj
  split_ifs at hj with hji
  have hpos := (hs.ids b hbm id (List.mem_of_getElem? hj)).2
  have hne : id ≠ instr := by
    rintro rfl
    exact hji.ne ((List.getElem?_inj (List.getElem?_eq_some_iff.1 hj).1 (hs.nodup b hbm)).1
      (hj.trans hi.symm))
  by_cases hl : id = load
  · subst hl
    have hgone : M.runInstr (g₁.subsume g.pos instr) st' id = st' :=
      if_pos (.inl (by rw [getNode_after_gone hF (.inr rfl)]; rfl))
    rw [hgone]
    refine ⟨h.1.trans (RunModel.runInstr_mem (.inr ?_)).symm, fun m hm => ?_⟩
    · simp [AmdNode.writesMemory, hload]
    · rw [RunModel.runInstr_env hm]
      exact h.2 m hm
  have hnode := getNode_after hF hpos.ne hne hl
  have hskip_iff : RunModel.Skipped (g₁.subsume g.pos instr) id ↔ RunModel.Skipped g id := by
    unfold RunModel.Skipped
    rw [hnode]
    exact Iff.rfl
  by_cases hskip : RunModel.Skipped g id
  · rw [RunModel.runInstr, RunModel.runInstr, if_pos hskip, if_pos (hskip_iff.2 hskip)]
    exact h
  · have hsil : (g.getNode id).rtype.isSilent = false := by
      rw [← Bool.not_eq_true]
      exact fun hc => hskip (.inr hc)
    have hlive : (g.getNode id).isDead = false := by
      rw [← Bool.not_eq_true]
      exact fun hc => hskip (.inl hc)
    -- it uses neither the operation, which comes later, nor the load, which has another use
    have hinstr : instr ∉ (g.getNode id).inps := hs.order b hbm j i id instr hji.le hj hi hsil
    have hloadm : load ∉ (g.getNode id).inps := fun hm => hne (hF.only id ⟨hpos, hlive, hm⟩)
    have hops : (((g₁.subsume g.pos instr).getNode id).inps.map fun m =>
        (((g₁.subsume g.pos instr).getNode m).data, st'.env m)) =
          (g.getNode id).inps.map fun m => ((g.getNode m).data, st.env m) := by
      rw [hnode, List.map_map]
      refine List.map_congr_left fun m hm => ?_
      have hmi : m ≠ instr := fun he => hinstr (he ▸ hm)
      have hml : m ≠ load := fun he => hloadm (he ▸ hm)
      simp only [Function.comp_apply, if_neg hmi]
      rw [data_after hF (hs.bound id m hm).ne hmi hml, h.2 m hml]
    have hresult : M.result (g₁.subsume g.pos instr) st' id = M.result g st id := by
      rw [RunModel.result, hops, data_after hF hpos.ne hne hl, h.1]
      rfl
    rw [RunModel.runInstr, RunModel.runInstr, if_neg hskip, if_neg (mt hskip_iff.1 hskip), hresult]
    refine ⟨rfl, fun m hm => ?_⟩
    by_cases hmi : m = id
    · simp only [hmi, Function.update_self]
    · simp only [Function.update_of_ne hmi]
      exact h.2 m hm

theorem run_after {l : List NodeId} (hl : ∀ id ∈ l, id ∈ b.take i) {st st' : M.State}
    (h : RunModel.State.Off load st st') :
    RunModel.State.Off load (M.run g l st) (M.run (g₁.subsume g.pos instr) l st') := by
  induction l generalizing st st' with
  | nil => exact h
  | cons id l ih =>
    exact ih (fun m hm => hl m (List.mem_cons_of_mem _ hm))
      (runInstr_after hs hb hi hload hF (hl id List.mem_cons_self) h)

end Run

/-- The address of a load depends on the values of its inputs only. -/
theorem AmdNode.Shaped.address_congr {g : AmdGraph} {n : AmdNode} (h : n.Shaped g)
    (ht : n.rtype = .load) (w w' : NodeId → BitVec 64) (hw : ∀ m ∈ n.inps, w m = w' m) :
    n.address w = n.address w' := by
  obtain ⟨hs, x, y, z, hn⟩ | ⟨hs, x, y, z, d, hn, -⟩ := h.load_inps ht
  · have hz : n.inp 2 = z := by rw [AmdNode.inp, hn]; rfl
    rw [AmdNode.address, AmdNode.address, if_pos hs, if_pos hs, hz, hw z (by rw [hn]; simp)]
  · have hz : n.inp 2 = z := by rw [AmdNode.inp, hn]; rfl
    have hd : n.inps.getLastD 0 = d := by rw [hn]; rfl
    rw [AmdNode.address, AmdNode.address, if_neg hs, if_neg hs, hz, hd,
      hw z (by rw [hn]; simp), hw d (by rw [hn]; simp)]

/-- A node before the last of its block that has no flag writes nothing. -/
theorem not_writesMemory_between {g : AmdGraph} {bbs : List (List NodeId)} {b : List NodeId}
    (hs : Scheduled g bbs) (hflag : ∀ id, (g.getNode id).Flagged) (hb : b ∈ bbs) {k : ℕ}
    {id : NodeId} (hk : b[k]? = some id) (hlast : k + 1 < b.length)
    (h : (g.getNode id).isDead = true ∨ (g.getNode id).isStore = false) :
    (g.getNode id).writesMemory = false := by
  rw [← Bool.not_eq_true]
  intro hw
  obtain h | h := h
  · have hr : (g.getNode id).rtype = .base .dead := by
      simpa [AmdNode.isDead, AmdType.isDead] using h
    simp [AmdNode.writesMemory, hr, writeKinds] at hw
  · obtain hf | hc := hflag id hw
    · rw [h] at hf
      cases hf
    · exact hlast.ne (hs.calls b hb k id hk hc)

/-- **Loads do not move past stores.**  In every schedule that comes from the backend, at every round
of `schedule_peeps`, so after whatever foldings: when a load is folded into an instruction of its
block, no instruction between the two writes memory, neither now nor before the first folding, and
on every machine the instruction reads the bytes that the load has read. -/
theorem schedulePeeps_reads {g₀ : AmdGraph} {bbs₀ : List (List NodeId)} (hb₀ : Built g₀)
    (hs₀ : Scheduled g₀ bbs₀) (n : ℕ) {s : PeepState}
    (hs : s = PeepState.step^[n] { g := g₀, bbs := bbs₀ }) {b : List NodeId} {instr : NodeId}
    (hb : s.bbs[s.bb]? = some b) (hi : b[s.i]? = some instr) {g₁ : AmdGraph} {new : NodeId}
    (hp : s.g.postSchedulePeep (b.take s.i) instr = some (g₁, new)) :
    ∃ (p : ℕ) (load : NodeId), p < s.i ∧ b[p]? = some load ∧
      (s.g.getNode load).rtype = .load ∧ load ∈ (s.g.getNode instr).inps ∧
      ((g₁.subsume new instr).getNode load).isDead = true ∧
      (∀ k, p < k → k < s.i → ¬WritesAt s.g s.bbs s.bb k ∧ ¬WritesAt g₀ bbs₀ s.bb k) ∧
      ∀ (M : RunModel) (st : M.State),
        M.bytes ((g₁.subsume new instr).getNode new) (M.run (g₁.subsume new instr) (b.take s.i) st) =
          M.bytes (s.g.getNode load) (M.run s.g (b.take p) st) := by
  have hinv : PeepInv g₀ bbs₀ s := by
    rw [hs]
    exact inv_run hb₀ hs₀ n
  have hbm := List.mem_of_getElem? hb
  obtain ⟨rfl, load, l₁, l₂, hl, hload, huser, hclear, hF, hN⟩ :=
    fold_spec hinv.pos hinv.sched hbm hi hp
  have hilt := (List.getElem?_eq_some_iff.1 hi).1
  have hlen : l₁.length + (l₂.length + 1) = s.i := by
    have := congrArg List.length hl
    rw [List.length_take, min_eq_left hilt.le, List.length_append, List.length_cons] at this
    exact this.symm
  have hat (k : ℕ) (hk : k < s.i) : b[k]? = (l₁ ++ load :: l₂)[k]? := by
    rw [← hl, List.getElem?_take, if_pos hk]
  have hp_lt : l₁.length < s.i := by omega
  have hget : b[l₁.length]? = some load := by
    rw [hat _ hp_lt]
    simp
  have htake : b.take l₁.length = l₁ := by
    have := congrArg (List.take l₁.length) hl
    rw [List.take_take, min_eq_left hp_lt.le, List.take_left] at this
    exact this
  -- nothing behind the load has the flag
  have hquiet (k : ℕ) (id : NodeId) (hpk : l₁.length < k) (hk : k < s.i) (hid : b[k]? = some id) :
      (s.g.getNode id).writesMemory = false := by
    refine not_writesMemory_between hinv.sched hinv.flagged hbm hid (by omega) (hclear id ?_)
    rw [hat k hk, List.getElem?_append_right hpk.le] at hid
    obtain ⟨j, hj⟩ : ∃ j, k - l₁.length = j + 1 := ⟨k - l₁.length - 1, by omega⟩
    rw [hj, List.getElem?_cons_succ] at hid
    exact List.mem_of_getElem? hid
  have hnow (k : ℕ) (hpk : l₁.length < k) (hk : k < s.i) : ¬WritesAt s.g s.bbs s.bb k := by
    rintro ⟨b', id, hb', hid, hw⟩
    rw [hb] at hb'
    cases hb'
    rw [hquiet k id hpk hk hid] at hw
    cases hw
  refine ⟨l₁.length, load, hp_lt, hget, hload, hF.uses, ?_, fun k hpk hk =>
    ⟨hnow k hpk hk, fun hw => hnow k hpk hk ((hinv.writes _ _).2 hw)⟩, fun M st => ?_⟩
  · rw [getNode_after_gone hF (.inr rfl)]
    rfl
  rw [getNode_after_new hF, htake]
  -- from the load on, neither the memory nor the base and the index change
  have hmem : (M.run s.g (b.take s.i) st).mem = (M.run s.g l₁ st).mem := by
    rw [hl, RunModel.run, List.foldl_append]
    refine RunModel.run_mem (fun id hid => .inr ?_) _
    obtain ⟨j, hj⟩ := List.mem_iff_getElem?.1 hid
    have hjlt := (List.getElem?_eq_some_iff.1 hj).1
    rw [List.length_cons] at hjlt
    have hbj : b[l₁.length + j]? = some id := by
      rw [hat _ (by omega), List.getElem?_append_right (Nat.le_add_right _ _),
        Nat.add_sub_cancel_left]
      exact hj
    cases j with
    | zero =>
      cases hj
      simp [AmdNode.writesMemory, hload]
    | succ j => exact hquiet _ id (by omega) (by omega) hbj
  have henv (m : NodeId) (hm : m ∈ (s.g.getNode load).inps) :
      (M.run s.g (b.take s.i) st).env m = (M.run s.g l₁ st).env m := by
    rw [hl, RunModel.run, List.foldl_append]
    refine RunModel.run_env (fun hmem => ?_) _
    obtain ⟨j, hj⟩ := List.mem_iff_getElem?.1 hmem
    have hjlt := (List.getElem?_eq_some_iff.1 hj).1
    rw [List.length_cons] at hjlt
    have hbj : b[l₁.length + j]? = some m := by
      rw [hat _ (by omega), List.getElem?_append_right (Nat.le_add_right _ _),
        Nat.add_sub_cancel_left]
      exact hj
    exact hinv.sched.order b hbm _ _ load m (Nat.le_add_right _ _) hget hbj
      (by rw [hload]; rfl) hm
  have hoff : RunModel.State.Off load st st := ⟨rfl, fun m _ => rfl⟩
  obtain ⟨hmem', henv'⟩ := run_after hinv.sched hb hi hload hF (fun id hid => hid) hoff
  have haddr := (hinv.sched.shaped b hbm load (List.mem_of_getElem? hget)).address_congr hload
    (fun m => M.word ((M.run (g₁.subsume s.g.pos instr) (b.take s.i) st).env m))
    (fun m => M.word ((M.run s.g l₁ st).env m)) fun m hm => by
      have hml : m ≠ load := fun he => hF.load_self (he ▸ hm)
      simp only [henv' m hml, henv m hm]
  unfold RunModel.bytes
  rw [hN.address, hN.readDt, haddr, hmem', hmem]

/-! ### A sum with a load -/

/-- No nodes yet. -/
def noNodes : AmdGraph := { mem := fun _ => { rtype := .base .dead }, pos := 1 }

/-- `*p = x + *p`: the memory is `1`, the parameters are `2` and `3`, and the block loads, adds and
stores. -/
def addLoad : AmdGraph :=
  let g := (noNodes.addNode (.base .mem) .mem [] {} .i8).1
  let g := (g.addNode (.base .param) .i64 [] {} .i8).1
  let g := (g.addNode (.base .param) .i32 [] {} .i8).1
  let g := (g.addNode .load .i32 [0, 1, 2] { dt := .i32 } .i8).1
  let g := (g.addNode (.base (.bin .add)) .i32 [3, 4] {} .i8).1
  (g.addNode .store .void [0, 1, 2, 5] { dt := .i32 } .i8).1

theorem built_addLoad : Built addLoad :=
  .addNode (.addNode (.addNode (.addNode (.addNode (.addNode .empty _ _ _ _ _ (by decide)) _ _ _ _ _
    (by decide)) _ _ _ _ _ (by decide)) _ _ _ _ _ (by decide)) _ _ _ _ _ (by decide)) _ _ _ _ _
    (by decide)

theorem getNode_addNode_of_lt {g : AmdGraph} (hpos : g.pos ≠ 0) {rtype : AmdType} {dt : Datatype}
    {inps : List NodeId} {extra : FoldOp} {lane : LaneType} {m : NodeId} (h : g.pos < m) :
    (g.addNode rtype dt inps extra lane).1.getNode m = g.getNode m := by
  rw [getNode_addNode hpos, if_neg h.ne']

theorem addLoad_dead {id : NodeId} (h : 7 ≤ id) :
    addLoad.getNode id = { rtype := .base .dead } := by
  have hlt (k : ℕ) (hk : k < 7) : k < id := lt_of_lt_of_le hk h
  unfold addLoad
  iterate 6 rw [getNode_addNode_of_lt (by decide) (hlt _ (by decide))]
  exact if_neg (hlt 0 (by decide)).ne'

theorem scheduled_addLoad : Scheduled addLoad [[4, 5, 6]] where
  ids := by decide
  nodup := by decide
  bound id := by
    by_cases h : id < 7
    · have hall : ∀ id < 7, ∀ m ∈ (addLoad.getNode id).inps, m < addLoad.pos := by decide
      exact hall id h
    · rw [addLoad_dead (not_lt.1 h)]
      exact nofun
  order := by
    intro b hb i j a c hij ha hc _
    rw [List.mem_singleton.1 hb] at ha hc
    have hall : ∀ i : ℕ, i < 3 → ∀ j : ℕ, j < 3 → i ≤ j →
        [4, 5, 6].getD j 0 ∉ (addLoad.getNode ([4, 5, 6].getD i 0)).inps := by decide
    have hi := (List.getElem?_eq_some_iff.1 ha).1
    have hj := (List.getElem?_eq_some_iff.1 hc).1
    have hia : [4, 5, 6].getD i 0 = a := by simp [List.getD_eq_getElem?_getD, ha]
    have hjc : [4, 5, 6].getD j 0 = c := by simp [List.getD_eq_getElem?_getD, hc]
    have := hall i hi j hj hij
    rw [hia, hjc] at this
    exact this
  calls := by
    intro b hb i a ha hcall
    rw [List.mem_singleton.1 hb] at ha
    have hall : ∀ a ∈ [4, 5, 6], (addLoad.getNode a).rtype ≠ .base .call := by decide
    exact absurd hcall (hall a (List.mem_of_getElem? ha))
  used := by
    intro b hb id hid hu
    rw [List.mem_singleton.1 hb] at hid
    have hall : ∀ id ∈ [4, 5, 6], (addLoad.getNode id).isFoldUser = true → id = 5 := by decide
    rw [hall id hid hu]
    exact ⟨6, by decide, by decide, by decide⟩
  shaped := by
    intro b hb id hid
    rw [List.mem_singleton.1 hb] at hid
    simp only [List.mem_cons, List.not_mem_nil, or_false] at hid
    obtain rfl | rfl | rfl := hid
    · exact ⟨nofun, nofun, fun _ => rfl, nofun⟩
    · exact ⟨fun _ _ => rfl, nofun, nofun, fun _ _ _ _ _ _ => rfl⟩
    · exact ⟨nofun, nofun, nofun, nofun⟩

/-- Its load is folded into the sum. -/
theorem schedulePeeps_reads_addLoad : ∃ g₁ new, addLoad.postSchedulePeep [4] 5 = some (g₁, new) ∧
    ∀ (M : RunModel) (st : M.State),
      M.bytes ((g₁.subsume new 5).getNode new) (M.run (g₁.subsume new 5) [4] st) =
        M.bytes (addLoad.getNode 4) st := by
  obtain ⟨g₁, new, hp⟩ : ∃ g₁ new, addLoad.postSchedulePeep [4] 5 = some (g₁, new) :=
    ⟨_, _, rfl⟩
  obtain ⟨p, load, hlt, hget, -, -, -, -, hbytes⟩ :=
    schedulePeeps_reads built_addLoad scheduled_addLoad 1 rfl rfl rfl hp
  obtain rfl : p = 0 := Nat.lt_one_iff.1 hlt
  cases hget
  exact ⟨g₁, new, hp, hbytes⟩

end OdinSon.Codegen.Amd64
