import OdinSon.Ssa.Loopopt

/-!
# A loop that nothing depends on

A loop that `eliminateLoop` leaves after the first round has phis on which no value outside
depends: every other value is the same in all rounds (`eliminateLoop_values`).  So it does not
matter how often it runs, as long as it ends.
-/

namespace OdinSon

open MachInt

variable {F M : Type} {S : Semantics F M}

/-! ### Rounds of a loop -/

/-- The `If` at the end of the loop does not go to `exit`. -/
def Stays (S : Semantics F M) (prc : Proc) (σ : Env F M) (latch exit : NodeId) : Prop :=
  ∃ fuel x, eval S prc σ fuel ((prc.getNode latch).inp 1) = some (.int x) ∧
    ((prc.getNode exit).itype = .then_ → x = 0) ∧ ((prc.getNode exit).itype = .else_ → x ≠ 0)

/-- The phis take the values of the back edge. -/
def NextRound (S : Semantics F M) (prc : Proc) (bb : BasicBlock) (σ σ' : Env F M) : Prop :=
  ∀ p, (isLoopPhi prc bb p = true →
      ∃ fuel v, eval S prc σ fuel ((prc.getNode p).inp 2) = some v ∧ σ' p = some v) ∧
    (isLoopPhi prc bb p = false → σ' p = σ p)

/-- Some more rounds of the loop. -/
inductive Rounds (S : Semantics F M) (prc : Proc) (bb : BasicBlock) (exit : NodeId) :
    Env F M → Env F M → Prop
  | refl (σ : Env F M) : Rounds S prc bb exit σ σ
  | step {σ σ' σ'' : Env F M} : Rounds S prc bb exit σ σ' →
      Stays S prc σ' (latch prc bb) exit → NextRound S prc bb σ' σ'' →
      Rounds S prc bb exit σ σ''

/-- A rotated loop of one block: its phis are in it, and the `If` at its end goes to the head or to
`exit`, first to where it goes when the condition holds. -/
structure RotatedLoop (prc : Proc) (bb : BasicBlock) (exit : NodeId) : Prop where
  phi_mem : ∀ p, isLoopPhi prc bb p = true → p ∈ bb.instrs
  exit_ne : exit ≠ bb.head
  exit_itype : (prc.getNode exit).itype = .then_ ∨ (prc.getNode exit).itype = .else_
  outs : (prc.getNode (latch prc bb)).outs.map NodeOutput.id =
    if (prc.getNode exit).itype = .then_ then [exit, bb.head] else [bb.head, exit]
  latch_inps : 1 < (prc.getNode (latch prc bb)).inps.length

/-! ### What does not change in the loop -/

/-- Two graphs that have the same nodes where `P` holds, and what those use. -/
theorem eval_congr {A B : Proc} {σ τ : Env F M} {P : NodeId → Prop}
    (hnode : ∀ n, P n → (B.getNode n).head = (A.getNode n).head ∧
      (B.getNode n).inps = (A.getNode n).inps)
    (hcfg : ∀ n, P n → ∀ m ∈ (A.getNode n).inps, B.isCfg m = A.isCfg m)
    (hinp : ∀ n, P n → A.isSource (A.getNode n) = false →
      ∀ m ∈ (A.getNode n).inps, A.isCfg m = true ∨ P m)
    (hσ : ∀ n, P n → A.isSource (A.getNode n) = true → τ n = σ n)
    {fuel : ℕ} {n : NodeId} (hn : P n) {v : Val F M} (h : eval S A σ fuel n = some v) :
    eval S B τ fuel n = some v := by
  induction fuel generalizing n v with
  | zero => cases h
  | succ fuel ih =>
    obtain ⟨hhead, hinps⟩ := hnode n hn
    have hmap : (B.getNode n).inps = (A.getNode n).inps.map fun i => i := by
      rw [hinps, List.map_id']
    have hcfg' (i : NodeId) (hi : i ∈ 0 :: (A.getNode n).inps) : B.isCfg i = A.isCfg i := by
      rcases List.mem_cons.1 hi with rfl | hi
      · rfl
      · exact hcfg n hn i hi
    have hsrc : B.isSource (B.getNode n) = A.isSource (A.getNode n) := by
      simp only [Proc.isSource, (head_eq_iff hhead).1, inp_map hmap rfl, hcfg' _ (inp_mem_cons _ 0)]
    unfold eval at h ⊢
    rw [hsrc]
    split_ifs at h ⊢ with hs
    · rw [hσ n hn hs]
      exact h
    · -- an input with a value is no control
      have hP {i : NodeId} (hi : i ∈ 0 :: (A.getNode n).inps) {w : Val F M}
          (hw : eval S A σ fuel i = some w) : P i := by
        have hne : A.isCfg i ≠ true := by
          intro hc
          rw [eval_isCfg hc] at hw
          cases hw
        rcases List.mem_cons.1 hi with rfl | hi
        · exact absurd rfl hne
        · exact (hinp n hn (Bool.eq_false_of_not_eq_true hs) i hi).resolve_left hne
      exact nodeVal_sim hhead hmap rfl (fun i hi w hw => ih (hP hi hw) hw)
        (fun i hi => hcfg n hn i hi)
        (fun i hi w hw => (head_eq_iff (hnode i (hP hi hw)).1).2.1) h

section Req

variable {prc : Proc} {bb : BasicBlock}

theorem reqInstr_mono {instr id : NodeId} {acc : (NodeId → Bool) × Bool} (h : acc.1 id = true) :
    (reqInstr prc bb instr acc).1 id = true := by
  have hupd : Function.update acc.1 instr true id = true := by
    rw [Function.update_apply]
    split_ifs
    · rfl
    · exact h
  unfold reqInstr
  dsimp only
  split_ifs
  · exact hupd
  · exact h
  · exact hupd
  · exact h

/-- A pass finds all that hangs on the head. -/
theorem reqPass_spec {req : NodeId → Bool} {id : NodeId} (hid : id ∈ bb.instrs)
    (h0 : (prc.getNode id).inp 0 = bb.head) : (reqPass prc bb req).1 id = true := by
  have hfold (l : List NodeId) (hl : id ∈ l) :
      (l.foldr (reqInstr prc bb) (req, false)).1 id = true := by
    induction l with
    | nil => cases hl
    | cons x l ih =>
      rw [List.foldr_cons]
      rcases List.mem_cons.1 hl with rfl | hl
      · unfold reqInstr
        dsimp only
        rw [if_pos h0]
        exact Function.update_self ..
      · exact reqInstr_mono (ih hl)
  exact hfold bb.instrs hid

theorem findReqLoop_spec {fuel : ℕ} {req req' : NodeId → Bool}
    (h : findReqLoop prc bb fuel req = some req') {id : NodeId} (hid : id ∈ bb.instrs)
    (h0 : (prc.getNode id).inp 0 = bb.head) : req' id = true := by
  induction fuel generalizing req with
  | zero => cases h
  | succ fuel ih =>
    unfold findReqLoop at h
    dsimp only at h
    split_ifs at h
    · exact ih h
    · obtain rfl := Option.some.inj h
      exact reqPass_spec hid h0

end Req

/-- The node has the same value in all rounds: it is not in the loop, is not required there, or is a
phi of its own. -/
def Steady (prc : Proc) (bb : BasicBlock) (req : NodeId → Bool) (n : NodeId) : Prop :=
  prc.live n = true ∧ prc.isCfg n = false ∧ (n ∉ bb.instrs ∨ req n = false ∨
    (prc.getNode n).itype = .phi ∧ (prc.getNode n).inp 2 = n)

section Elim

variable {prc prc' : Proc} {bb : BasicBlock} {exit : NodeId} {req : NodeId → Bool}

/-- An instruction that is used by something that is not required is steady. -/
theorem steady_of_out (hl : bb.instrs.any (leaks prc bb req) = false) {m : NodeId}
    {out : NodeOutput} (hml : prc.live m = true) (hc : prc.isCfg m = false)
    (hout : out ∈ (prc.getNode m).outs) (hu : out.id ∉ bb.instrs ∨ req out.id = false) :
    Steady prc bb req m := by
  refine ⟨hml, hc, ?_⟩
  by_contra hcon
  rw [not_or, not_or, not_not, Bool.not_eq_false] at hcon
  obtain ⟨hmi, hr, hphi⟩ := hcon
  refine List.any_eq_false.1 hl m hmi ?_
  simp only [leaks, hr, hc, Bool.true_and, Bool.not_false, Bool.and_eq_true, Bool.not_eq_true',
    List.any_eq_true]
  refine ⟨?_, out, hout, ?_⟩
  · by_contra hne
    rw [Bool.not_eq_false, Bool.and_eq_true, decide_eq_true_eq, decide_eq_true_eq] at hne
    exact hphi hne
  · rcases hu with hu | hu <;> simp [hu]

/-- What uses a required instruction is required. -/
theorem steady_inp (hD : prc.DefUse) (hl : bb.instrs.any (leaks prc bb req) = false)
    {n m : NodeId} (hn : prc.live n = true) (hu : n ∉ bb.instrs ∨ req n = false)
    (hm : m ∈ (prc.getNode n).inps) : prc.isCfg m = true ∨ Steady prc bb req m := by
  by_cases hc : prc.isCfg m = true
  · exact .inl hc
  have hml := hD.inps_live n hn m hm
  obtain ⟨i, hi⟩ := List.mem_iff_getElem?.1 hm
  have hm0 : m ≠ 0 := by
    rintro rfl
    exact hc rfl
  exact .inr (steady_of_out hl hml (Bool.eq_false_of_not_eq_true hc)
    ((hD.mem_outs_iff m hm0 hml n i).2 ⟨hn, hi⟩) hu)

/-- What a round provides does not matter to what is steady. -/
theorem Rounds.steady {σ σ' : Env F M} (hrun : Rounds S prc bb exit σ σ')
    (hloop : RotatedLoop prc bb exit)
    (hreq : ∀ id ∈ bb.instrs, (prc.getNode id).inp 0 = bb.head → req id = true) {n : NodeId}
    (hn : Steady prc bb req n) : σ' n = σ n := by
  induction hrun with
  | refl => rfl
  | step _ _ hnext ih =>
    rw [← ih]
    by_cases hp : isLoopPhi prc bb n = true
    · obtain ⟨fuel, v, hv, hσ⟩ := (hnext n).1 hp
      have hphi : (prc.getNode n).itype = .phi ∧ (prc.getNode n).inp 0 = bb.head := by
        simpa [isLoopPhi] using hp
      have hmem := hloop.phi_mem n hp
      have hself : (prc.getNode n).inp 2 = n := by
        rcases hn.2.2 with h | h | h
        · exact absurd hmem h
        · rw [hreq n hmem hphi.2] at h
          cases h
        · exact h.2
      -- a phi that is its own operand keeps its value
      rw [hself] at hv
      cases fuel with
      | zero => cases hv
      | succ fuel =>
        unfold eval at hv
        rw [if_pos (by simp [Proc.isSource, hphi.1])] at hv
        rw [hσ, hv]
    · exact (hnext n).2 (Bool.eq_false_of_not_eq_true hp)

/-- The graph with the constant has all the nodes it had, but for the condition of the latch. -/
theorem getNode_setInput_push {node : Node} {id : NodeId} {value : NodeId} {n : NodeId}
    (hn : n ≠ prc.pos) (hid : id ≠ prc.pos) :
    ((prc.push node).setInput id 1 value).getNode n =
      if n = id ∧ n ≠ 0 then { prc.getNode n with inps := (prc.getNode n).inps.set 1 value }
      else prc.getNode n := by
  unfold Proc.getNode
  split_ifs with h0 h1 h1
  · exact absurd h0 h1.2
  · rfl
  · obtain rfl := h1.1
    show Function.update _ _ _ _ = _
    rw [Function.update_self]
    show { Function.update prc.mem prc.pos node n with
      inps := (Function.update prc.mem prc.pos node n).inps.set 1 value } = _
    rw [Function.update_of_ne hn]
  · show Function.update _ _ _ _ = _
    rw [Function.update_of_ne fun h => h1 ⟨h, h0⟩]
    exact Function.update_of_ne hn ..

theorem eliminateLoop_spec {fuel : ℕ} {info : LoopInfo}
    (h : eliminateLoop prc bb fuel info = some (some prc')) :
    ∃ req, findReqLoop prc bb fuel (fun _ => false) = some req ∧
      bb.instrs.any (leaks prc bb req) = false ∧ (prc.getNode (latch prc bb)).itype = .if_ ∧
      prc' = (prc.push (cIntNode .i8 (if info.inverted then 1 else 0))).setInput
        (latch prc bb) 1 prc.pos := by
  unfold eliminateLoop at h
  by_cases hterm : info.terminates = true
  · rw [if_pos hterm] at h
    obtain ⟨req, hreq, h⟩ := Option.bind_eq_some_iff.1 h
    by_cases hl : bb.instrs.any (leaks prc bb req) = true
    · rw [if_pos hl] at h
      cases h
    rw [if_neg hl] at h
    by_cases hif : (prc.getNode (latch prc bb)).itype = .if_
    · rw [if_pos hif] at h
      exact ⟨req, hreq, Bool.eq_false_of_not_eq_true hl, hif,
        (Option.some.inj (Option.some.inj h)).symm⟩
    · rw [if_neg hif] at h
      cases h
  · rw [if_neg hterm] at h
    cases h

/-- The constant is the one that leaves the loop. -/
theorem inverted_eq {info : LoopInfo} (hloop : RotatedLoop prc bb exit)
    (hinfo : loopInfo prc bb = some info) :
    info.inverted = decide ((prc.getNode exit).itype = .then_) := by
  unfold loopInfo at hinfo
  dsimp only at hinfo
  split at hinfo
  · split at hinfo
    · obtain ⟨rev, -, rfl⟩ := Option.map_eq_some_iff.1 hinfo
      dsimp only
      rw [hloop.outs]
      split_ifs with hthen
      · simp [hthen, hloop.exit_ne]
      · simp [hthen]
    · cases hinfo
  · cases hinfo

end Elim

theorem eval_isCInt {prc : Proc} {σ : Env F M} {n : NodeId} {dt : Datatype} {x : ℤ}
    (h : (prc.getNode n).IsCInt dt x) (hi : dt.isInt = true) (hx : InS dt.bits x) :
    eval S prc σ 1 n = some (.int x) := by
  have hsrc : prc.isSource (prc.getNode n) = false := by
    simp [Proc.isSource, NodeType.isProjection, h.itype]
  simp only [eval, hsrc, nodeVal, h.itype, Semantics.constVal, h.dt, h.value, sext_self hi hx,
    Datatype.not_isFloat hi, hi, Bool.false_eq_true, ↓reduceIte]

/-- **The loop can be left after the first round**: then every value that is computed outside of it,
or used there, is the same as after the last one.  The memory is such a value. -/
theorem eliminateLoop_values {prc₀ prc prc' : Proc} {bb₀ bb : BasicBlock} {exit : NodeId}
    {info : LoopInfo} {fuel : ℕ} {σ σ' : Env F M} (hD : prc.DefUse)
    (hpos : prc.live prc.pos = false) (hloop : RotatedLoop prc bb exit)
    (hloop₀ : RotatedLoop prc₀ bb₀ exit) (hinfo : loopInfo prc₀ bb₀ = some info)
    (hexit : (prc₀.getNode exit).itype = (prc.getNode exit).itype)
    (h : eliminateLoop prc bb fuel info = some (some prc'))
    (hrun : Rounds S prc bb exit σ σ') :
    Taken S prc' σ (latch prc bb) exit ∧
      ∀ n, prc.live n = true →
        (n ∉ bb.instrs ∨ ∃ out ∈ (prc.getNode n).outs, out.id ∉ bb.instrs) →
        ∀ k, eval S prc' σ k n = eval S prc σ' k n := by
  obtain ⟨req, hfind, hleaks, hif, rfl⟩ := eliminateLoop_spec h
  have hreq : ∀ id ∈ bb.instrs, (prc.getNode id).inp 0 = bb.head → req id = true :=
    fun id hid h0 => findReqLoop_spec hfind hid h0
  have hne {n : NodeId} (hn : prc.live n = true) : n ≠ prc.pos := by
    rintro rfl
    rw [hpos] at hn
    cases hn
  have hlatch : latch prc bb ≠ prc.pos := hne (by simp [Proc.live, hif])
  generalize hp' : (prc.push (cIntNode .i8 (if info.inverted then 1 else 0))).setInput
    (latch prc bb) 1 prc.pos = prc'
  -- the condition of the latch is a constant now, and nothing else has changed
  have hget {n : NodeId} (hn : n ≠ prc.pos) : prc'.getNode n =
      if n = latch prc bb ∧ n ≠ 0 then
        { prc.getNode n with inps := (prc.getNode n).inps.set 1 prc.pos }
      else prc.getNode n := by
    rw [← hp']
    exact getNode_setInput_push hn hlatch
  have hcfg {n : NodeId} (hn : n ≠ prc.pos) : prc'.isCfg n = prc.isCfg n := by
    rw [Proc.isCfg, Proc.isCfg, hget hn]
    split_ifs <;> rfl
  constructor
  · have hexne : exit ≠ prc.pos := hne (by rcases hloop.exit_itype with h | h <;> simp [Proc.live, h])
    have hexit' : (prc'.getNode exit).itype = (prc.getNode exit).itype := by
      rw [hget hexne]
      split_ifs <;> rfl
    have hcond : (prc'.getNode (latch prc bb)).inp 1 = prc.pos := by
      have hl0 : latch prc bb ≠ 0 := by
        intro h0
        rw [h0] at hif
        cases hif
      rw [hget hlatch, if_pos ⟨rfl, hl0⟩, Node.inp, List.getD_eq_getElem?_getD,
        List.getElem?_set_self hloop.latch_inps, Option.getD_some]
    have hconst : prc'.getNode prc.pos = cIntNode .i8 (if info.inverted then 1 else 0) := by
      have hp0 : prc.pos ≠ 0 := fun h0 => by simp [h0, Proc.live] at hpos
      rw [← hp', Proc.getNode, if_neg hp0]
      show Function.update _ _ _ _ = _
      rw [Function.update_of_ne (Ne.symm hlatch)]
      exact Function.update_self ..
    have hval : eval S prc' σ 1 prc.pos = some (.int (if info.inverted then 1 else 0)) := by
      refine @eval_isCInt _ _ _ _ _ _ .i8 _ ?_ rfl (by cases info.inverted <;> decide)
      rw [hconst]
      exact Peeped.isCInt_cIntNode (by cases info.inverted <;> decide)
    -- the constant takes the side that leaves
    have hinv := inverted_eq hloop₀ hinfo
    rw [hexit] at hinv
    unfold Taken
    rw [hexit', hcond]
    constructor
    · intro hthen
      exact ⟨1, _, hval, by simp [hinv, hthen]⟩
    · intro helse
      exact ⟨1, _, hval, by simp [hinv, helse]⟩
  · intro n hn hused k
    by_cases hc : prc.isCfg n = true
    · rw [eval_isCfg hc, eval_isCfg ((hcfg (hne hn)).trans hc)]
    -- what is looked at is of the nodes that the loop does not change
    have hsteady : Steady prc bb req n := by
      rcases hused with hu | ⟨out, hout, hu⟩
      · exact ⟨hn, Bool.eq_false_of_not_eq_true hc, .inl hu⟩
      · exact steady_of_out hleaks hn (Bool.eq_false_of_not_eq_true hc) hout (.inl hu)
    have hsame {m : NodeId} (hm : Steady prc bb req m) : prc'.getNode m = prc.getNode m := by
      rw [hget (hne hm.1), if_neg]
      rintro ⟨rfl, -⟩
      have := hm.2.1
      rw [Proc.isCfg, hif] at this
      cases this
    have hin {m i : NodeId} (hm : Steady prc bb req m) (hi : i ∈ (prc.getNode m).inps) :
        prc'.isCfg i = prc.isCfg i := hcfg (hne (hD.inps_live m hm.1 i hi))
    have hsrc {m : NodeId} (hm : Steady prc bb req m) :
        prc'.isSource (prc.getNode m) = prc.isSource (prc.getNode m) := by
      have h0 : prc'.isCfg ((prc.getNode m).inp 0) = prc.isCfg ((prc.getNode m).inp 0) := by
        rcases List.mem_cons.1 (inp_mem_cons (prc.getNode m) 0) with h0 | hi
        · rw [h0]
          rfl
        · exact hin hm hi
      rw [Proc.isSource, Proc.isSource, h0]
    have hinp {m i : NodeId} (hm : Steady prc bb req m)
        (hs : prc.isSource (prc.getNode m) = false) (hi : i ∈ (prc.getNode m).inps) :
        prc.isCfg i = true ∨ Steady prc bb req i := by
      refine steady_inp hD hleaks hm.1 (hm.2.2.imp_right fun h => h.resolve_right ?_) hi
      rintro ⟨hphi, -⟩
      simp [Proc.isSource, hphi] at hs
    have hσ {m : NodeId} (hm : Steady prc bb req m) : σ' m = σ m := hrun.steady hloop hreq hm
    -- the values agree in both directions, over the inputs that are steady
    refine Option.ext fun v => ⟨fun hv => ?_, fun hv => ?_⟩
    · refine eval_congr (P := Steady prc bb req) (fun m hm => ?_) (fun m hm i hi => ?_)
        (fun m hm hs i hi => ?_) (fun m hm _ => hσ hm) hsteady hv
      · rw [hsame hm]
        exact ⟨rfl, rfl⟩
      · rw [hsame hm] at hi
        exact (hin hm hi).symm
      · rw [hsame hm] at hi hs
        rw [hin hm hi]
        exact hinp hm (hsrc hm ▸ hs) hi
    · refine eval_congr (P := Steady prc bb req) (fun m hm => ?_) (fun m hm i hi => hin hm hi)
        (fun m hm hs i hi => hinp hm hs hi) (fun m hm _ => (hσ hm).symm) hsteady hv
      rw [hsame hm]
      exact ⟨rfl, rfl⟩

/-! ### Counting for nothing -/

/-- `for i := 0; ; i += 1 { if !(i + 1 < 3) do break }`. -/
def countIdle : Proc where
  mem := fun id =>
    [{},
      { itype := .entry, outs := [⟨3, 0⟩, ⟨12, 0⟩] },
      { itype := .cInt, dt := .i64, extra := [0, 0], outs := [⟨4, 1⟩] },
      { itype := .loop, inps := [1, 9], outs := [⟨4, 0⟩, ⟨9, 0⟩] },
      { itype := .phi, dt := .i64, inps := [3, 2, 6], outs := [⟨6, 0⟩] },
      { itype := .cInt, dt := .i64, extra := [1, 0], outs := [⟨6, 1⟩] },
      { itype := .bin .add, dt := .i64, inps := [4, 5], outs := [⟨4, 2⟩, ⟨8, 0⟩] },
      { itype := .cInt, dt := .i64, extra := [3, 0], outs := [⟨8, 1⟩] },
      { itype := .bin .lt, dt := .i8, inps := [6, 7], outs := [⟨9, 1⟩] },
      { itype := .if_, inps := [3, 8], outs := [⟨3, 1⟩, ⟨10, 0⟩] },
      { itype := .else_, inps := [9], outs := [⟨11, 0⟩] },
      { itype := .return_, inps := [10, 12] },
      { itype := .mem, dt := .mem, inps := [1], outs := [⟨11, 1⟩] }].getD id { itype := .dead }
  pos := 13
  entry := 1
  end_ := 11

/-- Its loop. -/
def countIdleBlock : BasicBlock := ⟨3, [4, 6, 8, 9]⟩

theorem defUse_countIdle : countIdle.DefUse := by
  refine .of_bounded (k := 13) (fun id hid => ?_) (by decide) (by decide)
  have hd : countIdle.getNode id = { itype := .dead } :=
    Proc.getNode_of_length_le _ hid (by decide) rfl rfl
  simp [Proc.live, hd]

theorem rotatedLoop_countIdle : RotatedLoop countIdle countIdleBlock 10 where
  phi_mem := by
    intro (p : ℕ) hp
    by_cases hlt : p < 13
    · interval_cases p <;> first | decide | exact absurd hp (by decide)
    · have hd : countIdle.getNode p = { itype := .dead } := by
        rw [Proc.getNode_of_ne _ (show p ≠ 0 by omega)]
        exact List.getD_eq_default _ _ (not_lt.1 hlt)
      simp [isLoopPhi, hd] at hp
  exit_ne := by decide
  exit_itype := by decide
  outs := by decide
  latch_inps := by decide

/-- The counter at `x`. -/
def countIdleEnv (x : ℤ) : Env (ℕ × Bool) Unit := fun p => if p = 4 then some (.int x) else none

/-- A round of it. -/
theorem nextRound_countIdle {x y : ℤ}
    (h : eval bitFloats countIdle (countIdleEnv x) 3 6 = some (.int y)) :
    NextRound bitFloats countIdle countIdleBlock (countIdleEnv x) (countIdleEnv y) := by
  intro p
  constructor
  · intro hp
    have h4 : ∀ p ∈ countIdleBlock.instrs, isLoopPhi countIdle countIdleBlock p = true → p = 4 := by
      decide
    obtain rfl := h4 p (rotatedLoop_countIdle.phi_mem p hp) hp
    exact ⟨3, .int y, h, rfl⟩
  · intro hp
    have h4 : p ≠ 4 := by
      rintro rfl
      exact absurd hp (by decide)
    simp [countIdleEnv, h4]

theorem rounds_countIdle : Rounds bitFloats countIdle countIdleBlock 10 (countIdleEnv 0)
    (countIdleEnv 2) := by
  have h0 : eval bitFloats countIdle (countIdleEnv 0) 3 6 = some (.int 1) := rfl
  have h1 : eval bitFloats countIdle (countIdleEnv 1) 3 6 = some (.int 2) := rfl
  have hs {x : ℤ} (h : eval bitFloats countIdle (countIdleEnv x) 4 8 = some (.int 1)) :
      Stays bitFloats countIdle (countIdleEnv x) (latch countIdle countIdleBlock) 10 :=
    ⟨4, 1, h, by decide, by decide⟩
  refine .step (.step (.refl _) (hs rfl) (nextRound_countIdle h0)) (hs rfl) (nextRound_countIdle h1)

/-- The memory is the same as if it had counted. -/
theorem eliminateLoop_values_countIdle : ∃ prc' info, loopInfo countIdle countIdleBlock = some info ∧
    eliminateLoop countIdle countIdleBlock 5 info = some (some prc') ∧
    Taken bitFloats prc' (countIdleEnv 0) 9 10 ∧
    ∀ k, eval bitFloats prc' (countIdleEnv 0) k 12 =
      eval bitFloats countIdle (countIdleEnv 2) k 12 := by
  obtain ⟨info, hinfo⟩ : ∃ info, loopInfo countIdle countIdleBlock = some info := ⟨_, rfl⟩
  have hsome : ((loopInfo countIdle countIdleBlock).bind
      (eliminateLoop countIdle countIdleBlock 5)).join.isSome = true := by decide
  rw [hinfo] at hsome
  obtain ⟨prc', h⟩ := Option.isSome_iff_exists.1 hsome
  have helim := Option.join_eq_some_iff.1 h
  obtain ⟨hleave, hvals⟩ := eliminateLoop_values defUse_countIdle (by decide)
    rotatedLoop_countIdle rotatedLoop_countIdle hinfo rfl helim rounds_countIdle
  exact ⟨prc', info, hinfo, helim, hleave, hvals 12 (by decide) (.inl (by decide))⟩

end OdinSon
