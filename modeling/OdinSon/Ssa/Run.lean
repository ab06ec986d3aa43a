import OdinSon.Ssa.Exec

/-!
# Running a graph, step by step

Where `Exec` allows every step of control that the conditions do, `advance` takes it: from an `If` to
the side that its condition names, and from any other control node to its only successor.  The phis
of the node that is entered get the values that belong to the edge, all at once.
-/

namespace OdinSon

variable {F M : Type} (S : Semantics F M) (prc : Proc) (depth : ℕ)

/-- The next control node, and the input at which it is entered. -/
def nextCtrl (σ : Env F M) (c : NodeId) : Option NodeOutput :=
  let node := prc.getNode c
  if node.itype = .if_ then
    match eval S prc σ depth (node.inp 1) with
    | some (.int x) =>
      node.outs.find? fun out => (prc.getNode out.id).itype = if x ≠ 0 then .then_ else .else_
    | _ => none
  else node.outs.find? fun out => prc.isCfg out.id

/-- The values once control has entered at the input `out.idx` of `out.id`. -/
def enter (σ : Env F M) (out : NodeOutput) : Env F M :=
  (prc.getNode out.id).outs.foldl (fun σ' use =>
    let node := prc.getNode use.id
    if node.itype = .phi ∧ use.idx = 0 then
      Function.update σ' use.id (eval S prc σ depth (node.inp (out.idx + 1)))
    else σ') σ

/-- Run until the `Return`; what it observes. -/
@[grind =] def runFrom : ℕ → NodeId → Env F M → Option (List (Val F M))
  | 0, _, _ => none
  | fuel + 1, c, σ =>
    if (prc.getNode c).itype = .return_ then
      (prc.getNode c).inps.tail.mapM fun id => eval S prc σ depth id
    else do
      let out ← nextCtrl S prc depth σ c
      runFrom fuel out.id (enter S prc depth σ out)

/-- The values at the entry: the parameters and the memory. -/
def startEnv (args : List (Val F M)) (mem : Val F M) : Env F M := fun id =>
  let node := prc.getNode id
  if node.inp 0 ≠ prc.entry then none
  else if node.itype = .param then args[node.extra.getD 0 0]?
  else if node.itype = .mem then some mem
  else none

variable {S prc depth} {σ : Env F M} {id : NodeId}

/-! ### Values -/

theorem eval_source {n : ℕ} (h : prc.isSource (prc.getNode id) = true) :
    eval S prc σ (n + 1) id = σ id := by
  rw [eval, if_pos h]

theorem eval_phi {n : ℕ} (h : (prc.getNode id).itype = .phi) :
    eval S prc σ (n + 1) id = σ id :=
  eval_source (by simp [Proc.isSource, h])

theorem eval_cInt {n : ℕ} (h : (prc.getNode id).itype = .cInt) :
    eval S prc σ (n + 1) id = S.constVal (prc.getNode id) := by
  rw [eval, if_neg (by simp [Proc.isSource, NodeType.isProjection, h]), nodeVal, h]

/-- An operator on addresses. -/
theorem eval_bin_of_i64 {n : ℕ} {op : BinOp} {a b r : ℤ}
    (h : (prc.getNode id).itype = .bin op) (hdt : (prc.getNode id).dt.isVector = false)
    (hty : prc.operationDatatype (prc.getNode id) = .i64)
    (ha : eval S prc σ n ((prc.getNode id).inp 0) = some (.int a))
    (hb : eval S prc σ n ((prc.getNode id).inp 1) = some (.int b))
    (hr : machine op 64 a b = some r) : eval S prc σ (n + 1) id = some (.int r) := by
  rw [eval, if_neg (by simp [Proc.isSource, NodeType.isProjection, h]), nodeVal, h]
  have hbits : Datatype.i64.bits = 64 := rfl
  simp [hdt, ha, hb, hty, Semantics.binVal, Datatype.isInt, hbits, hr]

/-- Addition and subtraction of addresses. -/
theorem eval_bin_i64 {n : ℕ} {op : BinOp} {a b r : BitVec 64}
    (h : (prc.getNode id).itype = .bin op) (hop : op.isComparison = false)
    (hdt : (prc.getNode id).dt = .i64)
    (ha : eval S prc σ n ((prc.getNode id).inp 0) = some (.int a.toInt))
    (hb : eval S prc σ n ((prc.getNode id).inp 1) = some (.int b.toInt))
    (hr : machine op 64 a.toInt b.toInt = some r.toInt) :
    eval S prc σ (n + 1) id = some (.int r.toInt) := by
  refine eval_bin_of_i64 h (by simp [hdt, Datatype.isVector]) ?_ ha hb hr
  simp [Proc.operationDatatype, h, hop, hdt, Datatype.isVector]

theorem machine_add_toInt (a b : BitVec 64) :
    machine .add 64 a.toInt b.toInt = some (a + b).toInt := by
  simp [machine]

theorem machine_sub_toInt (a b : BitVec 64) :
    machine .sub 64 a.toInt b.toInt = some (a - b).toInt := by
  simp [machine]

theorem machine_uLt_toInt (a b : BitVec 64) :
    machine .uLt 64 a.toInt b.toInt = some (boolToInt (a.ult b)) := by
  simp [machine]

end OdinSon
