import OdinSon.Lib.CopyLoop
import OdinSon.Ssa.Builder
import OdinSon.Ssa.Run
import Mathlib.Data.Nat.Dist

/-!
# The built-in memmove

`make_builtin_proc` builds a procedure of two loops, one that copies up and one that copies down.  The
builder's calls are run here (`builtinGraph`), and the nodes that come out are a table
(`memmoveNode`).  Every run ends, with the memory `memmoveMemory` (`runsTo_memmove`).

The loop up is chosen where `dst` lies in the source, which is where it must not be: memmove is right
only if the bytes it then reads late are still the right ones (`memmove_isMoved_iff`).
-/

namespace OdinSon

/-- `Builtin_Proc`. -/
inductive BuiltinProc where
  | memmove | memset
  deriving DecidableEq, Repr

namespace Build

/-- What `make_builtin_proc` knows of the variables. -/
structure Vars where
  /-- The place of the memory in the scope. -/
  memv : ℕ
  /-- The place of `dst`. -/
  dstv : ℕ
  /-- The place of `src`, if values are loaded. -/
  srcv : Option ℕ
  /-- The place of `len`. -/
  lenv : ℕ
  /-- The value that is stored if it is not loaded. -/
  val : NodeId

/-- `dst` and `src` go one cell up or down. -/
def stepPointers (vars : Vars) (i : ℕ) (scope one dst src : NodeId) : Build (NodeId × NodeId) := do
  let op : BinOp := if i = 0 then .add else .sub
  let dst ← addBinOp op .i64 dst one
  setScopeValue scope vars.dstv dst
  match vars.srcv with
  | none => return (dst, src)
  | some srcv =>
    let src ← addBinOp op .i64 src one
    setScopeValue scope srcv src
    return (dst, src)

/-- One cell is written. -/
def moveCell (vars : Vars) (scope ctrl dst src : NodeId) : Build Unit := do
  let mem ← getScopeValue scope vars.memv
  let val ← if vars.srcv.isSome then addLoad .i8 ctrl mem src else pure vars.val
  setScopeValue scope vars.memv (← addStore ctrl mem dst val)

/-- A loop of `make_builtin_proc`: up for `i = 0` and down for `i = 1`. -/
def moveLoop (vars : Vars) (i : ℕ) (scope : NodeId) : Build NodeId := do
  let loop ← startLoop scope
  let cond ← getScopeValue scope vars.lenv
  let if_ ← startIf scope cond
  let ctrl := (← getNode scope).inp 0
  let one ← addCInt .i64 1
  let dst ← getScopeValue scope vars.dstv
  let src ← match vars.srcv with
    | none => pure 0
    | some srcv => getScopeValue scope srcv
  if i = 0 then
    moveCell vars scope ctrl dst src
    discard (stepPointers vars i scope one dst src)
  else
    let (dst, src) ← stepPointers vars i scope one dst src
    moveCell vars scope ctrl dst src
  setScopeValue scope vars.lenv (← addBinOp .sub .i64 cond one)
  let (elseScope, if_) ← startElse scope if_
  let loop ← loopBreak elseScope loop
  endLoop (← endElse 0 if_) loop

/-- `make_builtin_proc`. -/
def makeBuiltinProc (name : BuiltinProc) : Build Unit := do
  let mem ← startProc
  let entry := (← get).entry
  let scope ← addScope entry
  let memv ← pushScopeValue scope mem
  let dst ← addParam .i64 entry 0
  let dstv ← pushScopeValue scope dst
  match name with
  | .memset =>
    let val ← addParam .i8 entry 1
    let len ← addParam .i64 entry 2
    let lenv ← pushScopeValue scope len
    let scope ← moveLoop { memv, dstv, srcv := none, lenv, val } 0 scope
    finish memv scope
  | .memmove =>
    let src ← addParam .i64 entry 1
    let srcv ← pushScopeValue scope src
    let len ← addParam .i64 entry 2
    let lenv ← pushScopeValue scope len
    let vars : Vars := { memv, dstv, srcv, lenv, val := 0 }
    let diff ← addBinOp .sub .i64 dst src
    let cond ← addBinOp .uLt .i8 diff len
    let moveIf ← startIf scope cond
    let scope ← moveLoop vars 0 scope
    let (scope, moveIf) ← startElse scope moveIf
    let dst ← getScopeValue scope dstv
    let src ← getScopeValue scope srcv
    let dend ← addBinOp .add .i64 dst len
    let send ← addBinOp .add .i64 src len
    setScopeValue scope dstv dend
    setScopeValue scope srcv send
    let scope ← moveLoop vars 1 scope
    finish memv (← endElse scope moveIf)
where
  /-- The return, and the end of the scope. -/
  finish (memv : ℕ) (scope : NodeId) : Build Unit := do
    let ctrl := (← getNode scope).inp 0
    let mem ← getScopeValue scope memv
    discard (mergeReturn [ctrl, mem])
    deleteNode scope

end Build

/-- The graph of a built-in procedure. -/
def builtinGraph (name : BuiltinProc) : Option Graph :=
  ((Build.makeBuiltinProc name).run (Graph.empty false)).map (·.2)

/-! ### The graph of memmove -/

/-- The nodes of the graph, by the places that the arena gives them. -/
def memmoveNode : NodeId → Node
  | 1 => { itype := .entry, extra := [0], outs := [⟨17, 0⟩, ⟨126, 0⟩, ⟨40, 0⟩, ⟨56, 0⟩, ⟨66, 0⟩] }
  | 8 => { itype := .end_, inps := [849], outs := [⟨0, 0⟩] }
  | 17 => { itype := .mem, dt := .mem, isStore := true, inps := [1], outs := [⟨330, 1⟩, ⟨635, 1⟩] }
  | 40 => {
      itype := .param, dt := .i64, extra := [0], inps := [1],
      outs := [⟨308, 1⟩, ⟨86, 0⟩, ⟨460, 0⟩] }
  | 56 => {
      itype := .param, dt := .i64, extra := [1], inps := [1],
      outs := [⟨319, 1⟩, ⟨86, 1⟩, ⟨468, 0⟩] }
  | 66 => {
      itype := .param, dt := .i64, extra := [2], inps := [1],
      outs := [⟨230, 1⟩, ⟨116, 1⟩, ⟨511, 1⟩, ⟨460, 1⟩, ⟨468, 1⟩] }
  | 86 => { itype := .bin .sub, dt := .i64, inps := [40, 56], outs := [⟨116, 0⟩] }
  | 116 => { itype := .bin .uLt, dt := .i8, inps := [86, 66], outs := [⟨126, 1⟩] }
  | 126 => { itype := .if_, extra := [0], inps := [1, 116], outs := [⟨181, 0⟩, ⟨450, 0⟩] }
  | 181 => { itype := .then_, extra := [0], inps := [126], outs := [⟨193, 0⟩] }
  | 193 => {
      itype := .loop, extra := [0], inps := [181, 288],
      outs := [⟨330, 0⟩, ⟨319, 0⟩, ⟨230, 0⟩, ⟨247, 0⟩, ⟨308, 0⟩] }
  | 230 => { itype := .phi, dt := .i64, inps := [193, 66, 424], outs := [⟨247, 1⟩, ⟨424, 0⟩] }
  | 247 => { itype := .if_, extra := [0], inps := [193, 230], outs := [⟨288, 0⟩, ⟨440, 0⟩] }
  | 288 => { itype := .then_, extra := [0], inps := [247], outs := [⟨193, 1⟩, ⟨355, 0⟩, ⟨376, 0⟩] }
  | 300 => {
      itype := .cInt, dt := .i64, extra := [1, 0],
      outs := [⟨402, 1⟩, ⟨414, 1⟩, ⟨424, 1⟩, ⟨603, 1⟩, ⟨619, 1⟩, ⟨695, 1⟩] }
  | 308 => { itype := .phi, dt := .i64, inps := [193, 40, 402], outs := [⟨376, 2⟩, ⟨402, 0⟩] }
  | 319 => { itype := .phi, dt := .i64, inps := [193, 56, 414], outs := [⟨355, 2⟩, ⟨414, 0⟩] }
  | 330 => {
      itype := .phi, dt := .mem, inps := [193, 17, 376], outs := [⟨797, 1⟩, ⟨376, 1⟩, ⟨355, 1⟩] }
  | 355 => {
      itype := .load, dt := .i8, isLoad := true, inps := [288, 330, 319], outs := [⟨376, 3⟩] }
  | 376 => {
      itype := .store, dt := .mem, isStore := true, inps := [288, 330, 308, 355],
      outs := [⟨330, 2⟩] }
  | 402 => { itype := .bin .add, dt := .i64, inps := [308, 300], outs := [⟨308, 2⟩] }
  | 414 => { itype := .bin .add, dt := .i64, inps := [319, 300], outs := [⟨319, 2⟩] }
  | 424 => { itype := .bin .sub, dt := .i64, inps := [230, 300], outs := [⟨230, 2⟩] }
  | 440 => { itype := .else_, extra := [0], inps := [247], outs := [⟨788, 0⟩] }
  | 450 => { itype := .else_, extra := [0], inps := [126], outs := [⟨480, 0⟩] }
  | 460 => { itype := .bin .add, dt := .i64, inps := [40, 66], outs := [⟨581, 1⟩] }
  | 468 => { itype := .bin .add, dt := .i64, inps := [56, 66], outs := [⟨592, 1⟩] }
  | 480 => {
      itype := .loop, extra := [0], inps := [450, 569],
      outs := [⟨635, 0⟩, ⟨592, 0⟩, ⟨511, 0⟩, ⟨528, 0⟩, ⟨581, 0⟩] }
  | 511 => { itype := .phi, dt := .i64, inps := [480, 66, 695], outs := [⟨528, 1⟩, ⟨695, 0⟩] }
  | 528 => { itype := .if_, extra := [0], inps := [480, 511], outs := [⟨569, 0⟩, ⟨766, 0⟩] }
  | 569 => { itype := .then_, extra := [0], inps := [528], outs := [⟨480, 1⟩, ⟨660, 0⟩, ⟨675, 0⟩] }
  | 581 => { itype := .phi, dt := .i64, inps := [480, 460, 603], outs := [⟨603, 0⟩] }
  | 592 => { itype := .phi, dt := .i64, inps := [480, 468, 619], outs := [⟨619, 0⟩] }
  | 603 => { itype := .bin .sub, dt := .i64, inps := [581, 300], outs := [⟨581, 2⟩, ⟨675, 2⟩] }
  | 619 => { itype := .bin .sub, dt := .i64, inps := [592, 300], outs := [⟨592, 2⟩, ⟨660, 2⟩] }
  | 635 => {
      itype := .phi, dt := .mem, inps := [480, 17, 675], outs := [⟨797, 2⟩, ⟨675, 1⟩, ⟨660, 1⟩] }
  | 660 => {
      itype := .load, dt := .i8, isLoad := true, inps := [569, 635, 619], outs := [⟨675, 3⟩] }
  | 675 => {
      itype := .store, dt := .mem, isStore := true, inps := [569, 635, 603, 660],
      outs := [⟨635, 2⟩] }
  | 695 => { itype := .bin .sub, dt := .i64, inps := [511, 300], outs := [⟨511, 2⟩] }
  | 766 => { itype := .else_, extra := [0], inps := [528], outs := [⟨788, 1⟩] }
  | 788 => { itype := .region, extra := [0], inps := [440, 766], outs := [⟨797, 0⟩, ⟨849, 0⟩] }
  | 797 => { itype := .phi, dt := .mem, inps := [788, 330, 635], outs := [⟨849, 1⟩] }
  | 849 => { itype := .return_, extra := [0], inps := [788, 797], outs := [⟨8, 0⟩] }
  | _ => { itype := .dead }

/-- The places. -/
def memmoveIds : List NodeId :=
  [1, 8, 17, 40, 56, 66, 86, 116, 126, 181, 193, 230, 247, 288, 300, 308, 319, 330, 355, 376,
    402, 414, 424, 440, 450, 460, 468, 480, 511, 528, 569, 581, 592, 603, 619, 635, 660, 675,
    695, 766, 788, 797, 849]

/-- The builder makes these nodes. -/
theorem builtinGraph_memmove : ((builtinGraph .memmove).any fun g =>
    decide (g.entry = 1) && memmoveIds.all fun id => g.getNode id = memmoveNode id) = true := by
  decide +kernel

/-! ### What the loops do -/

/-- A byte read, or a memory with one byte written: the loads and stores here are of bytes. -/
@[grind =] def memApply (node : Node) : List (Option (Val Unit Memory)) → Option (Val Unit Memory)
  | [_, some (.other m), some (.int a)] =>
    if node.itype = .load ∧ node.dt = .i8 then some (.int (m (.ofInt 64 a)).toInt) else none
  | [_, some (.other m), some (.int a), some (.int v)] =>
    if node.itype = .store then some (.other (Function.update m (.ofInt 64 a) (.ofInt 8 v)))
    else none
  | _ => none

/-- The meaning of the nodes; there are no floats. -/
def byteOps : Semantics Unit Memory where
  const _ _ := ()
  isNan _ := false
  isNinf _ := false
  isPinf _ := false
  isZero _ := false
  arith _ _ _ _ := none
  compare _ _ _ := none
  apply := memApply

@[simp]
theorem byteOps_apply : byteOps.apply = memApply := rfl

/-- A number of 64 bits as a value. -/
abbrev word (a : BitVec 64) : Val Unit Memory := .int a.toInt

section Nodes

variable {prc : Proc} {σ : Env Unit Memory} {id ctrl mi ai vi : NodeId} {m : Memory}
  {a : BitVec 64} {n : ℕ}

theorem eval_load (hk : (prc.getNode id).itype = .load) (hdt : (prc.getNode id).dt = .i8)
    (hi : (prc.getNode id).inps = [ctrl, mi, ai]) (hc : prc.isCfg ctrl = true)
    (hmi : prc.isCfg mi = false) (hai : prc.isCfg ai = false)
    (hm : eval byteOps prc σ n mi = some (.other m)) (ha : eval byteOps prc σ n ai = some (word a)) :
    eval byteOps prc σ (n + 1) id = some (.int (m a).toInt) := by
  have hmem : MachInt.InS 8 (m a).toInt := MachInt.toInt_mem (by norm_num) (m a)
  have hty : Val.hasType .i8 (.int (m a).toInt : Val Unit Memory) = true := by
    simp [Val.hasType, Datatype.isInt]
    exact hmem
  rw [eval, if_neg (by simp [Proc.isSource, NodeType.isProjection, hk]), nodeVal, hk]
  simp [NodeType.isCfg, applyVal, hi, hc, hmi, hai, hm, ha, memApply, Node.head, hk, hdt, hty]

theorem eval_store (hk : (prc.getNode id).itype = .store) (hdt : (prc.getNode id).dt = .mem)
    (hi : (prc.getNode id).inps = [ctrl, mi, ai, vi]) (hc : prc.isCfg ctrl = true)
    (hmi : prc.isCfg mi = false) (hai : prc.isCfg ai = false) (hvi : prc.isCfg vi = false)
    (hm : eval byteOps prc σ n mi = some (.other m)) (ha : eval byteOps prc σ n ai = some (word a))
    {v : BitVec 8} (hv : eval byteOps prc σ n vi = some (.int v.toInt)) :
    eval byteOps prc σ (n + 1) id = some (.other (Function.update m a v)) := by
  rw [eval, if_neg (by simp [Proc.isSource, NodeType.isProjection, hk]), nodeVal, hk]
  simp [NodeType.isCfg, applyVal, hi, hc, hmi, hai, hvi, hm, ha, hv, memApply, Node.head, hk, hdt,
    Val.hasType, Datatype.isInt, Datatype.isFloat]

end Nodes

/-- The places of a loop: its control nodes, its phis, and what they get on the back edge. -/
structure CopyLoop where
  (head test body exit : NodeId)
  (mem dst src len : NodeId)
  (mem' dst' src' len' : NodeId)

/-- The loop stands in the graph. -/
structure CopyLoop.In (L : CopyLoop) (prc : Proc) : Prop where
  head : (prc.getNode L.head).itype = .loop
  head_outs : (prc.getNode L.head).outs =
    [⟨L.mem, 0⟩, ⟨L.src, 0⟩, ⟨L.len, 0⟩, ⟨L.test, 0⟩, ⟨L.dst, 0⟩]
  mem : (prc.getNode L.mem).itype = .phi ∧ (prc.getNode L.mem).inp 2 = L.mem'
  dst : (prc.getNode L.dst).itype = .phi ∧ (prc.getNode L.dst).inp 2 = L.dst'
  src : (prc.getNode L.src).itype = .phi ∧ (prc.getNode L.src).inp 2 = L.src'
  len : (prc.getNode L.len).itype = .phi ∧ (prc.getNode L.len).inp 2 = L.len'
  test : (prc.getNode L.test).itype = .if_ ∧ (prc.getNode L.test).inp 1 = L.len
  test_outs : (prc.getNode L.test).outs = [⟨L.body, 0⟩, ⟨L.exit, 0⟩]
  body : (prc.getNode L.body).itype = .then_
  body_outs : ∃ x y, (prc.getNode L.body).outs = [⟨L.head, 1⟩, x, y] ∧
    (prc.getNode x.id).itype ≠ .phi ∧ (prc.getNode y.id).itype ≠ .phi
  exit : (prc.getNode L.exit).itype = .else_
  exit_outs : ∃ x, (prc.getNode L.exit).outs = [x] ∧ (prc.getNode x.id).itype ≠ .phi
  ne : L.mem ≠ L.src ∧ L.mem ≠ L.len ∧ L.mem ≠ L.dst ∧ L.src ≠ L.len ∧ L.src ≠ L.dst ∧
    L.len ≠ L.dst

/-- The phis have these values. -/
structure CopyLoop.At (L : CopyLoop) (σ : Env Unit Memory) (m : Memory) (d s n : BitVec 64) :
    Prop where
  mem : σ L.mem = some (.other m)
  dst : σ L.dst = some (word d)
  src : σ L.src = some (word s)
  len : σ L.len = some (word n)

namespace CopyLoop

variable {L : CopyLoop} {prc : Proc} {σ : Env Unit Memory} {m m' : Memory} {d s n d' s' n' : BitVec 64}
  {depth : ℕ}

theorem word_ne_zero {n : BitVec 64} : n.toInt ≠ 0 ↔ n ≠ 0 := by
  rw [ne_eq, ne_eq, ← BitVec.toInt_inj]
  rfl

/-- From the head to the test; nothing changes. -/
theorem In.runFrom_head (hL : L.In prc) (k : ℕ) :
    runFrom byteOps prc depth (k + 1) L.head σ = runFrom byteOps prc depth k L.test σ := by
  have hnext : nextCtrl byteOps prc depth σ L.head = some ⟨L.test, 0⟩ := by
    simp [nextCtrl, hL.head, hL.head_outs, Proc.isCfg, hL.mem.1, hL.src.1, hL.len.1, hL.test.1,
      NodeType.isCfg]
  have henter : enter byteOps prc depth σ ⟨L.test, 0⟩ = σ := by
    simp [enter, hL.test_outs, hL.body, hL.exit]
  rw [runFrom, if_neg (by simp [hL.head]), hnext]
  simp [henter]

/-- The test goes on while the count is not zero. -/
theorem In.nextCtrl_test (hL : L.In prc) (hat : L.At σ m d s n) (depth : ℕ) :
    nextCtrl byteOps prc (depth + 1) σ L.test =
      some (if n ≠ 0 then ⟨L.body, 0⟩ else ⟨L.exit, 0⟩) := by
  have heval : eval byteOps prc σ (depth + 1) L.len = some (word n) :=
    (eval_phi hL.len.1).trans hat.len
  by_cases hn : n = 0
  · subst hn
    simp [nextCtrl, hL.test.1, hL.test.2, heval, hL.test_outs, hL.body, hL.exit]
  · have hn' := word_ne_zero.2 hn
    have hne : n ≠ 0#64 := hn
    simp [nextCtrl, hL.test.1, hL.test.2, heval, hL.test_outs, hL.body, hne, hn']

/-- The phis get what belongs to the edge. -/
theorem In.at_enter (hL : L.In prc) {i : ℕ}
    (hm : eval byteOps prc σ depth ((prc.getNode L.mem).inp (i + 1)) = some (.other m))
    (hd : eval byteOps prc σ depth ((prc.getNode L.dst).inp (i + 1)) = some (word d))
    (hs : eval byteOps prc σ depth ((prc.getNode L.src).inp (i + 1)) = some (word s))
    (hn : eval byteOps prc σ depth ((prc.getNode L.len).inp (i + 1)) = some (word n)) :
    L.At (enter byteOps prc depth σ ⟨L.head, i⟩) m d s n := by
  obtain ⟨hms, hml, hmd, hsl, hsd, hld⟩ := hL.ne
  have henter : enter byteOps prc depth σ ⟨L.head, i⟩ =
      Function.update (Function.update (Function.update (Function.update σ
        L.mem (some (.other m))) L.src (some (word s))) L.len (some (word n)))
        L.dst (some (word d)) := by
    simp [enter, hL.head_outs, hL.mem.1, hL.src.1, hL.len.1, hL.test.1, hL.dst.1, hm, hs, hn, hd]
  rw [henter]
  constructor
  · simp [hms, hml, hmd]
  · simp
  · simp [hsl, hsd]
  · simp [hld]

/-- One round. -/
theorem In.runFrom_step (hL : L.In prc) (hat : L.At σ m d s n) (hn : n ≠ 0)
    (hm' : eval byteOps prc σ (depth + 1) L.mem' = some (.other m'))
    (hd' : eval byteOps prc σ (depth + 1) L.dst' = some (word d'))
    (hs' : eval byteOps prc σ (depth + 1) L.src' = some (word s'))
    (hn' : eval byteOps prc σ (depth + 1) L.len' = some (word n')) : ∃ σ', L.At σ' m' d' s' n' ∧
      ∀ k, runFrom byteOps prc (depth + 1) (k + 3) L.head σ =
        runFrom byteOps prc (depth + 1) k L.head σ' := by
  rw [← hL.mem.2] at hm'
  rw [← hL.dst.2] at hd'
  rw [← hL.src.2] at hs'
  rw [← hL.len.2] at hn'
  refine ⟨_, hL.at_enter hm' hd' hs' hn', fun k => ?_⟩
  obtain ⟨x, y, hbody, hx, hy⟩ := hL.body_outs
  have hstep := hL.nextCtrl_test hat depth
  rw [if_pos hn] at hstep
  have henter : enter byteOps prc (depth + 1) σ ⟨L.body, 0⟩ = σ := by
    simp [enter, hbody, hL.head, hx, hy]
  have hnext : nextCtrl byteOps prc (depth + 1) σ L.body = some ⟨L.head, 1⟩ := by
    simp [nextCtrl, hL.body, hbody, Proc.isCfg, hL.head, NodeType.isCfg]
  rw [hL.runFrom_head, runFrom, if_neg (by simp [hL.test.1]), hstep]
  simp only [Option.bind_eq_bind, Option.bind_some, henter]
  rw [runFrom, if_neg (by simp [hL.body]), hnext]
  rfl

/-- The last round. -/
theorem In.runFrom_exit (hL : L.In prc) (hat : L.At σ m d s 0) (k : ℕ) :
    runFrom byteOps prc (depth + 1) (k + 2) L.head σ =
      runFrom byteOps prc (depth + 1) k L.exit σ := by
  obtain ⟨x, hexit, hx⟩ := hL.exit_outs
  have hstep := hL.nextCtrl_test hat depth
  rw [if_neg (by simp)] at hstep
  have henter : enter byteOps prc (depth + 1) σ ⟨L.exit, 0⟩ = σ := by simp [enter, hexit, hx]
  rw [hL.runFrom_head, runFrom, if_neg (by simp [hL.test.1]), hstep]
  simp only [Option.bind_eq_bind, Option.bind_some, henter]

end CopyLoop

/-! ### The two loops of memmove -/

def upLoop : CopyLoop where
  head := 193
  test := 247
  body := 288
  exit := 440
  mem := 330
  dst := 308
  src := 319
  len := 230
  mem' := 376
  dst' := 402
  src' := 414
  len' := 424

def downLoop : CopyLoop where
  head := 480
  test := 528
  body := 569
  exit := 766
  mem := 635
  dst := 581
  src := 592
  len := 511
  mem' := 675
  dst' := 603
  src' := 619
  len' := 695

/-- The address at a position. -/
abbrev address (i : ℕ) : BitVec 64 := .ofNat 64 i

/-- The graph has the nodes of `memmoveNode`. -/
structure IsMemmove (prc : Proc) : Prop where
  node : ∀ id ∈ memmoveIds, prc.getNode id = memmoveNode id

section Loops

variable {prc : Proc} {σ : Env Unit Memory} {m : Memory} {d s n : BitVec 64} {depth : ℕ}

theorem IsMemmove.itype (h : IsMemmove prc) {id : NodeId} (hid : id ∈ memmoveIds) :
    (prc.getNode id).itype = (memmoveNode id).itype := by rw [h.node _ hid]

theorem IsMemmove.dt (h : IsMemmove prc) {id : NodeId} (hid : id ∈ memmoveIds) :
    (prc.getNode id).dt = (memmoveNode id).dt := by rw [h.node _ hid]

theorem IsMemmove.inps (h : IsMemmove prc) {id : NodeId} (hid : id ∈ memmoveIds) :
    (prc.getNode id).inps = (memmoveNode id).inps := by rw [h.node _ hid]

theorem IsMemmove.outs (h : IsMemmove prc) {id : NodeId} (hid : id ∈ memmoveIds) :
    (prc.getNode id).outs = (memmoveNode id).outs := by rw [h.node _ hid]

theorem IsMemmove.isCfg (h : IsMemmove prc) {id : NodeId} (hid : id ∈ memmoveIds) :
    prc.isCfg id = (memmoveNode id).itype.isCfg := by rw [Proc.isCfg, h.itype hid]

theorem upLoop_in (h : IsMemmove prc) : upLoop.In prc where
  head := h.itype (by decide)
  head_outs := h.outs (by decide)
  mem := by rw [h.node _ (by decide)]; exact ⟨rfl, rfl⟩
  dst := by rw [h.node _ (by decide)]; exact ⟨rfl, rfl⟩
  src := by rw [h.node _ (by decide)]; exact ⟨rfl, rfl⟩
  len := by rw [h.node _ (by decide)]; exact ⟨rfl, rfl⟩
  test := by rw [h.node _ (by decide)]; exact ⟨rfl, rfl⟩
  test_outs := h.outs (by decide)
  body := h.itype (by decide)
  body_outs := by
    refine ⟨⟨355, 0⟩, ⟨376, 0⟩, h.outs (by decide), ?_, ?_⟩ <;> rw [h.itype (by decide)] <;> decide
  exit := h.itype (by decide)
  exit_outs := ⟨_, h.outs (by decide), by rw [h.itype (by decide)]; decide⟩
  ne := by decide

theorem downLoop_in (h : IsMemmove prc) : downLoop.In prc where
  head := h.itype (by decide)
  head_outs := h.outs (by decide)
  mem := by rw [h.node _ (by decide)]; exact ⟨rfl, rfl⟩
  dst := by rw [h.node _ (by decide)]; exact ⟨rfl, rfl⟩
  src := by rw [h.node _ (by decide)]; exact ⟨rfl, rfl⟩
  len := by rw [h.node _ (by decide)]; exact ⟨rfl, rfl⟩
  test := by rw [h.node _ (by decide)]; exact ⟨rfl, rfl⟩
  test_outs := h.outs (by decide)
  body := h.itype (by decide)
  body_outs := by
    refine ⟨⟨660, 0⟩, ⟨675, 0⟩, h.outs (by decide), ?_, ?_⟩ <;> rw [h.itype (by decide)] <;> decide
  exit := h.itype (by decide)
  exit_outs := ⟨_, h.outs (by decide), by rw [h.itype (by decide)]; decide⟩
  ne := by decide

theorem eval_one (h : IsMemmove prc) : eval byteOps prc σ (depth + 1) 300 = some (word 1) := by
  have hval : sext (memmoveNode 300).cIntValue .i64 = 1 := by decide
  rw [eval_cInt (h.itype (by decide)), h.node _ (by decide)]
  simp [Semantics.constVal, Datatype.isFloat, Datatype.isInt, memmoveNode]
  exact hval

/-- A step of a pointer, or of the count. -/
theorem eval_succ {id x : NodeId} (h : IsMemmove prc)
    (hk : (prc.getNode id).itype = .bin .add) (hdt : (prc.getNode id).dt = .i64)
    (hi : (prc.getNode id).inps = [x, 300]) (hx : eval byteOps prc σ (depth + 1) x = some (word d)) :
    eval byteOps prc σ (depth + 2) id = some (word (d + 1)) := by
  refine eval_bin_i64 hk rfl hdt ?_ ?_ (machine_add_toInt d 1)
  · simpa [Node.inp, hi] using hx
  · rw [Node.inp, hi]
    exact eval_one h

theorem eval_pred {id x : NodeId} (h : IsMemmove prc)
    (hk : (prc.getNode id).itype = .bin .sub) (hdt : (prc.getNode id).dt = .i64)
    (hi : (prc.getNode id).inps = [x, 300]) (hx : eval byteOps prc σ (depth + 1) x = some (word d)) :
    eval byteOps prc σ (depth + 2) id = some (word (d - 1)) := by
  refine eval_bin_i64 hk rfl hdt ?_ ?_ (machine_sub_toInt d 1)
  · simpa [Node.inp, hi] using hx
  · rw [Node.inp, hi]
    exact eval_one h

theorem address_ne_zero {k : ℕ} (hk : 0 < k) (hlt : k < 2 ^ 64) : address k ≠ 0 := by
  intro h
  have := congrArg BitVec.toNat h
  rw [BitVec.toNat_ofNat, Nat.mod_eq_of_lt hlt] at this
  exact hk.ne' this

theorem address_succ (k : ℕ) : address k + 1 = address (k + 1) := by
  simp [address, BitVec.ofNat_add]

theorem address_pred (k : ℕ) : address (k + 1) - 1 = address k := by
  rw [← address_succ, BitVec.add_sub_cancel]

theorem address_toNat (a : BitVec 64) : address a.toNat = a := by simp

theorem address_add (a : BitVec 64) (i : ℕ) : address (a.toNat + i) = a + address i := by
  simp [address, BitVec.ofNat_add]

/-- The loop up copies the lowest cell first. -/
theorem runFrom_upLoop (h : IsMemmove prc) {k p q : ℕ} (hk : k < 2 ^ 64)
    (hat : upLoop.At σ m (address p) (address q) (address k)) :
    ∃ σ' d' s', upLoop.At σ' (Lib.copyUp address k m p q) d' s' 0 ∧ ∀ j,
      runFrom byteOps prc (depth + 4) (j + 3 * k) upLoop.head σ =
        runFrom byteOps prc (depth + 4) j upLoop.head σ' := by
  induction k generalizing σ m p q with
  | zero => exact ⟨σ, _, _, hat, fun j => rfl⟩
  | succ k ih =>
    have hL := upLoop_in h
    have hmem {n : ℕ} : eval byteOps prc σ (n + 1) 330 = some (.other m) :=
      (eval_phi hL.mem.1).trans hat.mem
    have hdst {n : ℕ} : eval byteOps prc σ (n + 1) 308 = some (word (address p)) :=
      (eval_phi hL.dst.1).trans hat.dst
    have hsrc {n : ℕ} : eval byteOps prc σ (n + 1) 319 = some (word (address q)) :=
      (eval_phi hL.src.1).trans hat.src
    have hlen {n : ℕ} : eval byteOps prc σ (n + 1) 230 = some (word (address (k + 1))) :=
      (eval_phi hL.len.1).trans hat.len
    have hload : eval byteOps prc σ (depth + 3) 355 = some (.int (m (address q)).toInt) :=
      eval_load (h.itype (by decide)) (h.dt (by decide)) (h.inps (by decide)) (h.isCfg (by decide))
        (h.isCfg (by decide)) (h.isCfg (by decide)) hmem hsrc
    have hstore : eval byteOps prc σ (depth + 4) 376 =
        some (.other (Function.update m (address p) (m (address q)))) :=
      eval_store (h.itype (by decide)) (h.dt (by decide)) (h.inps (by decide))
        (h.isCfg (by decide)) (h.isCfg (by decide)) (h.isCfg (by decide)) (h.isCfg (by decide))
        hmem hdst hload
    have hdst' : eval byteOps prc σ (depth + 4) 402 = some (word (address p + 1)) :=
      eval_succ h (h.itype (by decide)) (h.dt (by decide)) (h.inps (by decide)) hdst
    have hsrc' : eval byteOps prc σ (depth + 4) 414 = some (word (address q + 1)) :=
      eval_succ h (h.itype (by decide)) (h.dt (by decide)) (h.inps (by decide)) hsrc
    have hlen' : eval byteOps prc σ (depth + 4) 424 = some (word (address (k + 1) - 1)) :=
      eval_pred h (h.itype (by decide)) (h.dt (by decide)) (h.inps (by decide)) hlen
    rw [address_succ] at hdst' hsrc'
    rw [address_pred] at hlen'
    obtain ⟨σ₁, hat₁, hrun⟩ := hL.runFrom_step hat (address_ne_zero k.succ_pos hk) hstore hdst'
      hsrc' hlen'
    obtain ⟨σ', d', s', hat', hrun'⟩ := ih (by omega) hat₁
    exact ⟨σ', d', s', hat', fun j => by rw [Nat.mul_succ, ← Nat.add_assoc, hrun, hrun']⟩

/-- The loop down copies the highest cell first. -/
theorem runFrom_downLoop (h : IsMemmove prc) {k p q : ℕ} (hk : k < 2 ^ 64)
    (hat : downLoop.At σ m (address (p + k)) (address (q + k)) (address k)) :
    ∃ σ' d' s', downLoop.At σ' (Lib.copyDown address k m p q) d' s' 0 ∧ ∀ j,
      runFrom byteOps prc (depth + 4) (j + 3 * k) downLoop.head σ =
        runFrom byteOps prc (depth + 4) j downLoop.head σ' := by
  induction k generalizing σ m with
  | zero => exact ⟨σ, _, _, hat, fun j => rfl⟩
  | succ k ih =>
    have hL := downLoop_in h
    have hmem {n : ℕ} : eval byteOps prc σ (n + 1) 635 = some (.other m) :=
      (eval_phi hL.mem.1).trans hat.mem
    have hdst {n : ℕ} : eval byteOps prc σ (n + 1) 581 = some (word (address (p + k + 1))) :=
      (eval_phi hL.dst.1).trans hat.dst
    have hsrc {n : ℕ} : eval byteOps prc σ (n + 1) 592 = some (word (address (q + k + 1))) :=
      (eval_phi hL.src.1).trans hat.src
    have hlen {n : ℕ} : eval byteOps prc σ (n + 1) 511 = some (word (address (k + 1))) :=
      (eval_phi hL.len.1).trans hat.len
    have hdst' {n : ℕ} : eval byteOps prc σ (n + 2) 603 = some (word (address (p + k + 1) - 1)) :=
      eval_pred h (h.itype (by decide)) (h.dt (by decide)) (h.inps (by decide)) hdst
    have hsrc' {n : ℕ} : eval byteOps prc σ (n + 2) 619 = some (word (address (q + k + 1) - 1)) :=
      eval_pred h (h.itype (by decide)) (h.dt (by decide)) (h.inps (by decide)) hsrc
    have hlen' : eval byteOps prc σ (depth + 4) 695 = some (word (address (k + 1) - 1)) :=
      eval_pred h (h.itype (by decide)) (h.dt (by decide)) (h.inps (by decide)) hlen
    rw [address_pred] at hlen'
    simp only [address_pred] at hdst' hsrc'
    have hload : eval byteOps prc σ (depth + 3) 660 = some (.int (m (address (q + k))).toInt) :=
      eval_load (h.itype (by decide)) (h.dt (by decide)) (h.inps (by decide)) (h.isCfg (by decide))
        (h.isCfg (by decide)) (h.isCfg (by decide)) hmem hsrc'
    have hstore : eval byteOps prc σ (depth + 4) 675 =
        some (.other (Function.update m (address (p + k)) (m (address (q + k))))) :=
      eval_store (h.itype (by decide)) (h.dt (by decide)) (h.inps (by decide))
        (h.isCfg (by decide)) (h.isCfg (by decide)) (h.isCfg (by decide)) (h.isCfg (by decide))
        hmem hdst' hload
    obtain ⟨σ₁, hat₁, hrun⟩ := hL.runFrom_step hat (address_ne_zero k.succ_pos hk) hstore hdst'
      hsrc' hlen'
    obtain ⟨σ', d', s', hat', hrun'⟩ := ih (by omega) hat₁
    exact ⟨σ', d', s', hat', fun j => by rw [Nat.mul_succ, ← Nat.add_assoc, hrun, hrun']⟩

/-- From the end of a loop to the `Return`. -/
theorem runFrom_finish (h : IsMemmove prc) {e x : NodeId} {i k : ℕ} (he : e ∈ memmoveIds)
    (hkind : (memmoveNode e).itype = .else_) (houts : (memmoveNode e).outs = [⟨788, i⟩])
    (hx : (memmoveNode 797).inp (i + 1) = x)
    (hm : eval byteOps prc σ (depth + 1) x = some (.other m)) :
    runFrom byteOps prc (depth + 1) (k + 3) e σ = some [.other m] := by
  have hin : (prc.getNode 797).inp (i + 1) = x := by rw [h.node _ (by decide), hx]
  have hnext : nextCtrl byteOps prc (depth + 1) σ e = some ⟨788, i⟩ := by
    have hcfg : prc.isCfg 788 = true := h.isCfg (by decide)
    simp [nextCtrl, h.itype he, hkind, h.outs he, houts, hcfg]
  have henter : enter byteOps prc (depth + 1) σ ⟨788, i⟩ =
      Function.update σ 797 (some (.other m)) := by
    have h₁ : (prc.getNode 788).outs = [⟨797, 0⟩, ⟨849, 0⟩] := h.outs (by decide)
    have h₂ : (prc.getNode 797).itype = .phi := h.itype (by decide)
    have h₃ : (prc.getNode 849).itype = .return_ := h.itype (by decide)
    simp [enter, h₁, h₂, h₃, hin, hm]
  have hnext' : ∀ σ', nextCtrl byteOps prc (depth + 1) σ' 788 = some ⟨849, 0⟩ := by
    intro σ'
    have h₁ : (prc.getNode 788).outs = [⟨797, 0⟩, ⟨849, 0⟩] := h.outs (by decide)
    have h₂ : (prc.getNode 788).itype = .region := h.itype (by decide)
    have h₃ : prc.isCfg 797 = false := h.isCfg (by decide)
    have h₄ : prc.isCfg 849 = true := h.isCfg (by decide)
    simp [nextCtrl, h₁, h₂, h₃, h₄]
  have henter' : ∀ σ', enter byteOps prc (depth + 1) σ' ⟨849, 0⟩ = σ' := by
    intro σ'
    have h₁ : (prc.getNode 849).outs = [⟨8, 0⟩] := h.outs (by decide)
    have h₂ : (prc.getNode 8).itype = .end_ := h.itype (by decide)
    simp [enter, h₁, h₂]
  have hret : (prc.getNode 849).itype = .return_ := h.itype (by decide)
  have hregion : (prc.getNode 788).itype = .region := h.itype (by decide)
  have hphi : (prc.getNode 797).itype = .phi := h.itype (by decide)
  have hinps : (prc.getNode 849).inps = [788, 797] := h.inps (by decide)
  rw [runFrom, if_neg (by simp [h.itype he, hkind]), hnext]
  simp only [Option.bind_eq_bind, Option.bind_some, henter]
  rw [runFrom, if_neg (by simp [hregion]), hnext']
  simp only [Option.bind_eq_bind, Option.bind_some, henter']
  rw [runFrom, if_pos hret, hinps]
  simp [eval_phi hphi]

end Loops

/-! ### A run of memmove -/

/-- A run of the procedure ends, and `mem'` is the memory that it leaves. -/
def RunsTo (name : BuiltinProc) (args : List (Val Unit Memory)) (mem mem' : Memory) : Prop :=
  ∃ g, builtinGraph name = some g ∧ ∃ n, ∀ depth ≥ n, ∀ fuel ≥ n,
    runFrom byteOps g.toProc depth fuel g.entry (startEnv g.toProc args (.other mem)) =
      some [.other mem']

theorem RunsTo.unique {name : BuiltinProc} {args : List (Val Unit Memory)} {mem m₁ m₂ : Memory}
    (h₁ : RunsTo name args mem m₁) (h₂ : RunsTo name args mem m₂) : m₁ = m₂ := by
  obtain ⟨g, hg, n, hn⟩ := h₁
  obtain ⟨g', hg', n', hn'⟩ := h₂
  obtain rfl : g = g' := by simpa using hg.symm.trans hg'
  have h := (hn (max n n') (le_max_left ..) (max n n') (le_max_left ..)).symm.trans
    (hn' (max n n') (le_max_right ..) (max n n') (le_max_right ..))
  simpa using h

/-- What memmove leaves: it copies up where `dst` lies in the source, and down elsewhere. -/
def memmoveMemory (mem : Memory) (dst src len : BitVec 64) : Memory :=
  if (dst - src).ult len then Lib.copyUp address len.toNat mem dst.toNat src.toNat
  else Lib.copyDown address len.toNat mem dst.toNat src.toNat

section Start

variable {prc : Proc} {σ : Env Unit Memory} {mem : Memory} {dst src len : BitVec 64} {depth : ℕ}

/-- The parameters and the memory have their values. -/
structure Started (prc : Proc) (σ : Env Unit Memory) (mem : Memory) (dst src len : BitVec 64) :
    Prop where
  mem : ∀ n, eval byteOps prc σ (n + 1) 17 = some (.other mem)
  dst : ∀ n, eval byteOps prc σ (n + 1) 40 = some (word dst)
  src : ∀ n, eval byteOps prc σ (n + 1) 56 = some (word src)
  len : ∀ n, eval byteOps prc σ (n + 1) 66 = some (word len)

theorem started (h : IsMemmove prc) (hentry : prc.entry = 1) :
    Started prc (startEnv prc [word dst, word src, word len] (.other mem)) mem dst src len := by
  have hcfg : prc.isCfg 1 = true := h.isCfg (by decide)
  have hsource {id : NodeId} (hid : id ∈ memmoveIds)
      (hk : (memmoveNode id).itype.isProjection = true) (hi : (memmoveNode id).inp 0 = 1) :
      prc.isSource (prc.getNode id) = true := by
    rw [h.node _ hid]
    simp [Proc.isSource, hk, hi, hcfg]
  constructor <;> intro n <;>
    rw [eval_source (hsource (by decide) (by decide) (by decide)), startEnv,
      h.node _ (by decide), hentry] <;> rfl

/-- The direction. -/
theorem Started.eval_direction (hs : Started prc σ mem dst src len) (h : IsMemmove prc) :
    eval byteOps prc σ (depth + 3) 116 = some (.int (boolToInt ((dst - src).ult len))) := by
  have hdiff : eval byteOps prc σ (depth + 2) 86 = some (word (dst - src)) := by
    have hinps : (prc.getNode 86).inps = [40, 56] := h.inps (by decide)
    refine eval_bin_i64 (h.itype (by decide)) rfl (h.dt (by decide)) ?_ ?_
      (machine_sub_toInt dst src)
    · simpa [Node.inp, hinps] using hs.dst depth
    · simpa [Node.inp, hinps] using hs.src depth
  have hkind : (prc.getNode 116).itype = .bin .uLt := h.itype (by decide)
  have hdt : (prc.getNode 116).dt = .i8 := h.dt (by decide)
  have hdt' : (prc.getNode 86).dt = .i64 := h.dt (by decide)
  have hinps : (prc.getNode 116).inps = [86, 66] := h.inps (by decide)
  refine eval_bin_of_i64 hkind (by simp [hdt, Datatype.isVector]) ?_ ?_ ?_
    (machine_uLt_toInt (dst - src) len)
  · simp [Proc.operationDatatype, hkind, BinOp.isComparison, Node.inp, hinps, hdt',
      Datatype.isVector]
  · rw [Node.inp, hinps]
    exact hdiff
  · simpa [Node.inp, hinps] using hs.len (depth + 1)

/-- From the entry to the side that the direction names. -/
theorem Started.runFrom_entry (hs : Started prc σ mem dst src len) (h : IsMemmove prc) (k : ℕ) :
    runFrom byteOps prc (depth + 3) (k + 2) 1 σ =
      runFrom byteOps prc (depth + 3) k (if (dst - src).ult len then 181 else 450) σ := by
  have houts : (prc.getNode 126).outs = [⟨181, 0⟩, ⟨450, 0⟩] := h.outs (by decide)
  have hif : (prc.getNode 126).itype = .if_ := h.itype (by decide)
  have hthen : (prc.getNode 181).itype = .then_ := h.itype (by decide)
  have helse : (prc.getNode 450).itype = .else_ := h.itype (by decide)
  have hnext : nextCtrl byteOps prc (depth + 3) σ 1 = some ⟨126, 0⟩ := by
    have h₁ : (prc.getNode 1).outs = [⟨17, 0⟩, ⟨126, 0⟩, ⟨40, 0⟩, ⟨56, 0⟩, ⟨66, 0⟩] :=
      h.outs (by decide)
    have h₂ : (prc.getNode 1).itype = .entry := h.itype (by decide)
    have h₃ : prc.isCfg 17 = false := h.isCfg (by decide)
    have h₄ : prc.isCfg 126 = true := h.isCfg (by decide)
    simp [nextCtrl, h₁, h₂, h₃, h₄]
  have henter : enter byteOps prc (depth + 3) σ ⟨126, 0⟩ = σ := by
    simp [enter, houts, hthen, helse]
  have hside : nextCtrl byteOps prc (depth + 3) σ 126 =
      some ⟨if (dst - src).ult len then 181 else 450, 0⟩ := by
    have hinp : (prc.getNode 126).inp 1 = 116 := by rw [Node.inp, h.inps (by decide)]; rfl
    cases hult : (dst - src).ult len <;>
      simp [nextCtrl, hif, hinp, hs.eval_direction h, hult, boolToInt, houts, hthen, helse]
  have henter_then : enter byteOps prc (depth + 3) σ ⟨181, 0⟩ = σ := by
    have h₁ : (prc.getNode 181).outs = [⟨193, 0⟩] := h.outs (by decide)
    have h₂ : (prc.getNode 193).itype = .loop := h.itype (by decide)
    simp [enter, h₁, h₂]
  have henter_else : enter byteOps prc (depth + 3) σ ⟨450, 0⟩ = σ := by
    have h₁ : (prc.getNode 450).outs = [⟨480, 0⟩] := h.outs (by decide)
    have h₂ : (prc.getNode 480).itype = .loop := h.itype (by decide)
    simp [enter, h₁, h₂]
  have hkind : (prc.getNode 1).itype = .entry := h.itype (by decide)
  rw [runFrom, if_neg (by simp [hkind]), hnext]
  simp only [Option.bind_eq_bind, Option.bind_some, henter]
  rw [runFrom, if_neg (by simp [hif]), hside]
  split_ifs <;> simp only [Option.bind_eq_bind, Option.bind_some, henter_then, henter_else]

/-- The way up. -/
theorem Started.runFrom_then (hs : Started prc σ mem dst src len) (h : IsMemmove prc) (k : ℕ) :
    runFrom byteOps prc (depth + 4) (k + 3 * len.toNat + 6) 181 σ =
      some [.other (Lib.copyUp address len.toNat mem dst.toNat src.toNat)] := by
  have hL := upLoop_in h
  have houts : (prc.getNode 181).outs = [⟨193, 0⟩] := h.outs (by decide)
  have hthen : (prc.getNode 181).itype = .then_ := h.itype (by decide)
  have hnext : nextCtrl byteOps prc (depth + 4) σ 181 = some ⟨193, 0⟩ := by
    have hloop : prc.isCfg 193 = true := h.isCfg (by decide)
    simp [nextCtrl, hthen, houts, hloop]
  have hat : upLoop.At (enter byteOps prc (depth + 4) σ ⟨193, 0⟩) mem (address dst.toNat)
      (address src.toNat) (address len.toNat) := by
    rw [address_toNat, address_toNat, address_toNat]
    refine hL.at_enter ?_ ?_ ?_ ?_ <;> rw [Node.inp, h.inps (by decide)]
    exacts [hs.mem _, hs.dst _, hs.src _, hs.len _]
  obtain ⟨σ', d', s', hat', hrun⟩ := runFrom_upLoop h len.isLt hat
  rw [runFrom, if_neg (by simp [hthen]), hnext]
  simp only [Option.bind_eq_bind, Option.bind_some]
  rw [show k + 3 * len.toNat + 5 = (k + 5) + 3 * len.toNat by omega]
  refine (hrun (k + 5)).trans ?_
  rw [hL.runFrom_exit hat']
  exact runFrom_finish h (by decide) rfl rfl rfl ((eval_phi hL.mem.1).trans hat'.mem)

/-- The way down. -/
theorem Started.runFrom_else (hs : Started prc σ mem dst src len) (h : IsMemmove prc) (k : ℕ) :
    runFrom byteOps prc (depth + 4) (k + 3 * len.toNat + 6) 450 σ =
      some [.other (Lib.copyDown address len.toNat mem dst.toNat src.toNat)] := by
  have hL := downLoop_in h
  have houts : (prc.getNode 450).outs = [⟨480, 0⟩] := h.outs (by decide)
  have helse : (prc.getNode 450).itype = .else_ := h.itype (by decide)
  have hnext : nextCtrl byteOps prc (depth + 4) σ 450 = some ⟨480, 0⟩ := by
    have hloop : prc.isCfg 480 = true := h.isCfg (by decide)
    simp [nextCtrl, helse, houts, hloop]
  have hend {id x : NodeId} {a : BitVec 64} (hid : id ∈ memmoveIds)
      (hk : (memmoveNode id).itype = .bin .add) (hdt : (memmoveNode id).dt = .i64)
      (hi : (memmoveNode id).inps = [x, 66])
      (hx : eval byteOps prc σ (depth + 3) x = some (word a)) :
      eval byteOps prc σ (depth + 4) id = some (word (address (a.toNat + len.toNat))) := by
    rw [address_add, address_toNat]
    refine eval_bin_i64 ((h.itype hid).trans hk) rfl ((h.dt hid).trans hdt) ?_ ?_
      (machine_add_toInt a len)
    · rw [Node.inp, h.inps hid, hi]
      exact hx
    · rw [Node.inp, h.inps hid, hi]
      exact hs.len _
  have hat : downLoop.At (enter byteOps prc (depth + 4) σ ⟨480, 0⟩) mem
      (address (dst.toNat + len.toNat)) (address (src.toNat + len.toNat)) (address len.toNat) := by
    rw [address_toNat len]
    refine hL.at_enter ?_ ?_ ?_ ?_ <;> rw [Node.inp, h.inps (by decide)]
    · exact hs.mem _
    · exact hend (by decide) rfl rfl rfl (hs.dst _)
    · exact hend (by decide) rfl rfl rfl (hs.src _)
    · exact hs.len _
  obtain ⟨σ', d', s', hat', hrun⟩ := runFrom_downLoop h len.isLt hat
  rw [runFrom, if_neg (by simp [helse]), hnext]
  simp only [Option.bind_eq_bind, Option.bind_some]
  rw [show k + 3 * len.toNat + 5 = (k + 5) + 3 * len.toNat by omega]
  refine (hrun (k + 5)).trans ?_
  rw [hL.runFrom_exit hat']
  exact runFrom_finish h (by decide) rfl rfl rfl ((eval_phi hL.mem.1).trans hat'.mem)

/-- The procedure ends with this memory. -/
theorem runsTo_memmove (mem : Memory) (dst src len : BitVec 64) :
    RunsTo .memmove [word dst, word src, word len] mem (memmoveMemory mem dst src len) := by
  obtain ⟨g, hg, hnodes⟩ := (Option.any_eq_true ..).1 builtinGraph_memmove
  simp only [Bool.and_eq_true, List.all_eq_true, decide_eq_true_eq] at hnodes
  obtain ⟨hentry, hnodes⟩ := hnodes
  have h : IsMemmove g.toProc := ⟨hnodes⟩
  refine ⟨g, hg, 3 * len.toNat + 8, fun depth hdepth fuel hfuel => ?_⟩
  obtain ⟨depth, rfl⟩ := Nat.exists_eq_add_of_le' (show 4 ≤ depth by omega)
  obtain ⟨k, rfl⟩ := Nat.exists_eq_add_of_le' hfuel
  have hs : Started g.toProc (startEnv g.toProc [word dst, word src, word len] (.other mem)) mem dst
      src len := started h hentry
  rw [hentry]
  refine (hs.runFrom_entry h (k + 3 * len.toNat + 6)).trans ?_
  rw [memmoveMemory]
  split_ifs
  · exact hs.runFrom_then h k
  · exact hs.runFrom_else h k

end Start

/-! ### When it is memmove -/

/-- What memmove has to leave: the destination has what the source had before, and nothing else
changes. -/
def IsMoved (mem mem' : Memory) (dst src len : BitVec 64) : Prop :=
  (∀ i < len.toNat, mem' (dst + address i) = mem (src + address i)) ∧
    ∀ a, (∀ i < len.toNat, a ≠ dst + address i) → mem' a = mem a

/-- The bytes of the source repeat with the distance of the two ranges, as far as these overlap. -/
def SourceRepeats (mem : Memory) (dst src len : BitVec 64) : Prop :=
  ∀ i, i + Nat.dist dst.toNat src.toNat < len.toNat →
    mem (src + address i) = mem (src + address (i + Nat.dist dst.toNat src.toNat))

section Moved

variable {mem mem' : Memory} {dst src len : BitVec 64}

theorem address_injOn : Set.InjOn address (Set.Iio (2 ^ 64)) := by
  intro i hi j hj h
  have := congrArg BitVec.toNat h
  rwa [BitVec.toNat_ofNat, BitVec.toNat_ofNat, Nat.mod_eq_of_lt hi, Nat.mod_eq_of_lt hj] at this

theorem isMoved_iff : IsMoved mem mem' dst src len ↔
    Lib.Moved address mem mem' dst.toNat src.toNat len.toNat := by
  constructor
  · rintro ⟨hcopied, hframe⟩
    exact ⟨by simpa only [address_add] using hcopied, by simpa only [address_add] using hframe⟩
  · rintro ⟨hcopied, hframe⟩
    exact ⟨by simpa only [address_add] using hcopied, by simpa only [address_add] using hframe⟩

theorem sourceRepeats_iff : SourceRepeats mem dst src len ↔
    Lib.Repeats address mem src.toNat len.toNat (dst.toNat.dist src.toNat) := by
  simp only [Lib.Repeats, SourceRepeats, Nat.add_assoc, address_add]

/-- The direction, for ranges that do not wrap. -/
theorem direction_iff (hsrc : src.toNat + len.toNat ≤ 2 ^ 64) :
    (dst - src).ult len = true ↔
      src.toNat ≤ dst.toNat ∧ dst.toNat < src.toNat + len.toNat := by
  have := dst.isLt
  have := src.isLt
  rw [BitVec.ult, decide_eq_true_eq, BitVec.toNat_sub]
  omega

/-- The wrong direction is taken where the ranges overlap. -/
theorem isMoved_memmoveMemory_iff (hdst : dst.toNat + len.toNat ≤ 2 ^ 64)
    (hsrc : src.toNat + len.toNat ≤ 2 ^ 64) :
    IsMoved mem (memmoveMemory mem dst src len) dst src len ↔ SourceRepeats mem dst src len := by
  rw [isMoved_iff, sourceRepeats_iff, memmoveMemory]
  split_ifs with hup
  · obtain ⟨hle, -⟩ := (direction_iff hsrc).1 hup
    rw [Lib.moved_copyUp_iff address_injOn hle hdst, Nat.dist_eq_sub_of_le_right hle]
  · rw [direction_iff hsrc, not_and, not_lt] at hup
    rcases lt_or_ge dst.toNat src.toNat with hlt | hle
    · rw [Lib.moved_copyDown_iff address_injOn hlt hsrc, Nat.dist_eq_sub_of_le hlt.le]
    · have hrepeats : Lib.Repeats address mem src.toNat len.toNat
          (dst.toNat.dist src.toNat) := by
        intro i hi
        rw [Nat.dist_eq_sub_of_le_right hle] at hi
        have := hup hle
        omega
      refine iff_of_true ?_ hrepeats
      rcases Nat.eq_or_lt_of_le hle with heq | hlt
      · have hlen : len.toNat = 0 := by have := hup hle; omega
        rw [hlen]
        exact ⟨fun i hi => absurd hi i.not_lt_zero, fun _ _ => rfl⟩
      · exact Lib.moved_copyDown address_injOn hlt hdst

/-- Memmove is right if and only if the bytes of the source repeat with the distance of the two
ranges, as far as these overlap: the loop that is chosen for an overlap runs the wrong way. -/
theorem memmove_isMoved_iff (mem : Memory) (dst src len : BitVec 64)
    (hdst : dst.toNat + len.toNat ≤ 2 ^ 64) (hsrc : src.toNat + len.toNat ≤ 2 ^ 64) :
    (∃ mem', RunsTo .memmove [word dst, word src, word len] mem mem' ∧
      IsMoved mem mem' dst src len) ↔ SourceRepeats mem dst src len := by
  rw [← isMoved_memmoveMemory_iff hdst hsrc]
  constructor
  · rintro ⟨mem', hrun, hmoved⟩
    rwa [hrun.unique (runsTo_memmove mem dst src len)] at hmoved
  · exact fun h => ⟨_, runsTo_memmove mem dst src len, h⟩

end Moved

/-- The ranges do not overlap. -/
theorem memmove_isMoved_apart :
    (∃ mem', RunsTo .memmove [word 8, word 3, word 5] (fun a => a.setWidth 8) mem' ∧
      IsMoved (fun a => a.setWidth 8) mem' 8 3 5) ↔
    SourceRepeats (fun a => a.setWidth 8) 8 3 5 :=
  memmove_isMoved_iff _ 8 3 5 (by decide) (by decide)

/-- Two bytes moved up by one: the second is read after it was overwritten. -/
theorem memmove_not_isMoved : ¬ ∀ (mem : Memory) (dst src len : BitVec 64),
    dst.toNat + len.toNat ≤ 2 ^ 64 → src.toNat + len.toNat ≤ 2 ^ 64 →
    ∃ mem', RunsTo .memmove [word dst, word src, word len] mem mem' ∧
      IsMoved mem mem' dst src len := by
  intro h
  obtain ⟨mem', hrun, hmoved⟩ := h (fun a => a.setWidth 8) 1 0 2 (by decide) (by decide)
  rw [hrun.unique (runsTo_memmove _ 1 0 2),
    isMoved_memmoveMemory_iff (by decide) (by decide)] at hmoved
  exact absurd (hmoved 0 (by decide)) (by decide)

end OdinSon
