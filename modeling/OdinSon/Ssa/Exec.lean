import OdinSon.Bac.Graph
import OdinSon.Bac.Lattice
import OdinSon.Ssa.FoldBinOp

/-!
# Running a graph

Control moves from one control node to the next; a data node has the value that its inputs give it
(`eval`), except for those that get one when control reaches their first input: a `Phi` takes the
value that belongs to the edge, a parameter, a returned value or a memory any value of its
datatype.  The memory is a value like any other, so that a `Store` or a `Load` is a function of its
inputs.

What the integer operators compute is `machine`.  The floats, the memories and the other operators
are a parameter (`Semantics`); of the floats only the rules for the special values are used
(`Semantics.Ieee`).

## Main definitions

* `eval` : the value of a node under the values of those that control provides.
* `Proc.Edge` : a step of control, by the position at which it enters.
* `Exec` : the control nodes of a run so far, the last one first, and the values it has provided.
-/

namespace OdinSon

open MachInt

/-- A value: an integer, a float, or a memory or a vector. -/
inductive Val (F M : Type) where
  | int (x : ℤ)
  | float (x : F)
  | other (m : M)

/-- The value is one of the datatype. -/
def Val.hasType {F M : Type} (dt : Datatype) : Val F M → Bool
  | int x => dt.isInt && decide (InS dt.bits x)
  | float _ => dt.isFloat
  | other _ => !dt.isInt && !dt.isFloat

/-- What the values other than integers are, and what the operators do on them. -/
structure Semantics (F M : Type) where
  /-- The float with the given `f64` bits, rounded to the datatype. -/
  const : ℕ → Datatype → F
  /-- It is a NaN. -/
  isNan : F → Bool
  /-- It is `-∞`. -/
  isNinf : F → Bool
  /-- It is `∞`. -/
  isPinf : F → Bool
  /-- It is a zero. -/
  isZero : F → Bool
  /-- The operators whose results are floats. -/
  arith : BinOp → Datatype → F → F → Option F
  /-- The comparisons. -/
  compare : BinOp → F → F → Option Bool
  /-- The other kinds of node; an input that is control has no value. -/
  apply : Node → List (Option (Val F M)) → Option (Val F M)

namespace Semantics

variable {F M : Type} (S : Semantics F M)

/-- The rules of IEEE 754 for the special values. -/
structure Ieee : Prop where
  const_nan : ∀ bits dt, S.isNan (S.const bits dt) = decide (0x7FF0000000000000 < bits % 2 ^ 63)
  const_zero : ∀ bits, S.isZero (S.const bits .f64) = decide (bits % 2 ^ 63 = 0)
  /-- Half the smallest subnormal number still rounds to zero. -/
  const_zero_f32 : ∀ bits,
    S.isZero (S.const bits .f32) = decide (bits % 2 ^ 63 ≤ 0x3690000000000000)
  const_inf : ∀ bits, bits % 2 ^ 63 ≠ 0x7FF0000000000000 →
    S.isPinf (S.const bits .f64) = false ∧ S.isNinf (S.const bits .f64) = false
  /-- From half a unit beyond the largest number on, numbers round to infinity. -/
  const_inf_f32 : ∀ bits, bits % 2 ^ 63 < 0x47EFFFFFF0000000 →
    S.isPinf (S.const bits .f32) = false ∧ S.isNinf (S.const bits .f32) = false
  const_pinf : ∀ bits dt, 2 ^ 63 ≤ bits → S.isPinf (S.const bits dt) = false
  const_ninf : ∀ bits dt, bits < 2 ^ 63 → S.isNinf (S.const bits dt) = false
  nan_special : ∀ x, S.isNan x = true →
    S.isNinf x = false ∧ S.isPinf x = false ∧ S.isZero x = false
  arith_nan : ∀ op dt x y z, S.arith op dt x y = some z → S.isNan x = true ∨ S.isNan y = true →
    S.isNan z = true
  add_nan : ∀ dt x y z, S.arith .add dt x y = some z → S.isNan z = true →
    S.isNan x = true ∨ S.isNan y = true ∨ S.isPinf x = true ∧ S.isNinf y = true ∨
      S.isNinf x = true ∧ S.isPinf y = true
  sub_nan : ∀ dt x y z, S.arith .sub dt x y = some z → S.isNan z = true →
    S.isNan x = true ∨ S.isNan y = true ∨ S.isPinf x = true ∧ S.isPinf y = true ∨
      S.isNinf x = true ∧ S.isNinf y = true
  mul_nan : ∀ dt x y z, S.arith .mul dt x y = some z → S.isNan z = true →
    S.isNan x = true ∨ S.isNan y = true ∨
      (S.isPinf x = true ∨ S.isNinf x = true) ∧ S.isZero y = true ∨
      S.isZero x = true ∧ (S.isPinf y = true ∨ S.isNinf y = true)
  div_nan : ∀ dt x y z, S.arith .div dt x y = some z → S.isNan z = true →
    S.isNan x = true ∨ S.isNan y = true ∨ S.isZero x = true ∧ S.isZero y = true ∨
      (S.isPinf x = true ∨ S.isNinf x = true) ∧ (S.isPinf y = true ∨ S.isNinf y = true)
  /-- A comparison with a NaN fails, unless it asks for a difference. -/
  compare_nan : ∀ op x y r, S.compare op x y = some r → S.isNan x = true ∨ S.isNan y = true →
    r = decide (op = .ne)
  /-- Another number is equal to itself. -/
  compare_self : ∀ op x r, S.compare op x x = some r → S.isNan x = false →
    r = (op = .eq || op = .le || op = .ge || op = .uLe || op = .uGe)

/-- The value is one of those that the lattice stands for. -/
def Describes (l : Lattice) : Val F M → Prop
  | .int x => l.type = .bot ∨ l.type = .int ∧ l.Contains x
  | .float x => l.type = .bot ∨ l.type = .float ∧
      (l.isNotNan = true → S.isNan x = false) ∧ (l.isNotNinf = true → S.isNinf x = false) ∧
      (l.isNotPinf = true → S.isPinf x = false) ∧ (l.isNotZero = true → S.isZero x = false) ∧
      (l.isNan = true → S.isNan x = true)
  | .other _ => l.type = .bot ∨ l.type = .mem

/-- A binary operator on two scalars. -/
def binVal (op : BinOp) (ty : Datatype) : Val F M → Val F M → Option (Val F M)
  | .int x, .int y => if ty.isInt then (machine op ty.bits x y).map .int else none
  | .float x, .float y =>
    if ty.isFloat then
      if op.isComparison then (S.compare op x y).map fun r => .int (boolToInt r)
      else (S.arith op ty x y).map .float
    else none
  | _, _ => none

/-- `CInt`. -/
def constVal (node : Node) : Option (Val F M) :=
  if node.dt.isFloat then some (.float (S.const (u64 node.cIntValue) node.dt))
  else if node.dt.isInt then some (.int (sext node.cIntValue node.dt))
  else none

end Semantics

/-- The values that control has provided. -/
abbrev Env (F M : Type) := NodeId → Option (Val F M)

/-- The kinds that come with the control at their input. -/
def NodeType.isProjection (t : NodeType) : Bool := t = .param || t = .ret || t = .mem

/-- A node gets its value from control. -/
def Proc.isSource (prc : Proc) (node : Node) : Bool :=
  node.itype = .phi || (node.itype.isProjection && prc.isCfg (node.inp 0))

/-- A node without its edges. -/
def Node.head (node : Node) : Node := { node with inps := [], outs := [] }

section Eval

variable {F M : Type} (S : Semantics F M) (prc : Proc) (σ : Env F M)

/-- A kind that is a function of all its inputs. -/
def applyVal (node : Node) (value : NodeId → Option (Val F M)) : Option (Val F M) := do
  let args ← node.inps.mapM fun i => if prc.isCfg i then some none else (value i).map some
  let v ← S.apply node.head args
  if v.hasType node.dt then some v else none

/-- `Select`, by the value of its condition. -/
def selectVal (node : Node) (value : NodeId → Option (Val F M)) : Val F M → Option (Val F M)
  | .int x => value (node.inp (if x = 0 then 1 else 0))
  | _ =>
    -- a choice by lanes, between vectors
    match node.dt.isVector, value (node.inp 0), value (node.inp 1) with
    | true, some (.other _), some (.other _) => applyVal S prc node value
    | _, _, _ => none

/-- The value of a node from those of its inputs. -/
def nodeVal (node : Node) (value : NodeId → Option (Val F M)) : Option (Val F M) :=
  match node.itype with
  | .cInt => S.constVal node
  | .bin op =>
    if node.dt.isVector then applyVal S prc node value
    else do
      let a ← value (node.inp 0)
      let b ← value (node.inp 1)
      S.binVal op (prc.operationDatatype node) a b
  | .select => do
    let c ← value (node.inp 2)
    selectVal S prc node value c
  | t => if t.isCfg then none else applyVal S prc node value

/-- The value of a node, looking at most `fuel` inputs deep. -/
@[grind =] def eval : ℕ → NodeId → Option (Val F M)
  | 0, _ => none
  | fuel + 1, id =>
    if prc.isSource (prc.getNode id) then σ id else nodeVal S prc (prc.getNode id) (eval fuel)

/-- The condition of the `If` at `c` lets control go on to `d`. -/
def Taken (c d : NodeId) : Prop :=
  ((prc.getNode d).itype = .then_ →
    ∃ fuel x, eval S prc σ fuel ((prc.getNode c).inp 1) = some (.int x) ∧ x ≠ 0) ∧
  ((prc.getNode d).itype = .else_ →
    ∃ fuel x, eval S prc σ fuel ((prc.getNode c).inp 1) = some (.int x) ∧ x = 0)

/-- What the node `p` may hold once control has entered `d` at its input `j`. -/
def Provides (d : NodeId) (j : ℕ) (p : NodeId) (v : Val F M) : Prop :=
  let node := prc.getNode p
  if node.itype = .phi ∧ node.inp 0 = d then
    v.hasType node.dt = true ∧ ∃ fuel, eval S prc σ fuel (node.inp (j + 1)) = some v
  else if node.itype.isProjection = true ∧ node.inp 0 = d then v.hasType node.dt = true
  else σ p = some v

end Eval

/-- Control can go from `c` to `d`, where it enters at the input `j`. -/
structure Proc.Edge (prc : Proc) (c d : NodeId) (j : ℕ) : Prop where
  ne_zero : c ≠ 0
  isCfg : prc.isCfg d = true
  ne_nil : (prc.getNode d).itype ≠ .nil
  ne_entry : (prc.getNode d).itype ≠ .entry
  inp : (prc.getNode d).inps[j]? = some c
  /-- Only a `Region` and a `Loop` have more than one way in. -/
  idx : j = 0 ∨ (prc.getNode d).itype = .region ∨ (prc.getNode d).itype = .loop

/-- A path of control from the entry, the last node first. -/
inductive Proc.Path (prc : Proc) : List NodeId → Prop
  | start : prc.Path [prc.entry]
  | step {c d j tr} : prc.Path (c :: tr) → prc.Edge c d j → prc.Path (d :: c :: tr)

/-- A run up to some point: the control nodes it has been at, the last one first, and the values
that these have provided.  A value that is never asked for need not be there. -/
inductive Exec {F M : Type} (S : Semantics F M) (prc : Proc) : List NodeId → Env F M → Prop
  | start {σ} : (∀ p v, σ p = some v → (prc.getNode p).itype.isProjection = true ∧
      (prc.getNode p).inp 0 = prc.entry ∧ v.hasType (prc.getNode p).dt = true) →
      Exec S prc [prc.entry] σ
  | step {c d j tr σ σ'} : Exec S prc (c :: tr) σ → prc.Edge c d j → Taken S prc σ c d →
      (∀ p v, σ' p = some v → Provides S prc σ d j p v) → Exec S prc (d :: c :: tr) σ'

/-- What the outside sees at a `Call` or a `Return`: the values of its inputs but the first. -/
def Observes {F M : Type} (S : Semantics F M) (prc : Proc) (σ : Env F M) (c : NodeId)
    (vs : List (Val F M)) : Prop :=
  List.Forall₂ (fun i v => ∃ fuel, eval S prc σ fuel i = some v) (prc.getNode c).inps.tail vs

/-- What a graph needs to run. -/
structure Proc.Runnable (prc : Proc) : Prop where
  entry : (prc.getNode prc.entry).itype = .entry
  mem_dt : ∀ id, (prc.getNode id).itype = .mem → (prc.getNode id).dt = .mem
  /-- Control comes back to a `Loop` only from inside. -/
  loop_dom : ∀ c d j, (prc.getNode d).itype = .loop → 0 < j → prc.Edge c d j →
    ∀ tr, prc.Path (c :: tr) → d ∈ c :: tr

end OdinSon
