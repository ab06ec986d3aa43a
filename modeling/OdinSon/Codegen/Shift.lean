import OdinSon.Bac.Alias
import OdinSon.Ssa.FoldBinOp

/-!
# Shifts on the two targets

A shift of the graph takes a count of any integer type, without a sign, and a count that is not
below the width shifts everything out.  The instructions of the targets take the count modulo `32`
or `64`, and neither target emits a shift of the graph itself (`unlowered scalar shift`).  The
peepholes of `bac/amd64/amd64.odin` and `bac/wasm/wasm.odin` put a comparison of the full count in
front, and make narrow values wide; both give what the graph means (`shift_exact`).

The amd64 peephole asserts that a constant count is not zero.  Such a shift does not come to it: the
peephole of `bac/ssa/peep.odin`, which runs before, has replaced it with the value.
-/

namespace OdinSon

open MachInt

/-- The nodes that the peepholes make of a shift.  `native` is the instruction of the target with
its count in a register, `nativeImm` with the count in the instruction. -/
inductive ShiftNode where
  | node (id : NodeId)
  | cInt (dt : Datatype) (value : ℤ)
  | conv (unsigned : Bool) (dt : Datatype) (inp : ShiftNode)
  | bin (op : BinOp) (dt : Datatype) (lhs rhs : ShiftNode)
  | select (dt : Datatype) (lhs rhs cond : ShiftNode)
  | native (op : BinOp) (dt : Datatype) (inp count : ShiftNode)
  | nativeImm (op : BinOp) (dt : Datatype) (inp : ShiftNode) (imm : ℤ)
  deriving DecidableEq, Repr

/-- The targets whose peepholes lower a shift. -/
inductive ShiftTarget where
  | amd64
  | wasm
  deriving DecidableEq, Repr

/-- The datatypes that have no instructions of their own: `NARROW_DTS`. -/
def Datatype.isNarrow (dt : Datatype) : Bool := dt = .i8 || dt = .i16

/-- The native shifts with the count in a register.  `shlx` takes any register for the count; wasm
has `I32` and `I64` shifts, whose count is of the type of the value. -/
def ShiftTarget.hasNative : ShiftTarget → Datatype → Datatype → Bool
  | amd64, dt, _ => !dt.isNarrow
  | wasm, dt, count => !dt.isNarrow && count = dt

/-- The native shifts with the count in the instruction. -/
def ShiftTarget.hasNativeImm : ShiftTarget → Bool
  | amd64 => true
  | wasm => false

namespace ShiftNode

section Nodes

variable (prc : Proc)

/-- `get_node(..).dt`. -/
def dt : ShiftNode → Datatype
  | node id => (prc.getNode id).dt
  | cInt dt _ | conv _ dt _ | bin _ dt _ _ | select dt _ _ _ | native _ dt _ _
  | nativeImm _ dt _ _ => dt

/-- `get_extra(.., CInt).value`. -/
def constant : ShiftNode → Option ℤ
  | node id => prc.cInt id
  | cInt _ value => some value
  | _ => none

/-- What the hardware keeps of a count. -/
def countMod (dt : Datatype) : ℕ := if dt = .i64 then 64 else 32

/-- The value of a node from the values of those that were there; `none` for a node that the target
has no instruction for, as a shift that was not lowered. -/
@[simp] def eval (target : ShiftTarget) (val : NodeId → ℤ) : ShiftNode → Option ℤ
  | node id => some (val id)
  | cInt dt value => some (wrap dt.bits value)
  | conv unsigned dt inp => do
    let x ← inp.eval target val
    return wrap dt.bits (if unsigned then MachInt.unsigned (inp.dt prc).bits x else x)
  | bin op dt lhs rhs =>
    if op.isShift then none
    else do
      let x ← lhs.eval target val
      let y ← rhs.eval target val
      machine op (if op.isComparison then (lhs.dt prc).bits else dt.bits) x y
  | select _ lhs rhs cond => do
    let z ← cond.eval target val
    if z = 0 then rhs.eval target val else lhs.eval target val
  | native op dt inp count =>
    if target.hasNative dt (count.dt prc) then do
      let x ← inp.eval target val
      let y ← count.eval target val
      machine op dt.bits x (unsigned (count.dt prc).bits y % countMod dt : ℕ)
    else none
  | nativeImm op dt inp imm =>
    if target.hasNativeImm then do
      let x ← inp.eval target val
      machine op dt.bits x (unsigned 8 imm % countMod dt : ℕ)
    else none

end Nodes

end ShiftNode

open ShiftNode

section Peep

variable (prc : Proc)

/-- `peep` of `ssa` for a shift; `none` leaves it as it is. -/
def ssaShift (op : BinOp) (dt : Datatype) (value count : ShiftNode) : Option ShiftNode :=
  match value.constant prc, count.constant prc with
  | some l, some r => some (.cInt dt (foldBinOp l op r dt))
  | none, some r =>
    if dt.bits ≤ u64 r then
      some (if op ≠ .shr then .cInt dt 0
        else .bin .shr dt value (.cInt (count.dt prc) (dt.bits - 1)))
    else if r = 0 then some value else none
  | _, none => none

/-- `peep` of `amd64` for a shift; `none` when it stops at its `assert(constant.value != 0)`. -/
def amd64Peep (op : BinOp) (dt : Datatype) (value count : ShiftNode) : Option ShiftNode :=
  match count.constant prc with
  | some constant =>
    if constant = 0 then none
    else if dt.bits ≤ u64 constant then
      some (if op ≠ .shr then .cInt dt 0 else .nativeImm .shr dt value (dt.bits - 1))
    else some (.nativeImm op dt value (wrap 32 constant))
  | none =>
    if dt.isNarrow then
      some (.conv true dt (.bin op .i32 (.conv (op ≠ .shr) .i32 value) count))
    else
      let inRange := .bin .uLt .i8 count (.cInt (count.dt prc) dt.bits)
      let fallback := if op = .shr then .nativeImm .shr dt value (dt.bits - 1) else .cInt dt 0
      some (.select dt (.native op dt value count) fallback inRange)

/-- The shift and the wider one that it may become, which is on the worklist. -/
def amd64Shift (op : BinOp) (dt : Datatype) (value count : ShiftNode) : Option ShiftNode := do
  match ← amd64Peep prc op dt value count with
  | .conv unsigned dt' (.bin op' wideDt value' count') =>
    return .conv unsigned dt' (← amd64Peep prc op' wideDt value' count')
  | e => return e

/-- A narrow count at 32 bits. -/
def wideCount (count : ShiftNode) : ShiftNode :=
  if (count.dt prc).isNarrow then .conv true .i32 count else count

/-- A count at the datatype of the native shift. -/
def nativeCount (dt : Datatype) (count : ShiftNode) : ShiftNode :=
  if count.dt prc ≠ dt then .conv true dt count else count

/-- `peep` of `wasm` for a shift of `I32` or `I64`. -/
def wasmPeep (op : BinOp) (dt : Datatype) (value count : ShiftNode) : ShiftNode :=
  let constant := count.constant prc
  if constant = some 0 then value
  else
    let count := wideCount prc count
    let limit := .cInt (count.dt prc) (dt.bits - 1)
    match constant with
    | some constant =>
      if dt.bits ≤ u64 constant then
        if op ≠ .shr then .cInt dt 0
        else .native op dt value (nativeCount prc dt limit)
      else .native op dt value (nativeCount prc dt count)
    | none =>
      let inRange := .bin .uLt .i8 count (.cInt (count.dt prc) dt.bits)
      if op = .shr then
        .native op dt value (nativeCount prc dt (.select (count.dt prc) count limit inRange))
      else .select dt (.native op dt value (nativeCount prc dt count)) (.cInt dt 0) inRange

/-- `peep` of `wasm` for a shift, and for the wider one that a narrow one becomes. -/
def wasmShift (op : BinOp) (dt : Datatype) (value count : ShiftNode) : ShiftNode :=
  if dt.isNarrow then
    .conv true dt (wasmPeep prc op .i32 (.conv (op ≠ .shr) .i32 value) (wideCount prc count))
  else wasmPeep prc op dt value count

end Peep

/-! ### What the nodes compute -/

/-- A node of an integer type with the value `x`. -/
structure HasValue (prc : Proc) (target : ShiftTarget) (val : NodeId → ℤ) (e : ShiftNode) (x : ℤ) :
    Prop where
  isInt : (e.dt prc).isInt = true
  eval : e.eval prc target val = some x
  mem : InS (e.dt prc).bits x

/-- A count with the value `y`; a constant may be given with a sign or without. -/
structure IsCount (prc : Proc) (target : ShiftTarget) (val : NodeId → ℤ) (e : ShiftNode) (y : ℤ) :
    Prop extends HasValue prc target val e y where
  constant : ∀ c, e.constant prc = some c →
    y = wrap (e.dt prc).bits c ∧ Canonical (e.dt prc).bits c

theorem Datatype.le_bits {dt : Datatype} (h : dt.isInt = true) : 8 ≤ dt.bits := by
  obtain rfl | rfl | rfl | rfl := Datatype.isInt_cases h <;> decide

/-- A constant is compared with a width by its count. -/
theorem le_u64_constant {w cw : ℕ} (hw : w ≤ 64) (h8 : 8 ≤ cw) (h64 : cw ≤ 64) {c : ℤ}
    (hc : Canonical cw c) : (w ≤ u64 c ↔ w ≤ unsigned cw c) ∧ 
    (unsigned cw c < w → c = unsigned cw c) := by
  have hp : (2 : ℤ) ^ 7 ≤ 2 ^ (cw - 1) := pow_le_pow_right₀ (by norm_num) (by omega)
  have hp' : (2 : ℤ) ^ cw ≤ 2 ^ 64 := pow_le_pow_right₀ (by norm_num) h64
  have htwo := two_pow_pred (w := cw) (by omega)
  have hlt : ((unsigned cw c : ℕ) : ℤ) < 2 ^ cw := by exact_mod_cast unsigned_lt cw c
  have huns (h0 : 0 ≤ c) (h : c < 2 ^ cw) : u64 c = unsigned cw c := by
    have h1 : ((u64 c : ℕ) : ℤ) = c := unsigned_of_nonneg h0 (by omega)
    have h2 : ((unsigned cw c : ℕ) : ℤ) = c := unsigned_of_nonneg h0 h
    omega
  rcases hc with hc | hc
  · have hm : InS cw c := by
      rw [hc]
      exact wrap_mem (by omega) c
    rcases le_or_gt 0 c with h0 | h0
    · have hc' : c < 2 ^ cw := by have := hm.2; omega
      exact ⟨by rw [huns h0 hc'], fun _ => (unsigned_of_nonneg h0 hc').symm⟩
    · -- a negative constant is beyond every width
      have h1 : ((u64 c : ℕ) : ℤ) = c + 2 ^ 64 :=
        unsigned_of_neg h0 (by have := hm.1; omega)
      have h2 : ((unsigned cw c : ℕ) : ℤ) = c + 2 ^ cw :=
        unsigned_of_neg h0 (by have := hm.1; omega)
      have hm1 := hm.1
      exact ⟨iff_of_true (by omega) (by omega), fun h => by omega⟩
  · refine ⟨?_, fun _ => hc⟩
    rw [huns (by omega) (by omega)]

/-- A shift by the width or more. -/
theorem machine_of_le {op : BinOp} (hop : op.isShift = true) {w n : ℕ} (hw : 0 < w) (h : w ≤ n)
    (x : ℤ) : machine op w x n =
      if op = .shr then machine .shr w x (w - 1 : ℕ) else some 0 := by
  have hn : ¬(0 ≤ (n : ℤ) ∧ (n : ℤ) < w) := by omega
  have hw1 : 0 ≤ ((w - 1 : ℕ) : ℤ) ∧ ((w - 1 : ℕ) : ℤ) < w := by omega
  cases op <;> cases hop
  · rw [machine_shl, if_neg hn, if_neg (by decide)]
  · rw [if_pos rfl]
    simp only [machine, if_neg hn, if_pos hw1, Int.toNat_natCast]
  · rw [machine_uShr, if_neg hn, if_neg (by decide)]

section Eval

variable {prc : Proc} {target : ShiftTarget} {val : NodeId → ℤ} {value count : ShiftNode} {x y : ℤ}

/-- The comparison of the full count with the width. -/
theorem eval_inRange (hc : HasValue prc target val count y) {w : ℕ} (hw : w ≤ 64) :
    (ShiftNode.bin .uLt .i8 count (.cInt (count.dt prc) w)).eval prc target val =
      some (boolToInt (unsigned (count.dt prc).bits y < w)) := by
  have h8 := Datatype.le_bits hc.isInt
  have hpow : (2 : ℕ) ^ 8 ≤ 2 ^ (count.dt prc).bits := Nat.pow_le_pow_right two_pos h8
  have hu : unsigned (count.dt prc).bits (wrap (count.dt prc).bits w) = w := by
    rw [unsigned_wrap le_rfl]
    have h := unsigned_of_nonneg (w := (count.dt prc).bits) (x := w) (by omega)
      (by exact_mod_cast (show w < 2 ^ (count.dt prc).bits by omega))
    exact_mod_cast h
  simp only [ShiftNode.eval, hc.eval, Option.bind_eq_bind, Option.bind_some, BinOp.isComparison,
    BinOp.isShift, if_true, Bool.false_eq_true, if_false]
  rw [machine_uLt, hu]

theorem eval_select {t : Datatype} {a b c : ShiftNode} {p : Prop} [Decidable p]
    (h : c.eval prc target val = some (boolToInt p)) :
    (ShiftNode.select t a b c).eval prc target val =
      if p then a.eval prc target val else b.eval prc target val := by
  simp only [ShiftNode.eval, h, Option.bind_eq_bind, Option.bind_some]
  by_cases hp : p <;> simp [hp, boolToInt]

theorem Datatype.bits_le_countMod {dt : Datatype} (h : dt.isInt = true) :
    dt.bits ≤ countMod dt := by
  obtain rfl | rfl | rfl | rfl := Datatype.isInt_cases h <;> decide

/-- A count below the width is in the instruction as it is. -/
theorem eval_nativeImm (hv : HasValue prc .amd64 val value x) (op : BinOp) {k : ℕ}
    (hk : k < (value.dt prc).bits) (imm : ℤ) (himm : wrap 32 imm = wrap 32 k) :
    (ShiftNode.nativeImm op (value.dt prc) value imm).eval prc .amd64 val =
      machine op (value.dt prc).bits x k := by
  have h64 := Datatype.bits_le hv.isInt
  have hmod := Datatype.bits_le_countMod hv.isInt
  have himm8 : unsigned 8 imm = k := by
    rw [← unsigned_wrap (w := 32) (by norm_num), himm, unsigned_wrap (by norm_num)]
    have h := unsigned_of_nonneg (w := 8) (x := (k : ℤ)) (by omega) (by omega)
    exact_mod_cast h
  simp only [ShiftNode.eval, ShiftTarget.hasNativeImm, if_true, hv.eval, Option.bind_eq_bind,
    Option.bind_some]
  rw [himm8, Nat.mod_eq_of_lt (by omega)]

/-- A count below the width is in the register as it is. -/
theorem eval_native (hv : HasValue prc target val value x) (op : BinOp) {e : ShiftNode} {z : ℤ}
    (hnat : target.hasNative (value.dt prc) (e.dt prc) = true)
    (he : e.eval prc target val = some z) {n : ℕ} (hz : unsigned (e.dt prc).bits z = n)
    (hn : n < (value.dt prc).bits) :
    (ShiftNode.native op (value.dt prc) value e).eval prc target val =
      machine op (value.dt prc).bits x n := by
  have hmod := Datatype.bits_le_countMod hv.isInt
  simp only [ShiftNode.eval, hnat, if_true, hv.eval, he, Option.bind_eq_bind, Option.bind_some]
  rw [hz, Nat.mod_eq_of_lt (by omega)]

theorem eval_zero (dt : Datatype) : (ShiftNode.cInt dt 0).eval prc target val = some 0 := by
  simp [ShiftNode.eval, wrap]

/-- The amd64 peephole, of a shift that needs no wider one. -/
theorem eval_amd64Peep {op : BinOp} (hop : op.isShift = true)
    (hv : HasValue prc .amd64 val value x) (hc : IsCount prc .amd64 val count y)
    (hn : (value.dt prc).isNarrow = false ∨ count.constant prc ≠ none) {e : ShiftNode}
    (h : amd64Peep prc op (value.dt prc) value count = some e) :
    e.eval prc .amd64 val =
      machine op (value.dt prc).bits x (unsigned (count.dt prc).bits y : ℕ) := by
  have h8 := Datatype.le_bits hv.isInt
  have h64 := Datatype.bits_le hv.isInt
  have hlast : (value.dt prc).bits - 1 < (value.dt prc).bits := by omega
  have hsign := eval_nativeImm hv .shr hlast ((value.dt prc).bits - 1) (by
    rw [Nat.cast_sub (by omega)]
    rfl)
  rw [amd64Peep] at h
  cases hconst : count.constant prc with
  | some c =>
    simp only [hconst] at h
    obtain ⟨hy, hcan⟩ := hc.constant c hconst
    obtain ⟨hle, hlt⟩ := le_u64_constant h64 (Datatype.le_bits hc.isInt)
      (Datatype.bits_le hc.isInt) hcan
    rw [hy, unsigned_wrap le_rfl]
    split_ifs at h with h0 hbig hshr
    · cases h
      rw [machine_of_le hop (by omega) (hle.1 hbig), if_neg hshr]
      exact eval_zero _
    · cases h
      have hshr := not_not.1 hshr
      rw [machine_of_le hop (by omega) (hle.1 hbig), if_pos hshr, hsign]
    · cases h
      have hsmall := not_le.1 (mt hle.2 hbig)
      refine eval_nativeImm hv op hsmall _ ?_
      rw [wrap_wrap, ← hlt hsmall]
  | none =>
    have hn' := hn.resolve_right fun hne => hne hconst
    simp only [hconst, hn'] at h
    cases h
    rw [eval_select (eval_inRange hc.toHasValue h64)]
    split_ifs with hlt hshr
    · have hnat : ShiftTarget.amd64.hasNative (value.dt prc) (count.dt prc) = true := by
        rw [ShiftTarget.hasNative, hn', Bool.not_false]
      exact eval_native hv op hnat hc.eval rfl hlt
    · rw [machine_of_le hop (by omega) (not_lt.1 hlt), if_pos hshr, hsign]
    · rw [machine_of_le hop (by omega) (not_lt.1 hlt), if_neg hshr]
      exact eval_zero _

/-! ### Narrow values -/

/-- Shifting out all but the sign. -/
theorem ediv_two_pow_of_le {w k : ℕ} (hx : InS w x) (hk : w - 1 ≤ k) :
    x / 2 ^ k = if 0 ≤ x then 0 else -1 := by
  have hp : (2 : ℤ) ^ (w - 1) ≤ 2 ^ k := pow_le_pow_right₀ (by norm_num) hk
  have hpos : (0 : ℤ) < 2 ^ k := by positivity
  split_ifs with h0
  · exact Int.ediv_eq_zero_of_lt h0 (hx.2.trans_le hp)
  · have h1 : -1 ≤ x / 2 ^ k := by
      rw [Int.le_ediv_iff_mul_le hpos]
      have := hx.1
      omega
    have h2 : x / 2 ^ k < 0 := by
      rw [Int.ediv_lt_iff_lt_mul hpos]
      omega
    omega

theorem inS_ediv {w : ℕ} (hx : InS w x) (m : ℕ) : InS w (x / 2 ^ m) := by
  have hpos : (0 : ℤ) < 2 ^ m := by positivity
  have hone : (1 : ℤ) ≤ 2 ^ m := hpos
  obtain ⟨h1, h2⟩ := hx
  have hp : (0 : ℤ) < 2 ^ (w - 1) := by positivity
  constructor
  · rw [Int.le_ediv_iff_mul_le hpos]
    nlinarith
  · rw [Int.ediv_lt_iff_lt_mul hpos]
    nlinarith

/-- Shifting the extended value and cutting the result shifts the narrow value. -/
theorem machine_narrow {op : BinOp} (hop : op.isShift = true) {w : ℕ} (hw : 0 < w) (hw32 : w < 32)
    (hx : InS w x) (n : ℕ) : ∃ r,
      machine op 32 (wrap 32 (if op ≠ .shr then (unsigned w x : ℤ) else x)) n = some r ∧
        machine op w x n = some (wrap w r) := by
  have hu := unsigned_lt w x
  have hpow : (2 : ℕ) ^ w ≤ 2 ^ 31 := Nat.pow_le_pow_right two_pos (by omega)
  have hwrap : wrap 32 (unsigned w x : ℤ) = unsigned w x :=
    wrap_natCast_of_lt (by norm_num) (by omega)
  have hx32 : wrap 32 x = x := wrap_eq_self (by norm_num) (hx.mono hw32.le)
  have hcast (k : ℕ) : (0 ≤ (n : ℤ) ∧ (n : ℤ) < k) ↔ n < k := by omega
  have hzero : wrap w 0 = 0 := wrap_eq_self hw ⟨by simp, by positivity⟩
  cases op <;> cases hop
  · -- the bits that leave the narrow value are cut off
    rw [if_pos (by decide), hwrap, machine_shl, machine_shl]
    simp only [hcast, Int.toNat_natCast]
    refine ⟨_, rfl, ?_⟩
    have hmul : wrap w (unsigned w x * 2 ^ n) = wrap w (x * 2 ^ n) := by
      rw [← wrap_mul_left, wrap_unsigned, wrap_mul_left]
    by_cases h1 : n < w
    · rw [if_pos h1, if_pos (by omega), wrap_wrap_of_le hw32.le, hmul]
    · have hout : wrap w (x * 2 ^ n) = 0 := by
        rw [← hzero, wrap_eq_wrap_iff, sub_zero]
        exact dvd_mul_of_dvd_right (pow_dvd_pow 2 (not_lt.1 h1)) x
      rw [if_neg h1]
      split_ifs
      · rw [wrap_wrap_of_le hw32.le, hmul, hout]
      · rw [hzero]
  · -- only the sign is left at the narrow width already
    rw [if_neg (by simp), hx32, machine_shr hw hx, machine_shr (by norm_num) (hx.mono hw32.le)]
    simp only [hcast, Int.toNat_natCast]
    refine ⟨_, rfl, ?_⟩
    rw [wrap_eq_self hw (inS_ediv hx _)]
    by_cases h1 : n < w
    · rw [if_pos h1, if_pos (by omega)]
    · rw [if_neg h1, ediv_two_pow_of_le hx le_rfl, ediv_two_pow_of_le hx (by split_ifs <;> omega)]
  · rw [if_pos (by decide), hwrap, machine_uShr, machine_uShr]
    simp only [hcast, Int.toNat_natCast]
    refine ⟨_, rfl, ?_⟩
    have hu32 : unsigned 32 (unsigned w x : ℤ) = unsigned w x := by
      have h := unsigned_of_nonneg (w := 32) (x := (unsigned w x : ℤ)) (by omega) (by omega)
      exact_mod_cast h
    rw [hu32]
    by_cases h1 : n < w
    · rw [if_pos h1, if_pos (by omega), wrap_wrap_of_le hw32.le]
    · have hout : unsigned w x / 2 ^ n = 0 := by
        refine Nat.div_eq_of_lt (hu.trans_le ?_)
        exact Nat.pow_le_pow_right two_pos (not_lt.1 h1)
      rw [if_neg h1, hout]
      split_ifs
      · rw [wrap_wrap_of_le hw32.le]
        exact congrArg some hzero.symm
      · rw [hzero]

/-- A value converted to 32 bits. -/
theorem HasValue.conv (hv : HasValue prc target val value x) (uns : Bool) : HasValue prc target val
    (.conv uns .i32 value) (wrap 32 (if uns then (unsigned (value.dt prc).bits x : ℤ) else x)) where
  isInt := rfl
  eval := by
    simp only [ShiftNode.eval, hv.eval, Option.bind_eq_bind, Option.bind_some]
    rfl
  mem := wrap_mem (Datatype.bits_pos rfl) _

/-- The value that a wider shift leaves in the low bits. -/
theorem eval_narrow {dt : Datatype} {e : ShiftNode} {r : ℤ} (he : e.dt prc = .i32)
    (hr : e.eval prc target val = some r) (hdt : dt.bits ≤ 32) :
    (ShiftNode.conv true dt e).eval prc target val = some (wrap dt.bits r) := by
  simp only [ShiftNode.eval, hr, he, Option.bind_eq_bind, Option.bind_some, if_true]
  have h32 : Datatype.i32.bits = 32 := rfl
  rw [h32, ← wrap_wrap_of_le hdt (unsigned 32 r), wrap_unsigned, wrap_wrap_of_le hdt]
  rfl

theorem Datatype.bits_lt_32 {dt : Datatype} (hn : dt.isNarrow = true) : dt.bits < 32 := by
  cases dt <;> first | decide | cases hn

theorem dt_amd64Peep {op : BinOp} {dt : Datatype} {e : ShiftNode}
    (h : amd64Peep prc op dt value count = some e) : e.dt prc = dt := by
  rw [amd64Peep] at h
  split at h
  · split_ifs at h <;> cases h <;> rfl
  · split_ifs at h <;> cases h <;> rfl

/-- What a shift becomes that needs no wider one. -/
theorem amd64Peep_cases {op : BinOp} {dt : Datatype} {e : ShiftNode}
    (hn : dt.isNarrow = false ∨ count.constant prc ≠ none)
    (h : amd64Peep prc op dt value count = some e) :
    (∃ imm op', e = .nativeImm op' dt value imm) ∨ e = .cInt dt 0 ∨
      ∃ a b c, e = .select dt a b c := by
  rw [amd64Peep] at h
  split at h
  · split_ifs at h <;> cases h
    · exact .inr (.inl rfl)
    · exact .inl ⟨_, _, rfl⟩
    · exact .inl ⟨_, _, rfl⟩
  · next hc =>
    rw [hn.resolve_right fun hne => hne hc, if_neg (by simp)] at h
    cases h
    exact .inr (.inr ⟨_, _, _, rfl⟩)

theorem amd64Peep_eq_none {op : BinOp} {dt : Datatype}
    (h : amd64Peep prc op dt value count = none) : count.constant prc = some 0 := by
  rw [amd64Peep] at h
  split at h
  · next c hc =>
    split_ifs at h with h0
    rw [hc, h0]
  · split_ifs at h

/-- A narrow shift as a wide one. -/
theorem eval_wide {op : BinOp} (hop : op.isShift = true) (hv : HasValue prc target val value x)
    (hn : (value.dt prc).isNarrow = true) {e : ShiftNode} {n : ℕ} (hdt : e.dt prc = .i32)
    (he : e.eval prc target val = machine op 32
      (wrap 32 (if op ≠ .shr then (unsigned (value.dt prc).bits x : ℤ) else x)) n) :
    (ShiftNode.conv true (value.dt prc) e).eval prc target val =
      machine op (value.dt prc).bits x n := by
  have hlt := Datatype.bits_lt_32 hn
  obtain ⟨r, hr, hm⟩ := machine_narrow hop (Datatype.bits_pos hv.isInt) hlt hv.mem n
  rw [hm, eval_narrow hdt (he.trans hr) hlt.le]

/-- The amd64 peephole gives what the shift means. -/
theorem eval_amd64Shift {op : BinOp} (hop : op.isShift = true)
    (hv : HasValue prc .amd64 val value x) (hc : IsCount prc .amd64 val count y) {e : ShiftNode}
    (h : amd64Shift prc op (value.dt prc) value count = some e) :
    e.eval prc .amd64 val =
      machine op (value.dt prc).bits x (unsigned (count.dt prc).bits y : ℕ) := by
  simp only [amd64Shift, Option.bind_eq_bind, Option.bind_eq_some_iff] at h
  obtain ⟨e', he', h⟩ := h
  by_cases hn : (value.dt prc).isNarrow = true ∧ count.constant prc = none
  · rw [amd64Peep, hn.2] at he'
    simp only [hn.1, if_true] at he'
    cases he'
    simp only [Option.bind_eq_some_iff] at h
    obtain ⟨wide, hwide, h⟩ := h
    cases h
    have hv' := hv.conv (decide (op ≠ .shr))
    refine eval_wide hop hv hn.1 (dt_amd64Peep hwide) ?_
    rw [eval_amd64Peep hop hv' hc (.inl rfl) hwide]
    simp only [decide_eq_true_eq]
    rfl
  · have hn' : (value.dt prc).isNarrow = false ∨ count.constant prc ≠ none := by
      rcases not_and_or.1 hn with h | h
      · exact .inl (Bool.not_eq_true _ ▸ h)
      · exact .inr h
    have hval := eval_amd64Peep hop hv hc hn' he'
    obtain ⟨imm, op', rfl⟩ | rfl | ⟨a, b, c, rfl⟩ := amd64Peep_cases hn' he' <;>
      · cases h
        exact hval

/-- The amd64 peephole stops at a count of zero only. -/
theorem amd64Shift_eq_none {op : BinOp} {dt : Datatype}
    (h : amd64Shift prc op dt value count = none) : count.constant prc = some 0 := by
  simp only [amd64Shift, Option.bind_eq_bind] at h
  cases he : amd64Peep prc op dt value count with
  | none => exact amd64Peep_eq_none he
  | some e =>
    rw [he, Option.bind_some] at h
    by_cases hn : dt.isNarrow = true ∧ count.constant prc = none
    · rw [amd64Peep, hn.2] at he
      simp only [hn.1, if_true] at he
      cases he
      simp only [Option.bind_eq_none_iff] at h
      cases hwide : amd64Peep prc op .i32 (.conv (op ≠ .shr) .i32 value) count with
      | none => exact amd64Peep_eq_none hwide
      | some wide => exact absurd (h wide hwide) (by simp)
    · have hn' : dt.isNarrow = false ∨ count.constant prc ≠ none := by
        rcases not_and_or.1 hn with h | h
        · exact .inl (Bool.not_eq_true _ ▸ h)
        · exact .inr h
      obtain ⟨imm, op', rfl⟩ | rfl | ⟨a, b, c, rfl⟩ := amd64Peep_cases hn' he <;> cases h

/-- It stops there. -/
theorem amd64Shift_of_zero {op : BinOp} {dt : Datatype} (h : count.constant prc = some 0) :
    amd64Shift prc op dt value count = none := by
  simp only [amd64Shift, amd64Peep, h, if_true, Option.bind_eq_bind, Option.bind_none]

/-! ### The wasm peephole -/

theorem machine_zero {op : BinOp} (hop : op.isShift = true) {w : ℕ} (hw : 0 < w) (hx : InS w x) :
    machine op w x (0 : ℕ) = some x := by
  have h0 : 0 ≤ ((0 : ℕ) : ℤ) ∧ ((0 : ℕ) : ℤ) < w := by omega
  cases op <;> cases hop
  · rw [machine_shl, if_pos h0, Int.toNat_natCast, pow_zero, mul_one, wrap_eq_self hw hx]
  · rw [machine_shr hw hx, if_pos h0, Int.toNat_natCast, pow_zero, Int.ediv_one]
  · rw [machine_uShr, if_pos h0, Int.toNat_natCast, pow_zero, Nat.div_one, wrap_unsigned,
      wrap_eq_self hw hx]

theorem unsigned_wrap_natCast {w k : ℕ} (hk : k < 2 ^ w) : unsigned w (wrap w (k : ℤ)) = k := by
  rw [unsigned_wrap le_rfl]
  have h := unsigned_of_nonneg (w := w) (x := (k : ℤ)) (by omega) (by exact_mod_cast hk)
  exact_mod_cast h

/-- The count at 32 bits or more is the same number. -/
theorem wideCount_spec (hc : IsCount prc target val count y) : ∃ y',
    IsCount prc target val (wideCount prc count) y' ∧
      unsigned ((wideCount prc count).dt prc).bits y' = unsigned (count.dt prc).bits y := by
  rw [wideCount]
  split_ifs with hn
  · refine ⟨_, ⟨hc.conv true, fun c h => by cases h⟩, ?_⟩
    have hpow : (2 : ℕ) ^ (count.dt prc).bits ≤ 2 ^ 32 :=
      Nat.pow_le_pow_right two_pos (Datatype.bits_lt_32 hn).le
    exact unsigned_wrap_natCast ((unsigned_lt _ y).trans_le hpow)
  · exact ⟨y, hc, rfl⟩

/-- A count below the width is not changed when it is cut to the width. -/
theorem eval_nativeCount {dt : Datatype} {e : ShiftNode} {z : ℤ} {k : ℕ} (hk : k < dt.bits)
    (he : e.eval prc target val = some z) (hz : unsigned (e.dt prc).bits z = k) : ∃ z',
      (nativeCount prc dt e).eval prc target val = some z' ∧
        unsigned ((nativeCount prc dt e).dt prc).bits z' = k := by
  rw [nativeCount]
  split_ifs with hdt
  · refine ⟨wrap dt.bits k, ?_, unsigned_wrap_natCast (hk.trans Nat.lt_two_pow_self)⟩
    simp only [ShiftNode.eval, he, hz, Option.bind_eq_bind, Option.bind_some, if_true]
    rfl
  · exact ⟨z, he, hz⟩

theorem dt_nativeCount (dt : Datatype) (e : ShiftNode) : (nativeCount prc dt e).dt prc = dt := by
  rw [nativeCount]
  split_ifs with h
  · rfl
  · exact not_not.1 h

/-- The native shift of wasm by a count below the width. -/
theorem eval_native_nativeCount (hv : HasValue prc .wasm val value x)
    (hn : (value.dt prc).isNarrow = false) (op : BinOp) {e : ShiftNode}
    {z : ℤ} {k : ℕ} (hk : k < (value.dt prc).bits) (he : e.eval prc .wasm val = some z)
    (hz : unsigned (e.dt prc).bits z = k) :
    (ShiftNode.native op (value.dt prc) value (nativeCount prc (value.dt prc) e)).eval prc .wasm
      val = machine op (value.dt prc).bits x k := by
  obtain ⟨z', he', hz'⟩ := eval_nativeCount hk he hz
  have hnat : ShiftTarget.wasm.hasNative (value.dt prc)
      ((nativeCount prc (value.dt prc) e).dt prc) = true := by
    rw [ShiftTarget.hasNative, hn, dt_nativeCount, decide_eq_true rfl]
    rfl
  exact eval_native hv op hnat he' hz' hk

/-- The wasm peephole, of a shift that needs no wider one. -/
theorem eval_wasmPeep {op : BinOp} (hop : op.isShift = true)
    (hv : HasValue prc .wasm val value x) (hnarrow : (value.dt prc).isNarrow = false)
    (hc : IsCount prc .wasm val count y) :
    (wasmPeep prc op (value.dt prc) value count).eval prc .wasm val =
      machine op (value.dt prc).bits x (unsigned (count.dt prc).bits y : ℕ) := by
  have h8 := Datatype.le_bits hv.isInt
  have h64 := Datatype.bits_le hv.isInt
  obtain ⟨y', hc', hy'⟩ := wideCount_spec hc
  have hlast : (value.dt prc).bits - 1 < (value.dt prc).bits := by omega
  have hlimit : (ShiftNode.cInt ((wideCount prc count).dt prc) ((value.dt prc).bits - 1)).eval
      prc .wasm val =
        some (wrap ((wideCount prc count).dt prc).bits ((value.dt prc).bits - 1 : ℕ)) := by
    rw [Nat.cast_sub (by omega)]
    rfl
  have hu : unsigned ((wideCount prc count).dt prc).bits
      (wrap ((wideCount prc count).dt prc).bits ((value.dt prc).bits - 1 : ℕ)) =
        (value.dt prc).bits - 1 := by
    refine unsigned_wrap_natCast (lt_of_lt_of_le (b := 2 ^ 8) (by omega) ?_)
    exact Nat.pow_le_pow_right two_pos (Datatype.le_bits hc'.isInt)
  rw [wasmPeep]
  cases hconst : count.constant prc with
  | some c =>
    obtain ⟨hy, hcan⟩ := hc.constant c hconst
    obtain ⟨hle, hlt⟩ := le_u64_constant h64 (Datatype.le_bits hc.isInt)
      (Datatype.bits_le hc.isInt) hcan
    have hn : unsigned (count.dt prc).bits y = unsigned (count.dt prc).bits c := by
      rw [hy, unsigned_wrap le_rfl]
    simp only [Option.some.injEq]
    split_ifs with h0 hbig hshr
    · rw [hn, h0, show unsigned (count.dt prc).bits 0 = 0 by simp [unsigned],
        machine_zero hop (by omega) hv.mem, hv.eval]
    · rw [hn, machine_of_le hop (by omega) (hle.1 hbig), if_neg hshr]
      exact eval_zero _
    · have hshr := not_not.1 hshr
      rw [hn, machine_of_le hop (by omega) (hle.1 hbig), if_pos hshr, hshr]
      exact eval_native_nativeCount hv hnarrow .shr hlast hlimit hu
    · have hsmall := not_le.1 (mt hle.2 hbig)
      rw [hn]
      exact eval_native_nativeCount hv hnarrow op hsmall hc'.eval (hy'.trans hn)
  | none =>
    have hrange := eval_inRange hc'.toHasValue h64
    rw [hy'] at hrange
    simp only [reduceCtorEq, if_false]
    split_ifs with hshr
    · have hsel := eval_select (t := (wideCount prc count).dt prc) (a := wideCount prc count)
        (b := .cInt ((wideCount prc count).dt prc) ((value.dt prc).bits - 1)) hrange
      split_ifs at hsel with hlt
      · exact eval_native_nativeCount hv hnarrow op hlt (hsel.trans hc'.eval) hy'
      · rw [machine_of_le hop (by omega) (not_lt.1 hlt), if_pos hshr, hshr]
        exact eval_native_nativeCount hv hnarrow .shr hlast (hsel.trans hlimit) hu
    · rw [eval_select hrange]
      split_ifs with hlt
      · exact eval_native_nativeCount hv hnarrow op hlt hc'.eval hy'
      · rw [machine_of_le hop (by omega) (not_lt.1 hlt), if_neg hshr]
        exact eval_zero _

theorem dt_wasmPeep {op : BinOp} {dt : Datatype} (h : value.dt prc = dt) :
    (wasmPeep prc op dt value count).dt prc = dt := by
  rw [wasmPeep]
  by_cases h0 : count.constant prc = some 0
  · simp only [h0, if_true]
    exact h
  · simp only [if_neg h0]
    split <;> split_ifs <;> rfl

/-- The wasm peephole gives what the shift means. -/
theorem eval_wasmShift {op : BinOp} (hop : op.isShift = true)
    (hv : HasValue prc .wasm val value x) (hc : IsCount prc .wasm val count y) :
    (wasmShift prc op (value.dt prc) value count).eval prc .wasm val =
      machine op (value.dt prc).bits x (unsigned (count.dt prc).bits y : ℕ) := by
  rw [wasmShift]
  split_ifs with hn
  · obtain ⟨y', hc', hy'⟩ := wideCount_spec hc
    refine eval_wide hop hv hn (dt_wasmPeep rfl) ?_
    rw [← hy']
    have hwide := eval_wasmPeep hop (hv.conv (decide (op ≠ .shr))) rfl hc'
    simp only [decide_eq_true_eq] at hwide
    exact hwide
  · exact eval_wasmPeep hop hv (Bool.not_eq_true _ ▸ hn) hc

/-! ### A constant count of zero -/

/-- A shift of a constant by zero. -/
theorem wrap_foldBinOp_zero {op : BinOp} (hop : op.isShift = true) {dt : Datatype}
    (hdt : dt.isInt = true) (l : ℤ) : wrap dt.bits (foldBinOp l op 0 dt) = wrap dt.bits l := by
  have hpos := Datatype.bits_pos hdt
  have hle := Datatype.bits_le hdt
  have h0 : u64 0 = 0 := by simp [u64, unsigned]
  have hbits : ¬dt.bits ≤ 0 := by omega
  cases op <;> cases hop
  · simp only [foldBinOp, h0, if_neg hbits, sext_eq_wrap hdt, shl64]
    rw [if_pos (by norm_num), pow_zero, mul_one, wrap_wrap_of_le hle, wrap_wrap, wrap_wrap]
  · simp only [foldBinOp, h0, sext_eq_wrap hdt, shr64, Nat.zero_min, pow_zero, Int.ediv_one]
    rw [wrap_wrap, wrap_wrap]
  · simp only [foldBinOp, h0, if_neg hbits, Nat.shiftRight_zero]
    rw [i64, wrap_wrap_of_le hle, u64, ← wrap_wrap_of_le hle, wrap_unsigned, wrap_wrap_of_le hle]

/-- The target-independent peephole replaces a shift by zero with its value. -/
theorem eval_ssaShift_zero {op : BinOp} (hop : op.isShift = true)
    (hv : HasValue prc target val value x)
    (hl : ∀ l, value.constant prc = some l → x = wrap (value.dt prc).bits l)
    (h0 : count.constant prc = some 0) : ∃ e,
      ssaShift prc op (value.dt prc) value count = some e ∧ e.eval prc target val = some x := by
  have hpos := Datatype.bits_pos hv.isInt
  have hu : u64 0 = 0 := by simp [u64, unsigned]
  rw [ssaShift, h0]
  cases hconst : value.constant prc with
  | some l =>
    refine ⟨_, rfl, ?_⟩
    simp only [ShiftNode.eval]
    rw [wrap_foldBinOp_zero hop hv.isInt, hl l hconst]
  | none =>
    refine ⟨value, ?_, hv.eval⟩
    dsimp only
    rw [if_neg (by omega), if_pos rfl]

end Eval

/-! ### The lowering is exact -/

/-- The values of a run, of the nodes with an integer type. -/
structure IntValues (prc : Proc) (val : NodeId → ℤ) : Prop where
  mem : ∀ id, (prc.getNode id).dt.isInt = true → InS (prc.getNode id).dt.bits (val id)
  cInt : ∀ id c, prc.cInt id = some c → val id = wrap (prc.getNode id).dt.bits c

/-- What the targets make of a shift of the graph computes what it means.  The amd64 peephole stops
at a constant count of zero and at nothing else; the peephole before it takes that shift away. -/
theorem shift_exact {prc : Proc} {val : NodeId → ℤ} (hval : IntValues prc val) {node : Node}
    {op : BinOp} (hop : op.isShift = true) (hdt : node.dt.isInt = true)
    (hvalue : (prc.getNode (node.inp 0)).dt = node.dt)
    (hcount : (prc.getNode (node.inp 1)).dt.isInt = true)
    (hcan : ∀ c, prc.cInt (node.inp 1) = some c →
      Canonical (prc.getNode (node.inp 1)).dt.bits c) :
    let value := ShiftNode.node (node.inp 0)
    let count := ShiftNode.node (node.inp 1)
    let meaning := machine op node.dt.bits (val (node.inp 0))
      (unsigned (prc.getNode (node.inp 1)).dt.bits (val (node.inp 1)) : ℕ)
    (prc.cInt (node.inp 1) ≠ some 0 →
      ∃ e, amd64Shift prc op node.dt value count = some e ∧ e.eval prc .amd64 val = meaning) ∧
    (prc.cInt (node.inp 1) = some 0 → amd64Shift prc op node.dt value count = none ∧
      ∃ e, ssaShift prc op node.dt value count = some e ∧ e.eval prc .amd64 val = meaning) ∧
    (wasmShift prc op node.dt value count).eval prc .wasm val = meaning := by
  have hv (target : ShiftTarget) :
      HasValue prc target val (.node (node.inp 0)) (val (node.inp 0)) :=
    ⟨(congrArg Datatype.isInt hvalue).trans hdt, rfl, hval.mem _ (hvalue ▸ hdt)⟩
  have hc (target : ShiftTarget) :
      IsCount prc target val (.node (node.inp 1)) (val (node.inp 1)) :=
    ⟨⟨hcount, rfl, hval.mem _ hcount⟩, fun c h => ⟨hval.cInt _ c h, hcan c h⟩⟩
  rw [← hvalue]
  refine ⟨fun hne => ?_, fun h0 => ⟨amd64Shift_of_zero h0, ?_⟩, eval_wasmShift hop (hv _) (hc _)⟩
  · cases he : amd64Shift prc op (prc.getNode (node.inp 0)).dt (.node (node.inp 0))
        (.node (node.inp 1)) with
    | none => exact absurd (amd64Shift_eq_none he) hne
    | some e => exact ⟨e, rfl, eval_amd64Shift hop (hv _) (hc _) he⟩
  · have hconst : (ShiftNode.node (node.inp 1)).constant prc = some 0 := h0
    obtain ⟨e, he, hx⟩ := eval_ssaShift_zero hop (hv .amd64) (fun l h => hval.cInt _ l h) hconst
    have hz : val (node.inp 1) = 0 := by
      rw [hval.cInt _ 0 h0]
      simp [wrap]
    have hzero := machine_zero hop (Datatype.bits_pos (hv .amd64).isInt) (hv .amd64).mem
    refine ⟨e, he, hx.trans ?_⟩
    rw [hz, show unsigned (prc.getNode (node.inp 1)).dt.bits 0 = 0 by simp [unsigned]]
    exact hzero.symm

/-- A byte shifted by a count of 64 bits. -/
def byteShift : Proc where
  mem id := match id with
    | 1 => { itype := .param, dt := .i8, outs := [⟨3, 0⟩] }
    | 2 => { itype := .param, dt := .i64, outs := [⟨3, 1⟩] }
    | 3 => { itype := .bin .shr, dt := .i8, inps := [1, 2] }
    | _ => { itype := .dead }
  pos := 4
  entry := 0
  end_ := 0

/-- The byte is `-100`; the count is `1` in its low half only. -/
def byteShiftValues : NodeId → ℤ
  | 1 => -100
  | 2 => 2 ^ 32 + 1
  | _ => 0

theorem intValues_byteShift : IntValues byteShift byteShiftValues where
  mem := by
    intro id h
    match id with
    | 0 => cases h
    | 1 | 2 => decide
    | 3 => decide
    | _ + 4 => cases h
  cInt := by
    intro id c h
    match id with
    | 0 => cases h
    | 1 | 2 | 3 => cases h
    | _ + 4 => cases h

theorem shift_exact_byteShift :
    (byteShift.cInt 2 ≠ some 0 → ∃ e, amd64Shift byteShift .shr .i8 (.node 1) (.node 2) = some e ∧
      e.eval byteShift .amd64 byteShiftValues = machine .shr 8 (-100) (2 ^ 32 + 1 : ℕ)) ∧
    (byteShift.cInt 2 = some 0 → amd64Shift byteShift .shr .i8 (.node 1) (.node 2) = none ∧
      ∃ e, ssaShift byteShift .shr .i8 (.node 1) (.node 2) = some e ∧
        e.eval byteShift .amd64 byteShiftValues = machine .shr 8 (-100) (2 ^ 32 + 1 : ℕ)) ∧
    (wasmShift byteShift .shr .i8 (.node 1) (.node 2)).eval byteShift .wasm byteShiftValues =
      machine .shr 8 (-100) (2 ^ 32 + 1 : ℕ) :=
  @shift_exact _ _ intValues_byteShift (byteShift.getNode 3) _ rfl rfl rfl rfl fun c h => by cases h

/-- A word shifted by the constant zero. -/
def zeroShift : Proc where
  mem id := match id with
    | 1 => { itype := .param, dt := .i32, outs := [⟨3, 0⟩] }
    | 2 => { itype := .cInt, dt := .i32, extra := [0, 0], outs := [⟨3, 1⟩] }
    | 3 => { itype := .bin .shl, dt := .i32, inps := [1, 2] }
    | _ => { itype := .dead }
  pos := 4
  entry := 0
  end_ := 0

/-- The amd64 peephole makes no node of it. -/
theorem amd64Shift_zeroShift : ¬∃ e,
    amd64Shift zeroShift .shl .i32 (.node 1) (.node 2) = some e ∧
      e.eval zeroShift .amd64 (fun id => if id = 1 then 5 else 0) = machine .shl 32 5 (0 : ℕ) := by
  rintro ⟨e, he, -⟩
  rw [amd64Shift_of_zero (by decide)] at he
  cases he

end OdinSon
