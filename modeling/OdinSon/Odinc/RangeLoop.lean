import OdinSon.Odinc.ConstantsAgree

/-!
# Loops over ranges of integers

The code that `odinc/gen.odin` emits for `for v, i in lo ..< hi` and `lo ..= hi`: a head that evaluates
the right bound and leaves, the body, and an increment to which `continue` goes.

On registers that wrap, the loop is the one over the integers (`rangeLoop_exact`).  The left bound is
evaluated once, the right bound at every head.
-/

namespace OdinSon.Odinc

open MachInt

/-! ### Values of a type -/

namespace Prim

/-- The types of a range: `INTEGER_TYPES` without `Bool`. -/
def isRange (ty : Prim) : Bool := ty.isInteger && ty != .bool

/-- The largest value. -/
def maxValue (ty : Prim) : ℤ :=
  if ty.isSigned then 2 ^ (ty.bits - 1) - 1 else 2 ^ ty.bits - 1

end Prim

/-! ### The code -/

/-- How a statement ends; `leave` is a return or the control of an outer loop. -/
inductive Exit where
  | fallthrough | continue | break | leave
  deriving DecidableEq, Repr

/-- `Range_Half` and `Range_Full`. -/
inductive RangeKind where
  | half | full
  deriving DecidableEq, Repr

/-- A range statement, with the meaning of its parts on the rest of the program's state. -/
structure RangeStmt (σ : Type) where
  /-- The type of the variable. -/
  elemTy : Prim
  /-- Whether the bound on the right belongs to the range. -/
  kind : RangeKind
  /-- There is a second variable, which counts. -/
  hasIdx : Bool
  /-- The bound on the left, in a register. -/
  left : σ → Option (ℤ × σ)
  /-- The bound on the right, in a register. -/
  right : σ → Option (ℤ × σ)
  /-- The body, of the variable and of the index where there is one. -/
  body : ℤ → Option ℤ → σ → Option (Exit × σ)

/-- The right operand of a comparison. -/
inductive LoopOperand where
  | limit
  | cInt (value : ℤ)

/-- A piece of the code.  `breakIf` compares the variable and leaves the loop. -/
inductive LoopOp where
  | evalRight
  | breakIf (op : BinOp) (rhs : LoopOperand)
  | body
  | incValue
  | incIdx

/-- A loop, in two parts. -/
structure LoopCode where
  /-- From the `Loop` on. -/
  head : List LoopOp
  /-- Where `continue` goes. -/
  increment : List LoopOp

/-- `max` of the increment, as the constant node has it. -/
def lastValue (ty : Prim) : ℤ :=
  let max := (2 ^ 64 - 1) >>> (64 - ty.size * 8)
  let max := if ty.isSigned then max >>> 1 else max
  i64 max

namespace RangeStmt

variable {σ : Type} (d : RangeStmt σ)

/-- The comparison that leaves the loop. -/
def stopTok : Constants.BinTok := if d.kind = .half then .ge else .gt

/-- The code from the start of the loop to its end, for the operator of the comparison. -/
def code (op : BinOp) : LoopCode where
  head := [.evalRight, .breakIf op .limit, .body]
  increment :=
    -- the final inclusive value may not have a representable successor
    (if d.kind = .full then [.breakIf .eq (.cInt (lastValue d.elemTy))] else []) ++
      .incValue :: (if d.hasIdx then [.incIdx] else [])

/-- The code; nothing where there is no such operator. -/
def emit : Option LoopCode := (d.stopTok.toBinop d.elemTy).map d.code

/-! ### Its execution -/

/-- The state of the program in the loop. -/
structure Regs (σ : Type) where
  /-- The state of the rest of the program. -/
  user : σ
  /-- The variable. -/
  value : ℤ
  /-- The index. -/
  idx : ℤ
  /-- The bound on the right. -/
  limit : ℤ

variable {d}

def operand (regs : Regs σ) : LoopOperand → ℤ
  | .limit => regs.limit
  | .cInt value => value

variable (d)

@[grind =] def execOp (regs : Regs σ) : LoopOp → Option (Exit × Regs σ)
  | .evalRight => (d.right regs.user).map fun r => (.fallthrough, { regs with limit := r.1, user := r.2 })
  | .breakIf op rhs =>
    (machine op d.elemTy.dt.bits regs.value (operand regs rhs)).map fun cond =>
      (if cond ≠ 0 then .break else .fallthrough, regs)
  | .body =>
    (d.body (d.elemTy.value regs.value) (if d.hasIdx then some regs.idx else none) regs.user).map
      fun r => (r.1, { regs with user := r.2 })
  | .incValue =>
    (machine .add d.elemTy.dt.bits regs.value 1).map fun next =>
      (.fallthrough, { regs with value := next })
  | .incIdx => (machine .add 64 regs.idx 1).map fun next => (.fallthrough, { regs with idx := next })

@[grind =] def execOps : List LoopOp → Regs σ → Option (Exit × Regs σ)
  | [], regs => some (.fallthrough, regs)
  | op :: ops, regs => do
    let (exit, regs) ← execOp d regs op
    if exit = .fallthrough then execOps ops regs else some (exit, regs)

/-- The loop, for at most so many rounds. -/
def runLoop (code : LoopCode) : ℕ → Regs σ → Option (Exit × σ)
  | 0, _ => none
  | fuel + 1, regs => do
    let (exit, regs) ← execOps d code.head regs
    match exit with
    | .break => some (.fallthrough, regs.user)
    | .leave => some (.leave, regs.user)
    | .fallthrough | .continue => do
      let (exit, regs) ← execOps d code.increment regs
      match exit with
      | .break => some (.fallthrough, regs.user)
      | .leave => some (.leave, regs.user)
      | .fallthrough | .continue => runLoop code fuel regs

/-- The statement: the variable starts at the left bound, the index at `0`. -/
def exec (fuel : ℕ) (s : σ) : Option (Exit × σ) := do
  let code ← d.emit
  let (first, s) ← d.left s
  runLoop d code fuel { user := s, value := first, idx := 0, limit := 0 }

/-! ### The loop over the integers -/

/-- The value is before the bound. -/
def Within (v hi : ℤ) : Prop :=
  match d.kind with
  | .half => v < hi
  | .full => v ≤ hi

instance (v hi : ℤ) : Decidable (d.Within v hi) := by
  unfold Within
  cases d.kind
  · exact inferInstanceAs (Decidable (v < hi))
  · exact inferInstanceAs (Decidable (v ≤ hi))

/-- The index of a round; an `int` has 64 bits. -/
def index (k : ℕ) : Option ℤ := if d.hasIdx then some (wrap 64 k) else none

/-- The rounds from the value `v` on, when the type has `n` values from there. -/
@[grind =] def rounds : ℕ → ℤ → ℕ → σ → Option (Exit × σ)
  | 0, _, _, s => some (.fallthrough, s)
  | n + 1, v, k, s => do
    let (hi, s) ← d.right s
    if d.Within v (d.elemTy.value hi) then do
      let (exit, s) ← d.body v (d.index k) s
      match exit with
      | .break => some (.fallthrough, s)
      | .leave => some (.leave, s)
      | .fallthrough | .continue => rounds n (v + 1) (k + 1) s
    else some (.fallthrough, s)

/-- The values of the type from `v` on. -/
def valuesLeft (v : ℤ) : ℕ := (d.elemTy.maxValue + 1 - v).toNat

/-- The values of the range. -/
def count (lo hi : ℤ) : ℕ :=
  match d.kind with
  | .half => (hi - lo).toNat
  | .full => (hi + 1 - lo).toNat

end RangeStmt

/-! ### Registers of a range type -/

namespace Prim

variable {ty : Prim}

theorem isInteger_of_isRange (h : ty.isRange = true) : ty.isInteger = true := by
  rw [isRange, Bool.and_eq_true] at h
  exact h.1

theorem dt_bits (h : ty.isRange = true) : ty.dt.bits = ty.bits := by
  revert h
  cases ty <;> decide

theorem value_signed (h : ty.isRange = true) (hs : ty.isSigned = true) (x : ℤ) :
    ty.value x = (BitVec.ofInt ty.dt.bits x).toInt := by
  rw [value, if_pos hs, ofInt_toInt, dt_bits h]

theorem value_unsigned (h : ty.isRange = true) (hs : ty.isSigned = false) (x : ℤ) :
    ty.value x = (BitVec.ofInt ty.dt.bits x).toNat := by
  rw [value, hs, if_neg Bool.false_ne_true, ofInt_toNat, dt_bits h]

theorem value_le_maxValue (h : ty.isRange = true) (x : ℤ) : ty.value x ≤ ty.maxValue := by
  have hpos := bits_pos ty (isInteger_of_isRange h)
  rw [value, maxValue]
  split_ifs
  · exact (wrap_mem hpos x).bounds.2
  · have hlt : ((unsigned ty.bits x : ℕ) : ℤ) < 2 ^ ty.bits := by
      exact_mod_cast unsigned_lt ty.bits x
    omega

theorem ofInt_eq_iff (h : ty.isRange = true) {x y : ℤ} :
    BitVec.ofInt ty.dt.bits x = BitVec.ofInt ty.dt.bits y ↔ ty.value x = ty.value y := by
  cases hs : ty.isSigned
  · rw [value_unsigned h hs, value_unsigned h hs, Nat.cast_inj, BitVec.toNat_inj]
  · rw [value_signed h hs, value_signed h hs, BitVec.toInt_inj]

theorem value_lastValue (h : ty.isRange = true) : ty.value (lastValue ty) = ty.maxValue := by
  revert h
  cases ty <;> decide

/-- The comparison that leaves a half-open range. -/
theorem machine_ge (h : ty.isRange = true) : ∃ op, Constants.BinTok.toBinop ty .ge = some op ∧
    ∀ x y, machine op ty.dt.bits x y = some (boolToInt (ty.value y ≤ ty.value x)) := by
  refine ⟨_, rfl, fun x y => ?_⟩
  rw [isUnsigned_eq (isInteger_of_isRange h)]
  cases hs : ty.isSigned
  · rw [value_unsigned h hs, value_unsigned h hs, Bool.not_false, if_pos rfl, machine, BitVec.ule]
    simp only [Nat.cast_le]
  · rw [value_signed h hs, value_signed h hs, Bool.not_true, if_neg Bool.false_ne_true, machine,
      BitVec.sle]

/-- The comparison that leaves a closed range. -/
theorem machine_gt (h : ty.isRange = true) : ∃ op, Constants.BinTok.toBinop ty .gt = some op ∧
    ∀ x y, machine op ty.dt.bits x y = some (boolToInt (ty.value y < ty.value x)) := by
  refine ⟨_, rfl, fun x y => ?_⟩
  rw [isUnsigned_eq (isInteger_of_isRange h)]
  cases hs : ty.isSigned
  · rw [value_unsigned h hs, value_unsigned h hs, Bool.not_false, if_pos rfl, machine, BitVec.ult]
    simp only [Nat.cast_lt]
  · rw [value_signed h hs, value_signed h hs, Bool.not_true, if_neg Bool.false_ne_true, machine,
      BitVec.slt]

/-- The comparison with the largest value. -/
theorem machine_last (h : ty.isRange = true) (x : ℤ) :
    machine .eq ty.dt.bits x (lastValue ty) = some (boolToInt (ty.value x = ty.maxValue)) := by
  rw [machine]
  simp only [ofInt_eq_iff h, value_lastValue h]

/-- Below the largest value the increment does not wrap. -/
theorem machine_next (h : ty.isRange = true) {x : ℤ} (hx : ty.value x < ty.maxValue) :
    ∃ next, machine .add ty.dt.bits x 1 = some next ∧ ty.value next = ty.value x + 1 := by
  have hpos := bits_pos ty (isInteger_of_isRange h)
  have hnext : ty.value (BitVec.ofInt ty.dt.bits x + BitVec.ofInt ty.dt.bits 1).toInt =
      ty.value (ty.value x + 1) := by
    apply Constants.value_congr
    rw [← BitVec.ofInt_add, ofInt_toInt, dt_bits h, wrap_wrap]
    have hwrap := Constants.wrap_value (p := ty) x
    rw [wrap_eq_wrap_iff] at hwrap ⊢
    have hsub : x + 1 - (ty.value x + 1) = -(ty.value x - x) := by ring
    rw [hsub]
    exact Int.dvd_neg.2 hwrap
  refine ⟨_, rfl, hnext.trans ?_⟩
  rw [maxValue] at hx
  cases hs : ty.isSigned
  · rw [hs, if_neg Bool.false_ne_true] at hx
    have hnonneg : 0 ≤ ty.value x := by
      rw [value, hs, if_neg Bool.false_ne_true]
      exact Int.natCast_nonneg _
    generalize ty.value x = v at hx hnonneg
    rw [value, hs, if_neg Bool.false_ne_true]
    exact unsigned_of_nonneg (by omega) (by omega)
  · rw [hs, if_pos rfl] at hx
    have hmem : InS ty.bits (ty.value x) := by
      rw [value, if_pos hs]
      exact wrap_mem hpos x
    exact Constants.value_of_mem (isInteger_of_isRange h) hs
      ⟨by linarith [hmem.1], by linarith⟩

end Prim

theorem machine_nextIdx (k : ℕ) : machine .add 64 (wrap 64 k) 1 = some (wrap 64 (k + 1 : ℕ)) := by
  rw [machine, ofInt_wrap, ← BitVec.ofInt_add, ofInt_toInt]
  rfl

/-! ### One round -/

namespace RangeStmt

variable {σ : Type} {d : RangeStmt σ} {regs : Regs σ}

theorem execOps_breakIf {op : BinOp} {rhs : LoopOperand} {p : Prop} [Decidable p]
    (h : machine op d.elemTy.dt.bits regs.value (operand regs rhs) = some (boolToInt p))
    (ops : List LoopOp) :
    execOps d (.breakIf op rhs :: ops) regs =
      if p then some (.break, regs) else execOps d ops regs := by
  rw [execOps, execOp, h]
  by_cases hp : p
  · rw [if_pos hp, decide_eq_true hp]
    rfl
  · rw [if_neg hp, decide_eq_false hp]
    rfl

/-- The operator of the head tells the values that are not within the bound. -/
def Stops (d : RangeStmt σ) (op : BinOp) : Prop :=
  ∀ x y, machine op d.elemTy.dt.bits x y =
    some (boolToInt (¬ d.Within (d.elemTy.value x) (d.elemTy.value y)))

/-- There is one. -/
theorem exists_stops (h : d.elemTy.isRange = true) : ∃ op, d.emit = some (d.code op) ∧ d.Stops op := by
  cases hkind : d.kind
  · obtain ⟨op, hop, hmachine⟩ := Prim.machine_ge h
    refine ⟨op, ?_, fun x y => ?_⟩
    · rw [emit, stopTok, hkind, if_pos rfl, hop, Option.map_some]
    · rw [hmachine]
      simp only [Within, hkind, not_lt]
  · obtain ⟨op, hop, hmachine⟩ := Prim.machine_gt h
    refine ⟨op, ?_, fun x y => ?_⟩
    · rw [emit, stopTok, hkind, if_neg (by decide), hop, Option.map_some]
    · rw [hmachine]
      simp only [Within, hkind, not_le]

/-- The head: the right bound, the test, and the body. -/
theorem execOps_head {op : BinOp} (hop : d.Stops op) :
    execOps d (d.code op).head regs = (d.right regs.user).bind fun r =>
      if d.Within (d.elemTy.value regs.value) (d.elemTy.value r.1) then
        (d.body (d.elemTy.value regs.value) (if d.hasIdx then some regs.idx else none) r.2).map
          fun r' => (r'.1, { regs with limit := r.1, user := r'.2 })
      else some (.break, { regs with limit := r.1, user := r.2 }) := by
  rw [code, execOps, execOp]
  cases d.right regs.user with
  | none => rfl
  | some r =>
    dsimp only [Option.map_some, Option.bind_eq_bind, Option.bind_some]
    rw [if_pos rfl, execOps_breakIf (hop _ _), operand]
    by_cases hin : d.Within (d.elemTy.value regs.value) (d.elemTy.value r.1)
    · rw [if_pos hin, if_neg (not_not.2 hin), execOps, execOp]
      cases d.body (d.elemTy.value regs.value) (if d.hasIdx then some regs.idx else none) r.2 with
      | none => rfl
      | some r' =>
        obtain ⟨exit, s⟩ := r'
        cases exit <;> rfl
    · rw [if_neg hin, if_pos hin]

/-- The test of the increment. -/
theorem execOps_last (h : d.elemTy.isRange = true) (ops : List LoopOp) :
    execOps d (.breakIf .eq (.cInt (lastValue d.elemTy)) :: ops) regs =
      if d.elemTy.value regs.value = d.elemTy.maxValue then some (.break, regs)
      else execOps d ops regs := by
  apply execOps_breakIf
  rw [operand, Prim.machine_last h]

/-- The increment after the largest value. -/
theorem execOps_increment_last {op : BinOp} (h : d.elemTy.isRange = true) (hkind : d.kind = .full)
    (hlast : d.elemTy.value regs.value = d.elemTy.maxValue) :
    execOps d (d.code op).increment regs = some (.break, regs) := by
  rw [code, hkind, if_pos rfl, List.singleton_append, execOps_last h, if_pos hlast]

/-- The registers of the round `k`, at the value `v`. -/
structure At (d : RangeStmt σ) (regs : Regs σ) (v : ℤ) (k : ℕ) : Prop where
  value : d.elemTy.value regs.value = v
  index : (if d.hasIdx then some regs.idx else none) = d.index k

/-- The increment before it. -/
theorem execOps_increment {op : BinOp} (h : d.elemTy.isRange = true) {v : ℤ} {k : ℕ} (hat : d.At regs v k)
    (hlt : v < d.elemTy.maxValue) :
    ∃ regs', execOps d (d.code op).increment regs = some (.fallthrough, regs') ∧
      d.At regs' (v + 1) (k + 1) ∧ regs'.user = regs.user := by
  obtain ⟨next, hnext, hvalue⟩ := Prim.machine_next h (hat.value ▸ hlt : d.elemTy.value regs.value < _)
  have hskip (ops : List LoopOp) : execOps d
      ((if d.kind = .full then [.breakIf .eq (.cInt (lastValue d.elemTy))] else []) ++ ops) regs =
      execOps d ops regs := by
    split_ifs with hkind
    · rw [List.singleton_append, execOps_last h, if_neg (hat.value ▸ hlt.ne)]
    · rfl
  have hindex := hat.index
  rw [code, hskip, execOps, execOp, hnext]
  dsimp only [Option.map_some, Option.bind_eq_bind, Option.bind_some]
  rw [if_pos rfl]
  cases hidx : d.hasIdx
  · refine ⟨{ regs with value := next }, rfl, ⟨?_, ?_⟩, rfl⟩
    · rw [hvalue, hat.value]
    · rw [index, hidx, if_neg Bool.false_ne_true, if_neg Bool.false_ne_true]
  · rw [index, hidx, if_pos rfl, if_pos rfl] at hindex
    refine ⟨{ regs with value := next, idx := wrap 64 (k + 1 : ℕ) }, ?_, ⟨?_, ?_⟩, rfl⟩
    · rw [if_pos rfl, execOps, execOp, Option.some.inj hindex, machine_nextIdx]
      rfl
    · rw [hvalue, hat.value]
    · rw [index, hidx, if_pos rfl]

/-! ### The whole loop -/

/-- On registers the loop does what it does on the integers. -/
theorem runLoop_eq (h : d.elemTy.isRange = true) {op : BinOp} (hop : d.Stops op) {fuel : ℕ} {v : ℤ}
    {k : ℕ} (hat : d.At regs v k) (hfuel : d.valuesLeft v ≤ fuel) :
    runLoop d (d.code op) fuel regs = d.rounds (d.valuesLeft v) v k regs.user := by
  induction fuel generalizing regs v k with
  | zero =>
    have hmax := Prim.value_le_maxValue h regs.value
    rw [hat.value] at hmax
    rw [valuesLeft] at hfuel
    omega
  | succ fuel ih =>
    have hmax := Prim.value_le_maxValue h regs.value
    rw [hat.value] at hmax
    obtain ⟨n, hn⟩ : ∃ n, d.valuesLeft v = n + 1 := ⟨d.valuesLeft v - 1, by rw [valuesLeft]; omega⟩
    have hnext : d.valuesLeft (v + 1) = n := by
      rw [valuesLeft] at hn ⊢
      omega
    rw [hn, runLoop, rounds, execOps_head hop, hat.value, hat.index]
    cases d.right regs.user with
    | none => rfl
    | some r =>
      obtain ⟨hi, s⟩ := r
      dsimp only [Option.bind_eq_bind, Option.bind_some]
      by_cases hin : d.Within v (d.elemTy.value hi)
      · rw [if_pos hin, if_pos hin]
        cases d.body v (d.index k) s with
        | none => rfl
        | some r =>
          obtain ⟨exit, s'⟩ := r
          -- a body that goes on is followed by the increment
          have hgo : (execOps d (d.code op).increment { regs with limit := hi, user := s' }).bind (fun r =>
              match r.1 with
              | .break => some (.fallthrough, r.2.user)
              | .leave => some (.leave, r.2.user)
              | .fallthrough | .continue => runLoop d (d.code op) fuel r.2) =
              d.rounds n (v + 1) (k + 1) s' := by
            have hat' : d.At { regs with limit := hi, user := s' } v k := ⟨hat.value, hat.index⟩
            by_cases hlt : v < d.elemTy.maxValue
            · obtain ⟨regs', hregs', hnext', huser⟩ := execOps_increment h hat' hlt
              rw [hregs', Option.bind_some, ih hnext' (by omega), hnext, huser]
            · have hlast : v = d.elemTy.maxValue := by omega
              have hkind : d.kind = .full := by
                cases hkind : d.kind
                · have hhi := Prim.value_le_maxValue h hi
                  rw [Within, hkind] at hin
                  dsimp only at hin
                  omega
                · rfl
              have hzero : n = 0 := by
                rw [valuesLeft] at hn
                omega
              rw [execOps_increment_last h hkind (hat'.value.trans hlast), hzero]
              rfl
          cases exit with
          | fallthrough => exact hgo
          | «continue» => exact hgo
          | «break» => rfl
          | leave => rfl
      · rw [if_neg hin, if_neg hin]
        rfl

theorem valuesLeft_le (h : d.elemTy.isRange = true) (x : ℤ) :
    d.valuesLeft (d.elemTy.value x) ≤ 2 ^ d.elemTy.dt.bits := by
  have hpos := Prim.bits_pos d.elemTy (Prim.isInteger_of_isRange h)
  rw [valuesLeft, Int.toNat_le, Prim.maxValue, Prim.value, Prim.dt_bits h]
  cases hs : d.elemTy.isSigned
  · rw [if_neg Bool.false_ne_true, if_neg Bool.false_ne_true]
    push_cast
    omega
  · have hmem := wrap_mem hpos x
    have htwo := two_pow_pred hpos
    rw [if_pos rfl, if_pos rfl]
    push_cast
    linarith [hmem.1]

theorem exec_eq (h : d.elemTy.isRange = true) (s : σ) {fuel : ℕ}
    (hfuel : 2 ^ d.elemTy.dt.bits ≤ fuel) :
    d.exec fuel s = (d.left s).bind fun r =>
      d.rounds (d.valuesLeft (d.elemTy.value r.1)) (d.elemTy.value r.1) 0 r.2 := by
  have hstart (first : ℤ) (s : σ) : d.At ⟨s, first, 0, 0⟩ (d.elemTy.value first) 0 := by
    refine ⟨rfl, ?_⟩
    rw [index]
    rfl
  obtain ⟨op, hop, hstops⟩ := exists_stops h
  rw [exec, hop]
  cases d.left s with
  | none => rfl
  | some r => exact runLoop_eq h hstops (hstart r.1 r.2) ((valuesLeft_le h r.1).trans hfuel)

/-- A round from the start: what its body does to the state. -/
def bodyOf (d : RangeStmt σ) (lo : ℤ) (s : σ) (j : ℕ) : Option σ :=
  (d.body (lo + j) (d.index j) s).map Prod.snd

/-- Where the right bound keeps its value and no body leaves, there is a round for each value. -/
theorem rounds_eq_foldlM {I : σ → Prop} {hi lo : ℤ} (hmax : d.elemTy.value hi ≤ d.elemTy.maxValue)
    (hright : ∀ s, I s → d.right s = some (hi, s))
    (hbody : ∀ v i s exit s', I s → d.body v i s = some (exit, s') →
      (exit = .fallthrough ∨ exit = .continue) ∧ I s')
    {n k : ℕ} (hn : lo + k + n = d.elemTy.maxValue + 1) {s : σ} (hs : I s) :
    d.rounds n (lo + k) k s =
      ((List.range' k (d.count (lo + k) (d.elemTy.value hi))).foldlM (d.bodyOf lo) s).map
        fun s => (.fallthrough, s) := by
  induction n generalizing k s with
  | zero =>
    have hcount : d.count (lo + k) (d.elemTy.value hi) = 0 := by
      rw [count]
      split <;> omega
    rw [hcount]
    rfl
  | succ n ih =>
    rw [rounds, hright s hs]
    dsimp only [Option.bind_eq_bind, Option.bind_some]
    by_cases hin : d.Within (lo + k) (d.elemTy.value hi)
    · have hcount : d.count (lo + k) (d.elemTy.value hi) =
          d.count (lo + k + 1) (d.elemTy.value hi) + 1 := by
        rw [Within] at hin
        rw [count, count]
        split at hin <;> omega
      rw [if_pos hin, hcount, List.range'_succ, List.foldlM_cons, bodyOf]
      cases hrun : d.body (lo + k) (d.index k) s with
      | none => rfl
      | some r =>
        obtain ⟨exit, s'⟩ := r
        obtain ⟨hexit, hs'⟩ := hbody _ _ _ _ _ hs hrun
        have hrest := ih (k := k + 1) (by push_cast at hn ⊢; omega) hs'
        rw [Nat.cast_succ, ← add_assoc] at hrest
        obtain rfl | rfl := hexit
        · exact hrest
        · exact hrest
    · have hcount : d.count (lo + k) (d.elemTy.value hi) = 0 := by
        rw [Within] at hin
        rw [count]
        split at hin <;> omega
      rw [if_neg hin, hcount]
      rfl

/-- **The loop is the one over the integers**: the left bound is evaluated once, the right one before
each round, the body runs for the values in ascending order with the index from `0`, and enough rounds
are `2 ^ bits`.  Where the right bound keeps its value and no body leaves, that is one round for each
value of the range. -/
theorem rangeLoop_exact (h : d.elemTy.isRange = true) (s : σ) {fuel : ℕ}
    (hfuel : 2 ^ d.elemTy.dt.bits ≤ fuel) :
    (d.exec fuel s = (d.left s).bind fun r =>
      d.rounds (d.valuesLeft (d.elemTy.value r.1)) (d.elemTy.value r.1) 0 r.2) ∧
    ∀ (I : σ → Prop) (first hi : ℤ) (s₀ : σ), d.left s = some (first, s₀) → I s₀ →
      (∀ s, I s → d.right s = some (hi, s)) →
      (∀ v i s exit s', I s → d.body v i s = some (exit, s') →
        (exit = .fallthrough ∨ exit = .continue) ∧ I s') →
      d.exec fuel s =
        ((List.range (d.count (d.elemTy.value first) (d.elemTy.value hi))).foldlM
          (d.bodyOf (d.elemTy.value first)) s₀).map fun s => (.fallthrough, s) := by
  refine ⟨exec_eq h s hfuel, fun I first hi s₀ hleft hs₀ hright hbody => ?_⟩
  have hmax := Prim.value_le_maxValue h first
  have hn : d.elemTy.value first + (0 : ℕ) + d.valuesLeft (d.elemTy.value first) =
      d.elemTy.maxValue + 1 := by
    rw [valuesLeft]
    omega
  have hrounds := rounds_eq_foldlM (Prim.value_le_maxValue h hi) hright hbody hn hs₀
  rw [Nat.cast_zero, add_zero] at hrounds
  rw [exec_eq h s hfuel, hleft, Option.bind_some, hrounds, List.range_eq_range']

/-- `for v, i in i8(125) ..= 127`, with a body that keeps what it sees. -/
def lastThree : RangeStmt (List (ℤ × Option ℤ)) where
  elemTy := .i8
  kind := .full
  hasIdx := true
  left s := some (125, s)
  right s := some (127, s)
  body v i s := some (.continue, (v, i) :: s)

theorem rangeLoop_exact_lastThree : lastThree.exec 256 [] =
    some (.fallthrough, [(127, some 2), (126, some 1), (125, some 0)]) :=
  ((rangeLoop_exact (d := lastThree) rfl [] le_rfl).2 (fun _ => True) 125 127 [] rfl trivial
    (fun _ _ => rfl)
    (fun _ _ _ _ _ _ h => ⟨.inr (congrArg Prod.fst (Option.some.inj h)).symm, trivial⟩)).trans rfl

/-- `for _ in 0 ..< f()`, where `f` counts its calls and gives `2`. -/
def countCalls : RangeStmt ℕ where
  elemTy := .int
  kind := .half
  hasIdx := false
  left s := some (0, s)
  right s := some (2, s + 1)
  body _ _ s := some (.fallthrough, s)

/-- The right bound is evaluated three times. -/
theorem exec_countCalls : countCalls.exec 3 0 = some (.fallthrough, 3) := by decide

end RangeStmt

end OdinSon.Odinc
