import OdinSon.Lib.ByteMemory
import OdinSon.Lib.HalfWords
import OdinSon.Ssa.FoldBinOp

/-!
# 64-bit addresses on a 32-bit GPU

`split_address` (`bac/intel_xelp/lower.odin`) replaces a 64-bit address by two 32-bit nodes.  The nodes
are terms here (`Node`), with the value that their register has at run time (`eval`).

`splitAddress_exact` says that the two halves are the address, whatever the run-time values are.
-/

namespace OdinSon.Xelp

open Lib MachInt

/-- A node, by its operands: `given` is one of the kinds that the lowering does not look into. -/
inductive Node where
  | given (i : ℕ) (dt : Datatype)
  | cInt (dt : Datatype) (value : ℤ)
  | uniformAddr (param idx : ℕ)
  | load (dt : Datatype) (addr : Node)
  | conv (dt : Datatype) (arg : Node)
  | uConv (dt : Datatype) (arg : Node)
  | binOp (op : BinOp) (dt : Datatype) (lhs rhs : Node)
  | extractLane (dt : Datatype) (param idx : ℕ)
  deriving DecidableEq

/-- The datatype of the node. -/
def Node.dt : Node → Datatype
  | given _ dt | cInt dt _ | load dt _ | conv dt _ | uConv dt _ | binOp _ dt _ _
  | extractLane dt _ _ => dt
  | uniformAddr .. => .i64

/-! ### The lowering -/

/-- `GRF_BYTES`. -/
def grfBytes : ℕ := 32

/-- `extract_uniform` of the address `uniformAddr param offset`. -/
def extractUniform (param offset : ℕ) (dt : Datatype) (half : ℕ) : Option Node :=
  if offset % 4 = 0 ∧ offset + half * 4 < grfBytes then
    some (.extractLane dt param (offset / 4 + half))
  else none

/-- `intrinsics.count_ones` of a number of so many bits. -/
@[grind =] def countOnes : ℕ → ℕ → ℕ
  | 0, _ => 0
  | bits + 1, n => n % 2 + countOnes bits (n / 2)

/-- `intrinsics.count_trailing_zeros` of a number of so many bits. -/
def countTrailingZeros : ℕ → ℕ → ℕ
  | 0, _ => 0
  | bits + 1, n => if n % 2 = 1 then 0 else 1 + countTrailingZeros bits (n / 2)

/-- The count of the shift for a constant stride. -/
def strideAmount (op : BinOp) (value : ℤ) : Option ℕ :=
  let amount := u64 value
  if op = .mul then
    if countOnes 64 amount = 1 then some (countTrailingZeros 64 amount) else none
  else some amount

/-- `split_address`: `none` where it does not accept the node. -/
@[grind =] def splitAddress (id : Node) : Option (Node × Node) :=
  let zero : Node := .cInt .i32 0
  if id.dt = .i32 then some (id, zero)
  else
    match id with
    | .cInt _ value =>
      let bits := u64 value
      some (.cInt .i32 (bits % 2 ^ 32 : ℕ), .cInt .i32 (bits / 2 ^ 32 : ℕ))
    | .load _ (.uniformAddr param idx) => do
      let lo ← extractUniform param idx .i32 0
      let hi ← extractUniform param idx .i32 1
      some (lo, hi)
    | .conv _ src =>
      if src.dt = .i32 then some (src, .binOp .shr .i32 src (.cInt .i32 31)) else none
    | .uConv _ src => if src.dt = .i32 then some (src, zero) else none
    | .binOp .add _ a b => do
      let (al, ah) ← splitAddress a
      let (bl, bh) ← splitAddress b
      let lo := .binOp .add .i32 al bl
      let carry := .binOp .uLt .i32 lo al
      some (lo, .binOp .add .i32 (.binOp .add .i32 ah bh) carry)
    | .binOp op _ a (.cInt _ value) =>
      if op = .mul ∨ op = .shl then do
        let (al, ah) ← splitAddress a
        let amount ← strideAmount op value
        if amount < 32 then
          if amount = 0 then some (al, ah)
          else
            let shift := .cInt .i32 amount
            some (.binOp .shl .i32 al shift,
              .binOp .or .i32 (.binOp .shl .i32 ah shift)
                (.binOp .uShr .i32 al (.cInt .i32 (32 - amount : ℕ))))
        else none
      else none
    | _ => none

/-! ### The values -/

/-- What is not known before run time. -/
structure Env where
  /-- The values of the nodes that the lowering does not look into. -/
  given : ℕ → ℕ
  /-- The memory. -/
  memory : BitVec 64 → BitVec 8
  /-- The bytes of the uniform registers. -/
  param : ℕ → BitVec 64 → BitVec 8

/-- The width on which an operator works: comparisons take that of their operands. -/
def opBits (op : BinOp) (dt : Datatype) (lhs : Node) : ℕ :=
  if op.isComparison then lhs.dt.bits else dt.bits

/-- The unsigned number in the register of a node. -/
@[grind =] def eval (env : Env) : Node → Option ℕ
  | .given i dt => some (env.given i % 2 ^ dt.bits)
  | .cInt dt value => some (unsigned dt.bits value)
  | .uniformAddr .. => none
  | .load dt (.uniformAddr param idx) =>
    some (loadBytes (env.param param) (BitVec.ofNat 64 idx) dt.size)
  | .load dt addr => (eval env addr).map fun a => loadBytes env.memory (BitVec.ofNat 64 a) dt.size
  | .conv dt arg => (eval env arg).map fun a : ℕ => unsigned dt.bits (wrap arg.dt.bits a)
  | .uConv dt arg => (eval env arg).map fun a => a % 2 ^ dt.bits
  | .binOp op dt lhs rhs =>
    match eval env lhs, eval env rhs with
    | some a, some b => (machine op (opBits op dt lhs) a b).map fun x => unsigned dt.bits x
    | _, _ => none
  | .extractLane _ param idx => some (loadBytes (env.param param) (BitVec.ofNat 64 (idx * 4)) 4)

/-- A 64-bit address expression: nodes of 64 bits down to those of 32. -/
inductive Address : Node → Prop where
  | word {n : Node} : n.dt = .i32 → Address n
  | cInt (value : ℤ) : Address (.cInt .i64 value)
  | load (addr : Node) : Address (.load .i64 addr)
  | conv (arg : Node) : Address (.conv .i64 arg)
  | uConv (arg : Node) : Address (.uConv .i64 arg)
  | add {a b : Node} : Address a → Address b → Address (.binOp .add .i64 a b)
  | mul {a b : Node} : Address a → b.dt = .i64 ∨ b.dt = .i32 → Address (.binOp .mul .i64 a b)
  | shl {a b : Node} : Address a → b.dt.isInt = true → Address (.binOp .shl .i64 a b)

/-- Two nodes of 32 bits with the halves of a number. -/
structure Halves (env : Env) (lo hi : Node) (x : ℕ) : Prop where
  lo_dt : lo.dt = .i32
  hi_dt : hi.dt = .i32
  value : ∃ l h : BitVec 32, eval env lo = some l.toNat ∧ eval env hi = some h.toNat ∧
    halves l h = x

section Operators

variable {env : Env} {s t : Node} {x y : BitVec 32}

theorem ofInt_toNat_self {w : ℕ} (x : BitVec w) : BitVec.ofInt w x.toNat = x := by
  rw [BitVec.ofInt_natCast, BitVec.ofNat_toNat, BitVec.setWidth_eq]

theorem eval_binOp {op : BinOp} {z : BitVec 32} (hs : eval env s = some x.toNat)
    (ht : eval env t = some y.toNat) (hbits : opBits op .i32 s = 32)
    (h : machine op 32 x.toNat y.toNat = some z.toInt) :
    eval env (.binOp op .i32 s t) = some z.toNat := by
  rw [eval, hs, ht]
  dsimp only
  rw [hbits, h, Option.map_some, show Datatype.i32.bits = 32 from rfl, unsigned_toInt]

theorem eval_cInt {n : ℕ} (h : n < 2 ^ 32) :
    eval env (.cInt .i32 n) = some (BitVec.ofNat 32 n).toNat := by
  rw [eval, show Datatype.i32.bits = 32 from rfl, unsigned_natCast h, BitVec.toNat_ofNat,
    Nat.mod_eq_of_lt h]

theorem eval_add (hs : eval env s = some x.toNat) (ht : eval env t = some y.toNat) :
    eval env (.binOp .add .i32 s t) = some (x + y).toNat :=
  eval_binOp hs ht rfl (by rw [machine, ofInt_toNat_self, ofInt_toNat_self])

theorem eval_or (hs : eval env s = some x.toNat) (ht : eval env t = some y.toNat) :
    eval env (.binOp .or .i32 s t) = some (x ||| y).toNat :=
  eval_binOp hs ht rfl (by rw [machine, ofInt_toNat_self, ofInt_toNat_self])

theorem eval_uLt (hdt : s.dt = .i32) (hs : eval env s = some x.toNat)
    (ht : eval env t = some y.toNat) :
    eval env (.binOp .uLt .i32 s t) =
      some (BitVec.ofNat 32 (if x.ult y then 1 else 0)).toNat := by
  have hbits : opBits .uLt .i32 s = 32 := by
    rw [opBits, hdt]
    rfl
  refine eval_binOp hs ht hbits ?_
  rw [machine, ofInt_toNat_self, ofInt_toNat_self]
  cases x.ult y
  · rfl
  · rfl

theorem machine_count {k : ℕ} (hk : k < 32) :
    (0 : ℤ) ≤ (BitVec.ofNat 32 k).toNat ∧ ((BitVec.ofNat 32 k).toNat : ℤ) < (32 : ℕ) ∧
      ((BitVec.ofNat 32 k).toNat : ℤ).toNat = k := by
  rw [BitVec.toNat_ofNat, Nat.mod_eq_of_lt (by omega)]
  omega

/-- A shift by a constant. -/
theorem eval_shift {op : BinOp} {f : BitVec 32 → ℕ → BitVec 32} (hbits : opBits op .i32 s = 32)
    (hop : ∀ a k : ℤ, 0 ≤ k ∧ k < (32 : ℕ) →
      machine op 32 a k = some (f (BitVec.ofInt 32 a) k.toNat).toInt)
    (hs : eval env s = some x.toNat) {k : ℕ} (hk : k < 32) :
    eval env (.binOp op .i32 s (.cInt .i32 k)) = some (f x k).toNat := by
  obtain ⟨hnonneg, hlt, hcount⟩ := machine_count hk
  refine eval_binOp hs (eval_cInt (by omega)) hbits ?_
  rw [hop _ _ ⟨hnonneg, hlt⟩, hcount, ofInt_toNat_self]

theorem eval_shl (hs : eval env s = some x.toNat) {k : ℕ} (hk : k < 32) :
    eval env (.binOp .shl .i32 s (.cInt .i32 k)) = some (x <<< k).toNat :=
  eval_shift (f := (· <<< ·)) rfl (fun _ _ h => by rw [machine, if_pos h]) hs hk

theorem eval_uShr (hs : eval env s = some x.toNat) {k : ℕ} (hk : k < 32) :
    eval env (.binOp .uShr .i32 s (.cInt .i32 k)) = some (x >>> k).toNat :=
  eval_shift (f := (· >>> ·)) rfl (fun _ _ h => by rw [machine, if_pos h]) hs hk

theorem eval_shr (hs : eval env s = some x.toNat) {k : ℕ} (hk : k < 32) :
    eval env (.binOp .shr .i32 s (.cInt .i32 k)) = some (x.sshiftRight k).toNat :=
  eval_shift (f := BitVec.sshiftRight) rfl (fun _ _ h => by rw [machine, if_pos h]) hs hk

end Operators

/-! ### The halves of each kind of node -/

section Kinds

variable {env : Env} {n lo hi a b : Node} {x : ℕ}

/-- A register of 32 bits. -/
theorem eval_word (hdt : n.dt = .i32) (hx : eval env n = some x) :
    ∃ l : BitVec 32, l.toNat = x := by
  have hlt : x < 2 ^ 32 := by
    cases n with
    | given i dt =>
      obtain rfl : dt = .i32 := hdt
      obtain rfl := Option.some.inj hx
      exact Nat.mod_lt _ (by decide)
    | cInt dt value =>
      obtain rfl : dt = .i32 := hdt
      obtain rfl := Option.some.inj hx
      exact unsigned_lt 32 value
    | uniformAddr => exact Datatype.noConfusion hdt
    | load dt addr =>
      obtain rfl : dt = .i32 := hdt
      have hload (m : BitVec 64 → BitVec 8) (p : BitVec 64) :
          loadBytes m p Datatype.i32.size < 2 ^ 32 := loadBytes_lt 4
      cases addr with
      | uniformAddr => exact Option.some.inj hx ▸ hload _ _
      | _ =>
        obtain ⟨p, -, rfl⟩ := Option.map_eq_some_iff.1 hx
        exact hload _ _
    | conv dt arg =>
      obtain rfl : dt = .i32 := hdt
      obtain ⟨v, -, rfl⟩ := Option.map_eq_some_iff.1 hx
      exact unsigned_lt 32 _
    | uConv dt arg =>
      obtain rfl : dt = .i32 := hdt
      obtain ⟨v, -, rfl⟩ := Option.map_eq_some_iff.1 hx
      exact Nat.mod_lt _ (by decide)
    | binOp op dt lhs rhs =>
      obtain rfl : dt = .i32 := hdt
      rw [eval] at hx
      split at hx
      · obtain ⟨v, -, rfl⟩ := Option.map_eq_some_iff.1 hx
        exact unsigned_lt 32 v
      · exact absurd hx (Option.some_ne_none x).symm
    | extractLane dt param idx => exact Option.some.inj hx ▸ loadBytes_lt 4
  exact ⟨BitVec.ofNat 32 x, by rw [BitVec.toNat_ofNat, Nat.mod_eq_of_lt hlt]⟩

theorem Halves.word (hdt : n.dt = .i32) (hx : eval env n = some x) :
    Halves env n (.cInt .i32 0) x := by
  obtain ⟨l, rfl⟩ := eval_word hdt hx
  exact ⟨hdt, rfl, l, 0, hx, eval_cInt (n := 0) (by decide), halves_zero l⟩

theorem Halves.cInt (value : ℤ) : Halves env (.cInt .i32 (u64 value % 2 ^ 32 : ℕ))
    (.cInt .i32 (u64 value / 2 ^ 32 : ℕ)) (unsigned 64 value) := by
  have hlt : u64 value < 2 ^ 64 := unsigned_lt 64 value
  exact ⟨rfl, rfl, _, _, eval_cInt (by omega), eval_cInt (by omega), halves_ofNat hlt⟩

/-- The lanes of the two halves of a uniform are its bytes. -/
theorem Halves.uniform {param idx : ℕ} (hlo : extractUniform param idx .i32 0 = some lo)
    (hhi : extractUniform param idx .i32 1 = some hi) :
    Halves env lo hi (loadBytes (env.param param) (BitVec.ofNat 64 idx) 8) := by
  rw [extractUniform, Option.ite_none_right_eq_some] at hlo hhi
  obtain ⟨⟨halign, -⟩, hlo⟩ := hlo
  obtain ⟨-, hhi⟩ := hhi
  obtain rfl := Option.some.inj hlo
  obtain rfl := Option.some.inj hhi
  have hlow : (idx / 4 + 0) * 4 = idx := by omega
  have hhigh : (idx / 4 + 1) * 4 = idx + 4 := by omega
  have hword (p : BitVec 64) : (BitVec.ofNat 32 (loadBytes (env.param param) p 4)).toNat =
      loadBytes (env.param param) p 4 := by
    rw [BitVec.toNat_ofNat]
    exact Nat.mod_eq_of_lt (loadBytes_lt 4)
  refine ⟨rfl, rfl, BitVec.ofNat 32 (loadBytes (env.param param) (BitVec.ofNat 64 idx) 4),
    BitVec.ofNat 32 (loadBytes (env.param param) (BitVec.ofNat 64 (idx + 4)) 4), ?_, ?_, ?_⟩
  · rw [eval, hlow, hword]
  · rw [eval, hhigh, hword]
  · rw [halves, hword, hword, loadBytes_add 4 4, BitVec.ofNat_add]
    rfl

theorem Halves.conv (hdt : n.dt = .i32) (hx : eval env n = some x) :
    Halves env n (.binOp .shr .i32 n (.cInt .i32 31)) (unsigned 64 (wrap 32 x)) := by
  obtain ⟨l, rfl⟩ := eval_word hdt hx
  refine ⟨hdt, rfl, l, l.sshiftRight 31, hx, eval_shr (k := 31) hx (by decide), ?_⟩
  rw [← toInt_eq_wrap, ← BitVec.toInt_signExtend_of_le (by decide : 32 ≤ 64), unsigned_toInt]
  exact halves_signExtend (by decide) l

theorem Halves.add {al ah bl bh : Node} {y : ℕ} (ha : Halves env al ah x)
    (hb : Halves env bl bh y) :
    Halves env (.binOp .add .i32 al bl)
      (.binOp .add .i32 (.binOp .add .i32 ah bh) (.binOp .uLt .i32 (.binOp .add .i32 al bl) al))
      ((x + y) % 2 ^ 64) := by
  obtain ⟨hal, -, l, h, hl, hh, rfl⟩ := ha
  obtain ⟨-, -, l', h', hl', hh', rfl⟩ := hb
  have hlow := eval_add hl hl'
  have hcarry := eval_uLt (s := .binOp .add .i32 al bl) rfl hlow hl
  exact ⟨rfl, rfl, _, _, hlow, eval_add (eval_add hh hh') hcarry, halves_add l h l' h'⟩

theorem Halves.shiftLeft {al ah : Node} (ha : Halves env al ah x) {k : ℕ} (hk : 0 < k)
    (hlt : k < 32) :
    Halves env (.binOp .shl .i32 al (.cInt .i32 k))
      (.binOp .or .i32 (.binOp .shl .i32 ah (.cInt .i32 k))
        (.binOp .uShr .i32 al (.cInt .i32 (32 - k : ℕ)))) (x * 2 ^ k % 2 ^ 64) := by
  obtain ⟨-, -, l, h, hl, hh, rfl⟩ := ha
  exact ⟨rfl, rfl, _, _, eval_shl hl hlt, eval_or (eval_shl hh hlt) (eval_uShr hl (by omega)),
    halves_shiftLeft l h hlt.le⟩

theorem Halves.lt (h : Halves env lo hi x) : x < 2 ^ 64 := by
  obtain ⟨-, -, l, h, -, -, rfl⟩ := h
  exact halves_lt l h

theorem Halves.scaled {al ah : Node} {v k : ℕ} (ha : Halves env al ah v) (hlt : k < 32)
    (h : k = 0 ∧ lo = al ∧ hi = ah ∨
      0 < k ∧ lo = .binOp .shl .i32 al (.cInt .i32 k) ∧
        hi = .binOp .or .i32 (.binOp .shl .i32 ah (.cInt .i32 k))
          (.binOp .uShr .i32 al (.cInt .i32 (32 - k : ℕ))))
    (hx : x = v * 2 ^ k % 2 ^ 64) : Halves env lo hi x := by
  obtain ⟨rfl, rfl, rfl⟩ | ⟨hpos, rfl, rfl⟩ := h
  · rw [hx, pow_zero, mul_one, Nat.mod_eq_of_lt ha.lt]
    exact ha
  · exact hx ▸ ha.shiftLeft hpos hlt

end Kinds

/-! ### Strides -/

theorem eq_zero_of_countOnes {bits n : ℕ} (h : countOnes bits n = 0) (hn : n < 2 ^ bits) :
    n = 0 := by
  induction bits generalizing n with
  | zero => exact Nat.lt_one_iff.1 hn
  | succ bits ih =>
    rw [countOnes] at h
    rw [pow_succ] at hn
    have hhalf : n / 2 = 0 := ih (by omega) (by omega)
    omega

/-- A number with one bit set is the power of two of its trailing zeros. -/
theorem eq_two_pow_of_countOnes {bits n : ℕ} (h : countOnes bits n = 1) (hn : n < 2 ^ bits) :
    n = 2 ^ countTrailingZeros bits n := by
  induction bits generalizing n with
  | zero => exact absurd h Nat.zero_ne_one
  | succ bits ih =>
    rw [countOnes] at h
    rw [pow_succ] at hn
    rw [countTrailingZeros]
    split_ifs with hodd
    · have hrest : n / 2 = 0 := @eq_zero_of_countOnes bits _ (by omega) (by omega)
      omega
    · have hrest : n / 2 = 2 ^ countTrailingZeros bits (n / 2) := ih (by omega) (by omega)
      rw [pow_add, ← hrest]
      omega

theorem u64_of_strideAmount {value : ℤ} {k : ℕ} (h : strideAmount .mul value = some k) :
    u64 value = 2 ^ k := by
  rw [strideAmount, if_pos rfl, Option.ite_none_right_eq_some] at h
  obtain ⟨hones, hzeros⟩ := h
  rw [← Option.some.inj hzeros]
  exact eq_two_pow_of_countOnes hones (unsigned_lt 64 value)

/-- A constant of less than its width is the same in all the widths. -/
theorem unsigned_of_u64 {w n : ℕ} {value : ℤ} (hw : w ≤ 64) (h : u64 value = n) (hn : n < 2 ^ w) :
    unsigned w value = n := by
  rw [← unsigned_mod hw, show unsigned 64 value = n from h, Nat.mod_eq_of_lt hn]

theorem machine_add {v v' : ℕ} (hv : v < 2 ^ 64) (hv' : v' < 2 ^ 64) :
    (machine .add 64 v v').map (fun x => unsigned 64 x) = some ((v + v') % 2 ^ 64) := by
  rw [machine, Option.map_some, unsigned_toInt, BitVec.toNat_add, ofInt_natCast_toNat hv,
    ofInt_natCast_toNat hv']

theorem machine_mul {v k : ℕ} (hv : v < 2 ^ 64) (hk : k < 32) :
    (machine .mul 64 v (2 ^ k : ℕ)).map (fun x => unsigned 64 x) = some (v * 2 ^ k % 2 ^ 64) := by
  have hpow : 2 ^ k < 2 ^ 64 := Nat.pow_lt_pow_right (by decide) (by omega)
  rw [machine, Option.map_some, unsigned_toInt, BitVec.toNat_mul, ofInt_natCast_toNat hv,
    ofInt_natCast_toNat hpow]

theorem machine_shl {v k : ℕ} (hv : v < 2 ^ 64) (hk : k < 32) :
    (machine .shl 64 v k).map (fun x => unsigned 64 x) = some (v * 2 ^ k % 2 ^ 64) := by
  rw [machine, if_pos (by omega), Int.toNat_natCast, Option.map_some, unsigned_toInt,
    BitVec.toNat_shiftLeft, ofInt_natCast_toNat hv, Nat.shiftLeft_eq]

theorem eval_binOp_inv {env : Env} {op : BinOp} {a b : Node} {x : ℕ}
    (hop : op.isComparison = false) (hx : eval env (.binOp op .i64 a b) = some x) :
    ∃ v v', eval env a = some v ∧ eval env b = some v' ∧
      (machine op 64 v v').map (fun x => unsigned 64 x) = some x := by
  have hbits : opBits op .i64 a = 64 := by rw [opBits, hop]; rfl
  rw [eval] at hx
  split at hx
  · rename_i v v' hv hv'
    rw [hbits] at hx
    exact ⟨v, v', hv, hv', hx⟩
  · exact absurd hx (Option.some_ne_none x).symm

/-- The value of a scaled address. -/
theorem eval_scaled {env : Env} {op : BinOp} {a : Node} {dt : Datatype} {value : ℤ} {k x : ℕ}
    (hop : op = .mul ∧ (dt = .i64 ∨ dt = .i32) ∨ op = .shl ∧ dt.isInt = true)
    (hk : strideAmount op value = some k) (hlt : k < 32)
    (hx : eval env (.binOp op .i64 a (.cInt dt value)) = some x) :
    ∃ v, eval env a = some v ∧ (v < 2 ^ 64 → x = v * 2 ^ k % 2 ^ 64) := by
  have hcomparison : op.isComparison = false := by
    obtain ⟨rfl, -⟩ | ⟨rfl, -⟩ := hop <;> rfl
  obtain ⟨v, v', hv, hv', hx⟩ := eval_binOp_inv hcomparison hx
  obtain rfl := Option.some.inj hv'
  refine ⟨v, hv, fun hlt64 => ?_⟩
  obtain ⟨rfl, hdt⟩ | ⟨rfl, hdt⟩ := hop
  · have hcount : unsigned dt.bits value = 2 ^ k := by
      have hpow : 2 ^ k < 2 ^ 32 := Nat.pow_lt_pow_right (by decide) hlt
      obtain rfl | rfl := hdt
      · exact unsigned_of_u64 le_rfl (u64_of_strideAmount hk) (hpow.trans (by decide))
      · exact unsigned_of_u64 (by decide) (u64_of_strideAmount hk) hpow
    rw [hcount] at hx
    exact Option.some.inj (hx.symm.trans (machine_mul hlt64 hlt))
  · have hcount : unsigned dt.bits value = k := by
      have hbits : 2 ^ 8 ≤ 2 ^ dt.bits := by
        obtain rfl | rfl | rfl | rfl := Datatype.isInt_cases hdt <;> decide
      exact unsigned_of_u64 (Datatype.bits_le hdt) (Option.some.inj hk)
        (lt_of_lt_of_le (by omega) hbits)
    rw [hcount] at hx
    exact Option.some.inj (hx.symm.trans (machine_shl hlt64 hlt))

/-! ### The lowering is exact -/

section Exact

variable {env : Env} {a b lo hi : Node}

theorem binOp_dt_ne (op : BinOp) : (Node.binOp op .i64 a b).dt ≠ .i32 := Datatype.noConfusion

theorem splitAddress_word {n : Node} (hdt : n.dt = .i32) (h : splitAddress n = some (lo, hi)) :
    lo = n ∧ hi = .cInt .i32 0 := by
  unfold splitAddress at h
  rw [if_pos hdt] at h
  exact Prod.mk.inj (Option.some.inj h) |>.imp Eq.symm Eq.symm

theorem splitAddress_add (h : splitAddress (.binOp .add .i64 a b) = some (lo, hi)) :
    ∃ al ah bl bh, splitAddress a = some (al, ah) ∧ splitAddress b = some (bl, bh) ∧
      lo = .binOp .add .i32 al bl ∧
      hi = .binOp .add .i32 (.binOp .add .i32 ah bh)
        (.binOp .uLt .i32 (.binOp .add .i32 al bl) al) := by
  rw [splitAddress, if_neg (binOp_dt_ne .add)] at h
  obtain ⟨⟨al, ah⟩, hal, h⟩ := Option.bind_eq_some_iff.1 h
  obtain ⟨⟨bl, bh⟩, hbl, h⟩ := Option.bind_eq_some_iff.1 h
  obtain ⟨rfl, rfl⟩ := Prod.mk.inj (Option.some.inj h)
  exact ⟨al, ah, bl, bh, hal, hbl, rfl, rfl⟩

/-- The halves of a scaled address: shifted, or as they are for the stride of one. -/
theorem splitAddress_scaled {op : BinOp} (hop : op = .mul ∨ op = .shl)
    (h : splitAddress (.binOp op .i64 a b) = some (lo, hi)) :
    ∃ dt value al ah k, b = .cInt dt value ∧ splitAddress a = some (al, ah) ∧
      strideAmount op value = some k ∧ k < 32 ∧
      (k = 0 ∧ lo = al ∧ hi = ah ∨
        0 < k ∧ lo = .binOp .shl .i32 al (.cInt .i32 k) ∧
          hi = .binOp .or .i32 (.binOp .shl .i32 ah (.cInt .i32 k))
            (.binOp .uShr .i32 al (.cInt .i32 (32 - k : ℕ)))) := by
  have hne : op ≠ .add := by
    rintro rfl
    obtain hop | hop := hop <;> exact BinOp.noConfusion hop
  cases b with
  | cInt dt value =>
    rw [splitAddress, if_neg (binOp_dt_ne op), if_pos hop] at h
    · obtain ⟨⟨al, ah⟩, hal, h⟩ := Option.bind_eq_some_iff.1 h
      obtain ⟨k, hk, h⟩ := Option.bind_eq_some_iff.1 h
      rw [Option.ite_none_right_eq_some] at h
      obtain ⟨hlt, h⟩ := h
      refine ⟨dt, value, al, ah, k, rfl, hal, hk, hlt, ?_⟩
      split_ifs at h with hzero
      · obtain ⟨rfl, rfl⟩ := Prod.mk.inj (Option.some.inj h)
        exact Or.inl ⟨hzero, rfl, rfl⟩
      · obtain ⟨rfl, rfl⟩ := Prod.mk.inj (Option.some.inj h)
        exact Or.inr ⟨Nat.pos_of_ne_zero hzero, rfl, rfl⟩
    · exact hne
  | _ =>
    obtain rfl | rfl := hop
    · exact absurd h (Option.some_ne_none _).symm
    · exact absurd h (Option.some_ne_none _).symm

/-- **The two halves are the address**, for every expression that the lowering accepts and all
run-time values. -/
theorem splitAddress_exact {id : Node} {x : ℕ} (hid : Address id)
    (h : splitAddress id = some (lo, hi)) (hx : eval env id = some x) : Halves env lo hi x := by
  induction hid generalizing lo hi x with
  | word hdt =>
    obtain ⟨rfl, rfl⟩ := splitAddress_word hdt h
    exact Halves.word hdt hx
  | cInt value =>
    rw [splitAddress, if_neg (show Node.dt _ ≠ _ from Datatype.noConfusion)] at h
    obtain ⟨rfl, rfl⟩ := Prod.mk.inj (Option.some.inj h)
    rw [eval, show Datatype.i64.bits = 64 from rfl] at hx
    rw [← Option.some.inj hx]
    exact Halves.cInt value
  | load addr =>
    cases addr with
    | uniformAddr param idx =>
      obtain ⟨lo, hlo, h⟩ := Option.bind_eq_some_iff.1 h
      obtain ⟨hi, hhi, h⟩ := Option.bind_eq_some_iff.1 h
      obtain ⟨rfl, rfl⟩ := Prod.mk.inj (Option.some.inj h)
      obtain rfl := Option.some.inj hx
      exact Halves.uniform hlo hhi
    | _ => exact absurd h (Option.some_ne_none _).symm
  | conv arg =>
    obtain ⟨hdt, h⟩ := Option.ite_none_right_eq_some.1 h
    obtain ⟨rfl, rfl⟩ := Prod.mk.inj (Option.some.inj h)
    obtain ⟨v, hv, rfl⟩ := Option.map_eq_some_iff.1 hx
    rw [hdt, show Datatype.i64.bits = 64 from rfl, show Datatype.i32.bits = 32 from rfl]
    exact Halves.conv hdt hv
  | uConv arg =>
    obtain ⟨hdt, h⟩ := Option.ite_none_right_eq_some.1 h
    obtain ⟨rfl, rfl⟩ := Prod.mk.inj (Option.some.inj h)
    obtain ⟨v, hv, rfl⟩ := Option.map_eq_some_iff.1 hx
    have hword := Halves.word hdt hv
    rwa [show v % 2 ^ Datatype.i64.bits = v from Nat.mod_eq_of_lt hword.lt]
  | add _ _ iha ihb =>
    obtain ⟨al, ah, bl, bh, hal, hbl, rfl, rfl⟩ := splitAddress_add h
    obtain ⟨v, v', hv, hv', hx⟩ := eval_binOp_inv rfl hx
    have ha := iha hal hv
    have hb := ihb hbl hv'
    rw [← Option.some.inj ((machine_add ha.lt hb.lt).symm.trans hx)]
    exact ha.add hb
  | mul _ hdt iha =>
    obtain ⟨dt, value, al, ah, k, rfl, hal, hk, hlt, hhalves⟩ := splitAddress_scaled (.inl rfl) h
    obtain ⟨v, hv, hvalue⟩ := eval_scaled (.inl ⟨rfl, hdt⟩) hk hlt hx
    exact (iha hal hv).scaled hlt hhalves (hvalue (iha hal hv).lt)
  | shl _ hdt iha =>
    obtain ⟨dt, value, al, ah, k, rfl, hal, hk, hlt, hhalves⟩ := splitAddress_scaled (.inr rfl) h
    obtain ⟨v, hv, hvalue⟩ := eval_scaled (.inr ⟨rfl, hdt⟩) hk hlt hx
    exact (iha hal hv).scaled hlt hhalves (hvalue (iha hal hv).lt)

/-- `base[i]` for a base from a uniform and a signed index, as the front end builds it. -/
def indexedUniform : Node :=
  .binOp .add .i64 (.load .i64 (.uniformAddr 0 8))
    (.binOp .mul .i64 (.conv .i64 (.given 0 .i32)) (.cInt .i64 4))

/-- All the bytes of the uniforms are `0xff`, and the index is `-3`. -/
def indexedEnv : Env := ⟨fun _ => 2 ^ 32 - 3, fun _ => 0, fun _ _ => 0xff⟩

theorem splitAddress_exact_indexed : ∃ lo hi, splitAddress indexedUniform = some (lo, hi) ∧
    Halves indexedEnv lo hi (2 ^ 64 - 13) :=
  ⟨_, _, rfl, @splitAddress_exact indexedEnv _ _ indexedUniform _
    (.add (.load _) (.mul (.conv _) (.inl rfl))) rfl (by decide)⟩

end Exact

end OdinSon.Xelp
