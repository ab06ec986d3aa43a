import OdinSon.Lib.ByteMemory
import OdinSon.Ssa.FoldBinOp

/-!
# Stores and loads of any size

`add_arbitrary_store` and `add_arbitrary_load` (`bac/ssa/ssa.odin`) move the low bytes of a register
that are not a power of two in pieces.  The nodes that they add are terms here (`Term`), with the
meaning that the operators have on registers and on a memory of bytes (`eval`).

`arbitrary_inverse` says that the pieces are the same on both sides, that they tile the bytes, and that
what is loaded is what was stored.
-/

namespace OdinSon.Arbitrary

open Lib MachInt

/-- A node under construction: `nil` is the node `0`, `given` one of the caller's. -/
inductive Term where
  | nil
  | given (i : ℕ) (dt : Datatype)
  | cInt (dt : Datatype) (value : ℤ)
  | binOp (op : BinOp) (dt : Datatype) (lhs rhs : Term)
  | uConv (dt : Datatype) (arg : Term)
  | load (dt : Datatype) (ctrl mem addr : Term)
  | store (ctrl mem addr value : Term)
  deriving DecidableEq

/-- The datatype of the node. -/
def Term.dt : Term → Datatype
  | nil => .void
  | given _ dt | cInt dt _ | binOp _ dt _ _ | uConv dt _ | load dt _ _ _ => dt
  | store .. => .mem

/-! ### The builder -/

section Build

-- `is_always_valid_ptr`
variable (alwaysValid : Term → Bool)

/-- `add_field_offset`. -/
def addFieldOffset (base : Term) (offset : ℤ) : Term :=
  if offset = 0 then base else .binOp .add .i64 base (.cInt .i64 offset)

/-- `add_store`. -/
def addStore (ctrl mem addr value : Term) : Term :=
  .store (if alwaysValid addr then .nil else ctrl) mem addr value

/-- `add_load`. -/
def addLoad (dt : Datatype) (ctrl mem addr : Term) : Term :=
  .load dt (if alwaysValid addr then .nil else ctrl) mem addr

/-- `add_field_store`. -/
def addFieldStore (cfg mem base : Term) (offset : ℤ) (value : Term) : Term :=
  addStore alwaysValid cfg mem (addFieldOffset base offset) value

/-- `add_field_load`. -/
def addFieldLoad (dt : Datatype) (cfg mem base : Term) (offset : ℤ) : Term :=
  addLoad alwaysValid dt cfg mem (addFieldOffset base offset)

/-- `Node_Datatype(u8(dt) - 1)`. -/
def prevDatatype : Datatype → Datatype
  | .void | .mem => .void
  | .i8 => .mem
  | .i16 => .i8
  | .i32 => .i16
  | .i64 => .i32
  | .f32 => .i64
  | .f64 => .f32
  | .v128 => .f64
  | .v256 => .v128
  | .v512 => .v256

/-- The inner loop of the store, at `offset`: down to a unit that fits.  Nothing where the assertion
fails. -/
def storeUnit (size : ℤ) (offset : ℕ) : ℕ → Datatype → Option Datatype
  | 0, _ => none
  | fuel + 1, unit =>
    if size < unit.size + offset then
      let unit := prevDatatype unit
      if unit ≠ .void then storeUnit size offset fuel unit else none
    else some unit

/-- The outer loop of the store. -/
def storeLoop (cfg addr rvalue : Term) (extraOffset size : ℤ) :
    ℕ → Datatype → ℕ → Term → Option Term
  | 0, _, _, _ => none
  | fuel + 1, unit, offset, omem =>
    if (offset : ℤ) < size then do
      let unit ← storeUnit size offset 11 unit
      let value := .uConv unit (.binOp .uShr .i64 rvalue (.cInt .i64 (offset * 8)))
      let omem := addFieldStore alwaysValid cfg omem addr (offset + extraOffset) value
      storeLoop cfg addr rvalue extraOffset size fuel unit (offset + unit.size) omem
    else some omem

/-- `add_arbitrary_store`: a round of the loop for each byte is enough. -/
def addArbitraryStore (cfg mem addr rvalue : Term) (rsize extraOffset : ℤ) (unit : Datatype) :
    Option Term :=
  let size := min (rsize - extraOffset) unit.size
  if unit.size = size then some (addFieldStore alwaysValid cfg mem addr extraOffset rvalue)
  else storeLoop alwaysValid cfg addr rvalue extraOffset size (size.toNat + 1) unit 0 mem

/-- The inner loop of the load, at `offset`. -/
@[grind =] def loadUnit (size : ℤ) (offset : ℕ) : ℕ → Datatype → Option Datatype
  | 0, _ => none
  | fuel + 1, unit =>
    if size < unit.size + offset then
      if unit.isFloat then none
      else
        let unit := prevDatatype unit
        if unit ≠ .void then loadUnit size offset fuel unit else none
    else some unit

/-- The outer loop of the load. -/
def loadLoop (cfg mem addr : Term) (extraOffset size : ℤ) (unit : Datatype) :
    ℕ → Datatype → ℕ → Term → Option Term
  | 0, _, _, _ => none
  | fuel + 1, loadUnit_, offset, value =>
    if (offset : ℤ) < size then do
      let loadUnit_ ← loadUnit size offset 11 loadUnit_
      let load := addFieldLoad alwaysValid loadUnit_ cfg mem addr (offset + extraOffset)
      let load := if loadUnit_ ≠ unit then .uConv unit load else load
      if value = .nil then
        -- the assertion that this is the first piece
        if offset = 0 then
          loadLoop cfg mem addr extraOffset size unit fuel loadUnit_ (offset + loadUnit_.size) load
        else none
      else
        let value := .binOp .or .i64 value (.binOp .shl .i64 load (.cInt .i64 (offset * 8)))
        loadLoop cfg mem addr extraOffset size unit fuel loadUnit_ (offset + loadUnit_.size) value
    else some value

/-- `add_arbitrary_load`. -/
def addArbitraryLoad (cfg mem addr : Term) (rsize extraOffset : ℤ) (unit : Datatype) :
    Option Term :=
  let size := min (rsize - extraOffset) unit.size
  if unit.isFloat then some (addFieldLoad alwaysValid unit cfg mem addr extraOffset)
  else loadLoop alwaysValid cfg mem addr extraOffset size unit (size.toNat + 1) unit 0 .nil

end Build

/-! ### What the nodes mean -/

/-- A register, by the unsigned number in it, or a memory. -/
inductive Value where
  | word (x : ℕ)
  | mem (m : BitVec 64 → BitVec 8)

/-- The value of a node, from those of the caller's nodes. -/
@[grind =] def eval (env : ℕ → Option Value) : Term → Option Value
  | .nil => none
  | .given i _ => env i
  | .cInt dt value => some (.word (unsigned dt.bits value))
  | .binOp op dt lhs rhs =>
    match eval env lhs, eval env rhs with
    | some (.word a), some (.word b) =>
      (machine op dt.bits a b).map fun x => .word (unsigned dt.bits x)
    | _, _ => none
  | .uConv dt arg =>
    match eval env arg with
    | some (.word a) => some (.word (a % 2 ^ dt.bits))
    | _ => none
  | .load dt _ mem addr =>
    match eval env mem, eval env addr with
    | some (.mem m), some (.word a) => some (.word (loadBytes m (BitVec.ofNat 64 a) dt.size))
    | _, _ => none
  | .store _ mem addr value =>
    match eval env mem, eval env addr, eval env value with
    | some (.mem m), some (.word a), some (.word v) =>
      some (.mem (storeBytes m (BitVec.ofNat 64 a) value.dt.size v))
    | _, _, _ => none

/-- The places and sizes that the stores of a memory write, the first one first. -/
def stores : Term → List (Term × ℕ)
  | .store _ mem addr value => stores mem ++ [(addr, value.dt.size)]
  | _ => []

/-- The places and sizes that a value is loaded from. -/
def loads : Term → List (Term × ℕ)
  | .binOp _ _ lhs rhs => loads lhs ++ loads rhs
  | .uConv _ arg => loads arg
  | .load dt _ _ addr => [(addr, dt.size)]
  | _ => []

/-- The pieces follow each other from `start` on and have `size` bytes together. -/
def Tiles (env : ℕ → Option Value) : BitVec 64 → ℕ → List (Term × ℕ) → Prop
  | _, size, [] => size = 0
  | start, size, (addr, n) :: pieces =>
    eval env addr = some (.word start.toNat) ∧ 0 < n ∧ n ≤ size ∧
      Tiles env (start + BitVec.ofNat 64 n) (size - n) pieces

/-! ### The operators on words -/

section Words

variable {env : ℕ → Option Value} {s t : Term} {x y : ℕ}

theorem eval_binOp {op : BinOp} {z : BitVec 64} (hs : eval env s = some (.word x))
    (ht : eval env t = some (.word y)) (h : machine op 64 x y = some z.toInt) :
    eval env (.binOp op .i64 s t) = some (.word z.toNat) := by
  rw [eval, hs, ht]
  dsimp only
  rw [show Datatype.i64.bits = 64 from rfl, h, Option.map_some, unsigned_toInt]

theorem eval_cInt {n : ℕ} (h : n < 2 ^ 64) : eval env (.cInt .i64 n) = some (.word n) := by
  rw [eval, show Datatype.i64.bits = 64 from rfl, unsigned_natCast h]

/-- `U_Shr` by whole bytes. -/
theorem eval_uShr (hs : eval env s = some (.word x)) (hx : x < 2 ^ 64) {offset : ℕ} (ho : offset < 8) :
    eval env (.binOp .uShr .i64 s (.cInt .i64 (offset * 8))) = some (.word (x / 256 ^ offset)) := by
  have hcount : eval env (.cInt .i64 (offset * 8)) = some (.word (offset * 8)) := by
    exact_mod_cast @eval_cInt env (offset * 8) (by omega)
  have hmachine : machine .uShr 64 x (offset * 8 : ℕ) =
      some (BitVec.ofInt 64 x >>> (offset * 8)).toInt := by
    simp only [machine, Int.toNat_natCast]
    rw [if_pos (by omega)]
  rw [eval_binOp hs hcount hmachine, BitVec.toNat_ushiftRight, ofInt_natCast_toNat hx,
    Nat.shiftRight_eq_div_pow, mul_comm offset, pow_mul]
  rfl

/-- `Shl` by whole bytes, of what fits there. -/
theorem eval_shl (hs : eval env s = some (.word x)) {offset n : ℕ} (hx : x < 256 ^ n)
    (ho : offset < 8) (hn : offset + n ≤ 8) :
    eval env (.binOp .shl .i64 s (.cInt .i64 (offset * 8))) = some (.word (256 ^ offset * x)) := by
  have hcount : eval env (.cInt .i64 (offset * 8)) = some (.word (offset * 8)) := by
    exact_mod_cast @eval_cInt env (offset * 8) (by omega)
  have hmul : 256 ^ offset * x < 2 ^ 64 := by
    calc 256 ^ offset * x < 256 ^ offset * 256 ^ n := Nat.mul_lt_mul_of_pos_left hx (by positivity)
      _ = 256 ^ (offset + n) := (pow_add _ _ _).symm
      _ ≤ 256 ^ 8 := Nat.pow_le_pow_right (by decide) hn
  have hle : x ≤ 256 ^ offset * x := Nat.le_mul_of_pos_left x (by positivity)
  have hmachine : machine .shl 64 x (offset * 8 : ℕ) =
      some (BitVec.ofInt 64 x <<< (offset * 8)).toInt := by
    simp only [machine, Int.toNat_natCast]
    rw [if_pos (by omega)]
  rw [eval_binOp hs hcount hmachine, BitVec.toNat_shiftLeft,
    ofInt_natCast_toNat (hle.trans_lt hmul), Nat.shiftLeft_eq, mul_comm offset, pow_mul, mul_comm x]
  exact congrArg (some ∘ Value.word) (Nat.mod_eq_of_lt hmul)

/-- `Or` of numbers in different bytes. -/
theorem eval_or (hs : eval env s = some (.word x)) {offset n : ℕ} (hx : x < 256 ^ offset)
    (hn : offset + n ≤ 8) (hy : y < 256 ^ n) (ht : eval env t = some (.word (256 ^ offset * y))) :
    eval env (.binOp .or .i64 s t) = some (.word (x + 256 ^ offset * y)) := by
  have hsum : x + 256 ^ offset * y < 2 ^ 64 := by
    have hmul := Nat.mul_le_mul_left (256 ^ offset) (Nat.le_pred_of_lt hy)
    calc x + 256 ^ offset * y < 256 ^ offset + 256 ^ offset * y := Nat.add_lt_add_right hx _
      _ = 256 ^ offset * (y + 1) := by ring
      _ ≤ 256 ^ offset * 256 ^ n := Nat.mul_le_mul_left _ hy
      _ = 256 ^ (offset + n) := (pow_add _ _ _).symm
      _ ≤ 256 ^ 8 := Nat.pow_le_pow_right (by decide) hn
  have hor : x ||| 256 ^ offset * y = x + 256 ^ offset * y := by
    have hpow : (256 : ℕ) ^ offset = 2 ^ (8 * offset) := (pow_mul 2 8 offset).symm
    rw [Nat.or_comm, hpow, ← Nat.two_pow_add_eq_or_of_lt (hpow ▸ hx), Nat.add_comm]
  rw [eval_binOp (z := BitVec.ofInt 64 x ||| BitVec.ofInt 64 (256 ^ offset * y : ℕ)) hs ht rfl,
    BitVec.toNat_or, ofInt_natCast_toNat (by omega), ofInt_natCast_toNat (by omega), hor]

theorem eval_uConv {dt : Datatype} (hs : eval env s = some (.word x)) :
    eval env (.uConv dt s) = some (.word (x % 2 ^ dt.bits)) := by
  rw [eval, hs]

/-- A place in an area. -/
theorem eval_addFieldOffset {a : BitVec 64} (hs : eval env s = some (.word a.toNat)) (offset : ℤ) :
    eval env (addFieldOffset s offset) = some (.word (a + BitVec.ofInt 64 offset).toNat) := by
  rw [addFieldOffset]
  split_ifs with h
  · rw [h, hs, show BitVec.ofInt 64 0 = 0#64 from rfl, BitVec.add_zero]
  · refine eval_binOp hs rfl ?_
    have ha : BitVec.ofInt 64 a.toNat = a := by
      rw [BitVec.ofInt_natCast, BitVec.ofNat_toNat, BitVec.setWidth_eq]
    have hoffset : BitVec.ofInt 64 (unsigned Datatype.i64.bits offset) = BitVec.ofInt 64 offset := by
      apply BitVec.eq_of_toNat_eq
      rw [ofInt_toNat, ofInt_toNat, ← unsigned_wrap le_rfl, show Datatype.i64.bits = 64 from rfl,
        wrap_unsigned, unsigned_wrap le_rfl]
    rw [machine, ha, hoffset]

end Words

/-! ### The pieces -/

/-- A unit that fits at `offset`, for both loops. -/
structure Fits (size : ℤ) (offset fuel : ℕ) (unit fit : Datatype) : Prop where
  store : storeUnit size offset fuel unit = some fit
  load : loadUnit size offset fuel unit = some fit
  isInt : fit.isInt = true
  le : (fit.size + offset : ℤ) ≤ size

theorem Fits.here {size : ℤ} {offset fuel : ℕ} {unit : Datatype} (hunit : unit.isInt = true)
    (h : (unit.size + offset : ℤ) ≤ size) : Fits size offset (fuel + 1) unit unit := by
  refine ⟨?_, ?_, hunit, h⟩
  · rw [storeUnit, if_neg (not_lt.2 h)]
  · rw [loadUnit, if_neg (not_lt.2 h)]

theorem Fits.below {size : ℤ} {offset fuel : ℕ} {unit fit : Datatype} (hunit : unit.isInt = true)
    (hne : prevDatatype unit ≠ .void) (h : size < unit.size + offset)
    (hfit : Fits size offset fuel (prevDatatype unit) fit) : Fits size offset (fuel + 1) unit fit := by
  refine ⟨?_, ?_, hfit.isInt, hfit.le⟩
  · rw [storeUnit, if_pos h]
    exact (if_pos hne).trans hfit.store
  · rw [loadUnit, if_pos h, if_neg (by rw [Datatype.not_isFloat hunit]; exact Bool.false_ne_true)]
    exact (if_pos hne).trans hfit.load

/-- While there are bytes left, the search ends with a unit for them. -/
theorem exists_fits {size : ℤ} {offset : ℕ} (h : (offset : ℤ) < size) {unit : Datatype}
    (hunit : unit.isInt = true) : ∃ fit, Fits size offset 11 unit fit := by
  have hone (fuel : ℕ) : ∃ fit, Fits size offset (fuel + 1) .i8 fit :=
    ⟨_, .here rfl (by rw [show Datatype.i8.size = 1 from rfl]; omega)⟩
  have hnext {fuel : ℕ} {unit : Datatype} (hunit : unit.isInt = true)
      (hne : prevDatatype unit ≠ .void)
      (hprev : ∃ fit, Fits size offset fuel (prevDatatype unit) fit) :
      ∃ fit, Fits size offset (fuel + 1) unit fit := by
    by_cases hle : (unit.size + offset : ℤ) ≤ size
    · exact ⟨unit, .here hunit hle⟩
    · exact hprev.imp fun fit hfit => .below hunit hne (not_le.1 hle) hfit
  have htwo (fuel : ℕ) := @hnext (fuel + 1) .i16 rfl (by decide) (hone fuel)
  have hfour (fuel : ℕ) := @hnext (fuel + 2) .i32 rfl (by decide) (htwo fuel)
  have height (fuel : ℕ) := @hnext (fuel + 3) .i64 rfl (by decide) (hfour fuel)
  obtain rfl | rfl | rfl | rfl := Datatype.isInt_cases hunit
  · exact hone 10
  · exact htwo 9
  · exact hfour 8
  · exact height 7

/-- The pieces from `offset` on, by their offsets and units. -/
def pieces (size : ℤ) : ℕ → Datatype → ℕ → List (ℕ × Datatype)
  | 0, _, _ => []
  | fuel + 1, unit, offset =>
    if (offset : ℤ) < size then
      match storeUnit size offset 11 unit with
      | some unit => (offset, unit) :: pieces size fuel unit (offset + unit.size)
      | none => []
    else []

/-- The place of a piece in an area. -/
def place (addr : Term) (extraOffset : ℤ) (piece : ℕ × Datatype) : Term × ℕ :=
  (addFieldOffset addr (piece.1 + extraOffset), piece.2.size)

theorem size_pos {dt : Datatype} (h : dt.isInt = true) : 0 < dt.size := by
  obtain rfl | rfl | rfl | rfl := Datatype.isInt_cases h <;> decide

theorem two_pow_bits (dt : Datatype) : 2 ^ dt.bits = 256 ^ dt.size := by
  rw [Datatype.bits, mul_comm, pow_mul]
  rfl

section Loops

variable {alwaysValid : Term → Bool} {env : ℕ → Option Value} {cfg addr rvalue : Term}
  {a : BitVec 64} {v : ℕ} {extraOffset size : ℤ}

/-- The start of the bytes. -/
def start (a : BitVec 64) (extraOffset : ℤ) : BitVec 64 := a + BitVec.ofInt 64 extraOffset

theorem eval_place (haddr : eval env addr = some (.word a.toNat)) (piece : ℕ × Datatype) :
    eval env (place addr extraOffset piece).1 =
      some (.word (start a extraOffset + BitVec.ofNat 64 piece.1).toNat) := by
  rw [place, eval_addFieldOffset haddr, start, BitVec.ofInt_add, BitVec.ofInt_natCast,
    BitVec.add_comm (BitVec.ofNat 64 _), BitVec.add_assoc]

theorem pieces_tile (haddr : eval env addr = some (.word a.toNat)) {fuel offset : ℕ}
    {unit : Datatype} (hunit : unit.isInt = true) (hle : (offset : ℤ) ≤ size)
    (hfuel : size < offset + fuel) :
    Tiles env (start a extraOffset + BitVec.ofNat 64 offset) (size.toNat - offset)
      ((pieces size fuel unit offset).map (place addr extraOffset)) := by
  induction fuel generalizing unit offset with
  | zero => omega
  | succ fuel ih =>
    rw [pieces]
    split_ifs with hlt
    · obtain ⟨fit, hfit⟩ := exists_fits hlt hunit
      have hpos := size_pos hfit.isInt
      have hfits := hfit.le
      rw [hfit.store]
      refine ⟨eval_place haddr (offset, fit), hpos, ?_, ?_⟩
      · dsimp only
        omega
      · have hrest := @ih (offset + fit.size) fit hfit.isInt (by push_cast; omega)
          (by push_cast; omega)
        rw [BitVec.add_assoc, ← BitVec.ofNat_add, Nat.sub_sub]
        exact hrest
    · exact Nat.sub_eq_zero_of_le (by omega)

/-- The stores from `offset` on. -/
theorem storeLoop_spec (haddr : eval env addr = some (.word a.toNat))
    (hvalue : eval env rvalue = some (.word v)) (hv : v < 2 ^ 64) (hsize : size ≤ 8) {fuel offset : ℕ}
    {unit : Datatype} (hunit : unit.isInt = true) (hle : (offset : ℤ) ≤ size)
    (hfuel : size < offset + fuel) {omem : Term} {m : BitVec 64 → BitVec 8}
    (hmem : eval env omem = some (.mem (storeBytes m (start a extraOffset) offset v))) :
    ∃ st, storeLoop alwaysValid cfg addr rvalue extraOffset size fuel unit offset omem = some st ∧
      eval env st = some (.mem (storeBytes m (start a extraOffset) size.toNat v)) ∧
      stores st = stores omem ++ (pieces size fuel unit offset).map (place addr extraOffset) := by
  induction fuel generalizing unit offset omem with
  | zero => omega
  | succ fuel ih =>
    rw [storeLoop, pieces]
    split_ifs with hlt
    · obtain ⟨fit, hfit⟩ := exists_fits hlt hunit
      have hpos := size_pos hfit.isInt
      have hfits := hfit.le
      rw [hfit.store]
      dsimp only [Option.bind_eq_bind, Option.bind_some]
      have hshr := @eval_uShr env rvalue v hvalue hv offset (by omega)
      have hpiece := @eval_uConv env _ _ fit hshr
      rw [two_pow_bits] at hpiece
      have hplace := @eval_place env addr a extraOffset haddr (offset, fit)
      have hstored : eval env (addFieldStore alwaysValid cfg omem addr (offset + extraOffset)
          (.uConv fit (.binOp .uShr .i64 rvalue (.cInt .i64 (offset * 8))))) =
          some (.mem (storeBytes m (start a extraOffset) (offset + fit.size) v)) := by
        rw [addFieldStore, addStore, eval, hmem, hpiece]
        rw [place] at hplace
        rw [hplace]
        dsimp only [Term.dt]
        rw [BitVec.ofNat_toNat, BitVec.setWidth_eq, storeBytes_mod,
          storeBytes_add (by omega)]
      obtain ⟨st, hst, heval, hstores⟩ := ih hfit.isInt (by push_cast; omega) (by push_cast; omega)
        hstored
      refine ⟨st, hst, heval, ?_⟩
      rw [hstores, addFieldStore, addStore, stores, List.append_assoc]
      rfl
    · have hoffset : offset = size.toNat := by omega
      refine ⟨omem, rfl, hoffset ▸ hmem, ?_⟩
      rw [List.map_nil, List.append_nil]

/-- What is loaded so far: nothing at first, then the number in the bytes before `offset`. -/
def Loaded (env : ℕ → Option Value) (m : BitVec 64 → BitVec 8) (base : BitVec 64) (offset : ℕ)
    (value : Term) : Prop :=
  offset = 0 ∧ value = .nil ∨
    0 < offset ∧ value ≠ .nil ∧ eval env value = some (.word (loadBytes m base offset))

/-- A piece that is loaded, brought to the unit of the value. -/
def loadPiece (alwaysValid : Term → Bool) (cfg mem addr : Term) (extraOffset : ℤ)
    (piece : ℕ × Datatype) : Term :=
  let load := addFieldLoad alwaysValid piece.2 cfg mem addr (piece.1 + extraOffset)
  if piece.2 ≠ .i64 then .uConv .i64 load else load

theorem loadPiece_ne_nil (mem : Term) (piece : ℕ × Datatype) :
    loadPiece alwaysValid cfg mem addr extraOffset piece ≠ .nil := by
  rw [loadPiece]
  split_ifs
  · exact Term.noConfusion
  · exact Term.noConfusion

theorem loads_loadPiece (mem : Term) (piece : ℕ × Datatype) :
    loads (loadPiece alwaysValid cfg mem addr extraOffset piece) = [place addr extraOffset piece] := by
  rw [loadPiece]
  split_ifs
  · rfl
  · rfl

/-- Extending a piece does not change it. -/
theorem eval_loadPiece {mem : Term} {m : BitVec 64 → BitVec 8}
    (hmem : eval env mem = some (.mem m)) (haddr : eval env addr = some (.word a.toNat))
    {piece : ℕ × Datatype} (hunit : piece.2.isInt = true) :
    eval env (loadPiece alwaysValid cfg mem addr extraOffset piece) =
      some (.word (loadBytes m (start a extraOffset + BitVec.ofNat 64 piece.1) piece.2.size)) := by
  have hload : eval env (addFieldLoad alwaysValid piece.2 cfg mem addr (piece.1 + extraOffset)) =
      some (.word (loadBytes m (start a extraOffset + BitVec.ofNat 64 piece.1) piece.2.size)) := by
    have hplace := @eval_place env addr a extraOffset haddr piece
    rw [place] at hplace
    rw [addFieldLoad, addLoad, eval, hmem, hplace]
    dsimp only
    rw [BitVec.ofNat_toNat, BitVec.setWidth_eq]
  have hsize : piece.2.size ≤ 8 := by
    obtain h | h | h | h := Datatype.isInt_cases hunit <;> rw [h] <;> decide
  rw [loadPiece]
  split_ifs
  · rw [eval_uConv hload, Nat.mod_eq_of_lt]
    exact (loadBytes_lt _).trans_le (Nat.pow_le_pow_right (by decide) hsize)
  · exact hload

/-- The loads from `offset` on. -/
theorem loadLoop_spec {mem : Term} {m : BitVec 64 → BitVec 8}
    (haddr : eval env addr = some (.word a.toNat)) (hmem : eval env mem = some (.mem m))
    (hsize : size ≤ 8) {fuel offset : ℕ} {unit : Datatype} (hunit : unit.isInt = true)
    (hle : (offset : ℤ) ≤ size) (hfuel : size < offset + fuel) {value : Term}
    (hvalue : Loaded env m (start a extraOffset) offset value) :
    ∃ ld, loadLoop alwaysValid cfg mem addr extraOffset size .i64 fuel unit offset value = some ld ∧
      Loaded env m (start a extraOffset) size.toNat ld ∧
      loads ld = loads value ++ (pieces size fuel unit offset).map (place addr extraOffset) := by
  induction fuel generalizing unit offset value with
  | zero => omega
  | succ fuel ih =>
    rw [loadLoop, pieces]
    by_cases hlt : (offset : ℤ) < size
    · rw [if_pos hlt, if_pos hlt]
      obtain ⟨fit, hfit⟩ := exists_fits hlt hunit
      have hpos := size_pos hfit.isInt
      have hfits := hfit.le
      have hpiece := @eval_loadPiece alwaysValid env cfg addr a extraOffset mem m hmem haddr
        (offset, fit) hfit.isInt
      have hloads := @loads_loadPiece alwaysValid cfg addr extraOffset mem (offset, fit)
      have hnil := @loadPiece_ne_nil alwaysValid cfg addr extraOffset mem (offset, fit)
      rw [hfit.load, hfit.store]
      dsimp only [Option.bind_eq_bind, Option.bind_some]
      rw [loadPiece] at hpiece hloads hnil
      revert hpiece hloads hnil
      generalize (if fit ≠ .i64 then _ else _ : Term) = load
      intro hpiece hloads hnil
      have hlast : offset + fit.size ≤ 8 := by omega
      obtain ⟨rfl, rfl⟩ | ⟨hoffset, hne, hbytes⟩ := hvalue
      · -- the first piece is the value
        rw [if_pos rfl, if_pos rfl]
        rw [BitVec.add_zero] at hpiece
        have hloaded : Loaded env m (start a extraOffset) (0 + fit.size) load :=
          Or.inr ⟨by omega, hnil, by rw [Nat.zero_add]; exact hpiece⟩
        obtain ⟨ld, hld, heval, hrest⟩ := ih hfit.isInt (by push_cast; omega) (by push_cast; omega)
          hloaded
        refine ⟨ld, hld, heval, ?_⟩
        rw [hrest, hloads]
        rfl
      · rw [if_neg hne]
        have hshl := @eval_shl env _ _ hpiece offset _ (loadBytes_lt _) (by omega) hlast
        have hor := eval_or hbytes (loadBytes_lt _) hlast (loadBytes_lt _) hshl
        rw [← loadBytes_add] at hor
        have hloaded : Loaded env m (start a extraOffset) (offset + fit.size)
            (.binOp .or .i64 value (.binOp .shl .i64 load (.cInt .i64 (offset * 8)))) :=
          Or.inr ⟨by omega, Term.noConfusion, hor⟩
        obtain ⟨ld, hld, heval, hrest⟩ := ih hfit.isInt (by push_cast; omega) (by push_cast; omega)
          hloaded
        refine ⟨ld, hld, heval, ?_⟩
        rw [hrest, loads, loads, hloads, List.append_assoc, List.append_assoc]
        rfl
    · rw [if_neg hlt, if_neg hlt]
      have hoffset : offset = size.toNat := by omega
      refine ⟨value, rfl, hoffset ▸ hvalue, ?_⟩
      rw [List.map_nil, List.append_nil]

end Loops

/-! ### Both sides -/

section Inverse

variable {alwaysValid : Term → Bool} {env : ℕ → Option Value} {cfg mem addr rvalue : Term}
  {m : BitVec 64 → BitVec 8} {a : BitVec 64} {v size : ℕ} {rsize extraOffset : ℤ}

/-- The pieces of `size` bytes. -/
def allPieces (addr : Term) (extraOffset : ℤ) (size : ℕ) : List (Term × ℕ) :=
  (pieces size (size + 1) .i64 0).map (place addr extraOffset)

theorem allPieces_tile (haddr : eval env addr = some (.word a.toNat)) :
    Tiles env (start a extraOffset) size (allPieces addr extraOffset size) := by
  have htile := @pieces_tile env addr a extraOffset size haddr (size + 1) 0 .i64 rfl (by simp)
    (by push_cast; omega)
  rwa [BitVec.add_zero, Nat.sub_zero, Int.toNat_natCast] at htile

theorem allPieces_eight : allPieces addr extraOffset 8 = [(addFieldOffset addr extraOffset, 8)] := by
  have hpieces : pieces (8 : ℕ) (8 + 1) .i64 0 = [(0, .i64)] := by decide
  rw [allPieces, hpieces, List.map_singleton, place, Nat.cast_zero, zero_add]
  rfl

theorem addArbitraryStore_spec (hmem : eval env mem = some (.mem m))
    (haddr : eval env addr = some (.word a.toNat)) (hdt : rvalue.dt = .i64)
    (hvalue : eval env rvalue = some (.word v)) (hv : v < 2 ^ 64)
    (hsize : min (rsize - extraOffset) 8 = size) :
    ∃ st, addArbitraryStore alwaysValid cfg mem addr rvalue rsize extraOffset .i64 = some st ∧
      eval env st = some (.mem (storeBytes m (start a extraOffset) size v)) ∧
      stores st = stores mem ++ allPieces addr extraOffset size := by
  rw [addArbitraryStore, show (Datatype.i64.size : ℤ) = 8 from rfl, hsize]
  split_ifs with height
  · -- the whole register is stored as it is
    obtain rfl : size = 8 := by exact_mod_cast height.symm
    refine ⟨_, rfl, ?_, ?_⟩
    · have hplace := eval_addFieldOffset haddr extraOffset
      rw [addFieldStore, addStore, eval, hmem, hplace, hvalue, hdt]
      dsimp only
      rw [BitVec.ofNat_toNat, BitVec.setWidth_eq]
      rfl
    · rw [addFieldStore, addStore, stores, hdt, allPieces_eight]
      rfl
  · have hle : (size : ℤ) ≤ 8 := hsize ▸ min_le_right _ _
    have hnone : eval env mem = some (.mem (storeBytes m (start a extraOffset) 0 v)) := by
      rw [storeBytes_zero, hmem]
    have hloop := @storeLoop_spec alwaysValid env cfg addr rvalue a v extraOffset size haddr hvalue hv hle
      (size + 1) 0 .i64 rfl (by simp) (by push_cast; omega) mem m hnone
    rwa [Int.toNat_natCast] at hloop ⊢

theorem addArbitraryLoad_spec (hmem : eval env mem = some (.mem m))
    (haddr : eval env addr = some (.word a.toNat)) (hsize : min (rsize - extraOffset) 8 = size)
    (hpos : 0 < size) :
    ∃ ld, addArbitraryLoad alwaysValid cfg mem addr rsize extraOffset .i64 = some ld ∧
      eval env ld = some (.word (loadBytes m (start a extraOffset) size)) ∧
      loads ld = allPieces addr extraOffset size := by
  have hle : (size : ℤ) ≤ 8 := hsize ▸ min_le_right _ _
  obtain ⟨ld, hld, hloaded, hloads⟩ := @loadLoop_spec alwaysValid env cfg addr a extraOffset size
    mem m haddr hmem hle (size + 1) 0 .i64 rfl (by simp) (by push_cast; omega) .nil
    (Or.inl ⟨rfl, rfl⟩)
  rw [Int.toNat_natCast] at hloaded
  rw [addArbitraryLoad, show (Datatype.i64.size : ℤ) = 8 from rfl, hsize, Int.toNat_natCast]
  obtain ⟨hzero, -⟩ | ⟨-, -, heval⟩ := hloaded
  · omega
  · exact ⟨ld, hld, heval, hloads⟩

/-- The bytes of a 64-bit value, from one to all of them: storing them and loading them use the same
pieces, which tile the bytes, nothing else is written or read, and what is loaded after the store is
the low bytes of the value. -/
theorem arbitrary_inverse (hmem : eval env mem = some (.mem m))
    (haddr : eval env addr = some (.word a.toNat)) (hdt : rvalue.dt = .i64)
    (hvalue : eval env rvalue = some (.word v)) (hv : v < 2 ^ 64)
    (hsize : min (rsize - extraOffset) 8 = size) (hpos : 0 < size) :
    ∃ st m' P, addArbitraryStore alwaysValid cfg mem addr rvalue rsize extraOffset .i64 = some st ∧
      stores st = stores mem ++ P ∧ Tiles env (start a extraOffset) size P ∧
      eval env st = some (.mem m') ∧
      (∀ x, ¬ (x - start a extraOffset).toNat < size → m' x = m x) ∧
      (∀ mem₂ m₂, eval env mem₂ = some (.mem m₂) →
        ∃ ld, addArbitraryLoad alwaysValid cfg mem₂ addr rsize extraOffset .i64 = some ld ∧
          loads ld = P ∧ eval env ld = some (.word (loadBytes m₂ (start a extraOffset) size))) ∧
      ∃ ld, addArbitraryLoad alwaysValid cfg st addr rsize extraOffset .i64 = some ld ∧
        eval env ld = some (.word (v % 2 ^ (8 * size))) := by
  obtain ⟨st, hst, heval, hstores⟩ := @addArbitraryStore_spec alwaysValid env cfg mem addr rvalue
    m a v size rsize extraOffset hmem haddr hdt hvalue hv hsize
  have hle : (size : ℤ) ≤ 8 := hsize ▸ min_le_right _ _
  refine ⟨st, _, _, hst, hstores, allPieces_tile haddr, heval, fun x => storeBytes_of_not_lt,
    ?_, ?_⟩
  · intro mem₂ m₂ hmem₂
    obtain ⟨ld, hld, hread, hloads⟩ := @addArbitraryLoad_spec alwaysValid env cfg mem₂ addr m₂ a
      size rsize extraOffset hmem₂ haddr hsize hpos
    exact ⟨ld, hld, hloads, hread⟩
  · obtain ⟨ld, hld, hread, -⟩ := @addArbitraryLoad_spec alwaysValid env cfg st addr _ a
      size rsize extraOffset heval haddr hsize hpos
    refine ⟨ld, hld, ?_⟩
    rw [hread, loadBytes_storeBytes (by omega), pow_mul]
    rfl

/-- The memory `0`, all zeros, the address `100` and the value of seven bytes `0x77665544332211`. -/
def threeBytes : ℕ → Option Value
  | 0 => some (.mem fun _ => 0)
  | 1 => some (.word 100)
  | _ => some (.word 0x77665544332211)

theorem arbitrary_inverse_three : ∃ st ld,
    addArbitraryStore (fun _ => false) .nil (.given 0 .mem) (.given 1 .i64) (.given 2 .i64) 7 4 .i64 =
      some st ∧
    addArbitraryLoad (fun _ => false) .nil st (.given 1 .i64) 7 4 .i64 = some ld ∧
    eval threeBytes ld = some (.word 0x332211) := by
  obtain ⟨st, -, -, hst, -, -, -, -, -, ld, hld, heval⟩ := @arbitrary_inverse (fun _ => false)
    threeBytes .nil (.given 0 .mem) (.given 1 .i64) (.given 2 .i64) (fun _ => 0) 100
    0x77665544332211 3 7 4 rfl rfl rfl rfl (by decide) (by decide) (by decide)
  exact ⟨st, ld, hst, hld, heval⟩

/-- No bytes at all load as the node `0`, which has no value. -/
theorem not_loads_no_byte : ¬ ∃ st ld,
    addArbitraryStore (fun _ => false) .nil (.given 0 .mem) (.given 1 .i64) (.given 2 .i64) 4 4 .i64 =
      some st ∧
    addArbitraryLoad (fun _ => false) .nil st (.given 1 .i64) 4 4 .i64 = some ld ∧
    eval threeBytes ld = some (.word (0x77665544332211 % 2 ^ (8 * 0))) := by
  rintro ⟨st, ld, -, hld, heval⟩
  have hnil : addArbitraryLoad (fun _ => false) .nil st (.given 1 .i64) 4 4 .i64 = some .nil := rfl
  obtain rfl : ld = .nil := Option.some.inj (hld.symm.trans hnil)
  exact absurd heval (Option.some_ne_none _).symm

end Inverse

end OdinSon.Arbitrary
