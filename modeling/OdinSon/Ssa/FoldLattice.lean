import OdinSon.Ssa.FoldBinOp

/-!
# Folding binary operators on lattices

`fold_bin_op_lattice` (`bac/ssa/sccp.odin`), cut into the pieces of its body: the checks for a
division that may trap (`mayTrap`), two constants (`foldConstLattice`), the unsigned operators
(`unsignedRange`), the bitwise operators (`bitLattice`) and the signed operators (`signedRange`).

A piece that returns from the middle of the source function yields `.error` with the returned
lattice; `.ok` carries the bounds `lo` and `hi` that the rest of the body works on.
-/

namespace OdinSon

open MachInt

/-- The lattice of a comparison. -/
def boolLattice : Lattice := .ofBounds 0 1

/-- `~u64(0) >> (64 - bits)`. -/
def dtMask (ty : Datatype) : ℕ := (2 ^ 64 - 1) >>> (64 - ty.bits)

/-- `intrinsics.count_leading_zeros` of a nonzero `u64`. -/
def countLeadingZeros (n : ℕ) : ℕ := 63 - n.log2

/-- `unsigned_bounds`. -/
def unsignedBounds (v : Lattice) (mask : ℕ) : ℕ × ℕ :=
  if v.min < 0 ∧ v.max ≥ 0 then (0, mask) else (u64 v.min &&& mask, u64 v.max &&& mask)

/-- `known_bits`: the bits every value of `v` has, and those some value may have. -/
def knownBits (v : Lattice) (mask : ℕ) : ℕ × ℕ :=
  let varying := (u64 v.min ^^^ u64 v.max) &&& mask
  let varying := if varying ≠ 0 then (2 ^ 64 - 1) >>> countLeadingZeros varying else varying
  let one := andNot (u64 v.min) varying &&& mask
  (one, one ||| varying)

/-- A division whose operands may trap: its lattice is left alone. -/
def mayTrap (a : Lattice) (op : BinOp) (b full : Lattice) : Bool :=
  match op with
  | .div | .rem =>
    (b.min ≤ 0 && b.max ≥ 0) || (a.min ≤ full.min && b.min ≤ -1 && b.max ≥ -1)
  | .uDiv | .uRem => b.min ≤ 0 && b.max ≥ 0
  | _ => false

/-- Both operands are known constants. -/
def foldConstLattice (a : ℤ) (op : BinOp) (b : ℤ) (ty : Datatype) (res : Lattice) : Lattice :=
  let full := dtToLattice ty
  let mask := dtMask ty
  let l := sext a ty
  let r := if op.isShift then b else sext b ty
  let l := match op with
    | .uDiv | .uRem | .uShr | .uLt | .uLe | .uGt | .uGe => i64 (u64 l &&& mask)
    | _ => l
  let r := match op with
    | .uDiv | .uRem | .uLt | .uLe | .uGt | .uGe => i64 (u64 r &&& mask)
    | _ => r
  let trap := match op with
    | .div | .rem => r = 0 || (l = full.min && r = -1)
    | .uDiv | .uRem => r = 0
    | _ => false
  if trap then res
  else
    let value := foldBinOp l op r ty
    let value := if op.isComparison then value else sext value ty
    .ofBounds value value

/-- The smallest and the largest of four values. -/
def hull4 (v₀ v₁ v₂ v₃ : ℤ) : ℤ × ℤ :=
  (min (min (min v₀ v₁) v₂) v₃, max (max (max v₀ v₁) v₂) v₃)

/-- The unsigned operators: `.ok` has the bounds as unsigned numbers. -/
def unsignedRange (a : Lattice) (op : BinOp) (b : Lattice) (ty : Datatype) (res : Lattice) :
    Except Lattice (ℕ × ℕ) :=
  let bits := ty.bits
  let (amin, amax) := unsignedBounds a (dtMask ty)
  let (bmin, bmax) := unsignedBounds b (dtMask ty)
  match op with
  | .uDiv => if bmin = 0 then .error res else .ok (amin / bmax, amax / bmin)
  | .uRem => if bmin = 0 then .error res else .ok (0, min amax (bmax - 1))
  | .uLt => .ok ((decide (amax < bmin)).toNat, (decide (amin < bmax)).toNat)
  | .uLe => .ok ((decide (amax ≤ bmin)).toNat, (decide (amin ≤ bmax)).toNat)
  | .uGt => .ok ((decide (amin > bmax)).toNat, (decide (amax > bmin)).toNat)
  | .uGe => .ok ((decide (amin ≥ bmax)).toNat, (decide (amax ≥ bmin)).toNat)
  | .uShr =>
    if b.max < 0 ∨ b.min ≥ bits then .error (.ofBounds 0 0)
    else if b.min < 0 then .error res
    else
      let smin := u64 b.min
      let smax := min (u64 b.max) (bits - 1)
      .ok (if b.max ≥ bits then 0 else amin >>> smax, amax >>> smin)
  | _ => .error res

/-- The lattice of unsigned bounds: the whole type when they straddle the sign. -/
def unsignedLattice (op : BinOp) (ty : Datatype) (lo hi : ℕ) : Lattice :=
  if op.isComparison then .ofBounds (i64 lo) (i64 hi)
  else
    let sign := 1 <<< (ty.bits - 1)
    if lo < sign ∧ hi ≥ sign then dtToLattice ty
    else .ofBounds (sext (i64 lo) ty) (sext (i64 hi) ty)

/-- The known bits of a bitwise operator from those of its operands. -/
def bitRange (op : BinOp) (aone apossible bone bpossible : ℕ) : ℕ × ℕ :=
  match op with
  | .and => (aone &&& bone, apossible &&& bpossible)
  | .or => (aone ||| bone, apossible ||| bpossible)
  | .xor =>
    (andNot aone bpossible ||| andNot bone apossible,
      andNot apossible bone ||| andNot bpossible aone)
  | .andNot => (andNot aone bpossible, andNot apossible bone)
  | _ => (0, 0)

/-- The interval of the numbers between the known and the possible bits. -/
def bitLattice (ty : Datatype) (one possible : ℕ) : Lattice :=
  let sign := 1 <<< (ty.bits - 1)
  if possible &&& sign ≠ 0 ∧ one &&& sign = 0 then
    .ofBounds (sext (i64 (one ||| sign)) ty) (i64 (andNot possible sign))
  else .ofBounds (sext (i64 one) ty) (sext (i64 possible) ty)

/-- `intrinsics.overflow_add` and its like: the exact value when it is an `i64`. -/
def checked (v : ℤ) : Option ℤ := if InS 64 v then some v else none

/-- The loop of `Mul` over the products of the bounds. -/
def mulRange (a b : Lattice) (res : Lattice) : Except Lattice (ℤ × ℤ) :=
  match checked (a.min * b.min), checked (a.min * b.max), checked (a.max * b.min),
    checked (a.max * b.max) with
  | some v₀, some v₁, some v₂, some v₃ => .ok (hull4 v₀ v₁ v₂ v₃)
  | _, _, _, _ => .error res

/-- `Shl` and `Shr`. -/
def shiftRange (a : Lattice) (op : BinOp) (b : Lattice) (ty : Datatype) (res : Lattice) :
    Except Lattice (ℤ × ℤ) :=
  let full := dtToLattice ty
  let bits := ty.bits
  if b.max < 0 ∨ b.min ≥ bits then
    if op ≠ .shr then .error (.ofBounds 0 0)
    else .ok (shr64 a.min (bits - 1), shr64 a.max (bits - 1))
  else if b.min < 0 then .error res
  else
    let smin := u64 b.min
    let smax := min (u64 b.max) (bits - 1)
    if op = .shl then
      if a.min < shr64 full.min smax ∨ a.max > shr64 full.max smax then .error res
      else
        let r := hull4 (shl64 a.min smin) (shl64 a.min smax) (shl64 a.max smin) (shl64 a.max smax)
        .ok (if b.max ≥ bits then (min r.1 0, max r.2 0) else r)
    else
      .ok (hull4 (shr64 a.min smin) (shr64 a.min smax) (shr64 a.max smin) (shr64 a.max smax))

/-- The signed operators. -/
@[grind =]
def signedRange (a : Lattice) (op : BinOp) (b : Lattice) (ty : Datatype) (res : Lattice) :
    Except Lattice (ℤ × ℤ) :=
  match op with
  | .add => match checked (a.min + b.min), checked (a.max + b.max) with
    | some lo, some hi => .ok (lo, hi)
    | _, _ => .error res
  | .sub => match checked (a.min - b.max), checked (a.max - b.min) with
    | some lo, some hi => .ok (lo, hi)
    | _, _ => .error res
  | .mul => mulRange a b res
  | .div => .ok (hull4 (wrap 64 (a.min.tdiv b.min)) (wrap 64 (a.min.tdiv b.max))
      (wrap 64 (a.max.tdiv b.min)) (wrap 64 (a.max.tdiv b.max)))
  | .rem =>
    -- `abs(min(i64))` is not representable, but its remainder bound is
    let magnitude := if b.min < 0 then -(b.min + 1) else b.max - 1
    .ok (if a.min < 0 then max a.min (-magnitude) else 0,
      if a.max > 0 then min a.max magnitude else 0)
  | .eq | .ne =>
    if a.max < b.min ∨ b.max < a.min then .ok (boolToInt (op = .ne), boolToInt (op = .ne))
    else .ok (0, 1)
  | .lt => .ok (boolToInt (a.max < b.min), boolToInt (a.min < b.max))
  | .le => .ok (boolToInt (a.max ≤ b.min), boolToInt (a.min ≤ b.max))
  | .gt => .ok (boolToInt (a.min > b.max), boolToInt (a.max > b.min))
  | .ge => .ok (boolToInt (a.min ≥ b.max), boolToInt (a.max ≥ b.min))
  | .shl | .shr => shiftRange a op b ty res
  | _ => .error res

/-- The lattice of signed bounds: the whole type when they leave it. -/
def signedLattice (op : BinOp) (ty : Datatype) (lo hi : ℤ) : Lattice :=
  let full := dtToLattice ty
  if !op.isComparison ∧ (lo < full.min ∨ hi > full.max) then full else .ofBounds lo hi

/-- The operators on two intervals that are not both constants. -/
def foldRangeLattice (a : Lattice) (op : BinOp) (b : Lattice) (ty : Datatype) (res : Lattice) :
    Lattice :=
  match op with
  | .uDiv | .uRem | .uLt | .uLe | .uGt | .uGe | .uShr =>
    match unsignedRange a op b ty res with
    | .error r => r
    | .ok (lo, hi) => unsignedLattice op ty lo hi
  | .and | .or | .xor | .andNot =>
    let (aone, apossible) := knownBits a (dtMask ty)
    let (bone, bpossible) := knownBits b (dtMask ty)
    let (one, possible) := bitRange op aone apossible bone bpossible
    bitLattice ty one possible
  | _ =>
    match signedRange a op b ty res with
    | .error r => r
    | .ok (lo, hi) => signedLattice op ty lo hi

/-- `fold_bin_op_lattice` on two integer lattices at an integer datatype. -/
def foldIntLattice (a : Lattice) (op : BinOp) (b : Lattice) (ty : Datatype) : Lattice :=
  let res := if op.isComparison then boolLattice else dtToLattice ty
  if mayTrap a op b (dtToLattice ty) then res
  else if a.min = a.max ∧ b.min = b.max then foldConstLattice a.min op b.min ty res
  else foldRangeLattice a op b ty res

/-- `fold_bin_op_lattice` at a float datatype. -/
def foldFloatLattice (lhs : Lattice) (op : BinOp) (rhs res : Lattice) : Lattice :=
  if lhs.type ≠ .float ∨ rhs.type ≠ .float then res
  else if op.isComparison then
    if lhs.isNan || rhs.isNan then
      { res with min := boolToInt (op = .ne), max := boolToInt (op = .ne) }
    else res
  else if lhs.isNan || rhs.isNan then
    { res with isNan := true, isNotNinf := true, isNotPinf := true, isNotZero := true }
  else if !lhs.isNotNan || !rhs.isNotNan then { res with isNan := false }
  else
    let lhsFinite := lhs.isNotNinf && lhs.isNotPinf
    let rhsFinite := rhs.isNotNinf && rhs.isNotPinf
    match op with
    | .add => { res with
        isNan := false
        isNotNan := (lhs.isNotNinf || rhs.isNotPinf) && (lhs.isNotPinf || rhs.isNotNinf) }
    | .sub => { res with
        isNan := false
        isNotNan := (lhs.isNotNinf || rhs.isNotNinf) && (lhs.isNotPinf || rhs.isNotPinf) }
    | .mul => { res with
        isNan := false
        isNotNan := (lhsFinite || rhs.isNotZero) && (rhsFinite || lhs.isNotZero) }
    | .div => { res with
        isNan := false
        isNotNan := (lhs.isNotZero || rhs.isNotZero) && (lhsFinite || rhsFinite) }
    | _ => { res with isNan := false }

/-- `fold_bin_op_lattice`. -/
def foldBinOpLattice (lhs : Lattice) (op : BinOp) (rhs : Lattice) (opTy : Datatype) : Lattice :=
  if lhs.type = .top ∨ rhs.type = .top then {}
  else
    let res := if op.isComparison then boolLattice else dtToLattice opTy
    if opTy.isFloat then foldFloatLattice lhs op rhs res
    else if !opTy.isInt then res
    else if lhs.type ≠ .int ∨ rhs.type ≠ .int then res
    else foldIntLattice lhs op rhs opTy

end OdinSon
