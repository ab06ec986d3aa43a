import OdinSon.Lib.Ieee
import OdinSon.Odinc.Types
import OdinSon.Ssa.FoldBinOp

/-!
# Constant expressions

`constant_binary` at the integer and the floating-point types, the constant unary operators, `&&`
and `||`, and `typecheck_conversion` (`odinc/typecheck`), next to the operators that
`odinc/gen.odin` emits for operands that are not constant.  The checker keeps every integer literal
in 64 bits and every floating-point one as an `f64`, whatever its type; the code has registers of
the type's width.  A `bool` is an integer of eight bits in both.  The two zeros of a floating-point
type are one number: the checker accepts no quotient by zero, which alone would tell them apart.

`Constants.run` is what the code computes.  It is compared with the checker's literals in
`OdinSon.Odinc.ConstantsSound`.
-/

namespace OdinSon.Odinc

open MachInt Lib

namespace Prim

/-- `INTEGER_TYPES`. -/
def isInteger (p : Prim) : Bool := p.isSigned || p.isUnsigned

/-- `FLOAT_TYPES`. -/
def isFloat (p : Prim) : Bool := p = f32 || p = f64

def bits (p : Prim) : ℕ := p.size * 8

/-- The format of a floating-point type. -/
def format (p : Prim) : Format := if p = f32 then binary32 else binary64

/-- The value of the type that a register with these low bits has. -/
def value (p : Prim) (x : ℤ) : ℤ := if p.isSigned then wrap p.bits x else unsigned p.bits x

end Prim

namespace Constants

/-- The operators of `ast.Binary_Expr`, less the lazy ones. -/
inductive BinTok where
  | add | sub | mul | quo | mod | modMod | and | or | xor | andNot | shl | shr
  | eq | ne | lt | le | gt | ge
  deriving DecidableEq, Repr

/-- The operators of `ast.Unary_Expr`: `!`, `~`, `-` and `+`. -/
inductive UnTok where
  | not | xor | sub | add
  deriving DecidableEq, Repr

/-- The lazy operators: `&&` and `||`. -/
inductive LazyTok where
  | and | or
  deriving DecidableEq, Repr

/-- A constant expression; a literal of a number has the type that is inferred for it. -/
inductive Expr where
  | int (ty : Prim) (n : ℕ)
  | float (ty : Prim) (q : ℚ)
  | bool (b : Bool)
  | un (op : UnTok) (e : Expr)
  | lazy (op : LazyTok) (l r : Expr)
  | bin (op : BinTok) (l r : Expr)
  | conv (dst : Prim) (e : Expr)
  deriving DecidableEq, Repr

/-- A literal of the checker, of an integer type or of a floating-point type. -/
inductive Lit where
  | uint (n : ℕ)
  | float (x : FloatNum)
  deriving DecidableEq, Repr

/-- A value of the code. -/
inductive Value where
  | int (v : ℤ)
  | float (x : FloatNum)
  deriving DecidableEq, Repr

/-- What a register of the type holds of a value. -/
def Value.inType (p : Prim) : Value → Value
  | .int v => .int (p.value v)
  | .float x => .float x

/-- What a conversion gives for a floating-point number that is not in the range of the integer
type, which is up to the machine. -/
structure OutOfRange where
  /-- `u64(f)` or `i64(f)` in the checker. -/
  host : Bool → FloatNum → ℕ
  /-- `U_Conv` or `Conv` to a datatype in the code. -/
  target : Bool → Datatype → FloatNum → ℤ

namespace BinTok

def isComparison : BinTok → Bool
  | eq | ne | lt | le | gt | ge => true
  | _ => false

def isShift : BinTok → Bool
  | shl | shr => true
  | _ => false

/-- `tok_to_binop` at an integer type: `SIGNED_TABLE`, and `UNSIGNED_TABLE` over it. -/
def toBinop (ty : Prim) : BinTok → Option BinOp
  | add => some .add
  | sub => some .sub
  | mul => some .mul
  | quo => some (if ty.isUnsigned then .uDiv else .div)
  | mod => some (if ty.isUnsigned then .uRem else .rem)
  | modMod => none
  | and => some .and
  | or => some .or
  | xor => some .xor
  | andNot => some .andNot
  | shl => some .shl
  | shr => some (if ty.isUnsigned then .uShr else .shr)
  | eq => some .eq
  | ne => some .ne
  | lt => some (if ty.isUnsigned then .uLt else .lt)
  | le => some (if ty.isUnsigned then .uLe else .le)
  | gt => some (if ty.isUnsigned then .uGt else .gt)
  | ge => some (if ty.isUnsigned then .uGe else .ge)

/-- `tok_to_binop` at a floating-point type: `FLOAT_TABLE`. -/
def toFloatBinop : BinTok → Option BinOp
  | add => some .add
  | sub => some .sub
  | mul => some .mul
  | quo => some .div
  | eq => some .eq
  | ne => some .ne
  | lt => some .lt
  | le => some .le
  | gt => some .gt
  | ge => some .ge
  | _ => none

end BinTok

/-! ### The checker -/

/-- `constant_compare`, of integers. -/
def constantCompare (lhs rhs : ℤ) : BinTok → Bool
  | .eq => lhs = rhs
  | .ne => lhs ≠ rhs
  | .lt => lhs < rhs
  | .le => lhs ≤ rhs
  | .gt => lhs > rhs
  | .ge => lhs ≥ rhs
  | _ => false

/-- `constant_compare`, of floating-point numbers. -/
def constantCompareFloat (lhs rhs : FloatNum) : BinTok → Bool
  | .eq => lhs.beq rhs
  | .ne => !lhs.beq rhs
  | .lt => lhs.lt rhs
  | .le => lhs.le rhs
  | .gt => rhs.lt lhs
  | .ge => rhs.le lhs
  | _ => false

/-- The division of `constant_binary`. -/
def constantDivide (op : BinTok) (base : Prim) (lhs rhs : ℕ) : Option ℕ :=
  if rhs = 0 then none
  else if base.isSigned then
    if i64 lhs = -2 ^ 63 ∧ i64 rhs = -1 then
      if op = .quo then none else some 0
    else if op = .quo then some (u64 ((i64 lhs).tdiv (i64 rhs)))
    else
      let result := (i64 lhs).tmod (i64 rhs)
      if op = .modMod ∧ result ≠ 0 ∧ (result < 0) ≠ (i64 rhs < 0) then
        some (u64 (result + i64 rhs))
      else some (u64 result)
  else if op = .quo then some (lhs / rhs)
  else some (lhs % rhs)

/-- The shifts of `constant_binary`. -/
def constantShift (op : BinTok) (base count : Prim) (lhs rhs : ℕ) : Option ℕ :=
  if count.isSigned ∧ i64 rhs < 0 then none
  else if op = .shl then some (if rhs < 64 then (lhs <<< rhs) % 2 ^ 64 else 0)
  else if base.isSigned then
    some (u64 (if rhs < 64 then shr64 (i64 lhs) rhs else if i64 lhs < 0 then -1 else 0))
  else some (if rhs < 64 then lhs >>> rhs else 0)

/-- `constant_binary` at an integer type, the types of the operands and the operands being given;
`none` where it reports an error. -/
def constantInteger (op : BinTok) (base count : Prim) (lhs rhs : ℕ) : Option ℕ :=
  match op with
  | .eq | .ne | .lt | .le | .gt | .ge =>
    some (if base.isUnsigned then (constantCompare lhs rhs op).toNat
      else (constantCompare (i64 lhs) (i64 rhs) op).toNat)
  | .add => some (u64 (lhs + rhs))
  | .sub => some (u64 (lhs - rhs))
  | .mul => some (u64 (lhs * rhs))
  | .quo | .mod | .modMod => constantDivide op base lhs rhs
  | .and => some (lhs &&& rhs)
  | .or => some (lhs ||| rhs)
  | .xor => some (lhs ^^^ rhs)
  | .andNot => some (andNot lhs rhs)
  | .shl | .shr => constantShift op base count lhs rhs

/-- A result of `f64` arithmetic at the type. -/
def constantRound (base : Prim) (x : FloatNum) : FloatNum :=
  if base = .f32 then binary32.cast x else x

/-- `constant_binary` at a floating-point type. -/
def constantFloat (op : BinTok) (base : Prim) (lhs rhs : FloatNum) : Option Lit :=
  match op with
  | .eq | .ne | .lt | .le | .gt | .ge => some (.uint (constantCompareFloat lhs rhs op).toNat)
  | .add => some (.float (constantRound base (binary64.arith .add lhs rhs)))
  | .sub => some (.float (constantRound base (binary64.arith .sub lhs rhs)))
  | .mul => some (.float (constantRound base (binary64.arith .mul lhs rhs)))
  | .quo =>
    if rhs = .fin 0 then none
    else some (.float (constantRound base (binary64.arith .div lhs rhs)))
  | _ => none

/-- `constant_binary` of two literals. -/
def constantBinary (op : BinTok) (base count : Prim) (lhs rhs : Lit) : Option Lit :=
  match lhs, rhs with
  | .float lhs, .float rhs => constantFloat op base lhs rhs
  | .uint lhs, .uint rhs => (constantInteger op base count lhs rhs).map .uint
  | _, _ => none

/-- The unary operators on a literal of an integer type. -/
def constantUnaryInteger (op : UnTok) (ty : Prim) (vl : ℕ) : Option ℕ :=
  match op with
  | .not => if ty = .bool then some (if i64 vl = 0 then 1 else 0) else none
  | .xor =>
    let vl := vl ^^^ (2 ^ 64 - 1)
    if ty.isUnsigned ∧ ty.size < 8 then some (vl &&& (2 ^ (ty.size * 8) - 1)) else some vl
  | .sub => if ty.isUnsigned then none else some (u64 (i64 vl * -1))
  | .add => some vl

/-- The unary operators on a literal. -/
def constantUnary (op : UnTok) (ty : Prim) (vl : Lit) : Option Lit :=
  match vl with
  | .uint vl => (constantUnaryInteger op ty vl).map .uint
  | .float vl =>
    match op with
    | .sub => some (.float vl.neg)
    | .add => some (.float vl)
    | .not | .xor => none

/-- `&&` and `||` on literals. -/
def constantLazy (op : LazyTok) (lhs rhs : Lit) : Option Lit :=
  match lhs, rhs with
  | .uint lhs, .uint rhs =>
    some (.uint (if op = .and then decide (i64 lhs ≠ 0) && decide (i64 rhs ≠ 0)
      else decide (i64 lhs ≠ 0) || decide (i64 rhs ≠ 0)).toNat)
  | _, _ => none

section Checker

variable (out : OutOfRange)

/-- `u64(f)` and `i64(f)`. -/
def hostInteger (unsigned : Bool) (x : FloatNum) : ℕ :=
  match x.trunc with
  | some t =>
    if (if unsigned then 0 ≤ t ∧ t < 2 ^ 64 else InS 64 t) then u64 t else out.host unsigned x
  | none => out.host unsigned x

/-- `typecheck_conversion` of a literal between numbers. -/
def typecheckConversion (dst src : Prim) (lit : Lit) : Lit :=
  if src = dst then lit
  else if dst.isFloat then
    .float (constantRound dst (match lit with
      | .float x => x
      | .uint n => binary64.round (if src.isUnsigned then n else i64 n)))
  else if dst = .bool then
    match lit with
    | .float x => .uint (!x.beq (.fin 0)).toNat
    | .uint n => .uint (if n ≠ 0 then 1 else 0)
  else
    match lit with
    | .float x => .uint (hostInteger out dst.isUnsigned x)
    | .uint n => .uint n

namespace Expr

/-- The type of the expression. -/
def type : Expr → Prim
  | int ty _ | float ty _ => ty
  | bool _ | lazy _ _ _ => .bool
  | un _ e => e.type
  | bin op l _ => if op.isComparison then .bool else l.type
  | conv dst _ => dst

/-- The literal that the checker computes; `none` where it does not accept the expression. -/
@[simp] def check : Expr → Option Lit
  | int ty n =>
    if n < 2 ^ 64 ∧ ty ≠ .bool then
      if ty.isInteger then some (.uint n)
      else if ty.isFloat then some (.float (binary64.round n))
      else none
    else none
  | float ty q => if ty.isFloat then some (.float (binary64.round q)) else none
  | bool b => some (.uint b.toNat)
  | un op e => do constantUnary op e.type (← e.check)
  | lazy op l r => do
    let lhs ← l.check
    let rhs ← r.check
    guard (l.type = .bool ∧ r.type = .bool)
    constantLazy op lhs rhs
  | bin op l r => do
    let lhs ← l.check
    let rhs ← r.check
    guard (op.isShift ∨ l.type = r.type)
    constantBinary op l.type r.type lhs rhs
  | conv dst e => do
    let src ← e.check
    guard (dst.isInteger ∨ dst.isFloat)
    return typecheckConversion out dst e.type src

end Expr

end Checker

/-! ### The code -/

section Code

variable (out : OutOfRange)

/-- `Conv` and `U_Conv` of a floating-point number to an integer type. -/
def targetInteger (dst : Prim) (x : FloatNum) : ℤ :=
  match x.trunc with
  | some t => if dst.value t = t then t else out.target dst.isUnsigned dst.dt x
  | none => out.target dst.isUnsigned dst.dt x

/-- `emit_conversion` from an integer: `Conv` extends the sign, `U_Conv` does not. -/
def emitInteger (dst src : Prim) (arg : ℤ) : Option ℤ :=
  if dst = .bool then machine .ne src.bits arg 0
  else if dst.dt = src.dt then some arg
  else if src.isSigned then some (wrap src.bits arg)
  else some (unsigned src.bits arg)

/-- `emit_conversion` between numbers. -/
def emitConversion (dst src : Prim) (arg : Value) : Option Value :=
  match arg with
  | .int v => do
    let v ← emitInteger dst src v
    return if dst.isFloat then .float (dst.format.round v) else .int v
  | .float x =>
    some (if dst = .bool then .int (!x.beq (.fin 0)).toNat
      else if dst.dt = src.dt then arg
      else if dst.isFloat then .float (dst.format.cast x)
      else .int (targetInteger out dst x))

/-- The unary operators on registers of an integer type. -/
def emitUnaryInteger (op : UnTok) (ty : Prim) (operand : ℤ) : Option ℤ :=
  match op with
  | .not => machine .eq ty.bits operand 0
  | .xor => some (~~~BitVec.ofInt ty.bits operand).toInt
  | .sub => some (-BitVec.ofInt ty.bits operand).toInt
  | .add => some operand

/-- The unary operators on registers; a floating-point number is negated by subtracting it from
zero. -/
def emitUnary (op : UnTok) (ty : Prim) (operand : Value) : Option Value :=
  match operand with
  | .int v => do return .int (ty.value (← emitUnaryInteger op ty v))
  | .float x =>
    match op with
    | .sub => some (.float (ty.format.arith .sub (.fin 0) x))
    | .add => some (.float x)
    | .not | .xor => none

/-- The operators on floating-point registers. -/
def machineFloat (kind : BinOp) (fmt : Format) (x y : FloatNum) : Option Value :=
  match kind with
  | .add => some (.float (fmt.arith .add x y))
  | .sub => some (.float (fmt.arith .sub x y))
  | .mul => some (.float (fmt.arith .mul x y))
  | .div => some (.float (fmt.arith .div x y))
  | .eq => some (.int (x.beq y).toNat)
  | .ne => some (.int (!x.beq y).toNat)
  | .lt => some (.int (x.lt y).toNat)
  | .le => some (.int (x.le y).toNat)
  | .gt => some (.int (y.lt x).toNat)
  | .ge => some (.int (y.le x).toNat)
  | _ => none

/-- The binary operators on registers.  A shift count is an unsigned number of its own type. -/
def emitBinary (op : BinTok) (base count : Prim) (lhs rhs : Value) : Option Value :=
  match lhs, rhs with
  | .float x, .float y => do machineFloat (← op.toFloatBinop) base.format x y
  | .int a, .int b => do
    let kind ← op.toBinop base
    let result ← machine kind base.bits a (if op.isShift then unsigned count.bits b else b)
    return .int ((if op.isComparison then Prim.bool else base).value result)
  | _, _ => none

namespace Expr

/-- The value that the code computes for the expression, its literals being values of variables;
`none` where the code traps or there is none. -/
@[simp] def run : Expr → Option Value
  | int ty n =>
    some (if ty.isFloat then .float (ty.format.cast (binary64.round n)) else .int (ty.value n))
  | float ty q => some (.float (ty.format.cast (binary64.round q)))
  | bool b => some (.int b.toNat)
  | un op e => do emitUnary op e.type (← e.run)
  | lazy op l r => do
    match ← l.run with
    | .int a => if a ≠ 0 ↔ op = .and then r.run else some (.int a)
    | .float _ => none
  | bin op l r => do
    let lhs ← l.run
    let rhs ← r.run
    emitBinary op l.type r.type lhs rhs
  | conv dst e => do return (← emitConversion out dst e.type (← e.run)).inType dst

/-- The value of an expression of an integer type. -/
def runInteger (e : Expr) : Option ℤ := do
  match ← e.run out with
  | .int v => some v
  | .float _ => none

/-- The integer that is left of the value of a floating-point type. -/
def runTrunc (e : Expr) : Option ℤ := do
  match ← e.run out with
  | .int _ => none
  | .float x => x.trunc

end Expr

end Code

/-! ### Where the two can differ -/

/-- The operator looks at more of its left operand than the low bits. -/
def BinTok.readsLeft : BinTok → Bool
  | quo | mod | modMod | shr | eq | ne | lt | le | gt | ge => true
  | _ => false

/-- The operator looks at more of its right operand than the low bits. -/
def BinTok.readsRight (op : BinTok) : Bool := op.readsLeft || op = .shl

/-- The mathematical result of the operators that can overflow; the others stay in the type. -/
def BinTok.exact (op : BinTok) (a b : ℤ) : Option ℤ :=
  match op with
  | add => some (a + b)
  | sub => some (a - b)
  | mul => some (a * b)
  | shl => some (a * 2 ^ min b.toNat 64)
  | _ => none

namespace Expr

variable (out : OutOfRange)

/-- Nothing in the expression overflows: every integer literal, sum, difference, product, left
shift, negation and conversion has a result in its type, of 64 bits or not; and an `f32` literal is
an `f32`. -/
@[simp] def exact : Expr → Bool
  | int ty n =>
    if ty.isFloat then ty.format.cast (binary64.round n) = binary64.round n
    else ty.bits = 64 || ty.value n = n
  | float ty q => ty.format.cast (binary64.round q) = binary64.round q
  | bool _ | lazy _ _ _ => true
  | un op e =>
    match op with
    | .not => true
    | .sub =>
      if e.type.isFloat then e.exact
      else e.type.bits = 64 || e.exact && (e.runInteger out).all fun v => e.type.value (-v) = -v
    | .xor | .add => e.exact
  | bin op l r =>
    l.type.isFloat || op.isComparison || l.type.bits = 64 ||
      l.exact && r.exact && (l.runInteger out).all fun a => (r.runInteger out).all fun b =>
        (op.exact a b).all fun v => l.type.value v = v
  | conv dst e =>
    if dst.isFloat then dst ≠ e.type || e.exact
    else
      e.type.isFloat || dst.bits = 64 || dst = .bool && e.type ≠ .bool ||
        e.exact && (e.runInteger out).all fun v => dst.value v = v

/-- The operands that are looked at as a whole have not overflowed, a `bool` that is converted to
`bool` or that a lazy operator gives on is one, a floating-point number that is converted to an
integer type is in its range, and an integer that is converted to a floating-point type is rounded
as if it were an `f64` first. -/
@[simp] def sound : Expr → Bool
  | int _ _ | float _ _ | bool _ => true
  | un op e => e.sound && (op ≠ .not || e.exact out)
  | lazy op l r =>
    l.sound && l.exact out && (l.runInteger out).all fun a =>
      if a ≠ 0 ↔ op = .and then
        r.sound && r.exact out && (r.runInteger out).all fun b => b = 0 ∨ b = 1
      else a = 0 ∨ a = 1
  | bin op l r =>
    l.sound && r.sound && (!(l.type.isFloat || op.readsLeft) || l.exact out) &&
      (!(l.type.isFloat || op.readsRight) || r.exact out)
  | conv dst e =>
    e.sound &&
      if dst.isFloat then
        if e.type.isFloat then dst = e.type || e.exact out
        else e.exact out && (e.runInteger out).all fun v =>
          dst.format.cast (binary64.round v) = dst.format.round v
      else if e.type.isFloat then
        e.exact out && (dst = .bool || (e.runTrunc out).any fun t => dst.value t = t)
      else
        (dst ≠ .bool && dst.bits ≤ e.type.bits || e.exact out) &&
          (dst ≠ .bool || e.type ≠ .bool || (e.runInteger out).all fun v => v = 0 ∨ v = 1)

end Expr

end Constants

end OdinSon.Odinc
