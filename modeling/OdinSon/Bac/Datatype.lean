import OdinSon.Lib.MachInt

/-!
# Datatypes and operators of the backend

The enumerations of `bac/graph.odin` and `bac/node_specs.odin` that the passes switch on: node
datatypes with their sizes, lanes, binary operators and node kinds.  A deleted node has the kind
`dead` (`DEAD_NODE_KIND` in the source).
-/

namespace OdinSon

/-- `Node_Datatype`. -/
inductive Datatype where
  | void | mem | i8 | i16 | i32 | i64 | f32 | f64 | v128 | v256 | v512
  deriving DecidableEq, Repr, Inhabited

/-- `Lane_Type`. -/
inductive LaneType where
  | i8 | i16 | i32 | i64 | f32 | f64
  deriving DecidableEq, Repr, Inhabited

namespace Datatype

/-- `DT_SIZE`: the size in bytes. -/
def size : Datatype → ℕ
  | void | mem => 0
  | i8 => 1
  | i16 => 2
  | i32 | f32 => 4
  | i64 | f64 => 8
  | v128 => 16
  | v256 => 32
  | v512 => 64

/-- The size in bits. -/
def bits (dt : Datatype) : ℕ := dt.size * 8

/-- Membership in `INT_DTS`. -/
def isInt : Datatype → Bool
  | i8 | i16 | i32 | i64 => true
  | _ => false

/-- Membership in `FLOAT_DTS`. -/
def isFloat : Datatype → Bool
  | f32 | f64 => true
  | _ => false

/-- Membership in `VECTOR_DTS`. -/
def isVector : Datatype → Bool
  | v128 | v256 | v512 => true
  | _ => false

theorem isInt_cases {dt : Datatype} (h : dt.isInt = true) :
    dt = i8 ∨ dt = i16 ∨ dt = i32 ∨ dt = i64 := by
  cases dt <;> simp_all [isInt]

theorem bits_pos {dt : Datatype} (h : dt.isInt = true) : 0 < dt.bits := by
  obtain rfl | rfl | rfl | rfl := isInt_cases h <;> decide

theorem bits_le {dt : Datatype} (h : dt.isInt = true) : dt.bits ≤ 64 := by
  obtain rfl | rfl | rfl | rfl := isInt_cases h <;> decide

theorem not_isFloat {dt : Datatype} (h : dt.isInt = true) : dt.isFloat = false := by
  obtain rfl | rfl | rfl | rfl := isInt_cases h <;> rfl

end Datatype

/-- `LANE_TO_DT`. -/
def LaneType.toDt : LaneType → Datatype
  | i8 => .i8
  | i16 => .i16
  | i32 => .i32
  | i64 => .i64
  | f32 => .f32
  | f64 => .f64

/-- `Bin_Op`, in the order of the enumeration. -/
inductive BinOp where
  | add | sub | and | or | xor
  | eq | ne | le | lt | gt | ge | uLt | uGt | uLe | uGe
  | shl | shr | uShr
  | mul | div | uDiv | rem | uRem | andNot
  deriving DecidableEq, Repr, Inhabited

namespace BinOp

/-- The operators from `Eq` to `U_Ge`. -/
@[grind =] def isComparison : BinOp → Bool
  | eq | ne | le | lt | gt | ge | uLt | uGt | uLe | uGe => true
  | _ => false

/-- `Shl`, `Shr` and `U_Shr`: their right operand is a count of any integer type. -/
def isShift : BinOp → Bool
  | shl | shr | uShr => true
  | _ => false

end BinOp

end OdinSon
