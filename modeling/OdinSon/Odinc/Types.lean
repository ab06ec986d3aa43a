import OdinSon.Bac.Datatype

/-!
# Types of the language

`Type` of `odinc/typecheck/typecheck.odin`, with the sizes and the datatypes that the code generator
gives values.  What a pointer, a procedure or a slice is made of does not show in the memory it takes,
and is left out; a struct has its fields with their offsets.
-/

namespace OdinSon.Odinc

/-- The types up to `F64`. -/
inductive Prim where
  | void | typeid | bool | i8 | i16 | i32 | i64 | int | u8 | u16 | u32 | u64 | uint | uintptr
  | rawptr | string | f32 | f64
  deriving DecidableEq, Repr, Inhabited

inductive Ty where
  | prim (p : Prim)
  | pointer | multiPointer | proc | slice
  | struct (fields : List (ℕ × Ty)) (size align : ℕ)
  | array (elem : Ty) (len : ℕ)
  | enum (backing : Prim)
  | union (variants : List Ty) (tagOffset size align : ℕ)
  | simd (elem : Prim) (len : ℕ)

namespace Prim

/-- `TYPE_SIZES`. -/
def size : Prim → ℕ
  | void => 0
  | bool | i8 | u8 => 1
  | i16 | u16 => 2
  | i32 | u32 | f32 => 4
  | typeid | i64 | int | u64 | uint | uintptr | rawptr | f64 => 8
  | string => 16

/-- `SIGNED_TYPES`. -/
def isSigned : Prim → Bool
  | int | i64 | i32 | i16 | i8 => true
  | _ => false

/-- `UNSIGNED_TYPES`. -/
def isUnsigned : Prim → Bool
  | uint | u64 | u32 | u16 | u8 | bool | uintptr => true
  | _ => false

/-- `TYPE_TO_DT`. -/
def dt : Prim → Datatype
  | void | string => .void
  | bool | i8 | u8 => .i8
  | i16 | u16 => .i16
  | i32 | u32 => .i32
  | typeid | i64 | int | u64 | uint | uintptr | rawptr => .i64
  | f32 => .f32
  | f64 => .f64

end Prim

namespace Ty

/-- `type_size`; the products are cut at the largest `int`. -/
def size : Ty → ℕ
  | prim p => p.size
  | pointer | multiPointer | proc => 8
  | slice => 16
  | struct _ size _ => size
  | array elem len => min (elem.size * len) (2 ^ 63 - 1)
  | enum backing => backing.size
  | union _ _ size _ => size
  | simd elem len => min (elem.size * len) (2 ^ 63 - 1)

/-- `simd_dt`, for the sizes that it takes. -/
def simdDt (size : ℕ) : Datatype := if size = 16 then .v128 else if size = 32 then .v256 else .v512

/-- `type_to_dt`. -/
def dt : Ty → Datatype
  | prim p => p.dt
  | pointer | multiPointer | proc => .i64
  | slice | struct .. | array .. | union .. => .void
  | enum backing => backing.dt
  | simd elem len => simdDt (elem.size * len)

/-- `constant_base_type`, of the types it is asked for. -/
def base : Ty → Prim
  | prim p => p
  | enum backing => backing
  | _ => .void

/-- `is_data_pointer`. -/
def isDataPointer : Ty → Bool
  | prim .rawptr | pointer | multiPointer => true
  | _ => false

def isProc : Ty → Bool
  | proc => true
  | _ => false

def isSimd : Ty → Bool
  | simd .. => true
  | _ => false

/-- `ty == .String`. -/
def isString : Ty → Bool
  | prim .string => true
  | _ => false

/-- `ty == .F32`. -/
def isF32 : Ty → Bool
  | prim .f32 => true
  | _ => false

end Ty

end OdinSon.Odinc
