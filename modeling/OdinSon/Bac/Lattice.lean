import OdinSon.Bac.Datatype

/-!
# The value lattice of the sparse conditional constant propagation

`bac/sccp.odin`: a `Lattice` is a record whose `type` says which of the other fields carry
information.  `Top` is the empty record (no value seen yet) and `Bot` stands for every value;
in between lie integer intervals, float flags, control liveness and memory.

`latticeMeet` goes down towards `Bot`, so the set of values it stands for grows; `isa a b` says
that `b` covers `a`.  The counter `widens` takes no part in that order.
-/

namespace OdinSon

open MachInt

/-- `Lattice_Type`. -/
inductive LatticeType where
  | top | int | float | ctlr | mem | bot
  deriving DecidableEq, Repr, Inhabited

/-- `Lattice`: `min` and `max` are `i64` values. -/
@[ext]
structure Lattice where
  /-- The least value of an integer. -/
  min : ℤ := 0
  /-- The greatest value of an integer. -/
  max : ℤ := 0
  /-- The kind of the fact. -/
  type : LatticeType := .top
  /-- A float is not a NaN. -/
  isNotNan : Bool := false
  /-- A float is not `-∞`. -/
  isNotNinf : Bool := false
  /-- A float is not `∞`. -/
  isNotPinf : Bool := false
  /-- A float is not a zero. -/
  isNotZero : Bool := false
  /-- A float is a NaN. -/
  isNan : Bool := false
  /-- A control node is not reached. -/
  dead : Bool := false
  /-- How often the range has been widened. -/
  widens : ℕ := 0
  deriving DecidableEq, Repr, Inhabited

namespace Lattice

/-- An integer interval. -/
def ofBounds (lo hi : ℤ) : Lattice := { type := .int, min := lo, max := hi }

/-- The lattice of a control node. -/
def ofCtrl (dead : Bool) : Lattice := { type := .ctlr, dead := dead }

/-- The integer `x` is in the interval of `l`. -/
def Contains (l : Lattice) (x : ℤ) : Prop := l.min ≤ x ∧ x ≤ l.max

instance (l : Lattice) (x : ℤ) : Decidable (l.Contains x) := inferInstanceAs (Decidable (_ ∧ _))

end Lattice

/-- `lattice_meet`. -/
def latticeMeet (a b : Lattice) : Lattice :=
  if a.type = .top ∨ b.type = .bot then b
  else if b.type = .top ∨ a.type = .bot then a
  else if a.type ≠ b.type then { type := .bot }
  else match a.type with
    | .int => { type := .int, min := min a.min b.min, max := max a.max b.max }
    | .float =>
      { type := .float
        isNotNan := a.isNotNan && b.isNotNan
        isNotNinf := a.isNotNinf && b.isNotNinf
        isNotPinf := a.isNotPinf && b.isNotPinf
        isNotZero := a.isNotZero && b.isNotZero
        isNan := a.isNan && b.isNan }
    | .ctlr => { type := .ctlr, dead := a.dead && b.dead }
    | t => { type := t }

/-- `DT_TO_LATTICE`: everything a node of the datatype can be. -/
def dtToLattice : Datatype → Lattice
  | .i8 => { type := .int, min := -2 ^ 7, max := 2 ^ 7 - 1 }
  | .i16 => { type := .int, min := -2 ^ 15, max := 2 ^ 15 - 1 }
  | .i32 => { type := .int, min := -2 ^ 31, max := 2 ^ 31 - 1 }
  | .i64 => { type := .int, min := -2 ^ 63, max := 2 ^ 63 - 1 }
  | .f32 | .f64 => { type := .float }
  | .void | .mem | .v128 | .v256 | .v512 => { type := .bot }

/-- `lattice_dual`. -/
def latticeDual (v : Lattice) : Lattice :=
  match v.type with
  | .top => { v with type := .bot }
  | .mem => v
  | .int => { v with min := v.max, max := v.min }
  | .float =>
    { v with
      isNotNan := !v.isNotNan
      isNotNinf := !v.isNotNinf
      isNotPinf := !v.isNotPinf
      isNotZero := !v.isNotZero
      isNan := !v.isNan }
  | .ctlr => { v with dead := !v.dead }
  | .bot => { v with type := .top }

/-- `isa`. -/
def isa (this that : Lattice) : Bool :=
  let that := { that with widens := 0 }
  latticeMeet this that == that

/-- `lattice_join`. -/
def latticeJoin (a b : Lattice) : Lattice :=
  let res := latticeDual (latticeMeet (latticeDual a) (latticeDual b))
  if (res.type = .int ∧ res.min > res.max) ∨ (res.type = .float ∧ res.isNan ∧ res.isNotNan) then {}
  else res

/-! ### The lattice of a datatype -/

theorem dtToLattice_float {dt : Datatype} (h : dt.isFloat = true) :
    dtToLattice dt = { type := .float } := by
  cases dt <;> first | rfl | cases h

theorem dtToLattice_other {dt : Datatype} (h : dt.isInt = false) (h' : dt.isFloat = false) :
    dtToLattice dt = { type := .bot } := by
  cases dt <;> simp_all [Datatype.isInt, Datatype.isFloat, dtToLattice]

section IntDatatype

variable {dt : Datatype} (h : dt.isInt = true)

include h

theorem dtToLattice_type : (dtToLattice dt).type = .int := by
  obtain rfl | rfl | rfl | rfl := Datatype.isInt_cases h <;> rfl

theorem dtToLattice_min : (dtToLattice dt).min = -2 ^ (dt.bits - 1) := by
  obtain rfl | rfl | rfl | rfl := Datatype.isInt_cases h <;> rfl

theorem dtToLattice_max : (dtToLattice dt).max = 2 ^ (dt.bits - 1) - 1 := by
  obtain rfl | rfl | rfl | rfl := Datatype.isInt_cases h <;> rfl

theorem dtToLattice_contains_iff {x : ℤ} : (dtToLattice dt).Contains x ↔ InS dt.bits x := by
  rw [Lattice.Contains, InS, dtToLattice_min h, dtToLattice_max h, Int.le_sub_one_iff]

/-- An integer lattice is below that of the datatype exactly when its bounds are. -/
theorem isa_dtToLattice_iff {l : Lattice} (hl : l.type = .int) :
    isa l (dtToLattice dt) = true ↔
      (dtToLattice dt).min ≤ l.min ∧ l.max ≤ (dtToLattice dt).max := by
  obtain rfl | rfl | rfl | rfl := Datatype.isInt_cases h <;>
    simp [isa, latticeMeet, dtToLattice, hl]

end IntDatatype

end OdinSon
