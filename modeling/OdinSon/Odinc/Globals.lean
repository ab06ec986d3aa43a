import OdinSon.Odinc.Types
import OdinSon.Lib.Bytes

/-!
# The memory of global initializers

`global_store` and `global_load` of `odinc/typecheck/globals.odin`.  A global has its bytes and a list
of relocations: a pointer into another global is eight zero bytes and a relocation at the first of
them, and so is a procedure, whose relocation has the largest offset.  A pointer to a fixed address
is to a global of its own, with alignment `0`, whose bytes are the address.

What is stored over a range takes its relocations out (`Global.overwrite`), so that the bytes and the
relocations of a range, its `cells`, are those that were stored last.
-/

namespace OdinSon.Odinc

open MachInt

/-- `Global_Dest`. -/
structure Dest where
  /-- The number of the global. -/
  idx : ℕ
  /-- The first byte. -/
  offset : ℕ
  deriving DecidableEq, Repr, Inhabited

/-- `Global_Reloc`. -/
structure Reloc where
  /-- Where the address is stored. -/
  inOffset : ℕ
  /-- The number of the global, or of the procedure. -/
  toIdx : ℕ
  /-- The offset in the global, `max(u32)` for a procedure. -/
  toOffset : ℕ
  deriving DecidableEq, Repr, Inhabited

/-- `Global_Data`. -/
structure Global where
  /-- The bytes. -/
  bytes : List ℕ
  /-- The alignment. -/
  align : ℕ
  /-- The addresses among the bytes. -/
  relocs : List Reloc := []
  deriving DecidableEq, Repr, Inhabited

/-- `ctx.globals`. -/
abbrev Globals := List Global

/-- `Lit`, by the member that the type of the value reads: a number in 64 bits (of a float, its bits),
a place, a procedure, or the text of a string. -/
inductive Lit where
  | bits (n : ℕ)
  | dest (d : Dest)
  | proc (id : ℕ)
  | string (data : List ℕ)
  deriving DecidableEq, Repr, Inhabited

/-- `Check_Meta` of a known value. -/
structure CheckMeta where
  /-- The type of the value. -/
  type : Ty
  /-- It is a place. -/
  lvalue : Bool
  /-- What is known of it. -/
  lit : Lit

/-- `meta.dest`. -/
def CheckMeta.dest (m : CheckMeta) : Dest :=
  match m.lit with
  | .dest d => d
  | _ => ⟨0, 0⟩

/-- `lcmeta`. -/
def lcmeta (ty : Ty) (dest : Dest) : CheckMeta := ⟨ty, true, .dest dest⟩

/-- Rounding of a double to a float and back, on their bits. -/
structure Floats where
  /-- From a double to a float. -/
  narrow : ℕ → ℕ
  /-- From a float to a double. -/
  widen : ℕ → ℕ
  narrow_lt : ∀ n, narrow n < 2 ^ 32

/-- `max(u32)`. -/
def maxU32 : ℕ := 2 ^ 32 - 1

/-- `off + u32(size)`, of 32 bits. -/
def add32 (off size : ℕ) : ℕ := (off + size) % 2 ^ 32

namespace Global

variable (g : Global)

def write (off : ℕ) (data : List ℕ) : Global := { g with bytes := splice g.bytes off data }

def addReloc (r : Reloc) : Global := { g with relocs := g.relocs ++ [r] }

/-- The relocations that start in the range. -/
def relocsIn (off size : ℕ) : List Reloc :=
  g.relocs.filter fun r => off ≤ r.inOffset && r.inOffset < add32 off size

def dropRelocs (off size : ℕ) : Global :=
  { g with relocs := g.relocs.filter fun r => !(off ≤ r.inOffset && r.inOffset < add32 off size) }

/-- `bytes[off:][:size]`. -/
def slice (off size : ℕ) : List ℕ := (g.bytes.drop off).take size

end Global

variable (fl : Floats)

/-- `tcmeta`. -/
def tcmeta (ty : Ty) (lit : Lit) : CheckMeta :=
  match ty, lit with
  | .prim .f32, .bits n => ⟨ty, false, .bits (fl.widen (fl.narrow n))⟩
  | _, _ => ⟨ty, false, lit⟩

variable (c : Globals)

def getGlobal (i : ℕ) : Global := c.getD i ⟨[], 0, []⟩

/-- `global_reloc`. -/
def globalReloc (dest target : Dest) : Option Globals := do
  guard (dest.offset + 8 ≤ (getGlobal c dest.idx).bytes.length)
  if (getGlobal c target.idx).align = 0 then
    let value := ofLE ((getGlobal c target.idx).bytes.take 8)
    let value := (value + target.offset) % 2 ^ 64
    return c.modify dest.idx (·.write dest.offset (toLE 8 value))
  let reloc : Reloc := ⟨dest.offset, target.idx, target.offset⟩
  return c.modify dest.idx fun g =>
    (g.addReloc reloc).write dest.offset (List.replicate 8 0)

/-- What `global_store` writes for a literal, when the relocations of the range are gone. -/
def storeLit (dest : Dest) (ty : Ty) : Lit → Option Globals
  | .dest d => if ty.isDataPointer then globalReloc c dest d else none
  | .proc id =>
    if ty.isProc then
      let c := c.modify dest.idx (·.write dest.offset (List.replicate ty.size 0))
      if id ≠ 0 then
        some (c.modify dest.idx (·.addReloc ⟨dest.offset, id, maxU32⟩))
      else some c
    else none
  | .string data =>
    if ty.isString then do
      let c ← globalReloc (c ++ [⟨data, 1, []⟩]) dest ⟨c.length, 0⟩
      return c.modify dest.idx (·.write (dest.offset + 8) (toLE 8 data.length))
    else none
  | .bits n =>
    let value := if ty.isF32 then fl.narrow n else n
    if ty.size ≤ 8 then some (c.modify dest.idx (·.write dest.offset (toLE ty.size value)))
    else none

/-- `global_store`; `none` where a slice is out of bounds or the assertion fails. -/
def globalStore (dest : Dest) (m : CheckMeta) : Option Globals := do
  if m.lvalue = true ∧ m.dest = dest then
    return c
  let source := getGlobal c m.dest.idx
  let size := m.type.size
  let c := c.modify dest.idx (·.dropRelocs dest.offset size)
  guard (dest.idx < c.length ∧ dest.offset + size ≤ (getGlobal c dest.idx).bytes.length)
  if m.lvalue then
    guard (m.dest.offset + size ≤ source.bytes.length)
    let relocs := (source.relocsIn m.dest.offset size).map fun r =>
      { r with inOffset := add32 dest.offset (r.inOffset - m.dest.offset) }
    return c.modify dest.idx fun g =>
      let g := g.write dest.offset (source.slice m.dest.offset size)
      { g with relocs := g.relocs ++ relocs }
  else
    storeLit fl c dest m.type m.lit

/-- The value of a number type from its bytes: floats are kept as doubles, signed numbers are sign
extended. -/
def loadNumber (ty : Ty) (value : ℕ) : ℕ :=
  match ty with
  | .prim .f32 => fl.widen value
  | _ =>
    if ty.base.isSigned then
      let shift := 64 - ty.size * 8
      u64 (shr64 (shl64 (i64 value) shift) shift)
    else value

/-- What `global_load` reads at a place; `none` where it reports an error. -/
def loadAt (ty : Ty) (dest : Dest) : Option (Globals × CheckMeta) := do
  let global := getGlobal c dest.idx
  guard (global.align ≠ 0 ∧ dest.offset + ty.size ≤ global.bytes.length)
  match global.relocs.find? fun r => r.inOffset = dest.offset with
  | some rel =>
    if rel.toOffset = maxU32 then
      return (c, tcmeta fl ty (.proc rel.toIdx))
    return (c, tcmeta fl ty (.dest ⟨rel.toIdx, rel.toOffset⟩))
  | none =>
    let value := ofLE ((global.slice dest.offset ty.size).take 8)
    if ty.isDataPointer then
      return (c ++ [⟨toLE 8 value, 0, []⟩], tcmeta fl ty (.dest ⟨c.length, 0⟩))
    if ty.isProc then
      return (c, tcmeta fl ty (.proc value))
    return (c, tcmeta fl ty (.bits (loadNumber fl ty value)))

/-- `global_load`: an aggregate stays where it is. -/
def globalLoad (m : CheckMeta) : Option (Globals × CheckMeta) :=
  if m.lvalue = false ∨ m.type.dt = .void then some (c, m) else loadAt fl c m.type m.dest

end OdinSon.Odinc
