import OdinSon.Lib.Leb128
import OdinSon.Lib.MachInt

/-!
# Operands of x86-64 instructions

How a processor in 64-bit mode reads the operands of an instruction: from the REX prefix, and the
ModRM byte with the SIB byte and the displacement after it.

The register numbers 4 and 5 are irregular.  In ModRM, 4 announces a SIB byte, and 5 without a
displacement means an address relative to the instruction pointer; in SIB, 4 means that there is no
index, and 5 without a displacement that there is no base.  A REX bit makes a register number that is
not 4 only for the index.
-/

namespace OdinSon.Lib.X86

open MachInt

/-- What an address is relative to. -/
inductive Base where
  | none
  | reg (index : ℕ)
  | rip
  deriving DecidableEq, Repr

/-- An operand in memory. -/
structure Mem where
  /-- What the address starts from. -/
  base : Base
  /-- The register that is scaled, if there is one. -/
  index : Option ℕ
  /-- What the index is multiplied with. -/
  scale : ℕ
  /-- The displacement. -/
  disp : ℤ
  deriving DecidableEq, Repr

/-- The operand that ModRM gives besides a register. -/
inductive Operand where
  | reg (index : ℕ)
  | mem (m : Mem)
  deriving DecidableEq, Repr

/-- What REX and ModRM say. -/
structure Operands where
  /-- `REX.W`. -/
  wide : Bool
  /-- The operand that is a register. -/
  reg : ℕ
  /-- The other operand. -/
  rm : Operand
  deriving DecidableEq, Repr

/-- The displacement of a mode. -/
def readDisp (mod : ℕ) (bytes : List UInt8) : Option (ℤ × List UInt8) :=
  match mod with
  | 0 => some (0, bytes)
  | 1 => (readLittleEndian 1 bytes).map fun p => (wrap 8 p.1, p.2)
  | _ + 2 => (readLittleEndian 4 bytes).map fun p => (wrap 32 p.1, p.2)

/-- The SIB byte and the displacement; `x` and `b` are bits of REX. -/
def readSib (x b mod : ℕ) : List UInt8 → Option (Mem × List UInt8)
  | [] => none
  | sib :: bytes =>
    let index := sib.toNat / 8 % 8 + 8 * x
    let index := if index = 4 then none else some index
    let scale := 2 ^ (sib.toNat / 64)
    if sib.toNat % 8 = 5 ∧ mod = 0 then
      (readDisp 2 bytes).map fun p => (⟨.none, index, scale, p.1⟩, p.2)
    else
      (readDisp mod bytes).map fun p => (⟨.reg (sib.toNat % 8 + 8 * b), index, scale, p.1⟩, p.2)

/-- What comes after ModRM. -/
def readRm (x b mod rm : ℕ) (bytes : List UInt8) : Option (Operand × List UInt8) :=
  if mod = 3 then some (.reg (rm + 8 * b), bytes)
  else if rm = 4 then (readSib x b mod bytes).map fun p => (.mem p.1, p.2)
  else if rm = 5 ∧ mod = 0 then
    (readDisp 2 bytes).map fun p => (.mem ⟨.rip, none, 1, p.1⟩, p.2)
  else (readDisp mod bytes).map fun p => (.mem ⟨.reg (rm + 8 * b), none, 1, p.1⟩, p.2)

/-- The operands of an instruction with this REX prefix, and the bytes after them. -/
def decode (rex : UInt8) : List UInt8 → Option (Operands × List UInt8)
  | [] => none
  | modRm :: bytes =>
    if rex.toNat / 16 = 4 then
      let bit := fun i => rex.toNat / 2 ^ i % 2
      (readRm (bit 1) (bit 0) (modRm.toNat / 64) (modRm.toNat % 8) bytes).map fun p =>
        (⟨bit 3 = 1, modRm.toNat / 8 % 8 + 8 * bit 2, p.1⟩, p.2)
    else none

section Disp

variable {dis : ℤ} (rest : List UInt8)

theorem readDisp_one (h : InS 8 dis) :
    readDisp 1 (littleEndian 1 (unsigned 8 dis) ++ rest) = some (dis, rest) := by
  have hlt : unsigned 8 dis < 256 ^ 1 := by
    rw [pow_one]
    exact unsigned_lt 8 dis
  have hwrap : wrap 8 (unsigned 8 dis) = dis := by
    rw [unsigned_cast]
    exact (Int.emod_bmod ..).trans (wrap_eq_self (by decide) h)
  rw [readDisp, readLittleEndian_littleEndian hlt, Option.map_some, hwrap]

theorem readDisp_two :
    readDisp 2 (littleEndian 4 (unsigned 32 dis) ++ rest) = some (wrap 32 dis, rest) := by
  have hlt : unsigned 32 dis < 256 ^ 4 := unsigned_lt 32 dis
  have hwrap : wrap 32 (unsigned 32 dis) = wrap 32 dis := by
    rw [unsigned_cast]
    exact Int.emod_bmod ..
  rw [readDisp, readLittleEndian_littleEndian hlt, Option.map_some, hwrap]

end Disp

end OdinSon.Lib.X86
