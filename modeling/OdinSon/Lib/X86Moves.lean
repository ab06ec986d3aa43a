import OdinSon.Lib.Placement
import Mathlib.Data.BitVec
import Mathlib.Logic.Function.Basic

/-!
# Moves of x86-64

The instructions that a compiler needs to move a value between registers, flags and the stack: the
moves of general registers, those of vector registers of SSE, comparisons with zero, and `setcc`.
Registers are bytes, since a move of one width leaves other bytes alone, or clears them, by rules of
its own: an instruction of 32 bits clears the upper half of a general register, a scalar load clears
the rest of the lower 16 bytes of a vector register, and a scalar move between registers does not.
-/

namespace OdinSon.Lib.X86

/-- The flags that conditions look at. -/
structure Flags where
  /-- Zero. -/
  zf : Bool
  /-- Parity. -/
  pf : Bool
  /-- Carry. -/
  cf : Bool
  /-- Sign. -/
  sf : Bool
  /-- Overflow. -/
  of : Bool
  deriving DecidableEq

/-- A condition, by the four bits of its code. -/
def Flags.holds (f : Flags) (cc : ℕ) : Bool :=
  let positive := match cc / 2 with
    | 0 => f.of
    | 1 => f.cf
    | 2 => f.zf
    | 3 => f.cf || f.zf
    | 4 => f.sf
    | 5 => f.pf
    | 6 => f.sf != f.of
    | _ => f.zf || f.sf != f.of
  if cc % 2 = 0 then positive else !positive

/-- The state. -/
structure Cpu where
  /-- The general registers, by their bytes. -/
  gpr : ℕ → ℕ → BitVec 8
  /-- The vector registers, by their bytes. -/
  vec : ℕ → ℕ → BitVec 8
  /-- The flags. -/
  flags : Flags
  /-- The memory from the stack pointer on. -/
  mem : ℤ → BitVec 8

/-- The operand that ModRM gives besides a register, with the stack pointer as the only base. -/
inductive Place where
  | reg (index : ℕ)
  | stack (off : ℤ)
  deriving DecidableEq

/-- An instruction, by its parts. -/
structure Insn where
  /-- The prefix of SSE or of 16 bits. -/
  pfx : ℕ := 0
  /-- The `W` of REX, if there is one. -/
  rex : Option Bool := none
  /-- The opcode. -/
  opcode : ℕ
  /-- The operand that is a register. -/
  reg : ℕ := 0
  /-- The other operand. -/
  rm : Place
  /-- The constant. -/
  imm : ℕ := 0
  deriving DecidableEq

namespace Insn

variable (i : Insn)

/-- The bytes of the operands of a general instruction. -/
def width : ℕ := if i.rex = some true then 8 else if i.pfx = 0x66 then 2 else 4

/-- The bytes that a move of SSE moves. -/
def vecWidth : ℕ := if i.pfx = 0xF3 then 4 else if i.pfx = 0xF2 then 8 else 16

/-- The low byte of a general register can be named: without REX, the numbers from 4 on mean others. -/
def namesByte : Bool := i.rex.isSome || match i.rm with
  | .reg r => r < 4
  | .stack _ => true

end Insn

namespace Cpu

variable (st : Cpu)

/-- The bytes of an operand in a general register or in memory. -/
def read : Place → ℕ → BitVec 8
  | .reg r => st.gpr r
  | .stack off => fun k => st.mem (off + k)

/-- Write the first `n` bytes of a general register; 4 bytes clear the others. -/
def writeGpr (r n : ℕ) (bytes : ℕ → BitVec 8) : Cpu :=
  { st with gpr := Function.update st.gpr r fun k =>
      if k < n then bytes k else if n = 4 ∧ k < 8 then 0 else st.gpr r k }

/-- Write the first `n` bytes of a vector register. -/
def writeVec (r n : ℕ) (bytes : ℕ → BitVec 8) : Cpu :=
  { st with vec := Function.update st.vec r fun k => if k < n then bytes k else st.vec r k }

/-- Write `n` bytes of memory. -/
def writeMem (off : ℤ) (n : ℕ) (bytes : ℕ → BitVec 8) : Cpu :=
  { st with mem := fun a =>
      if off ≤ a ∧ a < off + n then bytes (a - off).toNat else st.mem a }

/-- Write an operand in a general register or in memory. -/
def write : Place → ℕ → (ℕ → BitVec 8) → Cpu
  | .reg r, n, bytes => st.writeGpr r n bytes
  | .stack off, n, bytes => st.writeMem off n bytes

/-- The flags that a comparison of `n` bytes with zero leaves. -/
def testFlags (n : ℕ) (bytes : ℕ → BitVec 8) : Flags where
  zf := (List.range n).all fun k => bytes k = 0
  pf := ((List.range 8).countP fun j => (bytes 0).getLsbD j) % 2 = 0
  cf := false
  sf := (bytes (n - 1)).getLsbD 7
  of := false

/-- One byte of a constant, or zeros. -/
def immBytes (imm : ℕ) (k : ℕ) : BitVec 8 := if k = 0 then BitVec.ofNat 8 imm else 0

/-- What an instruction does; `none` where it is none of these.  A constant of more than a byte is
zero here. -/
def exec (i : Insn) : Option Cpu :=
  match i.opcode with
  | 0x89 => some (st.write i.rm i.width (st.gpr i.reg))
  | 0x8B => some (st.writeGpr i.reg i.width (st.read i.rm))
  -- `test` of a register with itself
  | 0x85 => if i.rm = .reg i.reg then
      some { st with flags := testFlags i.width (st.read i.rm) } else none
  | 0x84 => if i.rm = .reg i.reg ∧ i.namesByte then
      some { st with flags := testFlags 1 (st.read i.rm) } else none
  -- `cmp` with zero
  | 0x81 => if i.reg = 7 ∧ i.imm = 0 then
      some { st with flags := testFlags i.width (st.read i.rm) } else none
  | 0x80 => if i.reg = 7 ∧ i.imm = 0 ∧ i.namesByte then
      some { st with flags := testFlags 1 (st.read i.rm) } else none
  | 0xC7 => if i.reg = 0 ∧ i.imm = 0 then some (st.write i.rm i.width (immBytes 0)) else none
  | 0xC6 => if i.reg = 0 ∧ i.namesByte then some (st.write i.rm 1 (immBytes i.imm)) else none
  -- `mov` of a byte to the register that the opcode names
  | 0xB0 => if i.namesByte then some (st.write i.rm 1 (immBytes i.imm)) else none
  | 0x0FB6 => if i.namesByte then
      some (st.writeGpr i.reg 4 fun k => if k = 0 then st.read i.rm 0 else 0) else none
  | 0x0F10 => match i.rm with
    | .reg r => some (st.writeVec i.reg i.vecWidth (st.vec r))
    | .stack off => some (st.writeVec i.reg 16 fun k =>
        if k < i.vecWidth then st.mem (off + k) else 0)
  | 0x0F11 => match i.rm with
    | .reg r => some (st.writeVec r i.vecWidth (st.vec i.reg))
    | .stack off => some (st.writeMem off i.vecWidth (st.vec i.reg))
  | op =>
    -- `setcc`
    if 0x0F90 ≤ op ∧ op < 0x0FA0 ∧ i.namesByte then
      some (st.write i.rm 1 (immBytes (st.flags.holds (op - 0x0F90)).toNat))
    else none

end Cpu

/-- Straight code, but for a jump over some instructions when the parity flag is off (`jnp`). -/
inductive Code where
  | instr (i : Insn)
  | jnpOver (body : List Insn)

namespace Cpu

/-- Instructions in order. -/
def execAll : List Insn → Cpu → Option Cpu
  | [], st => some st
  | i :: is, st => (st.exec i).bind (execAll is)

/-- Code from its start to its end. -/
def run : List Code → Cpu → Option Cpu
  | [], st => some st
  | .instr i :: code, st => (st.exec i).bind (run code)
  | .jnpOver body :: code, st =>
    if st.flags.pf then (execAll body st).bind (run code) else run code st

theorem run_append (code code' : List Code) (st : Cpu) :
    run (code ++ code') st = (run code st).bind (run code') := by
  induction code generalizing st with
  | nil => rfl
  | cons c code ih =>
    cases c with
    | instr i =>
      rw [List.cons_append, run, run]
      cases st.exec i with
      | none => rfl
      | some st₁ => exact ih st₁
    | jnpOver body =>
      rw [List.cons_append, run, run]
      split
      · cases execAll body st with
        | none => rfl
        | some st₁ => exact ih st₁
      · exact ih st

/-! ### What a write leaves -/

variable {st : Cpu} {r n : ℕ} {off a : ℤ} {bytes : ℕ → BitVec 8}

@[simp] theorem writeGpr_mem : (st.writeGpr r n bytes).mem = st.mem := rfl

@[simp] theorem writeGpr_flags : (st.writeGpr r n bytes).flags = st.flags := rfl

@[simp] theorem writeMem_gpr : (st.writeMem off n bytes).gpr = st.gpr := rfl

@[simp] theorem writeMem_flags : (st.writeMem off n bytes).flags = st.flags := rfl

theorem writeGpr_self {k : ℕ} (h : k < n) : (st.writeGpr r n bytes).gpr r k = bytes k := by
  simp [writeGpr, h]

theorem writeGpr_of_ne {r' : ℕ} (h : r' ≠ r) : (st.writeGpr r n bytes).gpr r' = st.gpr r' := by
  simp [writeGpr, h]

theorem writeVec_self {k : ℕ} (h : k < n) : (st.writeVec r n bytes).vec r k = bytes k := by
  simp [writeVec, h]

theorem writeVec_of_ne {r' : ℕ} (h : r' ≠ r) : (st.writeVec r n bytes).vec r' = st.vec r' := by
  simp [writeVec, h]

theorem writeMem_of_mem (h : a ∈ (⟨off, n⟩ : Area)) :
    (st.writeMem off n bytes).mem a = bytes (a - off).toNat := if_pos h

theorem writeMem_self {k : ℕ} (h : k < n) : (st.writeMem off n bytes).mem (off + k) = bytes k := by
  have hmem : off + k ∈ (⟨off, n⟩ : Area) := by
    rw [Area.mem_def]
    simp only [Area.stop]
    omega
  rw [writeMem_of_mem hmem, add_sub_cancel_left, Int.toNat_natCast]

/-- A byte outside of what is written stays. -/
theorem writeMem_of_notMem (h : a ∉ (⟨off, n⟩ : Area)) :
    (st.writeMem off n bytes).mem a = st.mem a := if_neg h

/-- The second of two writes at one place counts. -/
theorem writeMem_writeMem {m : ℕ} {bytes' : ℕ → BitVec 8} (h : n ≤ m) :
    (st.writeMem off m bytes').writeMem off n bytes =
      st.writeMem off m fun k => if k < n then bytes k else bytes' k := by
  have hmem : ((st.writeMem off m bytes').writeMem off n bytes).mem =
      (st.writeMem off m fun k => if k < n then bytes k else bytes' k).mem := by
    funext a
    simp only [writeMem]
    grind
  simp only [writeMem, Cpu.mk.injEq, true_and] at hmem ⊢
  exact hmem

theorem writeGpr_writeGpr {m : ℕ} {bytes' : ℕ → BitVec 8} (h : n ≤ m) (hn : n ≠ 4) :
    (st.writeGpr r n bytes').writeGpr r m bytes = st.writeGpr r m bytes := by
  simp only [writeGpr, Function.update_idem, Function.update_self, Cpu.mk.injEq, and_true]
  congr 1
  funext k
  grind

/-- A byte written over a constant. -/
theorem writeMem_immBytes {x y : ℕ} (h : 0 < n) :
    (st.writeMem off n (immBytes x)).writeMem off 1 (immBytes y) =
      st.writeMem off n (immBytes y) := by
  rw [writeMem_writeMem h]
  congr 1
  funext k
  by_cases hk : k < 1
  · exact if_pos hk
  · simp [immBytes, Nat.lt_one_iff.not.1 hk]

/-- `movzx` after a write of the byte. -/
theorem exec_movzx {x : ℕ} :
    (st.writeGpr r 1 (immBytes x)).exec
      { rex := some false, opcode := 0x0FB6, reg := r, rm := .reg r } =
      some (st.writeGpr r 4 (immBytes x)) := by
  have hbytes : (fun k => if k = 0 then (st.writeGpr r 1 (immBytes x)).read (.reg r) 0 else 0) =
      immBytes x := by
    funext k
    rw [read, writeGpr_self Nat.one_pos]
    by_cases hk : k = 0 <;> simp [immBytes, hk]
  refine congrArg some ?_
  rw [hbytes]
  exact writeGpr_writeGpr (by decide) (by decide)

theorem zf_testFlags : (testFlags n bytes).zf = true ↔ ∀ k < n, bytes k = 0 := by
  simp [testFlags]

/-- `setcc` writes the truth of its condition. -/
theorem exec_setcc {i : Insn} {cc : ℕ} (hcc : cc < 16) (hop : i.opcode = 0x0F90 + cc)
    (hb : i.namesByte = true) :
    st.exec i = some (st.write i.rm 1 (immBytes (st.flags.holds cc).toNat)) := by
  unfold exec
  split <;> try omega
  rw [if_pos ⟨by omega, by omega, hb⟩, hop, Nat.add_sub_cancel_left]

end Cpu

end OdinSon.Lib.X86
