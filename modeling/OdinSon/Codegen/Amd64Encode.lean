import OdinSon.Codegen.Frame
import OdinSon.Lib.X86Operand

/-!
# Encoding the operands of amd64 instructions

`rex` and `emit_indirect_addr` of `bac/amd64/amd64.odin`, and what a processor reads from their
bytes.  A register operand and an address of a base register come back as they are, whichever
registers they have (`emitIndirectAddr_decode`).

An address relative to the instruction pointer has no room for an index.  It is only made for
globals, without an index, and its displacement counts from the end of the instruction.
-/

namespace OdinSon.Codegen.Amd64

open Lib Lib.X86 MachInt

/-- A general register. -/
def gpr (index : ℕ) : Reg := ⟨.general, index⟩

/-- `RSP`. -/
def rsp : Reg := gpr 4

/-- `RBP`. -/
def rbp : Reg := gpr 5

/-- `R12`. -/
def r12 : Reg := gpr 12

/-- `R13`. -/
def r13 : Reg := gpr 13

/-- `RIP`. -/
def rip : Reg := rbp

/-- `NO_INDEX`. -/
def noIndex : Reg := rsp

/-- `Mod`. -/
inductive Mod where
  | indirect | indirectDisp8 | indirectDisp32 | direct
  deriving DecidableEq, Repr

/-- The two bits of a `Mod`. -/
def Mod.bits : Mod → ℕ
  | .indirect => 0
  | .indirectDisp8 => 1
  | .indirectDisp32 => 2
  | .direct => 3

/-- `rex`. -/
def rex (reg ptr idx : Reg) (wide : Bool) : UInt8 :=
  UInt8.ofNat (64 + (if wide then 8 else 0) + (if 8 ≤ reg.index then 4 else 0) +
    (if 8 ≤ idx.index then 2 else 0) + if 8 ≤ ptr.index then 1 else 0)

/-- `mod_rm`: fields of three, three and two bits. -/
def modRm (mod : Mod) (reg rM : Reg) : UInt8 :=
  UInt8.ofNat (rM.index % 8 + 8 * (reg.index % 8) + 64 * mod.bits)

/-- `sib`, with its assertion on the scale. -/
def sib (base index : Reg) (scale : ℕ) : Option UInt8 :=
  if scale ∈ [1, 2, 4, 8] then
    some (UInt8.ofNat (base.index % 8 + 8 * (index.index % 8) + 64 * scale.log2))
  else none

/-- `mod_from_dis`. -/
def modFromDis (dis : ℤ) : Mod :=
  if dis = 0 then .indirect
  else if -128 ≤ dis ∧ dis < 127 then .indirectDisp8
  else .indirectDisp32

/-- `Reloc_Kind`. -/
inductive RelocKind where
  | text | got | global
  deriving DecidableEq, Repr

/-- A `Reloc` of size `.r32`. -/
structure Reloc where
  /-- The end of the four bytes. -/
  offset : ℕ
  /-- What the bytes refer to. -/
  kind : RelocKind
  /-- Which one of that kind. -/
  id : ℕ
  deriving DecidableEq, Repr

/-- The mode of an address.  There is none for `R13` and `RBP` without a displacement. -/
def addrMod (base : Reg) (dis : ℤ) (reloc : ℕ) : Mod :=
  if reloc ≠ 0 then .indirect
  else if modFromDis dis = .indirect ∧ (base = r13 ∨ base = rbp) then .indirectDisp8
  else modFromDis dis

/-- ModRM and SIB of an address. -/
def emitRegs (mod : Mod) (reg base index : Reg) (scl : ℕ) : Option (List UInt8) :=
  if index ≠ noIndex ∨ (base = rsp ∨ base = r12) ∨ scl ≠ 1 then
    (sib base index scl).map fun b => [modRm mod reg rsp, b]
  else some [modRm mod reg base]

/-- The displacement of an address. -/
def emitDisp (dis timm : ℤ) (reloc : ℕ) : Mod → Option (List UInt8)
  | .indirect => some (if reloc ≠ 0 then littleEndian 4 (unsigned 32 (dis - timm)) else [])
  | .indirectDisp8 => some (littleEndian 1 (unsigned 8 dis))
  | .indirectDisp32 => some (littleEndian 4 (unsigned 32 dis))
  | .direct => none

/-- `emit_indirect_addr_reg` at the position `pos` of the code: the bytes and the relocation. -/
def emitIndirectAddr (pos : ℕ) (reg base index : Reg) (scale : ℕ) (dis : ℤ) (reloc : ℕ)
    (trailingImm : ℤ) (kind : RelocKind) : Option (List UInt8 × Option Reloc) := do
  guard (reloc ≠ 0 → base = rip)
  let mod := addrMod base dis reloc
  let regs ← emitRegs mod reg base index (max scale 1)
  let disp ← emitDisp dis (min trailingImm 4) reloc mod
  let bytes := regs ++ disp
  return (bytes, if reloc ≠ 0 then some ⟨pos + bytes.length, kind, (reloc - 1) % 2 ^ 26⟩ else none)

/-! ### What the bytes say -/

section Bytes

variable {reg base index rM : Reg} {wide : Bool} {mod : Mod} (bytes : List UInt8)

theorem toNat_rex (reg ptr idx : Reg) (wide : Bool) :
    (rex reg ptr idx wide).toNat = 64 + (if wide then 8 else 0) +
      (if 8 ≤ reg.index then 4 else 0) + (if 8 ≤ idx.index then 2 else 0) +
      if 8 ≤ ptr.index then 1 else 0 := by
  refine toNat_ofNat_of_lt ?_
  split_ifs <;> decide

theorem Mod.bits_lt (mod : Mod) : mod.bits < 4 := by
  cases mod <;> decide

theorem toNat_modRm : (modRm mod reg rM).toNat =
    rM.index % 8 + 8 * (reg.index % 8) + 64 * mod.bits := by
  have h := mod.bits_lt
  exact toNat_ofNat_of_lt (by omega)

/-- REX and ModRM give the number of the register, and their parts of the other ones. -/
theorem decode_rex (hreg : reg.index < 16) (hbase : base.index < 16) (hindex : index.index < 16) :
    decode (rex reg base index wide) (modRm mod reg rM :: bytes) =
      (readRm (index.index / 8) (base.index / 8) mod.bits (rM.index % 8) bytes).map fun p =>
        (⟨wide, reg.index, p.1⟩, p.2) := by
  have hbits := mod.bits_lt
  have hrex := toNat_rex reg base index wide
  have hmodRm := @toNat_modRm reg rM mod
  have hhigh : (rex reg base index wide).toNat / 16 = 4 := by
    rw [hrex]
    split_ifs <;> rfl
  have hw : decide ((rex reg base index wide).toNat / 2 ^ 3 % 2 = 1) = wide := by
    rw [hrex]
    cases wide <;> simp only [if_true, if_false, Bool.false_eq_true] <;> split_ifs <;> rfl
  have hr : (rex reg base index wide).toNat / 2 ^ 2 % 2 = reg.index / 8 := by
    rw [hrex]
    split_ifs <;> omega
  have hx : (rex reg base index wide).toNat / 2 ^ 1 % 2 = index.index / 8 := by
    rw [hrex]
    split_ifs <;> omega
  have hb : (rex reg base index wide).toNat / 2 ^ 0 % 2 = base.index / 8 := by
    rw [hrex]
    split_ifs <;> omega
  have hmod : (modRm mod reg rM).toNat / 64 = mod.bits := by omega
  have hrm : (modRm mod reg rM).toNat % 8 = rM.index % 8 := by omega
  have hreg : (modRm mod reg rM).toNat / 8 % 8 + 8 * (reg.index / 8) = reg.index := by omega
  simp only [decode, if_pos hhigh, hw, hr, hx, hb, hmod, hrm, hreg]

/-- SIB gives the registers and the scale, unless it has no base. -/
theorem readSib_sib {scale : ℕ} {sibByte : UInt8} (h : sib base index scale = some sibByte)
    (m : ℕ) (hbp : m = 0 → base.index % 8 ≠ 5) :
    readSib (index.index / 8) (base.index / 8) m (sibByte :: bytes) =
      (readDisp m bytes).map fun p =>
        (⟨.reg base.index, if index.index = 4 then none else some index.index, scale, p.1⟩,
          p.2) := by
  obtain ⟨hscale, hsib⟩ := Option.ite_none_right_eq_some.1 h
  obtain rfl := Option.some.inj hsib
  have hlog : scale.log2 < 4 ∧ 2 ^ scale.log2 = scale := by
    simp only [List.mem_cons, List.not_mem_nil, or_false] at hscale
    obtain rfl | rfl | rfl | rfl := hscale <;> decide
  have hbyte : (UInt8.ofNat (base.index % 8 + 8 * (index.index % 8) + 64 * scale.log2)).toNat =
      base.index % 8 + 8 * (index.index % 8) + 64 * scale.log2 :=
    toNat_ofNat_of_lt (by omega)
  have hlow : (base.index % 8 + 8 * (index.index % 8) + 64 * scale.log2) % 8 = base.index % 8 := by
    omega
  have hidx : (base.index % 8 + 8 * (index.index % 8) + 64 * scale.log2) / 8 % 8 +
      8 * (index.index / 8) = index.index := by omega
  have hscl : (base.index % 8 + 8 * (index.index % 8) + 64 * scale.log2) / 64 = scale.log2 := by
    omega
  have hno : ¬(base.index % 8 = 5 ∧ m = 0) := fun ⟨h₁, h₂⟩ => hbp h₂ h₁
  have hreg : base.index % 8 + 8 * (base.index / 8) = base.index := Nat.mod_add_div ..
  simp only [readSib, hbyte, hlow, hidx, hscl, if_neg hno, hreg, hlog.2]

end Bytes

theorem mem_scales {scale : ℕ} (h : scale ∈ [0, 1, 2, 4, 8]) : max scale 1 ∈ [1, 2, 4, 8] := by
  simp only [List.mem_cons, List.not_mem_nil, or_false] at h
  obtain rfl | rfl | rfl | rfl | rfl := h <;> decide

section Address

variable {reg base index : Reg} {wide : Bool} {dis : ℤ}

/-- The registers and the scale come back, in every mode that the base has. -/
theorem decode_emitRegs (wide : Bool) {mod : Mod} {scl : ℕ} (hreg : reg.index < 16) (hbase : base.index < 16)
    (hindex : index.index < 16) (hb : base.kind = .general) (hi : index.kind = .general)
    (hscl : scl ∈ [1, 2, 4, 8]) (hmod : mod.bits ≠ 3)
    (hbp : mod.bits = 0 → base.index % 8 ≠ 5) :
    ∃ regs, emitRegs mod reg base index scl = some regs ∧
      ∀ bytes, decode (rex reg base index wide) (regs ++ bytes) =
        (readDisp mod.bits bytes).map fun p =>
          (⟨wide, reg.index, .mem ⟨.reg base.index,
            if index = noIndex then none else some index.index, scl, p.1⟩⟩, p.2) := by
  have hno : index = noIndex ↔ index.index = 4 := by
    obtain ⟨k, i⟩ := index
    obtain rfl : k = .general := hi
    simp [noIndex, rsp, gpr]
  by_cases hsib : index ≠ noIndex ∨ (base = rsp ∨ base = r12) ∨ scl ≠ 1
  · obtain ⟨b, hb'⟩ : ∃ b, sib base index scl = some b := ⟨_, if_pos hscl⟩
    refine ⟨[modRm mod reg rsp, b], by rw [emitRegs, if_pos hsib, hb', Option.map_some],
      fun bytes => ?_⟩
    rw [List.cons_append, decode_rex _ hreg hbase hindex, readRm, if_neg hmod,
      if_pos (show rsp.index % 8 = 4 from rfl),
      List.singleton_append, readSib_sib _ hb' _ hbp, Option.map_map, Option.map_map]
    simp only [Function.comp_def, hno]
  · have hone : scl = 1 := not_not.1 fun h => hsib (.inr (.inr h))
    have hnone : index = noIndex := not_not.1 fun h => hsib (.inl h)
    have hfour : base.index % 8 ≠ 4 := by
      intro h
      refine hsib (.inr (.inl ?_))
      obtain ⟨k, i⟩ := base
      obtain rfl : k = .general := hb
      have : i = 4 ∨ i = 12 := by
        simp only at h hbase
        omega
      obtain rfl | rfl := this
      · exact .inl rfl
      · exact .inr rfl
    refine ⟨[modRm mod reg base], by rw [emitRegs, if_neg hsib], fun bytes => ?_⟩
    have hno5 : ¬(base.index % 8 = 5 ∧ mod.bits = 0) := fun ⟨h₁, h₂⟩ => hbp h₂ h₁
    rw [List.singleton_append, decode_rex _ hreg hbase hindex, readRm, if_neg hmod,
      if_neg hfour, if_neg hno5, Option.map_map, Nat.mod_add_div, hone, if_pos hnone]
    rfl

/-- The displacement comes back in the mode of the address. -/
theorem readDisp_emitDisp (base : Reg) (hdis : InS 32 dis) (timm : ℤ) :
    ∃ disp, emitDisp dis timm 0 (addrMod base dis 0) = some disp ∧
      ∀ rest, readDisp (addrMod base dis 0).bits (disp ++ rest) = some (dis, rest) := by
  have hmod : addrMod base dis 0 = if modFromDis dis = .indirect ∧ (base = r13 ∨ base = rbp) then
      .indirectDisp8 else modFromDis dis := if_neg (not_not.2 rfl)
  rw [hmod]
  by_cases hzero : dis = 0
  · subst hzero
    split_ifs
    · exact ⟨_, rfl, fun rest => readDisp_one rest (by decide)⟩
    · exact ⟨[], rfl, fun rest => rfl⟩
  · by_cases hsmall : -128 ≤ dis ∧ dis < 127
    · have h8 : modFromDis dis = .indirectDisp8 := by rw [modFromDis, if_neg hzero, if_pos hsmall]
      rw [h8, if_neg (by simp)]
      exact ⟨_, rfl, fun rest => readDisp_one rest ⟨hsmall.1, by omega⟩⟩
    · have h32 : modFromDis dis = .indirectDisp32 := by
        rw [modFromDis, if_neg hzero, if_neg hsmall]
      rw [h32, if_neg (by simp)]
      refine ⟨_, rfl, fun rest => ?_⟩
      rw [← wrap_eq_self (by decide) hdis]
      exact (readDisp_two rest).trans (by rw [wrap_wrap_of_le le_rfl])

theorem addrMod_bits_ne (dis : ℤ) : (addrMod base dis 0).bits ≠ 3 := by
  have h (mod : Mod) : mod ≠ .direct → mod.bits ≠ 3 := by cases mod <;> decide
  refine h _ ?_
  rw [addrMod, modFromDis]
  split_ifs <;> simp

theorem addrMod_bits_zero (hbase : base.index < 16) (hb : base.kind = .general)
    (h : (addrMod base dis 0).bits = 0) : base.index % 8 ≠ 5 := by
  intro hfive
  have hbp : base = r13 ∨ base = rbp := by
    obtain ⟨k, i⟩ := base
    obtain rfl : k = .general := hb
    have : i = 13 ∨ i = 5 := by
      simp only at hfive hbase
      omega
    obtain rfl | rfl := this
    · exact .inl rfl
    · exact .inr rfl
  have hmod : addrMod base dis 0 ≠ .indirect := by
    rw [addrMod, if_neg (not_not.2 rfl)]
    split_ifs with hspecial
    · simp
    · exact fun h => hspecial ⟨h, hbp⟩
  have hzero (mod : Mod) : mod.bits = 0 → mod = .indirect := by cases mod <;> decide
  exact hmod (hzero _ h)

/-- **Addressing round-trips**: what a processor reads from REX, ModRM, SIB and the displacement
is the register, base, index, scale and displacement they were made from.  A global is relative to
the instruction pointer, which has no index, and its displacement counts from the end of the
instruction. -/
theorem emitIndirectAddr_decode {pos : ℕ} {trailingImm : ℤ} {kind : RelocKind}
    (hreg : reg.index < 16) (hdis : InS 32 dis) (rest : List UInt8) :
    (∀ base index : Reg, ∀ scale, base.kind = .general → base.index < 16 →
      index.kind = .general → index.index < 16 → scale ∈ [0, 1, 2, 4, 8] →
      ∃ bytes, emitIndirectAddr pos reg base index scale dis 0 trailingImm kind =
          some (bytes, none) ∧
        decode (rex reg base index wide) (bytes ++ rest) = some (⟨wide, reg.index,
          .mem ⟨.reg base.index, if index = noIndex then none else some index.index,
            max scale 1, dis⟩⟩, rest)) ∧
    (∀ id, ∀ scale ∈ [0, 1], ∃ bytes,
      emitIndirectAddr pos reg rip noIndex scale dis (id + 1) trailingImm kind =
          some (bytes, some ⟨pos + bytes.length, kind, id % 2 ^ 26⟩) ∧
        decode (rex reg rip noIndex wide) (bytes ++ rest) = some (⟨wide, reg.index,
          .mem ⟨.rip, none, 1, wrap 32 (dis - min trailingImm 4)⟩⟩, rest)) ∧
    ∀ rM index : Reg, rM.index < 16 → index.index < 16 →
      decode (rex reg rM index wide) (modRm .direct reg rM :: rest) =
        some (⟨wide, reg.index, .reg rM.index⟩, rest) := by
  refine ⟨fun base index scale hb hbase hi hindex hscale => ?_, fun id scale hscale => ?_,
    fun rM index hrM hindex => ?_⟩
  · obtain ⟨regs, hregs, hdecode⟩ := decode_emitRegs wide hreg hbase hindex hb hi
      (mem_scales hscale) (addrMod_bits_ne dis) (addrMod_bits_zero hbase hb)
    obtain ⟨disp, hdisp, hread⟩ := readDisp_emitDisp base hdis (min trailingImm 4)
    refine ⟨regs ++ disp, ?_, ?_⟩
    · simp [emitIndirectAddr, hregs, hdisp]
    · rw [List.append_assoc, hdecode, hread, Option.map_some]
  · refine ⟨modRm .indirect reg rip ::
      littleEndian 4 (unsigned 32 (dis - min trailingImm 4)), ?_, ?_⟩
    · have hscl : max scale 1 = 1 := by
        simp only [List.mem_cons, List.not_mem_nil, or_false] at hscale
        omega
      simp [emitIndirectAddr, hscl, emitRegs, emitDisp, addrMod, rip, rbp, rsp, r12, noIndex, gpr,
        Nat.add_comm]
    · rw [List.cons_append, decode_rex _ hreg (by decide) (by decide), readRm, if_neg (by decide),
        if_neg (by decide), if_pos (by decide), readDisp_two]
      rfl
  · rw [decode_rex _ hreg hrM hindex, readRm, if_pos (show Mod.direct.bits = 3 from rfl),
      Option.map_some, Nat.mod_add_div]

/-- `mov edx, [r13 + r12 * 4]`. -/
theorem emitIndirectAddr_decode_r13 :
    ∃ bytes, emitIndirectAddr 0 (gpr 2) r13 r12 4 0 0 0 .global = some (bytes, none) ∧
      decode (rex (gpr 2) r13 r12 false) (bytes ++ []) =
        some (⟨false, 2, .mem ⟨.reg 13, some 12, 4, 0⟩⟩, []) :=
  (@emitIndirectAddr_decode (gpr 2) false 0 0 0 .global (by decide) (by decide) []).1 r13 r12 4 rfl
    (by decide) rfl (by decide) (by decide)

end Address

/-- With an index, the displacement of a global is taken for an absolute address. -/
theorem not_emitIndirectAddr_decode : ¬ ∀ (pos : ℕ) (reg base index : Reg) (wide : Bool)
    (scale : ℕ) (dis : ℤ) (reloc : ℕ) (kind : RelocKind), reg.index < 16 →
    base.kind = .general → base.index < 16 → index.kind = .general → index.index < 16 →
    index ≠ rsp → scale ∈ [1, 2, 4, 8] → InS 32 dis → (reloc ≠ 0 → base = rip) →
    ∃ bytes r, emitIndirectAddr pos reg base index scale dis reloc 0 kind = some (bytes, r) ∧
      decode (rex reg base index wide) bytes = some (⟨wide, reg.index,
        .mem ⟨if reloc = 0 then .reg base.index else .rip, some index.index, scale, dis⟩⟩, []) := by
  intro h
  obtain ⟨bytes, r, hemit, hdecode⟩ := h 0 (gpr 0) rip (gpr 1) true 4 0 1 .global (by decide) rfl
    (by decide) rfl (by decide) (by decide) (by decide) (by decide) fun _ => rfl
  have hbytes : emitIndirectAddr 0 (gpr 0) rip (gpr 1) 4 0 1 0 .global =
      some ([4, 0x8d, 0, 0, 0, 0], some ⟨6, .global, 0⟩) := by decide
  rw [hbytes] at hemit
  obtain ⟨rfl, -⟩ := Prod.mk.inj (Option.some.inj hemit)
  exact absurd hdecode (by decide)

end OdinSon.Codegen.Amd64
