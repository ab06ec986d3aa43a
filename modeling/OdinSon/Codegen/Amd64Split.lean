import OdinSon.Codegen.Amd64Frame
import OdinSon.Lib.X86Moves

/-!
# Splits on amd64

The case `Split` of `emit_instr` (`bac/amd64/amd64.odin`): a move between any two places of the same
kind, where a place is a register, the flags, or a slot of a spilled live range.  A move between two
slots goes through a register that is not free, `R15` or `XMM15`, which is saved to the temporary slot
and loaded again.

For `R15` all of the register is saved.  For `XMM15` it is only the width of the value, and the load
clears what is above, so that a wider value that lives there is lost; and there is no sequence for a
vector at all.  Vectors of more than 16 bytes are moved as if they were floats.
-/

namespace OdinSon.Codegen.Amd64

open Lib Lib.X86

/-- `FLAGS`. -/
def flagsReg : Reg := ⟨.general, 17 - 1⟩

/-- A `Split` with what the code for it depends on; the condition is from `condition_for`. -/
structure SplitSite where
  /-- The function, with its allocation. -/
  f : Func
  /-- The place of the node. -/
  dst : Reg
  /-- The place of its input. -/
  src : Reg
  /-- The type of the node. -/
  dt : Datatype
  /-- The condition that the input stands for, if it is flags. -/
  cc : ℕ
  /-- The flags are of a comparison that may be unordered. -/
  unordered : Bool

/-- The register is a slot of the stack. -/
def isSpill (r : Reg) : Bool := boundary r.kind ≤ r.index

/-- `emit_sized_opcode`: the prefix and the opcode. -/
def sizedOpcode (dt : Datatype) (op : ℕ) : Option (ℕ × ℕ) :=
  match dt with
  | .i8 => some (0, op - 1)
  | .i16 => some (0x66, op)
  | .i32 | .i64 | .f32 => some (0, op)
  | _ => none

namespace SplitSite

variable (s : SplitSite)

def dSpill : Bool := isSpill s.dst

def sSpill : Bool := isSpill s.src

/-- `spill_slot_offset`. -/
def off : Reg → ℤ := spillSlotOffset boundary s.f.frame.stackParamOffset s.f.frame.spillSlotBase

/-- `mov [rsp + $off], $reg`, of the whole register. -/
def movStore (reg : ℕ) (off : ℤ) : Code :=
  .instr { rex := some true, opcode := 0x89, reg, rm := .stack off }

/-- `mov $reg, [rsp + $off]`. -/
def movLoad (reg : ℕ) (off : ℤ) : Code :=
  .instr { rex := some true, opcode := 0x8B, reg, rm := .stack off }

/-- `movss`, `movsd` or `movups [rsp + $off], $reg`. -/
def sseStore (pfx reg : ℕ) (off : ℤ) : Code :=
  .instr { pfx, rex := some false, opcode := 0x0F11, reg, rm := .stack off }

/-- `movss`, `movsd` or `movups $reg, [rsp + $off]`. -/
def sseLoad (pfx reg : ℕ) (off : ℤ) : Code :=
  .instr { pfx, rex := some false, opcode := 0x0F10, reg, rm := .stack off }

/-- `movss`, `movsd` or `movups $dst, $src`. -/
def sseMove (pfx dst src : ℕ) : Code :=
  .instr { pfx, rex := some false, opcode := 0x0F10, reg := dst, rm := .reg src }

/-- The branch for the flags as the destination. -/
def emitToFlags : Option (List Code) := do
  if s.sSpill then
    let (pfx, opcode) ← sizedOpcode s.dt 0x81
    return [.instr { pfx, rex := some (s.dt = .i64), opcode, reg := 7, rm := .stack (s.off s.src) }]
  else
    let (pfx, opcode) ← sizedOpcode s.dt 0x85
    return [.instr { pfx, rex := some (s.dt = .i64), opcode, reg := s.src.index
                     rm := .reg s.src.index }]

/-- The branch for the flags as the source. -/
def emitFromFlags : List Code :=
  if s.dSpill then
    [.instr { rex := some true, opcode := 0xC7, rm := .stack (s.off s.dst) },
      .instr { opcode := 0x0F90 + s.cc, rm := .stack (s.off s.dst) }] ++
    if s.unordered then
      [.jnpOver [{ opcode := 0xC6, rm := .stack (s.off s.dst), imm := (s.cc == 5).toNat }]]
    else []
  else
    [.instr { rex := some false, opcode := 0x0F90 + s.cc, rm := .reg s.dst.index }] ++
    (if s.unordered then
      [.jnpOver [{ rex := some false, opcode := 0xB0, rm := .reg s.dst.index
                   imm := (s.cc == 5).toNat }]]
    else []) ++
    [.instr { rex := some false, opcode := 0x0FB6, reg := s.dst.index, rm := .reg s.dst.index }]

/-- The branch for vector registers; a move of 16 bytes between two slots stops the program. -/
def emitVector : Option (List Code) :=
  if s.dt = .v128 then
    if s.dSpill && s.sSpill then none
    else if s.dSpill then some [sseStore 0 s.src.index (s.off s.dst)]
    else if s.sSpill then some [sseLoad 0 s.dst.index (s.off s.src)]
    else some [sseMove 0 s.dst.index s.src.index]
  else
    let fpfx := if s.dt = .f64 then 0xF2 else 0xF3
    if s.dSpill && s.sSpill then
      some [sseStore fpfx 15 s.f.frame.tempSlotOffset, sseLoad fpfx 15 (s.off s.src),
        sseStore fpfx 15 (s.off s.dst), sseLoad fpfx 15 s.f.frame.tempSlotOffset]
    else if s.dSpill then some [sseStore fpfx s.src.index (s.off s.dst)]
    else if s.sSpill then some [sseLoad fpfx s.dst.index (s.off s.src)]
    else some [sseMove fpfx s.dst.index s.src.index]

/-- The branch for general registers. -/
def emitGeneral : Option (List Code) :=
  if s.dSpill && s.sSpill then
    some [movStore 15 s.f.frame.tempSlotOffset, movLoad 15 (s.off s.src), movStore 15 (s.off s.dst),
      movLoad 15 s.f.frame.tempSlotOffset]
  else if s.dSpill then
    if s.src.index < 16 then some [movStore s.src.index (s.off s.dst)] else none
  else if s.sSpill then some [movLoad s.dst.index (s.off s.src)]
  else some [.instr { rex := some true, opcode := 0x89, reg := s.src.index, rm := .reg s.dst.index }]

/-- **The code for a `Split`**; `none` where an assertion fails or the code panics. -/
def emit : Option (List Code) :=
  if s.dst.kind ≠ s.src.kind then none
  else if s.dst = flagsReg then s.emitToFlags
  else if s.src = flagsReg then some s.emitFromFlags
  else if s.dst.kind = .vector then s.emitVector
  else s.emitGeneral

/-! ### What it should do -/

/-- The `k`-th byte of what is in a place. -/
def byteAt (st : Cpu) (r : Reg) (k : ℕ) : BitVec 8 :=
  if isSpill r then st.mem (s.off r + k)
  else match r.kind with
    | .general => st.gpr r.index k
    | .vector => st.vec r.index k

/-- The truth of the condition that the flags stand for: an unordered result of a comparison of
floats is equal to nothing. -/
def flagValue (f : Flags) : Bool :=
  if s.unordered && f.pf then s.cc == 5 else f.holds s.cc

/-- The `k`-th byte of the value that is moved. -/
def source (st : Cpu) (k : ℕ) : BitVec 8 :=
  if s.src = flagsReg then if k = 0 ∧ s.flagValue st.flags then 1 else 0 else s.byteAt st s.src k

/-- The value has arrived: in the flags it is read as a `Ne`. -/
def Arrived (st st' : Cpu) : Prop :=
  if s.dst = flagsReg then st'.flags.zf = true ↔ ∀ k < s.dt.size, s.source st k = 0
  else ∀ k < s.dt.size, s.byteAt st' s.dst k = s.source st k

/-- The slot of a register: parameters that come on the stack have 8 bytes each. -/
def slot (r : Reg) : Area :=
  ⟨s.off r, if r.index - boundary r.kind < (s.f.frame.stackParamOffset r.kind).length then 8
    else spillSlotSize r.kind⟩

/-- The other registers of the allocation that are slots. -/
def others : List Reg := s.f.allocs.filter fun r => isSpill r && r ≠ s.dst

/-- Everything else is as it was: the registers in full, the flags, and the slots. -/
structure Keeps (st st' : Cpu) : Prop where
  gpr : ∀ r, (⟨.general, r⟩ : Reg) ≠ s.dst → st'.gpr r = st.gpr r
  vec : ∀ r, (⟨.vector, r⟩ : Reg) ≠ s.dst → st'.vec r = st.vec r
  flags : s.dst ≠ flagsReg → st'.flags = st.flags
  slots : ∀ r ∈ s.others, ∀ a ∈ s.slot r, st'.mem a = st.mem a

/-- **The move is exact**, from every state. -/
def Right : Prop :=
  ∃ code, s.emit = some code ∧ ∀ st, ∃ st', Cpu.run code st = some st' ∧ s.Arrived st st' ∧
    s.Keeps st st'

/-- What the allocator gives: two different places of the kind of the value, which is a number or a
vector; the flags stand for one of the sixteen conditions. -/
structure Assigned : Prop where
  dst_mem : s.dst ∈ s.f.allocs
  src_mem : s.src ∈ s.f.allocs
  ne : s.dst ≠ s.src
  dst_kind : s.dst.kind = regKind s.dt
  src_kind : s.src.kind = regKind s.dt
  value : s.dt ≠ .void ∧ s.dt ≠ .mem
  cc : s.cc < 16

/-- How many bytes a move to a slot writes: all of a general register, of a vector register those of
the value. -/
def moved : ℕ :=
  match s.dst.kind with
  | .general => 8
  | .vector => s.dt.size

/-- Where it writes them. -/
def written : Area := ⟨s.off s.dst, s.moved⟩

/-- Where `R15` is saved. -/
def temp : Area := ⟨s.f.frame.tempSlotOffset, 8⟩

/-- Not between two slots of vectors, not of more than 16 bytes, and what is written is in no other
slot. -/
structure Exact : Prop where
  oneSlot : ¬ (s.dst.kind = .vector ∧ s.dSpill = true ∧ s.sSpill = true)
  size : s.dt.size ≤ 16
  apart : s.dSpill = true → (s.sSpill = true → s.off s.src ≠ s.off s.dst) →
    ∀ r ∈ s.others, Area.Apart s.written (s.slot r)
  temp : s.dSpill = true → s.sSpill = true → ∀ r ∈ s.f.allocs, isSpill r = true →
    Area.Apart s.temp (s.slot r)

/-! ### What the code does -/

/-- What one move makes of a state: the place has the value, by a write of this place only. -/
inductive Moved (st : Cpu) : Cpu → Prop
  | flags : s.dst = flagsReg → Moved st { st with flags := Cpu.testFlags s.dt.size (s.source st) }
  | slot : s.dSpill = true → Moved st (st.writeMem (s.off s.dst) s.moved (s.source st))
  | general {n : ℕ} {bytes : ℕ → BitVec 8} : s.dst.kind = .general → s.dSpill = false →
    s.dst ≠ flagsReg → (∀ k < s.dt.size, (st.writeGpr s.dst.index n bytes).gpr s.dst.index k =
      s.source st k) → Moved st (st.writeGpr s.dst.index n bytes)
  | vector {n : ℕ} {bytes : ℕ → BitVec 8} : s.dst.kind = .vector → s.dSpill = false →
    (∀ k < s.dt.size, (st.writeVec s.dst.index n bytes).vec s.dst.index k = s.source st k) →
    Moved st (st.writeVec s.dst.index n bytes)

variable {s} {st st' : Cpu}

theorem isSpill_flagsReg : isSpill flagsReg = false := by decide

theorem byteAt_slot {r : Reg} (h : isSpill r = true) (k : ℕ) : s.byteAt st r k = st.mem (s.off r + k) :=
  if_pos h

theorem byteAt_general {r : Reg} (h : isSpill r = false) (hk : r.kind = .general) :
    s.byteAt st r = st.gpr r.index := by
  funext k
  simp [byteAt, h, hk]

theorem byteAt_vector {r : Reg} (h : isSpill r = false) (hk : r.kind = .vector) :
    s.byteAt st r = st.vec r.index := by
  funext k
  simp [byteAt, h, hk]

theorem source_of_ne (h : s.src ≠ flagsReg) : s.source st = s.byteAt st s.src := by
  funext k
  exact if_neg h

/-- The value of flags, as `setcc` writes it. -/
theorem source_flags (h : s.src = flagsReg) :
    s.source st = Cpu.immBytes (s.flagValue st.flags).toNat := by
  funext k
  rw [source, if_pos h, Cpu.immBytes]
  by_cases hk : k = 0 <;> cases s.flagValue st.flags <;> simp [hk]

/-- Values in general registers have at most 8 bytes. -/
theorem size_le_of_general {dt : Datatype} (h : regKind dt = .general) : dt.size ≤ 8 := by
  cases dt <;> simp_all [regKind, Datatype.size]

theorem integer_of_general {dt : Datatype} (h : regKind dt = .general)
    (hv : dt ≠ .void ∧ dt ≠ .mem) : dt = .i8 ∨ dt = .i16 ∨ dt = .i32 ∨ dt = .i64 := by
  cases dt <;> simp_all [regKind]

theorem Moved.arrived (hn : s.dSpill = true → s.dt.size ≤ s.moved) (h : s.Moved st st') :
    s.Arrived st st' := by
  unfold Arrived
  cases h with
  | flags hd =>
    rw [if_pos hd]
    exact Cpu.zf_testFlags
  | slot hd =>
    have hne : s.dst ≠ flagsReg := fun e => by
      rw [dSpill, e, isSpill_flagsReg] at hd
      cases hd
    rw [if_neg hne]
    intro k hk
    rw [byteAt_slot hd, Cpu.writeMem_self (hk.trans_le (hn hd))]
  | general hkind hd hne hb =>
    rw [if_neg hne]
    intro k hk
    rw [byteAt_general hd hkind]
    exact hb k hk
  | vector hkind hd hb =>
    have hne : s.dst ≠ flagsReg := fun e => by
      rw [e] at hkind
      cases hkind
    rw [if_neg hne]
    intro k hk
    rw [byteAt_vector hd hkind]
    exact hb k hk

theorem Moved.keeps (hap : s.dSpill = true → ∀ r ∈ s.others, Area.Apart s.written (s.slot r))
    (h : s.Moved st st') : s.Keeps st st' := by
  cases h with
  | flags hd => exact ⟨fun _ _ => rfl, fun _ _ => rfl, fun hne => absurd hd hne, fun _ _ _ _ => rfl⟩
  | slot hd =>
    refine ⟨fun _ _ => rfl, fun _ _ => rfl, fun _ => rfl, fun r hr a ha => ?_⟩
    exact Cpu.writeMem_of_notMem fun hw => hap hd r hr a hw ha
  | general hkind hd hne hb =>
    refine ⟨fun r hr => Cpu.writeGpr_of_ne ?_, fun _ _ => rfl, fun _ => rfl, fun _ _ _ _ => rfl⟩
    rintro rfl
    exact hr (by rw [← hkind])
  | vector hkind hd hb =>
    refine ⟨fun _ _ => rfl, fun r hr => Cpu.writeVec_of_ne ?_, fun _ => rfl, fun _ _ _ _ => rfl⟩
    rintro rfl
    exact hr (by rw [← hkind])

/-! ### One move -/

/-- A comparison with zero. -/
theorem emitToFlags_moved (h : s.Assigned) (hd : s.dst = flagsReg) :
    ∃ code, s.emit = some code ∧ ∀ st, ∃ st', Cpu.run code st = some st' ∧ s.Moved st st' := by
  have hsrc : s.src ≠ flagsReg := fun e => h.ne (hd.trans e.symm)
  have hdt : regKind s.dt = .general := by rw [← h.dst_kind, hd]; rfl
  have hkind : s.dst.kind = s.src.kind := h.dst_kind.trans h.src_kind.symm
  have hemit : s.emit = s.emitToFlags := by
    rw [emit, if_neg (not_not.2 hkind), if_pos hd]
  have hmoved : ∀ st, s.Moved st { st with flags := Cpu.testFlags s.dt.size (s.byteAt st s.src) } := by
    intro st
    rw [← source_of_ne hsrc]
    exact .flags hd
  rw [hemit, emitToFlags]
  cases hs : s.sSpill with
  | true =>
    have hread (st : Cpu) : st.read (.stack (s.off s.src)) = s.byteAt st s.src :=
      funext fun k => (byteAt_slot hs k).symm
    obtain hty | hty | hty | hty := integer_of_general hdt h.value
    all_goals
      rw [hty] at hmoved ⊢
      refine ⟨_, rfl, fun st => ⟨_, ?_, hmoved st⟩⟩
      rw [← hread]
      rfl
  | false =>
    have hread (st : Cpu) : st.read (.reg s.src.index) = s.byteAt st s.src :=
      (byteAt_general hs (h.src_kind.trans hdt)).symm
    obtain hty | hty | hty | hty := integer_of_general hdt h.value
    all_goals
      rw [hty] at hmoved ⊢
      refine ⟨_, rfl, fun st => ⟨_, ?_, hmoved st⟩⟩
      rw [← hread]
      simp [Cpu.run, Cpu.exec, Insn.namesByte, Insn.width, Datatype.size]

/-- A move of the truth of a condition. -/
theorem emitFromFlags_moved (h : s.Assigned) (hs : s.src = flagsReg) :
    ∃ code, s.emit = some code ∧ ∀ st, ∃ st', Cpu.run code st = some st' ∧ s.Moved st st' := by
  have hd : s.dst ≠ flagsReg := fun e => h.ne (e.trans hs.symm)
  have hkind : s.dst.kind = .general := by rw [h.dst_kind, ← h.src_kind, hs]; rfl
  have hemit : s.emit = some s.emitFromFlags := by
    rw [emit, if_neg (not_not.2 (h.dst_kind.trans h.src_kind.symm)), if_neg hd, if_pos hs]
  refine ⟨_, hemit, fun st => ?_⟩
  rw [emitFromFlags]
  cases hsp : s.dSpill with
  | true =>
    refine ⟨_, ?_, .slot hsp⟩
    have hzero : st.exec { rex := some true, opcode := 0xC7, rm := .stack (s.off s.dst) } =
        some (st.writeMem (s.off s.dst) 8 (Cpu.immBytes 0)) := rfl
    rw [source_flags hs, moved, hkind, if_pos rfl, List.cons_append, List.cons_append, List.nil_append,
      Cpu.run, hzero, Option.bind_some, Cpu.run, Cpu.exec_setcc h.cc rfl rfl, Option.bind_some,
      Cpu.write, Cpu.writeMem_immBytes (by decide), Cpu.writeMem_flags, flagValue]
    cases s.unordered with
    | false => rfl
    | true =>
      rw [if_pos rfl, Cpu.run, Cpu.writeMem_flags, Bool.true_and]
      split_ifs
      · exact congrArg some (Cpu.writeMem_immBytes (by decide))
      · rfl
  | false =>
    set v := (s.flagValue st.flags).toNat with hv
    have hb : ∀ k < s.dt.size, (st.writeGpr s.dst.index 4 (Cpu.immBytes v)).gpr s.dst.index k =
        s.source st k := by
      intro k hk
      have hk8 : k < 8 := hk.trans_le (size_le_of_general (h.dst_kind.symm.trans hkind))
      rw [source_flags hs]
      by_cases hk4 : k < 4
      · exact Cpu.writeGpr_self hk4
      · have hk0 : k ≠ 0 := by omega
        simp [Cpu.writeGpr, Cpu.immBytes, hk4, hk8, hk0]
    refine ⟨_, ?_, .general hkind hsp hd hb⟩
    -- before the last instruction the byte is right
    suffices hbyte : Cpu.run ([.instr { rex := some false, opcode := 0x0F90 + s.cc
                                        rm := .reg s.dst.index }] ++
        if s.unordered then
          [.jnpOver [{ rex := some false, opcode := 0xB0, rm := .reg s.dst.index
                       imm := (s.cc == 5).toNat }]]
        else []) st = some (st.writeGpr s.dst.index 1 (Cpu.immBytes v)) by
      rw [if_neg (by decide), Cpu.run_append, hbyte, Option.bind_some, Cpu.run, Cpu.exec_movzx]
      rfl
    rw [List.cons_append, List.nil_append, Cpu.run, Cpu.exec_setcc h.cc rfl rfl, Option.bind_some,
      Cpu.write, hv, flagValue]
    cases s.unordered with
    | false => rfl
    | true =>
      rw [if_pos rfl, Cpu.run, Cpu.writeGpr_flags, Bool.true_and]
      split_ifs
      · exact congrArg some (Cpu.writeGpr_writeGpr le_rfl (by decide))
      · rfl

/-- A move between general registers and slots, not both slots. -/
theorem emitGeneral_moved (h : s.Assigned) (hkind : s.dst.kind = .general)
    (hd : s.dst ≠ flagsReg) (hs : s.src ≠ flagsReg) (hone : ¬ (s.dSpill = true ∧ s.sSpill = true)) :
    ∃ code, s.emit = some code ∧ ∀ st, ∃ st', Cpu.run code st = some st' ∧ s.Moved st st' := by
  have hemit : s.emit = s.emitGeneral := by
    rw [emit, if_neg (not_not.2 (h.dst_kind.trans h.src_kind.symm)), if_neg hd, if_neg hs,
      if_neg (by rw [hkind]; decide)]
  have hskind : s.src.kind = .general := h.src_kind.trans (h.dst_kind.symm.trans hkind)
  have hsize : s.dt.size ≤ 8 := size_le_of_general (h.dst_kind.symm.trans hkind)
  rw [hemit, emitGeneral, if_neg (by simpa using hone)]
  have hsource (st : Cpu) := @source_of_ne s st hs
  cases hsp : s.dSpill with
  | true =>
    have hss : s.sSpill = false := by simpa [hsp] using hone
    have hlt : s.src.index < 16 := by
      have hlt' : ¬ boundary s.src.kind ≤ s.src.index := by simpa [sSpill, isSpill] using hss
      have hne : s.src.index ≠ 16 := fun e => hs (by
        change s.src = ⟨.general, 16⟩
        rw [← e, ← hskind])
      rw [hskind, boundary] at hlt'
      omega
    rw [if_pos rfl, if_pos hlt]
    refine ⟨_, rfl, fun st => ⟨_, ?_, .slot hsp⟩⟩
    rw [hsource, byteAt_general hss hskind, moved, hkind]
    rfl
  | false =>
    rw [if_neg (by decide)]
    cases hss : s.sSpill with
    | true =>
      refine ⟨_, rfl, fun st => ⟨_, rfl, .general hkind hsp hd fun k hk => ?_⟩⟩
      rw [hsource, byteAt_slot hss]
      exact Cpu.writeGpr_self (hk.trans_le hsize)
    | false =>
      refine ⟨_, rfl, fun st => ⟨_, rfl, .general hkind hsp hd fun k hk => ?_⟩⟩
      rw [hsource, byteAt_general hss hskind]
      exact Cpu.writeGpr_self (hk.trans_le hsize)

/-- What `emitVector` comes to for a prefix, when not both places are slots. -/
def emitOneVector (s : SplitSite) (pfx : ℕ) : Option (List Code) :=
  if s.dSpill then some [sseStore pfx s.src.index (s.off s.dst)]
  else if s.sSpill then some [sseLoad pfx s.dst.index (s.off s.src)]
  else some [sseMove pfx s.dst.index s.src.index]

theorem small_of_vector {dt : Datatype} (h : regKind dt = .vector) (hsize : dt.size ≤ 16) :
    dt = .f32 ∨ dt = .f64 ∨ dt = .v128 := by
  cases dt <;> simp_all [regKind, Datatype.size]

theorem emit_vector (h : s.Assigned) (hkind : s.dst.kind = .vector) : s.emit = s.emitVector := by
  have hsame : s.dst.kind = s.src.kind := h.dst_kind.trans h.src_kind.symm
  have hd : s.dst ≠ flagsReg := fun e => by
    rw [e] at hkind
    cases hkind
  have hs : s.src ≠ flagsReg := fun e => by
    rw [hsame, e] at hkind
    cases hkind
  rw [emit, if_neg (not_not.2 hsame), if_neg hd, if_neg hs, if_pos hkind]

/-- A move between vector registers and slots, not both slots. -/
theorem emitVector_moved (h : s.Assigned) (hkind : s.dst.kind = .vector) (hsize : s.dt.size ≤ 16)
    (hone : ¬ (s.dSpill = true ∧ s.sSpill = true)) :
    ∃ code, s.emit = some code ∧ ∀ st, ∃ st', Cpu.run code st = some st' ∧ s.Moved st st' := by
  have hskind : s.src.kind = .vector := h.src_kind.trans (h.dst_kind.symm.trans hkind)
  have hs : s.src ≠ flagsReg := fun e => by
    rw [e] at hskind
    cases hskind
  have hemit : s.emit = s.emitVector := emit_vector h hkind
  have hsource (st : Cpu) := @source_of_ne s st hs
  -- a prefix that moves the bytes of the value
  obtain ⟨pfx, hpfx, hwidth⟩ : ∃ pfx, s.emitVector = s.emitOneVector pfx ∧
      ∀ i : Insn, i.pfx = pfx → i.vecWidth = s.dt.size := by
    have hboth : (s.dSpill && s.sSpill) = false := by simpa using hone
    obtain hty | hty | hty := small_of_vector (h.dst_kind.symm.trans hkind) hsize
    · refine ⟨0xF3, ?_, fun i hi => ?_⟩
      · simp [emitVector, emitOneVector, hty, hboth]
      · simp [Insn.vecWidth, hi, hty, Datatype.size]
    · refine ⟨0xF2, ?_, fun i hi => ?_⟩
      · simp [emitVector, emitOneVector, hty, hboth]
      · simp [Insn.vecWidth, hi, hty, Datatype.size]
    · refine ⟨0, ?_, fun i hi => ?_⟩
      · simp [emitVector, emitOneVector, hty, hboth]
      · simp [Insn.vecWidth, hi, hty, Datatype.size]
  rw [hemit, hpfx, emitOneVector]
  cases hsp : s.dSpill with
  | true =>
    have hss : s.sSpill = false := by simpa [hsp] using hone
    refine ⟨_, rfl, fun st => ⟨_, ?_, .slot hsp⟩⟩
    rw [hsource, byteAt_vector hss hskind, moved, hkind]
    exact congrArg (fun n => some (st.writeMem (s.off s.dst) n (st.vec s.src.index)))
      (hwidth _ rfl)
  | false =>
    cases hss : s.sSpill with
    | true =>
      refine ⟨_, rfl, fun st => ⟨_, rfl, .vector hkind hsp fun k hk => ?_⟩⟩
      rw [hsource, byteAt_slot hss, Cpu.writeVec_self (hk.trans_le hsize)]
      exact if_pos (hk.trans_eq (hwidth _ rfl).symm)
    | false =>
      refine ⟨_, rfl, fun st => ⟨_, rfl, .vector hkind hsp fun k hk => ?_⟩⟩
      rw [hsource, byteAt_vector hss hskind]
      exact Cpu.writeVec_self (hk.trans_eq (hwidth _ rfl).symm)

/-- One move, from anywhere to anywhere. -/
theorem emit_moved (h : s.Assigned) (hsize : s.dt.size ≤ 16)
    (hone : ¬ (s.dSpill = true ∧ s.sSpill = true)) :
    ∃ code, s.emit = some code ∧ ∀ st, ∃ st', Cpu.run code st = some st' ∧ s.Moved st st' := by
  by_cases hd : s.dst = flagsReg
  · exact emitToFlags_moved h hd
  by_cases hs : s.src = flagsReg
  · exact emitFromFlags_moved h hs
  cases hkind : s.dst.kind with
  | general => exact emitGeneral_moved h hkind hd hs hone
  | vector => exact emitVector_moved h hkind hsize hone

/-! ### A move between two slots -/

/-- `R15` saved in the temporary slot. -/
def saved (s : SplitSite) (st : Cpu) : Cpu :=
  st.writeMem s.f.frame.tempSlotOffset 8 (st.gpr 15)

/-- The state after a move between two slots through `R15`. -/
def viaR15 (s : SplitSite) (st : Cpu) : Cpu :=
  let loaded := (s.saved st).writeGpr 15 8 fun k => (s.saved st).mem (s.off s.src + k)
  let stored := loaded.writeMem (s.off s.dst) 8 (loaded.gpr 15)
  stored.writeGpr 15 8 fun k => stored.mem (s.f.frame.tempSlotOffset + k)

section Slots

variable (h : s.Assigned) (hkind : s.dst.kind = .general) (hd : s.dSpill = true)
  (hs : s.sSpill = true)
include h hkind hd hs

theorem emit_slots : ∃ code, s.emit = some code ∧ ∀ st, Cpu.run code st = some (s.viaR15 st) := by
  have hdne : s.dst ≠ flagsReg := fun e => by
    rw [dSpill, e, isSpill_flagsReg] at hd
    cases hd
  have hsne : s.src ≠ flagsReg := fun e => by
    rw [sSpill, e, isSpill_flagsReg] at hs
    cases hs
  rw [emit, if_neg (not_not.2 (h.dst_kind.trans h.src_kind.symm)), if_neg hdne, if_neg hsne,
    if_neg (by rw [hkind]; decide), emitGeneral, hd, hs]
  exact ⟨_, rfl, fun st => rfl⟩

end Slots

/-- The slot of a general register. -/
theorem slot_general {r : Reg} (hk : r.kind = .general) : s.slot r = ⟨s.off r, 8⟩ := by
  rw [slot, hk]
  exact congrArg (Area.mk _) (ite_self _)

theorem viaR15_mem {k : ℕ} (hk : k < 8) :
    (s.viaR15 st).mem (s.off s.dst + k) = (s.saved st).mem (s.off s.src + k) := by
  rw [viaR15, Cpu.writeGpr_mem, Cpu.writeMem_self hk, Cpu.writeGpr_self hk]

theorem viaR15_mem_of_notMem {a : ℤ} (ha : a ∉ (⟨s.off s.dst, 8⟩ : Area)) :
    (s.viaR15 st).mem a = (s.saved st).mem a := by
  rw [viaR15, Cpu.writeGpr_mem]
  exact Cpu.writeMem_of_notMem ha

theorem viaR15_gpr {k : ℕ} (hk : k < 8) :
    (s.viaR15 st).gpr 15 k = (s.viaR15 st).mem (s.f.frame.tempSlotOffset + k) :=
  Cpu.writeGpr_self hk

/-- **Between slots of general registers the move is exact**, if the temporary slot is apart. -/
theorem right_slots (h : s.Assigned) (hkind : s.dst.kind = .general) (hd : s.dSpill = true)
    (hs : s.sSpill = true) (hx : s.Exact) : s.Right := by
  have hskind : s.src.kind = .general := h.src_kind.trans (h.dst_kind.symm.trans hkind)
  have hsize : s.dt.size ≤ 8 := size_le_of_general (h.dst_kind.symm.trans hkind)
  have hdne : s.dst ≠ flagsReg := fun e => by
    rw [dSpill, e, isSpill_flagsReg] at hd
    cases hd
  have hsne : s.src ≠ flagsReg := fun e => by
    rw [sSpill, e, isSpill_flagsReg] at hs
    cases hs
  -- the temporary slot does not touch those of the operands
  have hslot : ∀ r ∈ s.f.allocs, isSpill r = true → ∀ st, ∀ a ∈ s.slot r,
      (s.saved st).mem a = st.mem a := fun r hr hsp st a ha =>
    Cpu.writeMem_of_notMem fun hT => hx.temp hd hs r hr hsp a hT ha
  have hsrc (st : Cpu) {k : ℕ} (hk : k < 8) :
      (s.saved st).mem (s.off s.src + k) = st.mem (s.off s.src + k) :=
    hslot s.src h.src_mem hs st _ (by rw [slot_general hskind]; exact Area.mem_natCast hk)
  obtain ⟨code, hcode, hrun⟩ := emit_slots h hkind hd hs
  refine ⟨code, hcode, fun st => ⟨_, hrun st, ?_, ?_⟩⟩
  · rw [Arrived, if_neg hdne]
    intro k hk
    have hk8 : k < 8 := hk.trans_le hsize
    rw [byteAt_slot hd, source_of_ne hsne, byteAt_slot hs, viaR15_mem hk8, hsrc st hk8]
  · refine ⟨fun r _ => ?_, fun _ _ => rfl, fun _ => rfl, fun r hr a ha => ?_⟩
    · by_cases hr : r = 15
      · subst hr
        funext k
        by_cases hk : k < 8
        · have hT : s.f.frame.tempSlotOffset + k ∉ (⟨s.off s.dst, 8⟩ : Area) := by
            rw [← slot_general hkind]
            exact hx.temp hd hs s.dst h.dst_mem hd _ (Area.mem_natCast hk)
          rw [viaR15_gpr hk, viaR15_mem_of_notMem hT, saved, Cpu.writeMem_self hk]
        · simp [viaR15, saved, Cpu.writeGpr, hk]
      · simp [viaR15, saved, Cpu.writeGpr_of_ne hr]
    · have hrs := List.mem_filter.1 hr
      have hsp : isSpill r = true := (Bool.and_eq_true _ _ ▸ hrs.2).1
      by_cases hw : a ∈ (⟨s.off s.dst, 8⟩ : Area)
      · -- only where the operands share a slot
        have hoff : s.off s.src = s.off s.dst := by
          by_contra hne
          refine hx.apart hd (fun _ => hne) r hr a ?_ ha
          rw [written, moved, hkind]
          exact hw
        obtain ⟨k, hk, rfl⟩ := Area.exists_of_mem hw
        rw [viaR15_mem hk, hsrc st hk, hoff]
      · rw [viaR15_mem_of_notMem hw, hslot r hrs.1 hsp st a ha]

/-! ### Where the move is not exact -/

/-- A state with ones in the registers. -/
def onesIn (vec : ℕ → ℕ → BitVec 8) (mem : ℤ → BitVec 8) : Cpu where
  gpr := fun _ _ => 1
  vec := vec
  flags := ⟨false, false, false, false, false⟩
  mem := mem

/-- Between two slots of vectors the rest of `XMM15` is lost, or there is no code. -/
theorem oneSlot_of_right (h : s.Assigned) (hr : s.Right) :
    ¬ (s.dst.kind = .vector ∧ s.dSpill = true ∧ s.sSpill = true) := by
  rintro ⟨hkind, hd, hs⟩
  obtain ⟨code, hcode, hall⟩ := hr
  rw [emit_vector h hkind, emitVector, hd, hs] at hcode
  by_cases hty : s.dt = .v128
  · rw [if_pos hty] at hcode
    cases hcode
  rw [if_neg hty, Bool.and_self, if_pos rfl] at hcode
  set fpfx := if s.dt = .f64 then 0xF2 else 0xF3 with hfpfx
  have hwidth : ¬ 8 < (if fpfx = 0xF3 then 4 else if fpfx = 0xF2 then 8 else 16 : ℕ) := by
    rw [hfpfx]
    split_ifs <;> omega
  cases hcode
  obtain ⟨st', hrun, -, hkeeps⟩ := hall (onesIn (fun _ _ => 1) fun _ => 0)
  cases hrun
  have hne : (⟨.vector, 15⟩ : Reg) ≠ s.dst := fun e => by
    rw [dSpill, ← e] at hd
    cases hd
  have hbyte := congrFun (hkeeps.vec 15 hne) 8
  simp [Cpu.writeVec, Insn.vecWidth, hwidth, onesIn] at hbyte

theorem large_of_vector {dt : Datatype} (hsize : 16 < dt.size) :
    regKind dt = .vector ∧ dt ≠ .v128 ∧ dt ≠ .f64 ∧ 20 < dt.size := by
  cases dt <;> simp_all [regKind, Datatype.size]

/-- Of a vector of more than 16 bytes the upper ones do not arrive. -/
theorem size_of_right (h : s.Assigned) (hr : s.Right) : s.dt.size ≤ 16 := by
  by_contra hlarge
  obtain ⟨hreg, hty, hty', h20⟩ := large_of_vector (not_le.1 hlarge)
  have hkind : s.dst.kind = .vector := h.dst_kind.trans hreg
  have hskind : s.src.kind = .vector := h.src_kind.trans hreg
  have hone := oneSlot_of_right h hr
  have hdne : s.dst ≠ flagsReg := fun e => by
    rw [e] at hkind
    cases hkind
  have hsne : s.src ≠ flagsReg := fun e => by
    rw [e] at hskind
    cases hskind
  obtain ⟨code, hcode, hall⟩ := hr
  have hboth : (s.dSpill && s.sSpill) = false := by simpa [hkind] using hone
  have hemit : s.emit = s.emitOneVector 0xF3 := by
    rw [emit_vector h hkind, emitVector, if_neg hty, hboth, if_neg hty']
    rfl
  obtain ⟨st', hrun, harr, -⟩ := hall
    (onesIn (fun r _ => if r = s.src.index then 1 else 0) fun _ => 2)
  rw [Arrived, if_neg hdne] at harr
  have hbyte := harr 20 h20
  rw [source_of_ne hsne] at hbyte
  rw [hemit, emitOneVector] at hcode
  cases hd : s.dSpill with
  | true =>
    have hs : s.sSpill = false := by simpa [hd] using hboth
    rw [hd, if_pos rfl] at hcode
    cases hcode
    cases hrun
    rw [byteAt_slot hd, byteAt_vector hs hskind] at hbyte
    simp [Cpu.writeMem, Insn.vecWidth, onesIn] at hbyte
  | false =>
    rw [hd, if_neg (by decide)] at hcode
    cases hs : s.sSpill with
    | true =>
      rw [hs, if_pos rfl] at hcode
      cases hcode
      cases hrun
      rw [byteAt_slot hs, byteAt_vector hd hkind] at hbyte
      simp only [Cpu.writeVec, onesIn, Function.update_self] at hbyte
      split_ifs at hbyte <;> simp_all
    | false =>
      rw [hs, if_neg (by decide)] at hcode
      cases hcode
      cases hrun
      have hne : s.dst.index ≠ s.src.index := fun e => h.ne (by
        rw [Reg.mk.injEq]
        exact ⟨hkind.trans hskind.symm, e⟩)
      rw [byteAt_vector hs hskind, byteAt_vector hd hkind] at hbyte
      simp [Cpu.writeVec, Insn.vecWidth, onesIn, hne] at hbyte

theorem source_onesIn (hs : s.sSpill = false) (k : ℕ) :
    s.source (onesIn (fun _ _ => 1) fun _ => 2) k ≠ 2 := by
  have hsp : isSpill s.src = false := hs
  rw [source]
  split_ifs
  · decide
  · decide
  · cases hkind : s.src.kind with
    | general =>
      rw [byteAt_general hsp hkind]
      exact (by decide : (1 : BitVec 8) ≠ 2)
    | vector =>
      rw [byteAt_vector hsp hkind]
      exact (by decide : (1 : BitVec 8) ≠ 2)

theorem mem_others {r : Reg} : r ∈ s.others ↔ r ∈ s.f.allocs ∧ isSpill r = true ∧ r ≠ s.dst := by
  simp [others]

section Slots

variable (h : s.Assigned) (hr : s.Right) (hd : s.dSpill = true)
include h hr hd

theorem general_of_right (hs : s.sSpill = true) : s.dst.kind = .general := by
  cases hkind : s.dst.kind with
  | general => rfl
  | vector => exact absurd ⟨hkind, hd, hs⟩ (oneSlot_of_right h hr)

theorem viaR15_keeps (hs : s.sSpill = true) (st : Cpu) : s.Keeps st (s.viaR15 st) := by
  obtain ⟨code, hcode, hrun⟩ := emit_slots h (general_of_right h hr hd hs) hd hs
  obtain ⟨code', hcode', hall⟩ := hr
  cases hcode.symm.trans hcode'
  obtain ⟨st', hst', -, hkeeps⟩ := hall st
  cases (hrun st).symm.trans hst'
  exact hkeeps

/-- What is saved in the temporary slot is in no slot: `R15` and the slot both have what they had. -/
theorem temp_of_right (hs : s.sSpill = true) {r : Reg} (hmem : r ∈ s.f.allocs)
    (hsp : isSpill r = true) : Area.Apart s.temp (s.slot r) := by
  have hkind := general_of_right h hr hd hs
  have hskind : s.src.kind = .general := h.src_kind.trans (h.dst_kind.symm.trans hkind)
  have hkeeps := viaR15_keeps h hr hd hs (onesIn (fun _ _ => 1) fun _ => 0)
  have hne : (⟨.general, 15⟩ : Reg) ≠ s.dst := fun e => by
    rw [dSpill, ← e] at hd
    cases hd
  have hone : ∀ a ∈ s.temp, (s.viaR15 (onesIn (fun _ _ => 1) fun _ => 0)).mem a = 1 := by
    intro a ha
    obtain ⟨k, hk, rfl⟩ := Area.exists_of_mem (n := 8) ha
    rw [← viaR15_gpr hk, hkeeps.gpr 15 hne]
    rfl
  have hothers : ∀ r ∈ s.others, Area.Apart s.temp (s.slot r) := by
    intro r hr a ha hb
    have hzero := hkeeps.slots r hr a hb
    rw [hone a ha] at hzero
    cases hzero
  by_cases hrd : r = s.dst
  · subst hrd
    intro a ha hb
    rw [slot_general hkind] at hb
    obtain ⟨j, hj, rfl⟩ := Area.exists_of_mem (n := 8) hb
    have hsrc : s.off s.src + j ∉ s.temp := fun hT =>
      hothers s.src (mem_others.2 ⟨h.src_mem, hs, h.ne.symm⟩) _ hT
        (by rw [slot_general hskind]; exact Area.mem_natCast hj)
    have hbyte := hone _ ha
    rw [viaR15_mem hj, saved, Cpu.writeMem_of_notMem hsrc] at hbyte
    cases hbyte
  · exact hothers r (mem_others.2 ⟨hmem, hsp, hrd⟩)

/-- What is written to a slot is in no other one. -/
theorem apart_of_right (hoff : s.sSpill = true → s.off s.src ≠ s.off s.dst) {r : Reg}
    (hmem : r ∈ s.others) : Area.Apart s.written (s.slot r) := by
  intro a ha hb
  obtain ⟨k, hk, rfl⟩ := Area.exists_of_mem ha
  cases hs : s.sSpill with
  | true =>
    have hkind := general_of_right h hr hd hs
    have hskind : s.src.kind = .general := h.src_kind.trans (h.dst_kind.symm.trans hkind)
    have hk8 : k < 8 := by rwa [moved, hkind] at hk
    have hkeeps := viaR15_keeps h hr hd hs
      (onesIn (fun _ _ => 1) fun a => if a = s.off s.src + k then 1 else 0)
    have hT : s.off s.src + k ∉ s.temp := fun hT =>
      temp_of_right h hr hd hs h.src_mem hs _ hT
        (by rw [slot_general hskind]; exact Area.mem_natCast hk8)
    have hbyte := hkeeps.slots r hmem _ hb
    rw [viaR15_mem hk8, saved, Cpu.writeMem_of_notMem hT] at hbyte
    simp [onesIn, (hoff hs).symm] at hbyte
  | false =>
    obtain ⟨code, hcode, hrun⟩ := emit_moved h (size_of_right h hr) (by simp [hs])
    obtain ⟨code', hcode', hall⟩ := hr
    cases hcode.symm.trans hcode'
    obtain ⟨st', hst', hmoved⟩ := hrun (onesIn (fun _ _ => 1) fun _ => 2)
    obtain ⟨st₂, hst₂, -, hkeeps⟩ := hall (onesIn (fun _ _ => 1) fun _ => 2)
    cases hst'.symm.trans hst₂
    have hbyte := hkeeps.slots r hmem _ hb
    -- only a write of the slot is left
    cases hmoved with
    | flags hflags =>
      rw [dSpill, hflags] at hd
      cases hd
    | slot _ =>
      rw [Cpu.writeMem_self hk] at hbyte
      exact source_onesIn hs k hbyte
    | general _ hd' => exact absurd (hd.symm.trans hd') (by decide)
    | vector _ hd' => exact absurd (hd.symm.trans hd') (by decide)

end Slots

end SplitSite

end OdinSon.Codegen.Amd64
