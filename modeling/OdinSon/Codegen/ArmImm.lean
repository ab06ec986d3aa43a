import OdinSon.Codegen.ArmSaved
import OdinSon.Lib.A64

/-!
# Immediates on arm

Prologues, epilogues, `Local_Addr` and `Split` of `bac/arm/arm.odin` as words.  Their immediates go
into fields of twelve bits, and the offsets of slots are divided by eight before.  Nothing checks the
size of the frame, a remainder of the division, or a sign, and what borrows a register for a move
between two slots adds two to the offset after it was checked.

The code does what the layout says iff all of this fits (`immediates_iff`).
-/

namespace OdinSon.Codegen.Arm

open Lib MachInt

/-- `imm12_instr`: fields of 5, 5, 12 and 10 bits. -/
def imm12Instr (opc rt rn : ℕ) (imm : ℤ) : ℕ :=
  rt % 2 ^ 5 + rn % 2 ^ 5 * 2 ^ 5 + unsigned 12 imm * 2 ^ 10 + opc % 2 ^ 10 * 2 ^ 22

/-- `SP` and `XZR`. -/
def sp : ℕ := 31

/-- `FLAGS`. -/
def flags : Reg := ⟨.general, 32⟩

/-- The words of prologues and epilogues. -/
def Instr.word : Instr → ℕ
  | .subSp imm => imm12Instr 0b1101000100 sp sp imm
  | .addSp imm => imm12Instr 0b1001000100 sp sp imm
  | .str reg imm => imm12Instr 0b1111100100 reg sp imm
  | .ldr reg imm => imm12Instr 0b1111100101 reg sp imm
  | .stp imm => 0b1010100100 * 2 ^ 22 + unsigned 7 imm * 2 ^ 15 + 30 * 2 ^ 10 + sp * 2 ^ 5 + 29
  | .ldp imm => 0b1010100101 * 2 ^ 22 + unsigned 7 imm * 2 ^ 15 + 30 * 2 ^ 10 + sp * 2 ^ 5 + 29

/-- `emit_instr` at a `Local_Addr`, for the offset of the local. -/
def emitLocalAddr (reg : ℕ) (offset : ℤ) : Option ℕ :=
  if offset < 4096 then some (imm12Instr 0b1001000100 reg sp offset) else none

/-- A `Split`. -/
structure SplitInstr where
  /-- The register of the node. -/
  rd : Reg
  /-- The register of its input. -/
  rm : Reg
  /-- The node is an `I64`. -/
  wide : Bool
  /-- The condition opposite to the one that the input leaves in the flags. -/
  negCond : ℕ
  deriving DecidableEq, Repr

/-- `emit_instr` at a `Split`, for the offsets of the slots in words. -/
def emitSplit (p : SplitInstr) (rdOff rmOff : ℤ) : Option (List ℕ) :=
  let rd := p.rd
  let rm := p.rm
  if ¬(rdOff < 4096 ∧ rmOff < 4096) then none
  else if rm = flags ∨ rd = flags then
    let other := if rm = flags then rd else rm
    let spill := boundary .general ≤ other.index
    let tmp := if spill then 17 else other.index
    let move :=
      if rm = flags then
        (0x1A9F07E0 ||| p.negCond <<< 12 ||| tmp) ::
          if spill then [imm12Instr 0b1111100100 tmp sp (rdOff + 2)] else []
      else
        (if spill then [imm12Instr 0b1111100101 tmp sp (rmOff + 2)] else []) ++
          [imm12Instr (if p.wide then 0b1111000100 else 0b0111000100) sp tmp 0]
    some (if spill then 0xF81F0FF1 :: move ++ [0xF84107F1] else move)
  else if rm.kind = .vector then
    some (if 32 ≤ rm.index ∧ 32 ≤ rd.index then
        [0xD10043FF, 0x3D8003FF, imm12Instr 0b1111110101 31 sp (rmOff + 2),
          imm12Instr 0b1111110100 31 sp (rdOff + 2), 0x3DC003FF, 0x910043FF]
      else if 32 ≤ rm.index then [imm12Instr 0b1111110101 rd.index sp rmOff]
      else if 32 ≤ rd.index then [imm12Instr 0b1111110100 rm.index sp rdOff]
      else [0x4EA01C00 ||| rm.index <<< 16 ||| rm.index <<< 5 ||| rd.index])
  else
    some (if boundary .general ≤ rm.index ∧ boundary .general ≤ rd.index then
        [0xF81F0FF1, imm12Instr 0b1111100101 17 sp (rmOff + 2),
          imm12Instr 0b1111100100 17 sp (rdOff + 2), 0xF84107F1]
      else if boundary .general ≤ rm.index then [imm12Instr 0b1111100101 rd.index sp rmOff]
      else if boundary .general ≤ rd.index then [imm12Instr 0b1111100100 rm.index sp rdOff]
      else
        [rd.index % 2 ^ 5 + sp * 2 ^ 5 + rm.index % 2 ^ 5 * 2 ^ 16 + 0b0101010 * 2 ^ 24 + 2 ^ 31])

/-- The register is a slot of the stack. -/
def isSlot (r : Reg) : Prop := boundary r.kind ≤ r.index

instance (r : Reg) : Decidable (isSlot r) := inferInstanceAs (Decidable (_ ≤ _))

/-- A `Split` borrows a register, which is kept below the frame. -/
def borrows (p : SplitInstr) : Prop :=
  isSlot p.rm ∧ isSlot p.rd ∨ (p.rm = flags ∨ p.rd = flags) ∧ (isSlot p.rm ∨ isSlot p.rd)

instance (p : SplitInstr) : Decidable (borrows p) :=
  inferInstanceAs (Decidable (_ ∧ _ ∨ _ ∧ _))

/-- What a `Split` accesses, with the slots at the given offsets. -/
def splitAccesses (p : SplitInstr) (base rdBytes rmBytes : ℤ) : List A64.Access :=
  let moves := (if isSlot p.rm then [⟨false, base + rmBytes, 8⟩] else []) ++
    if isSlot p.rd then [⟨true, base + rdBytes, 8⟩] else []
  let size := if p.rm.kind = .vector then 16 else 8
  if borrows p then ⟨true, base - 16, size⟩ :: moves ++ [⟨false, base - 16, size⟩] else moves

/-- What the body of a function does with its frame. -/
structure Body (f : Func) where
  /-- The `Split`s. -/
  splits : List SplitInstr
  /-- The locals whose addresses are taken. -/
  localAddrs : List ℕ
  /-- The parameters whose addresses are taken. -/
  paramAddrs : List ℕ
  rd_mem : ∀ p ∈ splits, p.rd ∈ f.splits
  rm_mem : ∀ p ∈ splits, p.rm ∈ f.allocs
  kind_eq : ∀ p ∈ splits, p.rd.kind = p.rm.kind
  negCond_lt : ∀ p ∈ splits, p.negCond < 2 ^ 4
  localAddrs_lt : ∀ i ∈ localAddrs, i < f.locals.length
  paramAddrs_lt : ∀ i ∈ paramAddrs, i < f.params.length

namespace Func

variable (f : Func)

/-- The byte offset of the slot of a register. -/
def slotBytes (r : Reg) : ℤ :=
  spillSlotOffset boundary f.frame.stackParamOffset f.frame.spillSlotBase r

/-- The assertions at a `Local_Addr` and at a `Split`. -/
structure BodyAsserts (b : Body f) : Prop where
  slots : ∀ p ∈ b.splits, f.slotOffset p.rd < 4096 ∧ f.slotOffset p.rm < 4096
  locals : ∀ i ∈ b.localAddrs, ∀ offset, f.frame.localOffsets[i]? = some offset → offset < 4096
  params : ∀ i ∈ b.paramAddrs, ∀ offset, f.frame.paramOffsets[i]? = some offset → offset < 4096

/-! ### What the layout says -/

/-- The slots of the saved registers, and of the pair after them. -/
def saveAccesses (isStore : Bool) (base : ℤ) : List A64.Access :=
  (f.savedRegs.mapIdx fun i _ => ⟨isStore, base + 8 * i, 8⟩) ++
    if f.hasCall then [⟨isStore, base + 8 * f.savedRegs.length, 16⟩] else []

/-- **The frame is adjusted and accessed as laid out.** -/
structure Immediates (b : Body f) : Prop where
  prologue : ∀ base, A64.trace base (f.prologue.map Instr.word) =
    some (base - f.frame.stackSize, if f.frame.stackSize = 0 then []
      else f.saveAccesses true (base - f.frame.stackSize + f.pushBase))
  epilogue : ∀ base, A64.trace base (f.epilogue.map Instr.word) =
    some (base + f.frame.stackSize, f.saveAccesses false (base + f.pushBase))
  locals : ∀ i ∈ b.localAddrs, ∀ offset, f.frame.localOffsets[i]? = some offset → ∀ reg < 2 ^ 5,
    ∃ word imm, emitLocalAddr reg offset = some word ∧
      A64.decode word = some (.addImm imm sp reg) ∧ (imm : ℤ) = offset
  params : ∀ i ∈ b.paramAddrs, ∀ offset, f.frame.paramOffsets[i]? = some offset → ∀ reg < 2 ^ 5,
    ∃ word imm, emitLocalAddr reg offset = some word ∧
      A64.decode word = some (.addImm imm sp reg) ∧ (imm : ℤ) = offset
  splits : ∀ p ∈ b.splits, ∀ base, ∃ words,
    emitSplit p (f.slotOffset p.rd) (f.slotOffset p.rm) = some words ∧
      A64.trace base words =
        some (base, splitAccesses p base (f.slotBytes p.rd) (f.slotBytes p.rm))

end Func

/-! ### Words -/

section Words

variable {opc rt rn : ℕ} {imm base : ℤ}

theorem imm12_eq (imm : ℤ) : ((unsigned 12 imm : ℕ) : ℤ) = imm12 imm := unsigned_cast 12 imm

theorem decode_imm12Instr (hrt : rt < 2 ^ 5) (hrn : rn < 2 ^ 5) :
    A64.decode (imm12Instr opc rt rn imm) = match opc with
      | 0b1001000100 => some (.addImm (unsigned 12 imm) rn rt)
      | 0b1101000100 => some (.subImm (unsigned 12 imm) rn rt)
      | 0b1111000100 | 0b0111000100 => some (.subsImm (unsigned 12 imm) rn rt)
      | 0b1111100100 => some (.strX (unsigned 12 imm) rn rt)
      | 0b1111100101 => some (.ldrX (unsigned 12 imm) rn rt)
      | 0b1111110100 => some (.strD (unsigned 12 imm) rn rt)
      | 0b1111110101 => some (.ldrD (unsigned 12 imm) rn rt)
      | _ => A64.decode (imm12Instr opc rt rn imm) := by
  have himm : unsigned 12 imm < 2 ^ 12 := unsigned_lt 12 imm
  have hopc : imm12Instr opc rt rn imm / 2 ^ 22 = opc % 1024 := by
    rw [imm12Instr]
    omega
  have himm' : imm12Instr opc rt rn imm / 2 ^ 10 % 2 ^ 12 = unsigned 12 imm := by
    rw [imm12Instr]
    omega
  have hrn' : imm12Instr opc rt rn imm / 2 ^ 5 % 2 ^ 5 = rn := by
    rw [imm12Instr]
    omega
  have hrt' : imm12Instr opc rt rn imm % 2 ^ 5 = rt := by
    rw [imm12Instr]
    omega
  split <;> first | rfl | simp only [A64.decode, hopc, himm', hrn', hrt', Nat.reduceMod]

/-- `ldr` and `str` of eight bytes. -/
def slotOps : List (ℕ × Bool) :=
  [(0b1111100100, true), (0b1111100101, false), (0b1111110100, true), (0b1111110101, false)]

theorem strX_mem : (0b1111100100, true) ∈ slotOps := by decide

theorem ldrX_mem : (0b1111100101, false) ∈ slotOps := by decide

theorem strD_mem : (0b1111110100, true) ∈ slotOps := by decide

theorem ldrD_mem : (0b1111110101, false) ∈ slotOps := by decide

theorem trace_slot {isStore : Bool} (h : (opc, isStore) ∈ slotOps) (hrt : rt < 2 ^ 5)
    (words : List ℕ) :
    A64.trace base (imm12Instr opc rt sp imm :: words) =
      (A64.trace base words).map fun p => (p.1, ⟨isStore, base + 8 * imm12 imm, 8⟩ :: p.2) := by
  have hdecode := @decode_imm12Instr opc rt sp imm hrt (by decide)
  simp only [slotOps, List.mem_cons, List.not_mem_nil, or_false, Prod.mk.injEq] at h
  obtain ⟨rfl, rfl⟩ | ⟨rfl, rfl⟩ | ⟨rfl, rfl⟩ | ⟨rfl, rfl⟩ := h
  all_goals
    rw [@A64.trace_cons base _ _ _ _ words hdecode rfl, imm12_eq]
    rfl

theorem decode_stp (imm : ℤ) (h : InS 7 imm) :
    A64.decode (Instr.word (.stp imm)) = some (.stp imm 30 sp 29) ∧
      A64.decode (Instr.word (.ldp imm)) = some (.ldp imm 30 sp 29) := by
  have hlt : unsigned 7 imm < 2 ^ 7 := unsigned_lt 7 imm
  have hbmod : Int.bmod (unsigned 7 imm : ℕ) (2 ^ 7) = imm := by
    rw [unsigned_cast]
    exact (Int.emod_bmod ..).trans (wrap_eq_self (by decide) h)
  constructor
  · have hopc : Instr.word (.stp imm) / 2 ^ 22 = 0b1010100100 := by rw [Instr.word, sp]; omega
    have himm : Instr.word (.stp imm) / 2 ^ 15 % 2 ^ 7 = unsigned 7 imm := by
      rw [Instr.word, sp]
      omega
    have hrt2 : Instr.word (.stp imm) / 2 ^ 10 % 2 ^ 5 = 30 := by rw [Instr.word, sp]; omega
    have hrn : Instr.word (.stp imm) / 2 ^ 5 % 2 ^ 5 = sp := by rw [Instr.word, sp]; omega
    have hrt : Instr.word (.stp imm) % 2 ^ 5 = 29 := by rw [Instr.word, sp]; omega
    simp only [A64.decode, hopc, himm, hrt2, hrn, hrt, hbmod]
  · have hopc : Instr.word (.ldp imm) / 2 ^ 22 = 0b1010100101 := by rw [Instr.word, sp]; omega
    have himm : Instr.word (.ldp imm) / 2 ^ 15 % 2 ^ 7 = unsigned 7 imm := by
      rw [Instr.word, sp]
      omega
    have hrt2 : Instr.word (.ldp imm) / 2 ^ 10 % 2 ^ 5 = 30 := by rw [Instr.word, sp]; omega
    have hrn : Instr.word (.ldp imm) / 2 ^ 5 % 2 ^ 5 = sp := by rw [Instr.word, sp]; omega
    have hrt : Instr.word (.ldp imm) % 2 ^ 5 = 29 := by rw [Instr.word, sp]; omega
    simp only [A64.decode, hopc, himm, hrt2, hrn, hrt, hbmod]

/-- The moves between registers. -/
theorem decode_cset {cond tmp : ℕ} (hcond : cond < 2 ^ 4) (htmp : tmp < 2 ^ 6) :
    A64.decode (0x1A9F07E0 ||| cond <<< 12 ||| tmp) =
      some (.registers (0x1A9F07E0 ||| cond <<< 12 ||| tmp)) := by
  have hlow : cond <<< 12 ||| tmp < 2 ^ 16 :=
    Nat.or_lt_two_pow (by rw [Nat.shiftLeft_eq]; omega) (by omega)
  have hhigh : (0x1A9F07E0 ||| cond <<< 12 ||| tmp) / 2 ^ 16 = 0x1A9F := by
    rw [Nat.or_assoc, ← Nat.shiftRight_eq_div_pow, Nat.shiftRight_or_distrib,
      Nat.shiftRight_eq_div_pow (cond <<< 12 ||| tmp), Nat.div_eq_of_lt hlow]
    rfl
  have h22 : (0x1A9F07E0 ||| cond <<< 12 ||| tmp) / 2 ^ 22 = 0b1101010 := by omega
  have h25 : (0x1A9F07E0 ||| cond <<< 12 ||| tmp) / 2 ^ 25 % 8 = 0b101 := by omega
  simp only [A64.decode, h22]
  exact if_pos (.inl h25)

theorem decode_movVector {rd rm : ℕ} (hrd : rd < 2 ^ 5) (hrm : rm < 2 ^ 5) :
    A64.decode (0x4EA01C00 ||| rm <<< 16 ||| rm <<< 5 ||| rd) =
      some (.registers (0x4EA01C00 ||| rm <<< 16 ||| rm <<< 5 ||| rd)) := by
  have hlow : rm <<< 16 ||| (rm <<< 5 ||| rd) < 2 ^ 21 :=
    Nat.or_lt_two_pow (by rw [Nat.shiftLeft_eq]; omega)
      (Nat.or_lt_two_pow (by rw [Nat.shiftLeft_eq]; omega) (by omega))
  have hhigh : (0x4EA01C00 ||| rm <<< 16 ||| rm <<< 5 ||| rd) / 2 ^ 21 = 0x275 := by
    rw [Nat.or_assoc, Nat.or_assoc, ← Nat.shiftRight_eq_div_pow, Nat.shiftRight_or_distrib,
      Nat.shiftRight_eq_div_pow (rm <<< 16 ||| (rm <<< 5 ||| rd)), Nat.div_eq_of_lt hlow]
    rfl
  have h22 : (0x4EA01C00 ||| rm <<< 16 ||| rm <<< 5 ||| rd) / 2 ^ 22 = 0b100111010 := by omega
  have h25 : (0x4EA01C00 ||| rm <<< 16 ||| rm <<< 5 ||| rd) / 2 ^ 25 % 8 = 0b111 := by omega
  simp only [A64.decode, h22]
  exact if_pos (.inr h25)

theorem decode_mov {rd rm : ℕ} :
    A64.decode (rd % 2 ^ 5 + sp * 2 ^ 5 + rm % 2 ^ 5 * 2 ^ 16 + 0b0101010 * 2 ^ 24 + 2 ^ 31) =
      some (.registers
        (rd % 2 ^ 5 + sp * 2 ^ 5 + rm % 2 ^ 5 * 2 ^ 16 + 0b0101010 * 2 ^ 24 + 2 ^ 31)) := by
  set word := rd % 2 ^ 5 + sp * 2 ^ 5 + rm % 2 ^ 5 * 2 ^ 16 + 0b0101010 * 2 ^ 24 + 2 ^ 31 with hword
  rw [sp] at hword
  have h22 : word / 2 ^ 22 = 0b1010101000 := by omega
  have h25 : word / 2 ^ 25 % 8 = 0b101 := by omega
  simp only [A64.decode, h22]
  exact if_pos (.inl h25)

end Words

/-! ### Saved registers -/

section Saves

variable {start base : ℤ} {regs : List ℕ}

theorem imm12_of_lt {x : ℤ} (h0 : 0 ≤ x) (h1 : x < 4096) : imm12 x = x := Int.emod_eq_of_lt h0 h1

/-- The immediate of a slot whose offset fits. -/
theorem imm12_imm12_tdiv (h0 : 0 ≤ start) (h1 : start < 2 ^ 12) :
    imm12 (imm12 (start.tdiv 8)) = start / 8 := by
  rw [imm12_tdiv h0 h1, imm12_of_lt (by omega) (by omega)]

theorem trace_saveRegs (h0 : 0 ≤ start) (h1 : start + 8 * regs.length < 2 ^ 12)
    (hregs : ∀ r ∈ regs, r < 2 ^ 5) :
    A64.trace base ((saveRegs regs start).1.map Instr.word) =
      some (base, regs.mapIdx fun i _ => ⟨true, base + 8 * (start / 8) + 8 * i, 8⟩) := by
  induction regs generalizing start with
  | nil => rfl
  | cons reg regs ih =>
    rw [List.length_cons] at h1
    show A64.trace base (imm12Instr 0b1111100100 reg sp (imm12 (start.tdiv 8)) ::
      (saveRegs regs (wrap 32 (start + 8))).1.map Instr.word) = _
    rw [trace_slot strX_mem (hregs reg List.mem_cons_self), imm12_imm12_tdiv h0 (by omega),
      wrap_add_eight h0 (by omega), ih (by omega) (by omega)
        fun r hr => hregs r (List.mem_cons_of_mem _ hr), List.mapIdx_cons]
    have hnext : (start + 8) / 8 = start / 8 + 1 := by omega
    simp only [Option.map_some, hnext, Nat.cast_add, Nat.cast_one, Nat.cast_zero, mul_zero, add_zero,
      mul_add, mul_one, add_assoc, add_comm (8 : ℤ)]

theorem trace_restoreRegs (h0 : 0 ≤ start) (h1 : start + 8 * regs.length < 2 ^ 12)
    (hregs : ∀ r ∈ regs, r < 2 ^ 5) :
    A64.trace base ((restoreRegs regs start).1.map Instr.word) =
      some (base, regs.mapIdx fun i _ => ⟨false, base + 8 * (start / 8) + 8 * i, 8⟩) := by
  induction regs generalizing start with
  | nil => rfl
  | cons reg regs ih =>
    rw [List.length_cons] at h1
    show A64.trace base (imm12Instr 0b1111100101 reg sp (imm12 (start.tdiv 8)) ::
      (restoreRegs regs (wrap 32 (start + 8))).1.map Instr.word) = _
    rw [trace_slot ldrX_mem (hregs reg List.mem_cons_self), imm12_imm12_tdiv h0 (by omega),
      wrap_add_eight h0 (by omega), ih (by omega) (by omega)
        fun r hr => hregs r (List.mem_cons_of_mem _ hr), List.mapIdx_cons]
    have hnext : (start + 8) / 8 = start / 8 + 1 := by omega
    simp only [Option.map_some, hnext, Nat.cast_add, Nat.cast_one, Nat.cast_zero, mul_zero, add_zero,
      mul_add, mul_one, add_assoc, add_comm (8 : ℤ)]

end Saves

namespace Func

variable {f : Func} {base : ℤ}

theorem savedRegs_lt : ∀ r ∈ f.savedRegs, r < 2 ^ 5 := by
  intro r hr
  have hall : ∀ r ∈ calleeSaved .general, r < 2 ^ 5 := by decide
  exact hall r (mem_savedRegs.1 hr).1

theorem pushBase_of_not_hasCall (hc : f.hasCall = false) : f.pushBase = 0 := by
  have hcalls : f.calls = [] := by
    simp only [hasCall, Bool.or_eq_false_iff, Bool.not_eq_false', List.isEmpty_iff] at hc
    exact hc.2
  rw [pushBase, hcalls]
  rfl

/-- The slots of the saved registers start at a multiple of eight, whatever the layout says. -/
theorem Asserts.trace_saves (h : f.Asserts) :
    A64.trace base (((saveRegs f.savedRegs f.pushBase).1 ++ if f.hasCall then
        [Instr.stp ((saveRegs f.savedRegs f.pushBase).2.tdiv 8)] else []).map Instr.word) =
      some (base, f.saveAccesses true (base + 8 * (f.pushBase / 8))) ∧
    A64.trace base (((restoreRegs f.savedRegs f.pushBase).1 ++ if f.hasCall then
        [Instr.ldp ((restoreRegs f.savedRegs f.pushBase).2.tdiv 8)] else []).map Instr.word) =
      some (base, f.saveAccesses false (base + 8 * (f.pushBase / 8))) := by
  obtain ⟨h0, -⟩ := pushBase_bounds (f := f)
  have hlt := h.pushBase_lt_imm
  rw [List.map_append, List.map_append, saveAccesses, saveAccesses]
  constructor
  · refine A64.trace_append (trace_saveRegs h0 hlt savedRegs_lt) ?_
    split
    next hc =>
      have hpair := (decode_stp _ (by simpa [InS] using h.pair hc)).1
      refine (@A64.trace_cons base _ _ _ _ [] hpair rfl).trans ?_
      rw [h.saveRegs_tdiv, ← add_assoc]
      rfl
    next => rfl
  · refine A64.trace_append (trace_restoreRegs h0 hlt savedRegs_lt) ?_
    split
    next hc =>
      rw [restoreRegs_snd]
      have hpair := (decode_stp _ (by simpa [InS] using h.pair hc)).2
      refine (@A64.trace_cons base _ _ _ _ [] hpair rfl).trans ?_
      rw [h.saveRegs_tdiv, ← add_assoc]
      rfl
    next => rfl

theorem decode_subSp (imm : ℤ) : A64.decode (Instr.word (.subSp (imm12 imm))) =
    some (.subImm (unsigned 12 (imm12 imm)) sp sp) := decode_imm12Instr (by decide) (by decide)

theorem decode_addSp (imm : ℤ) : A64.decode (Instr.word (.addSp (imm12 imm))) =
    some (.addImm (unsigned 12 (imm12 imm)) sp sp) := decode_imm12Instr (by decide) (by decide)

theorem imm12_imm12 (imm : ℤ) : imm12 (imm12 imm) = imm12 imm := Int.emod_emod_of_dvd _ dvd_rfl

/-- What the prologue really does. -/
theorem Asserts.trace_prologue (h : f.Asserts) :
    A64.trace base (f.prologue.map Instr.word) =
      some (base - imm12 f.frame.stackSize, if f.frame.stackSize = 0 then []
        else f.saveAccesses true (base - imm12 f.frame.stackSize + 8 * (f.pushBase / 8))) := by
  rw [prologue]
  dsimp only
  by_cases h0 : f.frame.stackSize = 0
  · rw [if_pos h0, if_pos h0, h0]
    simp [imm12, A64.trace]
  · rw [if_neg h0, if_neg h0, List.cons_append, List.map_cons, A64.trace_cons _ (decode_subSp _) rfl, imm12_eq,
      imm12_imm12, h.trace_saves.1]
    rfl

/-- What the epilogue really does. -/
theorem Asserts.trace_epilogue (h : f.Asserts) :
    A64.trace base (f.epilogue.map Instr.word) =
      some (base + imm12 f.frame.stackSize,
        f.saveAccesses false (base + 8 * (f.pushBase / 8))) := by
  have hadd : A64.trace base ((if f.frame.stackSize = 0 then []
      else [Instr.addSp (imm12 f.frame.stackSize)]).map Instr.word) =
      some (base + imm12 f.frame.stackSize, []) := by
    split_ifs with h0
    · rw [h0]
      simp [imm12, A64.trace]
    · rw [List.map_singleton, A64.trace_cons _ (decode_addSp _) rfl, imm12_eq, imm12_imm12]
      rfl
  rw [epilogue]
  dsimp only
  rw [List.map_append, ← List.append_nil (f.saveAccesses _ _)]
  exact A64.trace_append h.trace_saves.2 hadd

/-- Where the saves are is seen from any of them. -/
theorem saveAccesses_eq_iff {isStore : Bool} {a b : ℤ} :
    f.saveAccesses isStore a = f.saveAccesses isStore b ↔
      a = b ∨ f.savedRegs = [] ∧ f.hasCall = false := by
  constructor
  · intro h
    rw [saveAccesses, saveAccesses] at h
    obtain ⟨hregs, hpair⟩ := List.append_inj h (by simp)
    cases hc : f.hasCall with
    | true =>
      rw [if_pos hc, if_pos hc] at hpair
      simp only [List.cons.injEq, A64.Access.mk.injEq, and_true, true_and, add_left_inj] at hpair
      exact .inl hpair
    | false =>
      cases hs : f.savedRegs with
      | nil => exact .inr ⟨rfl, rfl⟩
      | cons r regs =>
        rw [hs, List.mapIdx_cons, List.mapIdx_cons] at hregs
        simp only [List.cons.injEq, A64.Access.mk.injEq, and_true, true_and, add_left_inj] at hregs
        exact .inl hregs.1
  · rintro (rfl | ⟨hs, hc⟩)
    · rfl
    · simp [saveAccesses, hs, hc]

/-- **The saves are where they are laid out** iff the arguments of calls end at a slot. -/
theorem saveAccesses_tdiv_iff {isStore : Bool} :
    f.saveAccesses isStore (base + 8 * (f.pushBase / 8)) =
      f.saveAccesses isStore (base + f.pushBase) ↔ 8 ∣ f.argBytes ∨ f.savedRegs = [] ∧
        f.hasCall = false := by
  rw [saveAccesses_eq_iff, ← pushBase_eq]
  refine or_congr_left ?_
  omega

end Func

/-! ### Slots -/

/-- The offset of a slot, in a register that is borrowed or not, fits. -/
structure Fits (borrowed : Prop) [Decidable borrowed] (offset : ℤ) : Prop where
  dvd : 8 ∣ offset
  nonneg : 0 ≤ offset / 8 + if borrowed then 2 else 0
  lt : offset / 8 + (if borrowed then 2 else 0) < 4096

/-- Where a slot is accessed. -/
def encoded (borrowed : Prop) [Decidable borrowed] (offset : ℤ) : ℤ :=
  if borrowed then 8 * imm12 (offset.tdiv 8 + 2) - 16 else 8 * imm12 (offset.tdiv 8)

theorem encoded_eq_iff {borrowed : Prop} [Decidable borrowed] {offset : ℤ} :
    encoded borrowed offset = offset ↔ Fits borrowed offset := by
  have htdiv (h : 8 ∣ offset) : offset.tdiv 8 = offset / 8 := Int.tdiv_eq_ediv_of_dvd h
  constructor
  · intro h
    have hdvd : 8 ∣ offset := by
      rw [encoded] at h
      split_ifs at h <;> omega
    rw [encoded, htdiv hdvd, imm12, imm12] at h
    refine ⟨hdvd, ?_, ?_⟩ <;> split_ifs at h ⊢ <;> omega
  · rintro ⟨hdvd, h0, h1⟩
    rw [encoded, htdiv hdvd, imm12, imm12]
    split_ifs at h0 h1 ⊢ <;> omega

section Split

variable {p : SplitInstr} {base rdOff rmOff : ℤ}

/-- What is done with a register that is borrowed meanwhile. -/
theorem trace_borrow {move : List ℕ} {accesses : List A64.Access}
    (h : A64.trace (base - 16) move = some (base - 16, accesses)) :
    A64.trace base (0xF81F0FF1 :: move ++ [0xF84107F1]) =
      some (base, ⟨true, base - 16, 8⟩ :: accesses ++ [⟨false, base - 16, 8⟩]) := by
  have hstr : A64.decode 0xF81F0FF1 = some (.strPre (-16) 31 17) := by decide
  have hldr : A64.decode 0xF84107F1 = some (.ldrPost 16 31 17) := by decide
  have hlast : A64.trace (base - 16) [0xF84107F1] = some (base, [⟨false, base - 16, 8⟩]) := by
    rw [@A64.trace_cons (base - 16) _ _ _ _ [] hldr rfl, sub_add_cancel]
    rfl
  rw [List.cons_append, @A64.trace_cons base _ _ _ _ _ hstr rfl, ← sub_eq_add_neg,
    A64.trace_append h hlast]
  rfl

theorem not_isSlot_flags : ¬isSlot flags := by decide

theorem isSlot_general {r : Reg} (h : r.kind = .general) : isSlot r ↔ boundary .general ≤ r.index := by
  rw [isSlot, h]

theorem isSlot_vector {r : Reg} (h : r.kind = .vector) : isSlot r ↔ 32 ≤ r.index := by
  rw [isSlot, h]
  rfl

/-- A move from the flags or to them. -/
theorem trace_emitSplit_flags (hflags : p.rm = flags ∨ p.rd = flags) (hkind : p.rd.kind = p.rm.kind)
    (hcond : p.negCond < 2 ^ 4) (hrd : rdOff.tdiv 8 < 4096) (hrm : rmOff.tdiv 8 < 4096) :
    ∃ words, emitSplit p (rdOff.tdiv 8) (rmOff.tdiv 8) = some words ∧
      A64.trace base words = some (base,
        splitAccesses p base (encoded (borrows p) rdOff) (encoded (borrows p) rmOff)) := by
  obtain ⟨rd, rm, wide, cond⟩ := p
  dsimp only at hflags hkind hcond
  have hassert : ¬¬(rdOff.tdiv 8 < 4096 ∧ rmOff.tdiv 8 < 4096) := not_not.2 ⟨hrd, hrm⟩
  by_cases h : rm = flags
  · subst h
    have hslot : isSlot rd ↔ boundary .general ≤ rd.index := isSlot_general hkind
    refine ⟨_, by rw [emitSplit, if_neg hassert, if_pos (.inl rfl)], ?_⟩
    simp only [if_true]
    by_cases hs : boundary .general ≤ rd.index
    · -- from the flags to a slot: `cset` goes to the register that is borrowed
      have hb : borrows ⟨rd, flags, wide, cond⟩ := .inr ⟨.inl rfl, .inr (hslot.2 hs)⟩
      rw [if_pos hs, if_pos hs, if_pos hs, splitAccesses, if_pos hb, if_neg not_isSlot_flags,
        if_pos (hslot.2 hs), encoded, if_pos hb]
      dsimp only
      rw [if_neg (show ¬flags.kind = .vector by decide)]
      refine trace_borrow ?_
      rw [A64.trace_cons _ (decode_cset hcond (by decide)) rfl, trace_slot strX_mem (by decide)]
      simp [A64.trace]
      ring
    · have hb : ¬borrows ⟨rd, flags, wide, cond⟩ := by
        rintro (h | ⟨-, h | h⟩)
        · exact not_isSlot_flags h.1
        · exact not_isSlot_flags h
        · exact hs (hslot.1 h)
      -- to a register: one `cset`, and no access
      have hlt : rd.index < 2 ^ 6 := (not_le.1 hs).trans (by decide)
      rw [if_neg hs, if_neg hs, if_neg hs, splitAccesses, if_neg hb, if_neg not_isSlot_flags,
        if_neg (hslot.not.2 hs), A64.trace_cons _ (decode_cset hcond hlt) rfl]
      rfl
  · obtain rfl : rd = flags := hflags.resolve_left h
    have hslot : isSlot rm ↔ boundary .general ≤ rm.index := isSlot_general hkind.symm
    refine ⟨_, by rw [emitSplit, if_neg hassert, if_pos (.inr rfl)], ?_⟩
    simp only [if_neg h]
    -- into the flags: a `subs` whose result is dropped
    have hsubs {tmp : ℕ} (htmp : tmp < 2 ^ 5) (base : ℤ) :
        A64.trace base [imm12Instr (if wide then 0b1111000100 else 0b0111000100) sp tmp 0] =
          some (base, []) := by
      have hdecode : A64.decode
          (imm12Instr (if wide then 0b1111000100 else 0b0111000100) sp tmp 0) =
          some (.subsImm (unsigned 12 0) tmp sp) := by
        cases wide
        · exact decode_imm12Instr (by decide) htmp
        · exact decode_imm12Instr (by decide) htmp
      rw [A64.trace_cons _ hdecode rfl]
      rfl
    by_cases hs : boundary .general ≤ rm.index
    · have hb : borrows ⟨flags, rm, wide, cond⟩ := .inr ⟨.inr rfl, .inl (hslot.2 hs)⟩
      rw [if_pos hs, if_pos hs, if_pos hs, splitAccesses, if_pos hb, if_neg not_isSlot_flags,
        if_pos (hslot.2 hs), encoded, if_pos hb]
      dsimp only
      rw [← hkind, if_neg (show ¬flags.kind = .vector by decide)]
      refine trace_borrow ?_
      rw [List.singleton_append, trace_slot ldrX_mem (by decide), hsubs (by decide)]
      simp only [Option.map_some, List.append_nil]
      congr 4
      ring
    · have hb : ¬borrows ⟨flags, rm, wide, cond⟩ := by
        rintro (h | ⟨-, h | h⟩)
        · exact not_isSlot_flags h.2
        · exact hs (hslot.1 h)
        · exact not_isSlot_flags h
      have hlt : rm.index < 2 ^ 5 := by
        obtain ⟨k, i⟩ := rm
        obtain rfl : k = .general := hkind.symm
        simp only [boundary, flags, Reg.mk.injEq, true_and] at hs h
        simp only
        omega
      rw [if_neg hs, if_neg hs, if_neg hs, splitAccesses, if_neg hb, if_neg not_isSlot_flags,
        if_neg (hslot.not.2 hs), List.nil_append, hsubs hlt]
      rfl

/-- A move of a vector. -/
theorem trace_emitSplit_vector (hk : p.rm.kind = .vector) (hkind : p.rd.kind = p.rm.kind)
    (hrd : rdOff.tdiv 8 < 4096) (hrm : rmOff.tdiv 8 < 4096) :
    ∃ words, emitSplit p (rdOff.tdiv 8) (rmOff.tdiv 8) = some words ∧
      A64.trace base words = some (base,
        splitAccesses p base (encoded (borrows p) rdOff) (encoded (borrows p) rmOff)) := by
  have hassert : ¬¬(rdOff.tdiv 8 < 4096 ∧ rmOff.tdiv 8 < 4096) := not_not.2 ⟨hrd, hrm⟩
  have hflags : ¬(p.rm = flags ∨ p.rd = flags) := by
    rintro (h | h)
    · rw [h] at hk
      cases hk
    · rw [h] at hkind
      rw [← hkind] at hk
      cases hk
  have hm : isSlot p.rm ↔ 32 ≤ p.rm.index := isSlot_vector hk
  have hd : isSlot p.rd ↔ 32 ≤ p.rd.index := isSlot_vector (hkind.trans hk)
  have hborrow : borrows p ↔ 32 ≤ p.rm.index ∧ 32 ≤ p.rd.index := by
    rw [borrows, hm, hd]
    exact or_iff_left fun h => hflags h.1
  refine ⟨_, by rw [emitSplit, if_neg hassert, if_neg hflags, if_pos hk], ?_⟩
  simp only [splitAccesses, encoded, hborrow, hm, hd, hk, if_true]
  by_cases hrm32 : 32 ≤ p.rm.index
  · by_cases hrd32 : 32 ≤ p.rd.index
    · have hsub : A64.decode 0xD10043FF = some (.subImm 16 31 31) := by decide
      have hstr : A64.decode 0x3D8003FF = some (.strQ 0 31 31) := by decide
      have hldr : A64.decode 0x3DC003FF = some (.ldrQ 0 31 31) := by decide
      have hadd : A64.decode 0x910043FF = some (.addImm 16 31 31) := by decide
      simp only [hrm32, hrd32, and_self, if_true]
      rw [@A64.trace_cons base _ _ _ _ _ hsub rfl, @A64.trace_cons _ _ _ _ _ _ hstr rfl,
        trace_slot ldrD_mem (by decide), trace_slot strD_mem (by decide),
        @A64.trace_cons _ _ _ _ _ _ hldr rfl, @A64.trace_cons _ _ _ _ _ _ hadd rfl]
      simp [A64.trace]
      constructor <;> ring
    · simp only [hrm32, hrd32, and_false, if_true, if_false]
      rw [trace_slot ldrD_mem (not_le.1 hrd32)]
      simp [A64.trace]
  · by_cases hrd32 : 32 ≤ p.rd.index
    · simp only [hrm32, hrd32, false_and, if_true, if_false]
      rw [trace_slot strD_mem (not_le.1 hrm32)]
      simp [A64.trace]
    · simp only [hrm32, hrd32, false_and, if_false]
      rw [A64.trace_cons _ (decode_movVector (not_le.1 hrd32) (not_le.1 hrm32)) rfl]
      rfl

/-- A move between general registers and their slots. -/
theorem trace_emitSplit_general (hflags : ¬(p.rm = flags ∨ p.rd = flags))
    (hk : p.rm.kind = .general) (hkind : p.rd.kind = p.rm.kind)
    (hrd : rdOff.tdiv 8 < 4096) (hrm : rmOff.tdiv 8 < 4096) :
    ∃ words, emitSplit p (rdOff.tdiv 8) (rmOff.tdiv 8) = some words ∧
      A64.trace base words = some (base,
        splitAccesses p base (encoded (borrows p) rdOff) (encoded (borrows p) rmOff)) := by
  have hassert : ¬¬(rdOff.tdiv 8 < 4096 ∧ rmOff.tdiv 8 < 4096) := not_not.2 ⟨hrd, hrm⟩
  have hm : isSlot p.rm ↔ boundary .general ≤ p.rm.index := isSlot_general hk
  have hd : isSlot p.rd ↔ boundary .general ≤ p.rd.index := isSlot_general (hkind.trans hk)
  have hborrow : borrows p ↔ boundary .general ≤ p.rm.index ∧ boundary .general ≤ p.rd.index := by
    rw [borrows, hm, hd]
    exact or_iff_left fun h => hflags h.1
  have hlt {r : Reg} (hr : r.kind = .general) (hne : r ≠ flags)
      (h : ¬boundary .general ≤ r.index) : r.index < 2 ^ 5 := by
    obtain ⟨k, i⟩ := r
    obtain rfl : k = .general := hr
    simp only [boundary, flags, ne_eq, Reg.mk.injEq, true_and] at h hne ⊢
    omega
  have hrd' := hlt (hkind.trans hk) fun h => hflags (.inr h)
  have hrm' := hlt hk fun h => hflags (.inl h)
  refine ⟨_, by rw [emitSplit, if_neg hassert, if_neg hflags, if_neg (by simp [hk])], ?_⟩
  simp only [splitAccesses, encoded, hborrow, hm, hd, hk, reduceCtorEq, if_false]
  by_cases hrmS : boundary .general ≤ p.rm.index
  · by_cases hrdS : boundary .general ≤ p.rd.index
    · simp only [hrmS, hrdS, and_self, if_true]
      refine @trace_borrow base [imm12Instr 0b1111100101 17 sp _, imm12Instr 0b1111100100 17 sp _]
        _ ?_
      rw [trace_slot ldrX_mem (by decide), trace_slot strX_mem (by decide)]
      simp [A64.trace]
      constructor <;> ring
    · simp only [hrmS, hrdS, and_false, if_true, if_false]
      rw [trace_slot ldrX_mem (hrd' hrdS)]
      simp [A64.trace]
  · by_cases hrdS : boundary .general ≤ p.rd.index
    · simp only [hrmS, hrdS, false_and, if_true, if_false]
      rw [trace_slot strX_mem (hrm' hrmS)]
      simp [A64.trace]
    · simp only [hrmS, hrdS, false_and, if_false]
      rw [A64.trace_cons _ decode_mov rfl]
      rfl

/-- What a `Split` really accesses. -/
theorem trace_emitSplit (hkind : p.rd.kind = p.rm.kind) (hcond : p.negCond < 2 ^ 4)
    (hrd : rdOff.tdiv 8 < 4096) (hrm : rmOff.tdiv 8 < 4096) :
    ∃ words, emitSplit p (rdOff.tdiv 8) (rmOff.tdiv 8) = some words ∧
      A64.trace base words = some (base,
        splitAccesses p base (encoded (borrows p) rdOff) (encoded (borrows p) rmOff)) := by
  by_cases hflags : p.rm = flags ∨ p.rd = flags
  · exact trace_emitSplit_flags hflags hkind hcond hrd hrm
  · cases hk : p.rm.kind with
    | vector => exact trace_emitSplit_vector hk hkind hrd hrm
    | general => exact trace_emitSplit_general hflags hk hkind hrd hrm

theorem splitAccesses_eq_iff {rdOff' rmOff' : ℤ} :
    splitAccesses p base rdOff rmOff = splitAccesses p base rdOff' rmOff' ↔
      (isSlot p.rd → rdOff = rdOff') ∧ (isSlot p.rm → rmOff = rmOff') := by
  rw [splitAccesses, splitAccesses]
  by_cases hd : isSlot p.rd <;> by_cases hm : isSlot p.rm <;> by_cases hb : borrows p <;>
    simp [hd, hm, hb, and_comm]

end Split

/-- A `Local_Addr` adds the offset iff it has no sign. -/
theorem emitLocalAddr_iff {offset : ℤ} (h : offset < 4096) :
    (∀ reg < 2 ^ 5, ∃ word imm, emitLocalAddr reg offset = some word ∧
      A64.decode word = some (.addImm imm sp reg) ∧ (imm : ℤ) = offset) ↔ 0 ≤ offset := by
  have hdecode {reg : ℕ} (hreg : reg < 2 ^ 5) :
      A64.decode (imm12Instr 0b1001000100 reg sp offset) =
        some (.addImm (unsigned 12 offset) sp reg) := decode_imm12Instr hreg (by decide)
  constructor
  · intro hall
    obtain ⟨word, imm, hword, himm, heq⟩ := hall 0 (by decide)
    omega
  · intro h0 reg hreg
    refine ⟨_, unsigned 12 offset, if_pos h, hdecode hreg, ?_⟩
    rw [imm12_eq, imm12_of_lt h0 h]

namespace Func

variable (f : Func)

/-! ### The condition -/

/-- The parameter that a slot belongs to. -/
def paramOfSlot (r : Reg) : Option ℕ :=
  (List.range f.params.length).find? fun i =>
    (f.params[i]?).any (·.isValueOf r.kind) &&
      (f.params.take i).countP (·.isValueOf r.kind) == r.index - boundary r.kind

/-- Where a slot is: with its parameter, or in the frame. -/
def slotStart (r : Reg) : ℤ :=
  match f.paramOfSlot r with
  | some i => wrap 32 (f.paramStart i)
  | none =>
    (match r.kind with
      | .general => f.slotsStart
      | .vector => f.slotsStart + 8 * f.slots .general) +
    (r.index - f.params.countP (·.isValueOf r.kind) - boundary r.kind) * spillSlotSize r.kind

/-- All the immediates fit. -/
structure ImmediatesFit (b : Body f) : Prop where
  frame : 0 ≤ f.frameBytes ∧ f.frameBytes < 4096
  args : 8 ∣ f.argBytes
  locals : ∀ i ∈ b.localAddrs, 0 ≤ wrap 32 (f.localStart i)
  params : ∀ i ∈ b.paramAddrs, 0 ≤ wrap 32 (f.paramStart i)
  rd : ∀ p ∈ b.splits, isSlot p.rd → Fits (borrows p) (f.slotStart p.rd)
  rm : ∀ p ∈ b.splits, isSlot p.rm → Fits (borrows p) (f.slotStart p.rm)

variable {f}

theorem paramOfSlot_some {r : Reg} {i : ℕ} (h : f.paramOfSlot r = some i) :
    ∃ p, f.params[i]? = some p ∧ p.isValueOf r.kind = true ∧
      (f.params.take i).countP (·.isValueOf r.kind) = r.index - boundary r.kind := by
  have hfind := List.find?_some h
  simp only [Bool.and_eq_true, beq_iff_eq, Option.any_eq_true] at hfind
  obtain ⟨⟨p, hp, hvalue⟩, hcount⟩ := hfind
  exact ⟨p, hp, hvalue, hcount⟩

theorem paramOfSlot_none {r : Reg} (h : f.paramOfSlot r = none) :
    f.params.countP (·.isValueOf r.kind) ≤ r.index - boundary r.kind := by
  by_contra hlt
  obtain ⟨i, p, hi, hvalue, hcount⟩ := exists_isValueOf (not_le.1 hlt)
  refine List.find?_eq_none.1 h i (List.mem_range.2 (List.getElem?_eq_some_iff.1 hi).1) ?_
  simp [hi, hvalue, hcount]

/-- The slots are where their sizes put them. -/
theorem Asserts.slotBytes_eq (h : f.Asserts) {r : Reg} (hr : r ∈ f.allocs) (hslot : isSlot r) :
    f.slotBytes r = f.slotStart r := by
  obtain ⟨-, hlt⟩ := h.slotsStart_bounds
  have h0 := h.slotsStart_nonneg
  obtain ⟨hg0, hg1⟩ := slots_bounds (f := f) .general
  have hidx := f.index_lt r hr
  rw [isSlot] at hslot
  cases hparam : f.paramOfSlot r with
  | some i =>
    obtain ⟨p, hp, hvalue, hcount⟩ := paramOfSlot_some hparam
    rw [slotStart, hparam, slotBytes, spillSlotOffset, if_neg (not_lt.2 hslot), ← hcount,
      h.frameEq.values i p r.kind hp hvalue]
  | none =>
    have hle := paramOfSlot_none hparam
    have hlength : (f.frame.stackParamOffset r.kind).length =
        f.params.countP (·.isValueOf r.kind) := by
      rw [h.frame_eq, List.length_map, length_stackParamOffset]
    rw [slotStart, hparam, slotBytes, spillSlotOffset, if_neg (not_lt.2 hslot),
      List.getElem?_eq_none (by omega), hlength]
    cases hk : r.kind with
    | general =>
      rw [hk] at hle hslot
      simp only [boundary, spillSlotSize, h.frameEq.general] at hle hslot ⊢
      exact wrap_i32 (by omega) (by omega)
    | vector =>
      rw [hk] at hle hslot
      simp only [boundary, spillSlotSize, h.frameEq.vector] at hle hslot ⊢
      exact wrap_i32 (by omega) (by omega)

/-- The adjustments of the stack pointer are right iff the frame fits the field. -/
theorem Asserts.frame_fits_iff (h : f.Asserts) :
    imm12 f.frame.stackSize = f.frame.stackSize ↔ 0 ≤ f.frameBytes ∧ f.frameBytes < 4096 := by
  rw [h.frameEq.stackSize, imm12]
  omega

theorem args_iff : (8 ∣ f.argBytes ∨ f.savedRegs = [] ∧ f.hasCall = false) ↔ 8 ∣ f.argBytes := by
  refine or_iff_left_of_imp fun ⟨_, hc⟩ => ?_
  rw [← pushBase_eq, pushBase_of_not_hasCall hc]
  exact dvd_zero 8

theorem localOffset_some (h : f.Asserts) {i : ℕ} (hi : i < f.locals.length) :
    f.frame.localOffsets[i]? = some (wrap 32 (f.localStart i)) := by
  have hlen : i < (sortLocals f.locals).length := by
    rw [sortLocals, List.length_mergeSort]
    exact hi
  exact h.frameEq.locals i _ (List.getElem?_eq_getElem hlen)

end Func

open Func in
/-- **Frames and slots are exact iff their immediates fit.** -/
theorem immediates_iff {f : Func} {b : Body f} (h : f.Asserts) (hb : f.BodyAsserts b) :
    f.Immediates b ↔ f.ImmediatesFit b := by
  have hsplit (p : SplitInstr) (hp : p ∈ b.splits) (base : ℤ) :=
    @trace_emitSplit p base (f.slotBytes p.rd) (f.slotBytes p.rm) (b.kind_eq p hp)
      (b.negCond_lt p hp) (hb.slots p hp).1 (hb.slots p hp).2
  have hrd (p : SplitInstr) (hp : p ∈ b.splits) (hs : isSlot p.rd) :=
    h.slotBytes_eq (f.splits_subset _ (b.rd_mem p hp)) hs
  have hrm (p : SplitInstr) (hp : p ∈ b.splits) (hs : isSlot p.rm) :=
    h.slotBytes_eq (b.rm_mem p hp) hs
  have hlocal (i : ℕ) (hi : i ∈ b.localAddrs) := localOffset_some h (b.localAddrs_lt i hi)
  have hparam (i : ℕ) (hi : i ∈ b.paramAddrs) := h.frameEq.params i (b.paramAddrs_lt i hi)
  constructor
  · intro himm
    have hframe : imm12 f.frame.stackSize = f.frame.stackSize := by
      have := himm.epilogue 0
      rw [h.trace_epilogue] at this
      simpa using (Prod.mk.inj (Option.some.inj this)).1
    refine ⟨h.frame_fits_iff.1 hframe, ?_, fun i hi => ?_, fun i hi => ?_, fun p hp hs => ?_,
      fun p hp hs => ?_⟩
    · have := himm.epilogue 0
      rw [h.trace_epilogue] at this
      exact args_iff.1 (saveAccesses_tdiv_iff.1 (Prod.mk.inj (Option.some.inj this)).2)
    · exact (emitLocalAddr_iff (hb.locals i hi _ (hlocal i hi))).1
        (himm.locals i hi _ (hlocal i hi))
    · exact (emitLocalAddr_iff (hb.params i hi _ (hparam i hi))).1
        (himm.params i hi _ (hparam i hi))
    all_goals
      obtain ⟨words, hwords, htrace⟩ := himm.splits p hp 0
      obtain ⟨words', hwords', htrace'⟩ := hsplit p hp 0
      obtain rfl := Option.some.inj (hwords.symm.trans hwords')
      have heq := splitAccesses_eq_iff.1
        (Prod.mk.inj (Option.some.inj (htrace'.symm.trans htrace))).2
    · rw [← hrd p hp hs]
      exact encoded_eq_iff.1 (heq.1 hs)
    · rw [← hrm p hp hs]
      exact encoded_eq_iff.1 (heq.2 hs)
  · intro hfit
    have hframe := h.frame_fits_iff.2 hfit.frame
    have hsaves (isStore : Bool) (base : ℤ) :
        f.saveAccesses isStore (base + 8 * (f.pushBase / 8)) =
          f.saveAccesses isStore (base + f.pushBase) :=
      saveAccesses_tdiv_iff.2 (.inl hfit.args)
    refine ⟨fun base => ?_, fun base => ?_, fun i hi offset hoffset => ?_,
      fun i hi offset hoffset => ?_, fun p hp base => ?_⟩
    · rw [h.trace_prologue, hframe, hsaves]
    · rw [h.trace_epilogue, hframe, hsaves]
    · obtain rfl := Option.some.inj ((hlocal i hi).symm.trans hoffset)
      exact (emitLocalAddr_iff (hb.locals i hi _ hoffset)).2 (hfit.locals i hi)
    · obtain rfl := Option.some.inj ((hparam i hi).symm.trans hoffset)
      exact (emitLocalAddr_iff (hb.params i hi _ hoffset)).2 (hfit.params i hi)
    · obtain ⟨words, hwords, htrace⟩ := hsplit p hp base
      refine ⟨words, hwords, htrace.trans (congrArg (fun a => some (base, a)) ?_)⟩
      refine splitAccesses_eq_iff.2 ⟨fun hs => encoded_eq_iff.2 ?_, fun hs => encoded_eq_iff.2 ?_⟩
      · rw [hrd p hp hs]
        exact hfit.rd p hp hs
      · rw [hrm p hp hs]
        exact hfit.rm p hp hs

/-- A function with a local of `n` bytes, whose address it takes, and a value that is spilled. -/
def spillAndLocal (n : ℕ) : Func where
  calls := []
  libCall := false
  locals := [⟨0, n⟩]
  allocs := [⟨.general, 0⟩, ⟨.general, 33⟩]
  splits := [⟨.general, 33⟩]
  params := []
  paramLocals := []
  calls_nonneg := Func.calls_nonneg_nil
  locals_nonneg := by simp
  params_nonneg := Func.params_nonneg_nil
  index_lt := by decide
  splits_subset := by decide

/-- Its body. -/
def spillAndLocalBody (n : ℕ) : Body (spillAndLocal n) where
  splits := [⟨⟨.general, 33⟩, ⟨.general, 0⟩, true, 0⟩]
  localAddrs := [0]
  paramAddrs := []
  rd_mem := by simp [spillAndLocal]
  rm_mem := by simp [spillAndLocal]
  kind_eq := by simp
  negCond_lt := by simp
  localAddrs_lt := by simp [spillAndLocal]
  paramAddrs_lt := by simp

theorem asserts_spillAndLocal (n : ℕ) : (spillAndLocal n).Asserts :=
  ⟨fun hc => absurd hc (by simp [spillAndLocal, Func.hasCall]), by
    intro r hr
    obtain rfl := List.mem_singleton.1 hr
    show (0 : ℤ).tdiv 8 < 4096
    decide⟩

/-- The local is above the slot. -/
theorem bodyAsserts_spillAndLocal (n : ℕ) :
    (spillAndLocal n).BodyAsserts (spillAndLocalBody n) := by
  refine ⟨?_, fun i hi offset hoffset => ?_, by simp [spillAndLocalBody]⟩
  · intro p hp
    obtain rfl := List.mem_singleton.1 hp
    constructor
    · show (0 : ℤ).tdiv 8 < 4096
      decide
    · show (0 : ℤ).tdiv 8 < 4096
      decide
  · obtain rfl := List.mem_singleton.1 hi
    rw [Func.localOffset_some (asserts_spillAndLocal n) (by simp [spillAndLocal])] at hoffset
    obtain rfl := Option.some.inj hoffset
    show wrap 32 8 < 4096
    decide

theorem immediates_spillAndLocal : (spillAndLocal 16).Immediates (spillAndLocalBody 16) := by
  refine (immediates_iff (asserts_spillAndLocal 16) (bodyAsserts_spillAndLocal 16)).2 ?_
  refine ⟨by decide, by decide, by decide, by decide, ?_, ?_⟩
  · intro p hp _
    obtain rfl := List.mem_singleton.1 hp
    exact ⟨by decide, by decide, by decide⟩
  · intro p hp hs
    obtain rfl := List.mem_singleton.1 hp
    exact absurd hs (by decide)

/-- With a frame of 4112 bytes the stack pointer is moved by 16. -/
theorem not_immediates_spillAndLocal : (spillAndLocal 4096).Asserts ∧
    (spillAndLocal 4096).BodyAsserts (spillAndLocalBody 4096) ∧
    ¬(spillAndLocal 4096).Immediates (spillAndLocalBody 4096) := by
  refine ⟨asserts_spillAndLocal _, bodyAsserts_spillAndLocal _, fun h => ?_⟩
  have htrace := h.epilogue 0
  rw [(asserts_spillAndLocal 4096).trace_epilogue] at htrace
  have hframe := (asserts_spillAndLocal 4096).frame_fits_iff.1
    (by simpa using (Prod.mk.inj (Option.some.inj htrace)).1)
  exact absurd hframe.2 (by decide)

end OdinSon.Codegen.Arm
