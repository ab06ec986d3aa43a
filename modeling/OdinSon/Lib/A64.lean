import Mathlib.Data.Nat.Bitwise
import Mathlib.Tactic.IntervalCases
import Mathlib.Logic.Function.Basic

/-!
# Instructions of A64

Some instructions of the 64-bit arm: how they are decoded from their words, and what they do.

A move of a constant sets one lane of sixteen bits: `movz` and `movn` the rest too, to zeros or ones,
`movk` nothing else.  So a register is followed through a sequence of them lane by lane
(`lane_movk`).  Of the other instructions what matters here is the stack pointer and what they access
in memory relative to it (`trace`).
-/

namespace OdinSon.Lib.A64

/-- The instructions: constants are moved into 64-bit registers, immediates are not shifted, and
the offset of `str` and `ldr` counts in words of their size. -/
inductive Instr where
  | movz (hw imm rd : ℕ)
  | movn (hw imm rd : ℕ)
  | movk (hw imm rd : ℕ)
  | addImm (imm rn rd : ℕ)
  | subImm (imm rn rd : ℕ)
  | subsImm (imm rn rd : ℕ)
  | strX (imm rn rt : ℕ)
  | ldrX (imm rn rt : ℕ)
  | strD (imm rn rt : ℕ)
  | ldrD (imm rn rt : ℕ)
  | strQ (imm rn rt : ℕ)
  | ldrQ (imm rn rt : ℕ)
  | stp (imm : ℤ) (rt2 rn rt : ℕ)
  | ldp (imm : ℤ) (rt2 rn rt : ℕ)
  | strPre (imm : ℤ) (rn rt : ℕ)
  | ldrPost (imm : ℤ) (rn rt : ℕ)
  /-- Anything that only has register operands. -/
  | registers (word : ℕ)
  deriving DecidableEq, Repr

/-- The instruction that a word encodes. -/
def decode (word : ℕ) : Option Instr :=
  let hw := word / 2 ^ 21 % 4
  let imm16 := word / 2 ^ 5 % 2 ^ 16
  let imm12 := word / 2 ^ 10 % 2 ^ 12
  let imm9 := Int.bmod (word / 2 ^ 12 % 2 ^ 9 : ℕ) (2 ^ 9)
  let imm7 := Int.bmod (word / 2 ^ 15 % 2 ^ 7 : ℕ) (2 ^ 7)
  let rt2 := word / 2 ^ 10 % 2 ^ 5
  let rn := word / 2 ^ 5 % 2 ^ 5
  let rd := word % 2 ^ 5
  match word / 2 ^ 22 with
  | 0b1101001010 | 0b1101001011 => some (.movz hw imm16 rd)
  | 0b1001001010 | 0b1001001011 => some (.movn hw imm16 rd)
  | 0b1111001010 | 0b1111001011 => some (.movk hw imm16 rd)
  | 0b1001000100 => some (.addImm imm12 rn rd)
  | 0b1101000100 => some (.subImm imm12 rn rd)
  | 0b1111000100 | 0b0111000100 => some (.subsImm imm12 rn rd)
  | 0b1111100100 => some (.strX imm12 rn rd)
  | 0b1111100101 => some (.ldrX imm12 rn rd)
  | 0b1111110100 => some (.strD imm12 rn rd)
  | 0b1111110101 => some (.ldrD imm12 rn rd)
  | 0b0011110110 => some (.strQ imm12 rn rd)
  | 0b0011110111 => some (.ldrQ imm12 rn rd)
  | 0b1010100100 => some (.stp imm7 rt2 rn rd)
  | 0b1010100101 => some (.ldp imm7 rt2 rn rd)
  | 0b1111100000 =>
    if word / 2 ^ 21 % 2 = 0 ∧ word / 2 ^ 10 % 4 = 3 then some (.strPre imm9 rn rd) else none
  | 0b1111100001 =>
    if word / 2 ^ 21 % 2 = 0 ∧ word / 2 ^ 10 % 4 = 1 then some (.ldrPost imm9 rn rd) else none
  | _ => if word / 2 ^ 25 % 8 = 0b101 ∨ word / 2 ^ 25 % 8 = 0b111 then some (.registers word) else none

/-! ### Moves of constants -/

/-- The word of a move of a constant, from its fields. -/
theorem decode_move {op hw imm rd : ℕ} (hhw : hw < 4) (himm : imm < 2 ^ 16) (hrd : rd < 2 ^ 5) :
    decode (op <<< 23 ||| hw <<< 21 ||| imm <<< 5 ||| rd) =
      match op with
      | 0b110100101 => some (.movz hw imm rd)
      | 0b100100101 => some (.movn hw imm rd)
      | 0b111100101 => some (.movk hw imm rd)
      | _ => decode (op <<< 23 ||| hw <<< 21 ||| imm <<< 5 ||| rd) := by
  have hword : op <<< 23 ||| hw <<< 21 ||| imm <<< 5 ||| rd =
      op * 2 ^ 23 + hw * 2 ^ 21 + imm * 2 ^ 5 + rd := by
    rw [Nat.or_assoc, Nat.or_assoc, ← Nat.shiftLeft_add_eq_or_of_lt hrd,
      ← Nat.shiftLeft_add_eq_or_of_lt (show imm <<< 5 + rd < 2 ^ 21 by
        rw [Nat.shiftLeft_eq]; omega),
      ← Nat.shiftLeft_add_eq_or_of_lt (show hw <<< 21 + (imm <<< 5 + rd) < 2 ^ 23 by
        rw [Nat.shiftLeft_eq, Nat.shiftLeft_eq]; omega)]
    simp only [Nat.shiftLeft_eq]
    omega
  have hop : (op <<< 23 ||| hw <<< 21 ||| imm <<< 5 ||| rd) / 2 ^ 22 = 2 * op + hw / 2 := by omega
  have hhw' : (op <<< 23 ||| hw <<< 21 ||| imm <<< 5 ||| rd) / 2 ^ 21 % 4 = hw := by omega
  have himm' : (op <<< 23 ||| hw <<< 21 ||| imm <<< 5 ||| rd) / 2 ^ 5 % 2 ^ 16 = imm := by omega
  have hrd' : (op <<< 23 ||| hw <<< 21 ||| imm <<< 5 ||| rd) % 2 ^ 5 = rd := by omega
  obtain h | h : hw / 2 = 0 ∨ hw / 2 = 1 := by omega
  all_goals
    rw [h] at hop
    split <;> first | rfl | simp only [decode, hop, hhw', himm', hrd']

/-- The registers. -/
abbrev Regs := ℕ → BitVec 64

/-- A constant of sixteen bits in a lane. -/
def inLane (hw imm : ℕ) : BitVec 64 := BitVec.ofNat 64 imm <<< (16 * hw)

/-- What a move of a constant does to the registers. -/
@[grind =] def move (x : Regs) : Instr → Regs
  | .movz hw imm rd => Function.update x rd (inLane hw imm)
  | .movn hw imm rd => Function.update x rd (~~~inLane hw imm)
  | .movk hw imm rd =>
    Function.update x rd (x rd &&& ~~~inLane hw 0xffff ||| inLane hw imm)
  | _ => x

/-- The `i`-th sixteen bits. -/
def lane (v : BitVec 64) (i : ℕ) : BitVec 16 := v.extractLsb' (16 * i) 16

theorem eq_of_lane_eq {v w : BitVec 64} (h : ∀ i < 4, lane v i = lane w i) : v = w := by
  refine BitVec.eq_of_getLsbD_eq fun k hk => ?_
  have hlane := congrArg (BitVec.getLsbD · (k % 16)) (h (k / 16) (by omega))
  have hbit : 16 * (k / 16) + k % 16 = k := Nat.div_add_mod k 16
  have hlt : k % 16 < 16 := Nat.mod_lt _ (by decide)
  simpa only [lane, BitVec.getLsbD_extractLsb', hbit, hlt, decide_true, Bool.true_and] using hlane

theorem lane_inLane {hw imm i : ℕ} (hhw : hw < 4) (himm : imm < 2 ^ 16) (hi : i < 4) :
    lane (inLane hw imm) i = if i = hw then BitVec.ofNat 16 imm else 0 := by
  refine BitVec.eq_of_getLsbD_eq fun k hk => ?_
  have hbig (j : ℕ) (hj : 16 ≤ j) : imm.testBit j = false :=
    Nat.testBit_lt_two_pow (himm.trans_le (Nat.pow_le_pow_right (by decide) hj))
  simp only [lane, inLane, BitVec.getLsbD_extractLsb', BitVec.getLsbD_shiftLeft, BitVec.getLsbD_ofNat]
  obtain rfl | hne := eq_or_ne i hw
  · have h₁ : 16 * i + k < 64 := by omega
    have h₂ : ¬16 * i + k < 16 * i := by omega
    have h₃ : 16 * i + k - 16 * i = k := by omega
    have h₄ : k < 64 := by omega
    rw [if_pos rfl, BitVec.getLsbD_ofNat]
    simp [hk, h₁, h₃, h₄]
  · rw [if_neg hne, show (0 : BitVec 16) = 0#16 from rfl, BitVec.getLsbD_zero]
    obtain hlt | hlt := lt_or_gt_of_ne hne
    · have : 16 * i + k < 16 * hw := by omega
      simp [this]
    · rw [hbig _ (show 16 ≤ 16 * i + k - 16 * hw by omega)]
      simp

theorem lane_and (v w : BitVec 64) (i : ℕ) : lane (v &&& w) i = lane v i &&& lane w i :=
  BitVec.extractLsb'_and

theorem lane_or (v w : BitVec 64) (i : ℕ) : lane (v ||| w) i = lane v i ||| lane w i :=
  BitVec.extractLsb'_or

theorem lane_not (v : BitVec 64) {i : ℕ} (hi : i < 4) : lane (~~~v) i = ~~~lane v i := by
  refine BitVec.eq_of_getLsbD_eq fun k hk => ?_
  have hlt : 16 * i + k < 64 := by omega
  simp [lane, hk, hlt]

/-- **`movk` sets a lane.** -/
theorem lane_movk {x : Regs} {hw imm rd i : ℕ} (hhw : hw < 4) (himm : imm < 2 ^ 16) (hi : i < 4) :
    lane (move x (.movk hw imm rd) rd) i =
      if i = hw then BitVec.ofNat 16 imm else lane (x rd) i := by
  rw [move, Function.update_self, lane_or, lane_and, lane_not _ hi, lane_inLane hhw himm hi,
    lane_inLane hhw (by decide) hi]
  split_ifs
  · rw [show ~~~BitVec.ofNat 16 65535 = 0#16 by decide, BitVec.and_zero, BitVec.zero_or]
  · rw [show ~~~(0 : BitVec 16) = BitVec.allOnes 16 by decide, BitVec.and_allOnes]
    exact BitVec.or_zero

/-! ### The stack pointer -/

/-- An access to memory. -/
structure Access where
  /-- Whether it writes. -/
  isStore : Bool
  /-- The first byte. -/
  addr : ℤ
  /-- The number of bytes. -/
  size : ℕ
  deriving DecidableEq, Repr

/-- The number of the stack pointer where it is a base. -/
def spNum : ℕ := 31

/-- What an instruction makes of the stack pointer, and what it accesses.  There is no answer where the
base is another register. -/
def Instr.step (sp : ℤ) : Instr → Option (ℤ × List Access)
  | .addImm imm rn rd =>
    if rd = spNum then if rn = spNum then some (sp + imm, []) else none else some (sp, [])
  | .subImm imm rn rd =>
    if rd = spNum then if rn = spNum then some (sp - imm, []) else none else some (sp, [])
  | .strX imm rn _ | .strD imm rn _ =>
    if rn = spNum then some (sp, [⟨true, sp + 8 * imm, 8⟩]) else none
  | .ldrX imm rn _ | .ldrD imm rn _ =>
    if rn = spNum then some (sp, [⟨false, sp + 8 * imm, 8⟩]) else none
  | .strQ imm rn _ => if rn = spNum then some (sp, [⟨true, sp + 16 * imm, 16⟩]) else none
  | .ldrQ imm rn _ => if rn = spNum then some (sp, [⟨false, sp + 16 * imm, 16⟩]) else none
  | .stp imm _ rn _ => if rn = spNum then some (sp, [⟨true, sp + 8 * imm, 16⟩]) else none
  | .ldp imm _ rn _ => if rn = spNum then some (sp, [⟨false, sp + 8 * imm, 16⟩]) else none
  | .strPre imm rn _ => if rn = spNum then some (sp + imm, [⟨true, sp + imm, 8⟩]) else none
  | .ldrPost imm rn _ => if rn = spNum then some (sp + imm, [⟨false, sp, 8⟩]) else none
  | .movz .. | .movn .. | .movk .. | .subsImm .. | .registers _ => some (sp, [])

/-- The stack pointer after some words, and what they access. -/
@[grind =] def trace (sp : ℤ) : List ℕ → Option (ℤ × List Access)
  | [] => some (sp, [])
  | word :: words => do
    let instr ← decode word
    let (sp, accesses) ← instr.step sp
    let (sp, rest) ← trace sp words
    return (sp, accesses ++ rest)

theorem trace_cons {sp sp' : ℤ} {word : ℕ} {instr : Instr} {accesses : List Access}
    (words : List ℕ) (h : decode word = some instr) (hstep : instr.step sp = some (sp', accesses)) :
    trace sp (word :: words) = (trace sp' words).map fun p => (p.1, accesses ++ p.2) := by
  simp only [trace, h, hstep, Option.bind_eq_bind, Option.bind_some]
  cases trace sp' words <;> rfl

/-- One part of the code after another. -/
theorem trace_append {sp sp' sp'' : ℤ} {words words' : List ℕ} {accesses accesses' : List Access}
    (h : trace sp words = some (sp', accesses)) (h' : trace sp' words' = some (sp'', accesses')) :
    trace sp (words ++ words') = some (sp'', accesses ++ accesses') := by
  induction words generalizing sp accesses with
  | nil =>
    obtain ⟨rfl, rfl⟩ := Prod.mk.inj (Option.some.inj h)
    exact h'
  | cons word words ih =>
    simp only [trace, Option.bind_eq_bind, Option.bind_eq_some_iff, Option.pure_def] at h
    obtain ⟨instr, hdecode, ⟨sp₁, accesses₁⟩, hstep, ⟨sp₂, accesses₂⟩, htrace, heq⟩ := h
    obtain ⟨rfl, rfl⟩ := Prod.mk.inj (Option.some.inj heq)
    rw [List.cons_append, trace_cons _ hdecode hstep, ih htrace, Option.map_some,
      List.append_assoc]

end OdinSon.Lib.A64
