import OdinSon.Codegen.Frame
import OdinSon.Lib.A64

/-!
# Constants on arm

The instructions that `emit_instr` (`bac/arm/arm.odin`) gives for a `CInt`.  The first one sets the low
sixteen bits and makes the others zeros or ones, after the sign of the constant; those that differ
from that are set by one instruction each, up to the last that can (`emitCInt_exact`).
-/

namespace OdinSon.Codegen.Arm

open Lib

/-- The body of the loop: the instruction that sets a lane, if there is one. -/
def setLane (reg : ℕ) (neg : Bool) (value : BitVec 64) (hw : ℕ) : Option ℕ :=
  let vl : BitVec 16 := (value.sshiftRight (hw * 16)).setWidth 16
  if (vl ≠ 0 ∨ neg) ∧ (vl ≠ BitVec.allOnes 16 ∨ !neg) then
    some (0b111100101 <<< 23 ||| hw <<< 21 ||| vl.toNat <<< 5 ||| reg)
  else none

/-- The integer case of `emit_instr` at a `CInt`, for a register and a value. -/
def emitMoves (reg : ℕ) (value : BitVec 64) : List ℕ :=
  let neg := value.slt 0
  let op := if neg then 0b100100101 else 0b110100101
  let imm : BitVec 16 := if neg then ~~~value.setWidth 16 else value.setWidth 16
  let leading := if neg then (~~~value).clz.toNat else value.clz.toNat
  let reminingSubs := (64 - leading + 16 - 1) / 16
  (op <<< 23 ||| 0 <<< 21 ||| imm.toNat <<< 5 ||| reg) ::
    (List.range' 1 (reminingSubs - 1)).filterMap (setLane reg neg value)

/-- `emit_instr` at a `CInt`.  A vector or a float can only be zero, which `eor` makes. -/
def emitCInt (dt : Datatype) (reg : Reg) (value : BitVec 64) : Option (List ℕ) :=
  match dt with
  | .i8 | .i16 | .i32 | .i64 => some (emitMoves reg.index value)
  | .v128 | .f32 | .f64 =>
    if value = 0 then
      some [0x6e201c00 ||| reg.index <<< 16 ||| reg.index <<< 5 ||| reg.index]
    else none
  | _ => none

/-- The words of moves of constants, one after another. -/
def runMoves (words : List ℕ) (x : A64.Regs) : Option A64.Regs :=
  words.foldlM (fun x word => (A64.decode word).map (A64.move x)) x

section Lanes

variable {value : BitVec 64} {i : ℕ}

theorem setWidth_sshiftRight (hi : i < 4) :
    (value.sshiftRight (i * 16)).setWidth 16 = A64.lane value i := by
  refine BitVec.eq_of_getLsbD_eq fun k hk => ?_
  have h₁ : i * 16 + k < 64 := by omega
  have h₄ : ¬64 ≤ k := by omega
  simp only [A64.lane, BitVec.getLsbD_setWidth, BitVec.getLsbD_sshiftRight, BitVec.getLsbD_extractLsb',
    hk, h₁, h₄, decide_true, decide_false, Bool.not_false, Bool.true_and, if_true, Nat.mul_comm 16 i]

/-- Above the leading zeros there is nothing. -/
theorem lane_eq_zero (h : 64 - value.clz.toNat ≤ 16 * i) : A64.lane value i = 0 := by
  have hlt : value.toNat < 2 ^ (16 * i) :=
    BitVec.toNat_lt_two_pow_sub_clz.trans_le (Nat.pow_le_pow_right (by decide) h)
  refine BitVec.eq_of_toNat_eq ?_
  rw [A64.lane, BitVec.extractLsb'_toNat, Nat.shiftRight_eq_div_pow, Nat.div_eq_of_lt hlt]
  rfl

theorem lane_eq_allOnes (hi : i < 4) (h : 64 - (~~~value).clz.toNat ≤ 16 * i) :
    A64.lane value i = BitVec.allOnes 16 := by
  have hnot := lane_eq_zero h
  rw [A64.lane_not value hi] at hnot
  rw [← @BitVec.not_not 16 (A64.lane value i), hnot]
  rfl

end Lanes

/-- What the first instruction leaves in the other lanes. -/
def fill (neg : Bool) : BitVec 16 := if neg then BitVec.allOnes 16 else 0

/-- A lane is set iff it differs from that. -/
theorem emits_iff (vl : BitVec 16) (neg : Bool) :
    (vl ≠ 0 ∨ neg = true) ∧ (vl ≠ BitVec.allOnes 16 ∨ (!neg) = true) ↔ vl ≠ fill neg := by
  cases neg <;> simp [fill]

section Moves

variable {value : BitVec 64} {rd : ℕ} {neg : Bool}

/-- The instructions set the lanes that differ. -/
theorem runMoves_setLane (hrd : rd < 31) (hws : List ℕ) (hlt : ∀ hw ∈ hws, hw < 4) (x : A64.Regs) :
    ∃ x', runMoves (hws.filterMap (setLane rd neg value)) x = some x' ∧
      (∀ r, r ≠ rd → x' r = x r) ∧
      ∀ i < 4, A64.lane (x' rd) i =
        if i ∈ hws ∧ A64.lane value i ≠ fill neg then A64.lane value i else A64.lane (x rd) i := by
  induction hws generalizing x with
  | nil => exact ⟨x, rfl, fun _ _ => rfl, fun i _ => by simp⟩
  | cons hw hws ih =>
    have hhw := hlt hw List.mem_cons_self
    have ih := ih fun hw h => hlt hw (List.mem_cons_of_mem _ h)
    by_cases hset : A64.lane value hw = fill neg
    · -- the lane is what it should be already
      have hnone : setLane rd neg value hw = none := by
        simp only [setLane, setWidth_sshiftRight hhw]
        exact if_neg fun h => (emits_iff _ _).1 h hset
      obtain ⟨x', hrun, hframe, hlane⟩ := ih x
      refine ⟨x', by rw [List.filterMap_cons_none hnone, hrun], hframe, fun i hi => ?_⟩
      rw [hlane i hi]
      by_cases hi' : i = hw
      · subst hi'
        simp [hset]
      · simp [hi']
    · have hsome : setLane rd neg value hw =
          some (0b111100101 <<< 23 ||| hw <<< 21 ||| (A64.lane value hw).toNat <<< 5 ||| rd) := by
        simp only [setLane, setWidth_sshiftRight hhw]
        exact if_pos ((emits_iff _ _).2 hset)
      have himm := (A64.lane value hw).isLt
      obtain ⟨x', hrun, hframe, hlane⟩ :=
        ih (A64.move x (.movk hw (A64.lane value hw).toNat rd))
      refine ⟨x', ?_, fun r hr => ?_, fun i hi => ?_⟩
      · rw [List.filterMap_cons_some hsome, runMoves, List.foldlM_cons,
          A64.decode_move hhw himm (by omega)]
        exact hrun
      · rw [hframe r hr]
        exact Function.update_of_ne hr _ _
      · rw [hlane i hi, A64.lane_movk hhw himm hi, BitVec.ofNat_toNat, BitVec.setWidth_eq]
        by_cases hi' : i = hw
        · subst hi'
          simp [hset]
        · simp [hi']

/-- The first instruction sets the lowest lane. -/
theorem lane_first (x : A64.Regs) (rd : ℕ) (imm : BitVec 16) {i : ℕ} (hi : i < 4) :
    A64.lane (A64.move x (.movz 0 imm.toNat rd) rd) i = (if i = 0 then imm else fill false) ∧
      A64.lane (A64.move x (.movn 0 imm.toNat rd) rd) i =
        if i = 0 then ~~~imm else fill true := by
  have hlane := A64.lane_inLane (show 0 < 4 by decide) imm.isLt hi
  rw [BitVec.ofNat_toNat, BitVec.setWidth_eq] at hlane
  constructor
  · rw [A64.move, Function.update_self, hlane]
    rfl
  · rw [A64.move, Function.update_self, A64.lane_not _ hi, hlane]
    split_ifs <;> rfl

end Moves

/-- **The constant is exact**, and no other register changes. -/
theorem emitMoves_exact {reg : ℕ} (hreg : reg < 31) (value : BitVec 64) (x : A64.Regs) :
    ∃ x', runMoves (emitMoves reg value) x = some x' ∧ x' reg = value ∧
      ∀ r, r ≠ reg → x' r = x r := by
  set neg := value.slt 0 with hneg
  set leading := if neg then (~~~value).clz.toNat else value.clz.toNat with hleading
  set reminingSubs := (64 - leading + 16 - 1) / 16 with hrem
  set imm : BitVec 16 := if neg then ~~~value.setWidth 16 else value.setWidth 16 with himm
  have hle : reminingSubs ≤ 4 := by omega
  -- the lanes that the loop does not get to
  have hrest (i : ℕ) (hi : i < 4) (h : reminingSubs ≤ i) : A64.lane value i = fill neg := by
    cases hn : neg with
    | false =>
      simp only [hn, Bool.false_eq_true, if_false] at hleading
      exact lane_eq_zero (by omega)
    | true =>
      simp only [hn, if_true] at hleading
      exact lane_eq_allOnes hi (by omega)
  have hlow : A64.lane value 0 = value.setWidth 16 := by
    refine BitVec.eq_of_getLsbD_eq fun k hk => ?_
    simp [A64.lane, hk]
  obtain ⟨first, hfirst, hlane⟩ : ∃ instr,
      A64.decode ((if neg then 0b100100101 else 0b110100101) <<< 23 ||| 0 <<< 21 |||
        imm.toNat <<< 5 ||| reg) = some instr ∧
      (∀ r, r ≠ reg → A64.move x instr r = x r) ∧ ∀ i < 4, A64.lane (A64.move x instr reg) i =
        if i = 0 then A64.lane value 0 else fill neg := by
    rw [hlow]
    cases hn : neg with
    | false =>
      simp only [hn, Bool.false_eq_true, if_false] at himm
      refine ⟨.movz 0 imm.toNat reg, A64.decode_move (by decide) imm.isLt (by omega),
        fun r hr => Function.update_of_ne hr _ _, fun i hi => ?_⟩
      rw [(lane_first x reg imm hi).1, himm]
    | true =>
      simp only [hn, if_true] at himm
      refine ⟨.movn 0 imm.toNat reg, A64.decode_move (by decide) imm.isLt (by omega),
        fun r hr => Function.update_of_ne hr _ _, fun i hi => ?_⟩
      rw [(lane_first x reg imm hi).2, himm, BitVec.not_not]
  obtain ⟨x', hrun, hframe, hlanes⟩ := @runMoves_setLane value reg neg hreg
    (List.range' 1 (reminingSubs - 1)) (fun hw h => by
      rw [List.mem_range'_1] at h
      omega) (A64.move x first)
  refine ⟨x', ?_, A64.eq_of_lane_eq fun i hi => ?_, fun r hr => ?_⟩
  · rw [emitMoves, runMoves, List.foldlM_cons]
    simp only [← hneg, ← hleading, ← hrem, ← himm, hfirst, Option.map_some]
    exact hrun
  · rw [hlanes i hi, hlane.2 i hi]
    simp only [List.mem_range'_1]
    obtain rfl | hpos := Nat.eq_zero_or_pos i
    · simp
    · rw [if_neg (show i ≠ 0 by omega)]
      split_ifs with hset
      · rfl
      · by_cases hlt : i < reminingSubs
        · exact (not_not.1 fun h => hset ⟨⟨hpos, by omega⟩, h⟩).symm
        · exact (hrest i hi (by omega)).symm
  · rw [hframe r hr, hlane.1 r hr]

/-- **Constant materialisation is exact**: the instructions for an integer constant leave it in the
destination, and change no other register. -/
theorem emitCInt_exact {dt : Datatype} (hdt : dt.isInt = true) {reg : Reg} (hreg : reg.index < 31)
    (value : BitVec 64) (x : A64.Regs) :
    ∃ words x', emitCInt dt reg value = some words ∧ runMoves words x = some x' ∧
      x' reg.index = value ∧ ∀ r, r ≠ reg.index → x' r = x r := by
  obtain ⟨x', hrun⟩ := emitMoves_exact hreg value x
  refine ⟨emitMoves reg.index value, x', ?_, hrun⟩
  obtain rfl | rfl | rfl | rfl := Datatype.isInt_cases hdt <;> rfl

/-- `-2 ^ 32` takes two instructions. -/
theorem emitCInt_exact_minus : ∃ words x', emitCInt .i64 ⟨.general, 3⟩ 0xffffffff00000000 =
      some words ∧ runMoves words (fun _ => 0) = some x' ∧ x' 3 = 0xffffffff00000000 ∧
      ∀ r, r ≠ 3 → x' r = 0 :=
  @emitCInt_exact .i64 rfl ⟨.general, 3⟩ (by decide) 0xffffffff00000000 fun _ => 0

end OdinSon.Codegen.Arm
