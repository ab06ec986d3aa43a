import OdinSon.Bac.Datatype
import OdinSon.Lib.Lanes

/-!
# Adding up the lanes of a vector

`Simd_Reduce_Add_Bisect` gives the sum of the lanes of a `V128`.  The peephole of
`bac/amd64/amd64.odin` folds the vector with shuffles, the one of `bac/wasm/wasm.odin` reads the lanes
one by one.  For lanes of sixteen bits the second shuffle of the amd64 sequence takes the vector
itself and not the sum so far, and the two highest lanes are left out (`reduceAdd_exact_iff`).
-/

namespace OdinSon

open Lanes

namespace LaneType

/-- `LANE_SIZE`, in bits. -/
def bits (lane : LaneType) : ℕ := lane.toDt.bits

/-- The lanes of integers. -/
def isInt (lane : LaneType) : Bool := lane.toDt.isInt

end LaneType

/-- The vectors that the two peepholes make of the operand. -/
inductive VecNode where
  | operand
  | zero
  | pshufd (aux : BitVec 8) (vec : VecNode)
  | add (lane : LaneType) (lhs rhs : VecNode)
  | psadbw (lhs rhs : VecNode)
  deriving DecidableEq, Repr

/-- The scalars that the two peepholes make of vectors. -/
inductive ReduceNode where
  | cast (dt : Datatype) (vec : VecNode)
  | pextr (dt : Datatype) (aux : ℕ) (vec : VecNode)
  | extractLaneU (dt : Datatype) (lane : LaneType) (laneidx : ℕ) (vec : VecNode)
  | add (dt : Datatype) (lhs rhs : ReduceNode)
  deriving DecidableEq, Repr

/-! ### What the nodes compute -/

/-- `pshufd`: each doubleword is the one that two bits of the selector name. -/
def pshufd (aux : BitVec 8) (v : BitVec 128) : BitVec 128 :=
  build 128 32 fun i => lane 32 v (aux.toNat / 4 ^ i % 4)

/-- `paddb`, `paddw`, `paddd` and `paddq`. -/
def padd (w : ℕ) (v u : BitVec 128) : BitVec 128 := build 128 w fun i => lane w v i + lane w u i

/-- The distance of two unsigned numbers. -/
def absDiff (x y : ℕ) : ℕ := (x - y) + (y - x)

/-- `psadbw`: in each quadword the distances of its eight bytes, added up. -/
def psadbw (v u : BitVec 128) : BitVec 128 :=
  build 128 64 fun i =>
    ((List.range 8).map fun j => absDiff (lane 8 v (8 * i + j)) (lane 8 u (8 * i + j))).sum

/-- The value of a vector. -/
def VecNode.eval (v : BitVec 128) : VecNode → BitVec 128
  | operand => v
  | zero => 0
  | pshufd aux vec => OdinSon.pshufd aux (vec.eval v)
  | add lane lhs rhs => padd lane.bits (lhs.eval v) (rhs.eval v)
  | psadbw lhs rhs => OdinSon.psadbw (lhs.eval v) (rhs.eval v)

/-- The value of a scalar, as an unsigned number of its datatype. -/
def ReduceNode.eval (v : BitVec 128) : ReduceNode → ℕ
  | cast dt vec => (vec.eval v).toNat % 2 ^ dt.bits
  | pextr dt aux vec => lane dt.bits (vec.eval v) (aux % (128 / dt.bits))
  | extractLaneU dt l laneidx vec => lane l.bits (vec.eval v) laneidx % 2 ^ dt.bits
  | add dt lhs rhs => (lhs.eval v + rhs.eval v) % 2 ^ dt.bits

/-! ### The two peepholes -/

/-- The case `Simd_Reduce_Add_Bisect` of the amd64 peephole; the lanes of floats end at a panic. -/
def reduceAddAmd64 (lane : LaneType) (dt : Datatype) : Option ReduceNode :=
  match lane with
  | .i8 =>
    let shuffled := .pshufd 0b11101110 .operand
    let added := .add lane shuffled .operand
    some (.cast .i8 (.psadbw added .zero))
  | .i16 =>
    let shuffled := .pshufd 0b11101110 .operand
    let added := .add lane shuffled .operand
    let shuffled2 := .pshufd 0b01010101 .operand
    let added2 := .add lane shuffled2 added
    some (.add dt (.pextr dt 1 added2) (.cast dt added2))
  | .i32 =>
    let shuffled := .pshufd 0b11101110 .operand
    let added := .add lane shuffled .operand
    some (.add dt (.pextr dt 1 added) (.cast dt added))
  | .i64 => some (.add dt (.pextr dt 1 .operand) (.cast .i64 .operand))
  | .f32 | .f64 => none

/-- The loop of the wasm peephole over the lanes from the first on. -/
def reduceAddLoop (lane : LaneType) (dt : Datatype) (sum : ReduceNode) : List ℕ → ReduceNode
  | [] => sum
  | i :: is => reduceAddLoop lane dt (.add dt sum (.extractLaneU dt lane i .operand)) is

/-- The case `Simd_Reduce_Add_Bisect` of the wasm peephole. -/
def reduceAddWasm (lane : LaneType) (dt : Datatype) : ReduceNode :=
  let laneCount := Datatype.v128.bits / lane.bits
  reduceAddLoop lane dt (.extractLaneU dt lane 0 .operand) ((List.range (laneCount - 1)).map (· + 1))

/-! ### One lane after another -/

section Wasm

variable {lane : LaneType} {dt : Datatype} {sum : ReduceNode} {v : BitVec 128}

/-- The loop adds the lanes to what there is. -/
theorem eval_reduceAddLoop (hdt : dt.bits = lane.bits) (hsum : sum.eval v < 2 ^ dt.bits)
    (is : List ℕ) : (reduceAddLoop lane dt sum is).eval v =
      (sum.eval v + (is.map (Lanes.lane lane.bits v)).sum) % 2 ^ dt.bits := by
  induction is generalizing sum with
  | nil => exact (Nat.mod_eq_of_lt hsum).symm
  | cons i is ih =>
    have hlt : (ReduceNode.add dt sum (.extractLaneU dt lane i .operand)).eval v < 2 ^ dt.bits :=
      Nat.mod_lt _ (Nat.two_pow_pos _)
    rw [reduceAddLoop, ih hlt, List.map_cons, List.sum_cons, ← Nat.add_assoc]
    simp only [ReduceNode.eval, VecNode.eval, Nat.mod_add_mod]
    rw [hdt, Nat.mod_eq_of_lt (lane_lt lane.bits v i)]

/-- **The wasm sequence adds up all lanes.** -/
theorem eval_reduceAddWasm (lane : LaneType) (v : BitVec 128) :
    (reduceAddWasm lane lane.toDt).eval v =
      laneSum lane.bits v (128 / lane.bits) % 2 ^ lane.bits := by
  have hfirst : (ReduceNode.extractLaneU lane.toDt lane 0 .operand).eval v =
      Lanes.lane lane.bits v 0 := Nat.mod_eq_of_lt (lane_lt lane.bits v 0)
  have hpos : 0 < 128 / lane.bits := by cases lane <;> decide
  obtain ⟨k, hk⟩ := Nat.exists_eq_add_one.2 hpos
  have hcount : Datatype.v128.bits / lane.bits = k + 1 := hk
  rw [reduceAddWasm, hcount, Nat.add_sub_cancel,
    eval_reduceAddLoop rfl (hfirst ▸ lane_lt lane.bits v 0), hfirst, hk, laneSum,
    List.range_succ_eq_map, List.map_cons, List.sum_cons, List.map_map]
  rfl

end Wasm

/-! ### Folding the vector -/

section Amd64

variable {v : BitVec 128} {w m i : ℕ}

/-- A shuffle of doublewords, seen at narrower lanes. -/
theorem lane_pshufd (aux : BitVec 8) (v : BitVec 128) (hw : w * m = 32) (hi : i < 4 * m) :
    Lanes.lane w (pshufd aux v) i = Lanes.lane w v (m * (aux.toNat / 4 ^ (i / m) % 4) + i % m) := by
  have hm : 0 < m := by omega
  have hlt : i / m < 128 / 32 := (Nat.div_lt_iff_lt_mul hm).2 hi
  rw [lane_mul hm, hw, pshufd, lane_build _ hlt, Nat.mod_eq_of_lt (lane_lt 32 v _), ← hw,
    lane_of_wide hm _ _ (Nat.mod_lt i hm)]

theorem lane_padd (v u : BitVec 128) (hi : i < 128 / w) :
    Lanes.lane w (padd w v u) i = (Lanes.lane w v i + Lanes.lane w u i) % 2 ^ w :=
  lane_build _ hi

theorem lane_zero (w i : ℕ) : Lanes.lane w (0 : BitVec 128) i = 0 := by
  simp [Lanes.lane]

theorem toNat_mod (v : BitVec 128) (w : ℕ) : v.toNat % 2 ^ w = Lanes.lane w v 0 := by
  rw [Lanes.lane, Nat.mul_zero, pow_zero, Nat.div_one]

/-- The upper half of the lanes added to the lower half. -/
theorem lane_folded (v : BitVec 128) (hw : w * m = 32) (hi : i < 2 * m) :
    Lanes.lane w (padd w (pshufd 0b11101110 v) v) i =
      (Lanes.lane w v (2 * m + i) + Lanes.lane w v i) % 2 ^ w := by
  have hm : 0 < m := Nat.pos_of_ne_zero fun h0 => by
    rw [h0] at hi
    exact Nat.not_lt_zero i hi
  have hw0 : 0 < w := Nat.pos_of_ne_zero fun h0 => by
    rw [h0, Nat.zero_mul] at hw
    cases hw
  have hlt : i < 128 / w := by
    have hle : (i + 1) * w ≤ 2 * m * w := Nat.mul_le_mul_right w hi
    rw [Nat.mul_assoc, Nat.mul_comm m w, hw] at hle
    exact (Nat.le_div_iff_mul_le hw0).2 (hle.trans (by decide))
  have hsel : m * ((0b11101110 : BitVec 8).toNat / 4 ^ (i / m) % 4) + i % m = 2 * m + i := by
    have hq : i / m < 2 := (Nat.div_lt_iff_lt_mul hm).2 hi
    have hdm := Nat.div_add_mod i m
    generalize i / m = q at hq hdm ⊢
    obtain rfl | rfl : q = 0 ∨ q = 1 := by omega
    · have hdigit : (0b11101110 : BitVec 8).toNat / 4 ^ 0 % 4 = 2 := by decide
      rw [hdigit]
      omega
    · have hdigit : (0b11101110 : BitVec 8).toNat / 4 ^ 1 % 4 = 3 := by decide
      rw [hdigit]
      omega
  rw [lane_padd _ _ hlt, lane_pshufd _ _ hw (by omega), hsel]

/-- Bytes: what is left of the folded vector goes through `psadbw`. -/
theorem eval_reduceAddAmd64_i8 (v : BitVec 128) :
    (psadbw (padd 8 (pshufd 0b11101110 v) v) 0).toNat % 2 ^ 8 = laneSum 8 v 16 % 2 ^ 8 := by
  have hbyte : ∀ j < 8, absDiff (Lanes.lane 8 (padd 8 (pshufd 0b11101110 v) v) (8 * 0 + j))
      (Lanes.lane 8 (0 : BitVec 128) (8 * 0 + j)) =
      (Lanes.lane 8 v (8 + j) + Lanes.lane 8 v j) % 2 ^ 8 := by
    intro j hj
    rw [lane_zero, absDiff, Nat.sub_zero, Nat.zero_sub, Nat.add_zero, Nat.mul_zero, Nat.zero_add]
    exact lane_folded (w := 8) (m := 4) v rfl hj
  have hsum : ((List.range 8).map fun j =>
      absDiff (Lanes.lane 8 (padd 8 (pshufd 0b11101110 v) v) (8 * 0 + j))
        (Lanes.lane 8 (0 : BitVec 128) (8 * 0 + j))) =
      (List.range 8).map fun j => (Lanes.lane 8 v (8 + j) + Lanes.lane 8 v j) % 2 ^ 8 :=
    List.map_congr_left fun j hj => hbyte j (List.mem_range.1 hj)
  have hlow : Lanes.lane 64 (psadbw (padd 8 (pshufd 0b11101110 v) v) 0) 0 =
      ((List.range 8).map fun j => (Lanes.lane 8 v (8 + j) + Lanes.lane 8 v j) % 2 ^ 8).sum %
        2 ^ 64 := by
    rw [psadbw, lane_build _ (by decide), hsum]
  have hcast : (psadbw (padd 8 (pshufd 0b11101110 v) v) 0).toNat % 2 ^ 8 =
      Lanes.lane 64 (psadbw (padd 8 (pshufd 0b11101110 v) v) 0) 0 % 2 ^ 8 := by
    rw [← toNat_mod]
    exact (Nat.mod_mod_of_dvd _ (by decide)).symm
  rw [hcast, hlow, laneSum]
  simp only [List.range_succ, List.range_zero, List.map_append, List.map_cons, List.map_nil,
    List.sum_append, List.sum_cons, List.sum_nil, List.nil_append, Nat.reduceAdd, Nat.add_zero]
  omega

/-- Words: two shuffles, of which the second one should have been that of the sum. -/
theorem eval_reduceAddAmd64_i16 (v : BitVec 128) :
    let added := padd 16 (pshufd 0b01010101 v) (padd 16 (pshufd 0b11101110 v) v)
    (Lanes.lane 16 added 1 + added.toNat % 2 ^ 16) % 2 ^ 16 = laneSum 16 v 6 % 2 ^ 16 := by
  intro added
  have hword : ∀ j < 2, Lanes.lane 16 added j =
      (Lanes.lane 16 v (2 + j) + (Lanes.lane 16 v (4 + j) + Lanes.lane 16 v j) % 2 ^ 16) %
        2 ^ 16 := by
    intro j hj
    have hfold : Lanes.lane 16 (padd 16 (pshufd 0b11101110 v) v) j = _ :=
      lane_folded (m := 2) v rfl (by omega)
    have hshuf : Lanes.lane 16 (pshufd 0b01010101 v) j = _ :=
      lane_pshufd (m := 2) _ v rfl (by omega)
    have hsel : 2 * ((0b01010101 : BitVec 8).toNat / 4 ^ (j / 2) % 4) + j % 2 = 2 + j := by
      obtain rfl | rfl : j = 0 ∨ j = 1 := by omega
      · decide
      · decide
    rw [hsel] at hshuf
    exact (lane_padd _ _ (hj.trans (by decide))).trans (by rw [hfold, hshuf])
  rw [toNat_mod, hword 0 (by decide), hword 1 (by decide), laneSum]
  simp only [List.range_succ, List.range_zero, List.map_append, List.map_cons, List.map_nil,
    List.sum_append, List.sum_cons, List.sum_nil, List.nil_append, Nat.reduceAdd, Nat.add_zero]
  omega

/-- Doublewords. -/
theorem eval_reduceAddAmd64_i32 (v : BitVec 128) :
    let added := padd 32 (pshufd 0b11101110 v) v
    (Lanes.lane 32 added 1 + added.toNat % 2 ^ 32) % 2 ^ 32 = laneSum 32 v 4 % 2 ^ 32 := by
  intro added
  have hfold : ∀ j < 2, Lanes.lane 32 added j =
      (Lanes.lane 32 v (2 + j) + Lanes.lane 32 v j) % 2 ^ 32 :=
    fun j hj => lane_folded (m := 1) v rfl hj
  rw [toNat_mod, hfold 0 (by decide), hfold 1 (by decide), laneSum]
  simp only [List.range_succ, List.range_zero, List.map_append, List.map_cons, List.map_nil,
    List.sum_append, List.sum_cons, List.sum_nil, List.nil_append, Nat.reduceAdd, Nat.add_zero]
  omega

/-- Quadwords. -/
theorem eval_reduceAddAmd64_i64 (v : BitVec 128) :
    (Lanes.lane 64 v 1 + v.toNat % 2 ^ 64) % 2 ^ 64 = laneSum 64 v 2 % 2 ^ 64 := by
  rw [toNat_mod, laneSum]
  simp only [List.range_succ, List.range_zero, List.map_append, List.map_cons, List.map_nil,
    List.sum_append, List.sum_cons, List.sum_nil, List.nil_append, Nat.add_zero]
  omega

end Amd64

/-- The sum of all lanes of a `V128`, in a register of the lane's width. -/
def lanesTotal (lane : LaneType) (v : BitVec 128) : ℕ :=
  laneSum lane.bits v (128 / lane.bits) % 2 ^ lane.bits

/-- Leaving out two lanes does not matter if they cancel. -/
theorem laneSum_six_eq_iff (v : BitVec 128) : laneSum 16 v 6 % 2 ^ 16 = laneSum 16 v 8 % 2 ^ 16 ↔
    2 ^ 16 ∣ Lanes.lane 16 v 6 + Lanes.lane 16 v 7 := by
  have hsplit : laneSum 16 v 8 = laneSum 16 v 6 + (Lanes.lane 16 v 6 + Lanes.lane 16 v 7) := by
    simp only [laneSum, List.range_succ, List.map_append, List.map_cons, List.map_nil,
      List.sum_append, List.sum_cons, List.sum_nil, Nat.add_zero, Nat.add_assoc]
  rw [hsplit]
  omega

/-- **Both lowerings add up all lanes, except that of words on amd64**, where the two highest lanes
have to cancel. -/
theorem reduceAdd_exact_iff (lane : LaneType) (hint : lane.isInt = true) (v : BitVec 128) :
    ((∃ node, reduceAddAmd64 lane lane.toDt = some node ∧ node.eval v = lanesTotal lane v) ∧
      (reduceAddWasm lane lane.toDt).eval v = lanesTotal lane v) ↔
      (lane = .i16 → 2 ^ 16 ∣ Lanes.lane 16 v 6 + Lanes.lane 16 v 7) := by
  have hwasm : (reduceAddWasm lane lane.toDt).eval v = lanesTotal lane v := eval_reduceAddWasm lane v
  rw [and_iff_left hwasm]
  cases lane with
  | i8 =>
    have hexact : ∃ node, reduceAddAmd64 .i8 .i8 = some node ∧ node.eval v = lanesTotal .i8 v :=
      ⟨_, rfl, eval_reduceAddAmd64_i8 v⟩
    exact iff_of_true hexact nofun
  | i16 =>
    have heval := eval_reduceAddAmd64_i16 v
    constructor
    · rintro ⟨node, hnode, h⟩ -
      obtain rfl := Option.some.inj hnode
      exact (laneSum_six_eq_iff v).1 (heval.symm.trans h)
    · exact fun h => ⟨_, rfl, heval.trans ((laneSum_six_eq_iff v).2 (h rfl))⟩
  | i32 =>
    have hexact : ∃ node, reduceAddAmd64 .i32 .i32 = some node ∧ node.eval v = lanesTotal .i32 v :=
      ⟨_, rfl, eval_reduceAddAmd64_i32 v⟩
    exact iff_of_true hexact nofun
  | i64 =>
    have hexact : ∃ node, reduceAddAmd64 .i64 .i64 = some node ∧ node.eval v = lanesTotal .i64 v :=
      ⟨_, rfl, eval_reduceAddAmd64_i64 v⟩
    exact iff_of_true hexact nofun
  | f32 => cases hint
  | f64 => cases hint

/-- The words from one to six, with nothing in the two highest lanes. -/
theorem reduceAdd_exact_oneToSix :
    ((∃ node, reduceAddAmd64 .i16 .i16 = some node ∧
        node.eval 0x600050004000300020001 = lanesTotal .i16 0x600050004000300020001) ∧
      (reduceAddWasm .i16 .i16).eval 0x600050004000300020001 =
        lanesTotal .i16 0x600050004000300020001) ∧
      lanesTotal .i16 0x600050004000300020001 = 21 :=
  ⟨(reduceAdd_exact_iff .i16 rfl 0x600050004000300020001).2 fun _ => by decide,
    by decide⟩

/-- A one in the seventh word is lost. -/
theorem reduceAdd_drops_lane : (reduceAddAmd64 .i16 .i16).map (·.eval (1 <<< 96)) = some 0 ∧
    lanesTotal .i16 (1 <<< 96) = 1 := by
  decide

end OdinSon
