import Mathlib.Data.Finset.Card
import Mathlib.Data.Finset.Range
import Mathlib.Data.Finset.Filter
import Mathlib.Order.Interval.Finset.Nat
import OdinSon.Lib.BitScan

/-!
# Arrays of bits

`bit_arr` (`utils/bit_arr/bit_arr.odin`): a set of numbers below `bit_length`, one bit for each, in
words of 64 bits.  The last word can have bits that stand for nothing.

## Main definitions

* `BitSet`, with the operations of the source, and `Op`, `BitSet.run` for sequences of them.
* `spec` : what the operations do to a finite set.
* `BitSet.Exact` : counting, testing for emptiness, lookups and plain iteration report the set.

## Main results

* `BitSet.Rep.step` : an operation on an array with a clear tail is that on the set.
* `BitSet.run_exact_iff` : the runs in which the array is a set.
-/

namespace OdinSon.BitArr

open Lib

/-- `mask_len`. -/
@[grind =] def maskLen (bitLength : ℕ) : ℕ := (bitLength + 64 - 1) / 64

/-- `Bit_Set`. -/
structure BitSet where
  /-- The number of bits. -/
  bitLength : ℕ
  /-- The words. -/
  masks : List (BitVec 64)
  /-- There are as many words as the bits need. -/
  length_masks : masks.length = maskLen bitLength

/-- `-int(value)`. -/
def fillMask (value : Bool) : BitVec 64 := if value then BitVec.allOnes 64 else 0#64

/-- `init`. -/
def init (bitLength : ℕ) : BitSet where
  bitLength := bitLength
  masks := List.replicate (maskLen bitLength) 0#64
  length_masks := List.length_replicate

namespace BitSet

/-- `resize`: the words that there are in both are copied. -/
def resize (s : BitSet) (size : ℕ) : BitSet where
  bitLength := size
  masks := (List.range (maskLen size)).map fun j => s.masks.getD j 0#64
  length_masks := by rw [List.length_map, List.length_range]

/-- `set_all`. -/
def setAll (s : BitSet) (value : Bool) : BitSet where
  bitLength := s.bitLength
  masks := s.masks.map fun _ => fillMask value
  length_masks := by rw [List.length_map, s.length_masks]

/-- Change the words of the array in place. -/
def mapMasks (s : BitSet) (f : ℕ → BitVec 64 → BitVec 64) : BitSet where
  bitLength := s.bitLength
  masks := s.masks.mapIdx f
  length_masks := by rw [List.length_mapIdx, s.length_masks]

/-- The mask for the first word of a range. -/
def firstMask (start : ℕ) : BitVec 64 := BitVec.allOnes 64 <<< (start % 64)

/-- The mask for the last word of a range. -/
def lastMask (stop : ℕ) : BitVec 64 :=
  let suffix := BitVec.allOnes 64 >>> (64 - stop % 64)
  if suffix = 0#64 then BitVec.allOnes 64 else suffix

/-- `set_range`, for the only value that it does not refuse. -/
def setRange (s : BitSet) (start stop : ℕ) : Option BitSet := do
  guard (start ≤ stop)
  guard (stop ≤ s.bitLength)
  let startBound := start / 64
  let endBound := (stop + 64 - 1) / 64
  let both := firstMask start &&& lastMask stop
  let first := if startBound = endBound - 1 then both else firstMask start
  let last := if startBound = endBound - 1 then both else lastMask stop
  let s := s.mapMasks fun i m => if startBound + 1 ≤ i ∧ i < endBound - 1 then fillMask true else m
  if start ≠ stop then
    let s := s.mapMasks fun i m => if i = startBound then m ||| first else m
    return s.mapMasks fun i m => if i = endBound - 1 then m ||| last else m
  else return s

/-- `set`, and whether it has changed something. -/
def set (s : BitSet) (index : ℕ) (value : Bool) : Option (BitSet × Bool) := do
  guard (index < s.bitLength)
  let bit := 1#64 <<< (index % 64)
  let t := s.mapMasks fun i m =>
    if i = index / 64 then if value then m ||| bit else m &&& ~~~bit else m
  return (t, s.masks.getD (index / 64) 0#64 ≠ t.masks.getD (index / 64) 0#64)

/-- `set_unbounded`. -/
def setUnbounded (s : BitSet) (index : ℤ) (value : Bool) : Option BitSet :=
  if index < 0 ∨ index ≥ s.bitLength then some s else (s.set index.toNat value).map Prod.fst

/-- `is_empty`. -/
def isEmpty (s : BitSet) : Bool := s.masks.all fun m => m = 0#64

/-- `contains`, which asserts that the bit behind the last one is clear. -/
def contains (s : BitSet) (index : ℕ) : Option Bool := do
  guard (index < s.bitLength)
  guard (s.bitLength % 64 = 0 ∨
    s.masks.getD (s.bitLength / 64) 0#64 &&& 1#64 <<< (s.bitLength % 64) = 0#64)
  return s.masks.getD (index / 64) 0#64 &&& 1#64 <<< (index % 64) ≠ 0#64

/-- `pop_count`. -/
def popCount (s : BitSet) : ℕ := (s.masks.map fun m => m.cpop.toNat).sum

/-- `iter_next` of an iterator that `iter` has made. -/
def iterNext (s : BitSet) (inverted : Bool) : Scan 64 → Option ℕ × Scan 64 :=
  scanNext (fun i => s.masks.getD i 0#64 ^^^ fillMask inverted) (maskLen s.bitLength)

/-- `iter`. -/
def iter : Scan 64 := ⟨0, 0#64⟩

/-- The bit that stands for a number. -/
@[grind =] def bit (s : BitSet) (i : ℕ) : Bool := (s.masks.getD (i / 64) 0#64).getLsbD (i % 64)

end BitSet

/-- The operations on bit arrays. -/
inductive Op where
  | set (index : ℕ) (value : Bool)
  | setUnbounded (index : ℤ) (value : Bool)
  | setRange (start stop : ℕ)
  | setAll (value : Bool)
  | resize (size : ℕ)

/-- One operation. -/
def BitSet.step (s : BitSet) : Op → Option BitSet
  | .set index value => (s.set index value).map Prod.fst
  | .setUnbounded index value => s.setUnbounded index value
  | .setRange start stop => s.setRange start stop
  | .setAll value => some (s.setAll value)
  | .resize size => some (s.resize size)

/-- A sequence of operations. -/
def BitSet.run : BitSet → List Op → Option BitSet
  | s, [] => some s
  | s, op :: ops => (s.step op).bind fun s => s.run ops

/-- What an operation does to a set of numbers below a bound. -/
def specStep (s : ℕ × Finset ℕ) : Op → ℕ × Finset ℕ
  | .set index value => (s.1, if value then insert index s.2 else s.2.erase index)
  | .setUnbounded index value =>
    if index < 0 ∨ index ≥ s.1 then s
    else (s.1, if value then insert index.toNat s.2 else s.2.erase index.toNat)
  | .setRange start stop => (s.1, s.2 ∪ Finset.Ico start stop)
  | .setAll value => (s.1, if value then Finset.range s.1 else ∅)
  | .resize size => (size, s.2 ∩ Finset.range size)

/-- What a sequence of operations does to a set. -/
def spec (s : ℕ × Finset ℕ) (ops : List Op) : ℕ × Finset ℕ := ops.foldl specStep s

namespace BitSet

variable {s t : BitSet} {i n : ℕ} {e : Finset ℕ}

/-! ### The bits -/

/-- The numbers below a bound that are in a set, in ascending order. -/
def sorted (n : ℕ) (e : Finset ℕ) : List ℕ := (List.range n).filter (· ∈ e)

/-- The bits are those of the set. -/
structure Rep (s : BitSet) (x : ℕ × Finset ℕ) : Prop where
  bitLength : s.bitLength = x.1
  lt : ∀ i ∈ x.2, i < x.1
  bit : ∀ i < x.1, s.bit i = decide (i ∈ x.2)

/-- The bits that stand for nothing are clear. -/
def Clean (s : BitSet) : Prop := ∀ i, s.bitLength ≤ i → s.bit i = false

theorem lt_maskLen (h : i < n) : i / 64 < maskLen n := by
  unfold maskLen
  omega

theorem bit_of_ge (h : 64 * maskLen s.bitLength ≤ i) : s.bit i = false := by
  have hlen := s.length_masks
  rw [bit, List.getD_eq_default _ _ (by omega), BitVec.getLsbD_zero]

theorem getD_mapMasks {f : ℕ → BitVec 64 → BitVec 64} {j : ℕ} (hj : j < maskLen s.bitLength) :
    (s.mapMasks f).masks.getD j 0#64 = f j (s.masks.getD j 0#64) := by
  have hj' : j < s.masks.length := s.length_masks ▸ hj
  rw [mapMasks, List.getD_eq_getElem?_getD, List.getElem?_mapIdx, List.getElem?_eq_getElem hj',
    List.getD_eq_getElem _ _ hj']
  rfl

/-- The bits after a change of the words. -/
theorem bit_mapMasks {f : ℕ → BitVec 64 → BitVec 64} (hi : i < 64 * maskLen s.bitLength) :
    (s.mapMasks f).bit i = (f (i / 64) (s.masks.getD (i / 64) 0#64)).getLsbD (i % 64) := by
  rw [bit, getD_mapMasks (by omega)]

theorem bit_init (n i : ℕ) : (init n).bit i = false := by
  rw [bit, init, List.getD_eq_getElem?_getD, List.getElem?_replicate]
  split_ifs
  · exact BitVec.getLsbD_zero
  · exact BitVec.getLsbD_zero

theorem getLsbD_one_shiftLeft {a b : ℕ} (ha : a < 64) :
    (1#64 <<< b).getLsbD a = decide (a = b) := by
  rw [BitVec.getLsbD_shiftLeft, BitVec.getLsbD_one, Bool.eq_iff_iff]
  simp only [Bool.and_eq_true, decide_eq_true_iff, Bool.not_eq_true', decide_eq_false_iff_not]
  omega

theorem getLsbD_fillMask {a : ℕ} (ha : a < 64) (value : Bool) :
    (fillMask value).getLsbD a = value := by
  cases value
  · exact BitVec.getLsbD_zero
  · rw [fillMask, if_pos rfl, BitVec.getLsbD_allOnes, decide_eq_true ha]

theorem bit_resize {size : ℕ} (hi : i < 64 * maskLen size) : (s.resize size).bit i = s.bit i := by
  have hj : i / 64 < maskLen size := by omega
  rw [bit, bit, resize, List.getD_eq_getElem?_getD, List.getElem?_map, List.getElem?_range hj]
  rfl

theorem bit_setAll (value : Bool) (hi : i < 64 * maskLen s.bitLength) :
    (s.setAll value).bit i = value := by
  have hj : i / 64 < s.masks.length := by
    rw [s.length_masks]
    omega
  rw [bit, setAll, List.getD_eq_getElem?_getD, List.getElem?_map, List.getElem?_eq_getElem hj]
  exact getLsbD_fillMask (Nat.mod_lt i (by decide)) value

theorem set_eq_some {index : ℕ} {value c : Bool} (h : s.set index value = some (t, c)) :
    index < s.bitLength ∧ t.bitLength = s.bitLength ∧
      ∀ i < 64 * maskLen s.bitLength, t.bit i = if i = index then value else s.bit i := by
  simp only [set, Option.bind_eq_bind, Option.bind_eq_some_iff, Option.guard_eq_some',
    Option.pure_def] at h
  obtain ⟨-, hindex, h⟩ := h
  obtain ⟨rfl, -⟩ := Prod.mk.inj (Option.some.inj h)
  refine ⟨hindex, rfl, fun i hi => ?_⟩
  have hb : i % 64 < 64 := Nat.mod_lt i (by decide)
  rw [bit_mapMasks hi, bit]
  by_cases hword : i / 64 = index / 64
  · have hsame : i % 64 = index % 64 ↔ i = index := by omega
    rw [if_pos hword]
    cases value with
    | true =>
      rw [if_pos rfl, BitVec.getLsbD_or, getLsbD_one_shiftLeft hb]
      by_cases he : i = index
      · rw [if_pos he, decide_eq_true (hsame.2 he), Bool.or_true]
      · rw [if_neg he, decide_eq_false (mt hsame.1 he), Bool.or_false]
    | false =>
      rw [if_neg Bool.false_ne_true, BitVec.getLsbD_and, BitVec.getLsbD_not, decide_eq_true hb,
        Bool.true_and, getLsbD_one_shiftLeft hb]
      by_cases he : i = index
      · rw [if_pos he, decide_eq_true (hsame.2 he), Bool.not_true, Bool.and_false]
      · rw [if_neg he, decide_eq_false (mt hsame.1 he), Bool.not_false, Bool.and_true]
  · rw [if_neg hword, if_neg fun he => hword (congrArg (· / 64) he)]

theorem getLsbD_firstMask {b : ℕ} (hb : b < 64) (start : ℕ) :
    (firstMask start).getLsbD b = decide (start % 64 ≤ b) := by
  rw [firstMask, BitVec.getLsbD_shiftLeft, BitVec.getLsbD_allOnes, Bool.eq_iff_iff]
  simp only [Bool.and_eq_true, decide_eq_true_iff, Bool.not_eq_true', decide_eq_false_iff_not]
  omega

theorem getLsbD_lastMask {b : ℕ} (hb : b < 64) (stop : ℕ) :
    (lastMask stop).getLsbD b = decide (stop % 64 = 0 ∨ b < stop % 64) := by
  have hbit (a : ℕ) : (BitVec.allOnes 64 >>> (64 - stop % 64)).getLsbD a =
      decide (64 - stop % 64 + a < 64) := by
    rw [BitVec.getLsbD_ushiftRight, BitVec.getLsbD_allOnes]
  unfold lastMask
  dsimp only
  split_ifs with hzero
  · have hstop : stop % 64 = 0 := by
      by_contra hne
      have h0 := hbit 0
      rw [hzero, BitVec.getLsbD_zero, decide_eq_true (by omega)] at h0
      cases h0
    rw [BitVec.getLsbD_allOnes, decide_eq_true hb, decide_eq_true (.inl hstop)]
  · have hstop : stop % 64 ≠ 0 := by
      intro he
      rw [he] at hzero
      exact hzero (by decide)
    rw [hbit, Bool.eq_iff_iff, decide_eq_true_iff, decide_eq_true_iff]
    omega

/-- A word into which a mask is or-ed, if it is the one. -/
theorem getLsbD_ite_or {c : Prop} [Decidable c] (m x : BitVec 64) (b : ℕ) :
    (if c then m ||| x else m).getLsbD b = (m.getLsbD b || (decide c && x.getLsbD b)) := by
  split_ifs with hc
  · rw [BitVec.getLsbD_or, decide_eq_true hc, Bool.true_and]
  · rw [decide_eq_false hc, Bool.false_and, Bool.or_false]

theorem setRange_eq_some {start stop : ℕ} (h : s.setRange start stop = some t) :
    start ≤ stop ∧ stop ≤ s.bitLength ∧ t.bitLength = s.bitLength ∧
      ∀ i < 64 * maskLen s.bitLength, t.bit i = (s.bit i || decide (start ≤ i ∧ i < stop)) := by
  simp only [setRange, Option.bind_eq_bind, Option.bind_eq_some_iff, Option.guard_eq_some',
    Option.pure_def] at h
  obtain ⟨-, hle, -, hstop, h⟩ := h
  refine ⟨hle, hstop, ?_⟩
  have hmiddle (i : ℕ) (hi : i < 64 * maskLen s.bitLength) (c : Prop) [Decidable c] :
      (if c then fillMask true else s.masks.getD (i / 64) 0#64).getLsbD (i % 64) =
        (decide c || s.bit i) := by
    split_ifs with hc
    · rw [getLsbD_fillMask (Nat.mod_lt i (by decide)), decide_eq_true hc, Bool.true_or]
    · rw [decide_eq_false hc, Bool.false_or]
      rfl
  by_cases hne : start = stop
  · rw [if_neg (not_not.2 hne)] at h
    obtain rfl := Option.some.inj h
    refine ⟨rfl, fun i hi => ?_⟩
    rw [bit_mapMasks hi, hmiddle i hi, decide_eq_false (by omega), Bool.false_or,
      decide_eq_false (by omega), Bool.or_false]
  · rw [if_pos hne] at h
    obtain rfl := Option.some.inj h
    refine ⟨rfl, fun i hi => ?_⟩
    have hb : i % 64 < 64 := Nat.mod_lt i (by decide)
    have hj : i / 64 < maskLen s.bitLength := by omega
    rw [bit_mapMasks (show i < 64 * maskLen (mapMasks (mapMasks s _) _).bitLength from hi),
      getD_mapMasks (show i / 64 < maskLen (mapMasks s _).bitLength from hj), getD_mapMasks hj,
      getLsbD_ite_or, getLsbD_ite_or, hmiddle i hi]
    by_cases hone : start / 64 = (stop + 64 - 1) / 64 - 1
    · rw [if_pos hone, if_pos hone, BitVec.getLsbD_and, getLsbD_firstMask hb, getLsbD_lastMask hb,
        Bool.eq_iff_iff]
      simp only [Bool.or_eq_true, Bool.and_eq_true, decide_eq_true_iff]
      cases s.bit i
      · simp only [Bool.false_eq_true, or_false, false_or]
        omega
      · simp only [or_true, true_or]
    · rw [if_neg hone, if_neg hone, getLsbD_firstMask hb, getLsbD_lastMask hb, Bool.eq_iff_iff]
      simp only [Bool.or_eq_true, Bool.and_eq_true, decide_eq_true_iff]
      cases s.bit i
      · simp only [Bool.false_eq_true, or_false, false_or]
        omega
      · simp only [or_true, true_or]

/-! ### What the observers report -/

/-- What is reported about a set of numbers below a bound. -/
structure Exact (s : BitSet) (x : ℕ × Finset ℕ) : Prop where
  popCount : s.popCount = x.2.card
  isEmpty : s.isEmpty = true ↔ x.2 = ∅
  contains : ∀ i < x.1, s.contains i = some (decide (i ∈ x.2))
  iter : ∀ n, nthCall (s.iterNext false) n iter = (sorted x.1 x.2)[n]?

/-- Inverted iteration returns the others. -/
def ExactInverted (s : BitSet) (x : ℕ × Finset ℕ) : Prop :=
  ∀ n, nthCall (s.iterNext true) n iter = (sorted x.1 (Finset.range x.1 \ x.2))[n]?

theorem nthCall_iterNext (inverted : Bool) (n : ℕ) :
    nthCall (s.iterNext inverted) n iter =
      ((List.range (maskLen s.bitLength * 64)).filter fun k => s.bit k ^^ inverted)[n]? := by
  refine (nthCall_scan _ _ n).trans (congrArg (·[n]?) (List.filter_congr fun k _ => ?_))
  rw [BitVec.getLsbD_xor, getLsbD_fillMask (Nat.mod_lt k (by decide))]
  rfl

theorem masks_eq_map : s.masks = (List.range (maskLen s.bitLength)).map fun j =>
    s.masks.getD j 0#64 := by
  refine List.ext_getElem ?_ fun j hj _ => ?_
  · rw [List.length_map, List.length_range, s.length_masks]
  · rw [List.getElem_map, List.getElem_range, List.getD_eq_getElem _ _ hj]

theorem popCount_eq : s.popCount =
    ((List.range (maskLen s.bitLength * 64)).filter fun k => s.bit k).length := by
  have hbits : _ = (List.range (maskLen s.bitLength * 64)).filter fun k => s.bit k :=
    flatMap_setBits (fun j => s.masks.getD j 0#64) (maskLen s.bitLength)
  rw [popCount, ← hbits, List.length_flatMap]
  nth_rewrite 1 [masks_eq_map]
  rw [List.map_map]
  refine congrArg List.sum (List.map_congr_left fun j _ => ?_)
  rw [Function.comp_apply, List.length_map, length_setBits]

theorem isEmpty_eq_true : s.isEmpty = true ↔ ∀ i, s.bit i = false := by
  rw [isEmpty, List.all_eq_true]
  constructor
  · intro h i
    rw [bit, List.getD_eq_getElem?_getD]
    cases hm : s.masks[i / 64]? with
    | none => exact BitVec.getLsbD_zero
    | some m =>
      have hzero := of_decide_eq_true (h m (List.mem_of_getElem? hm))
      rw [Option.getD_some, hzero]
      exact BitVec.getLsbD_zero
  · intro h m hm
    obtain ⟨j, hj, rfl⟩ := List.getElem_of_mem hm
    refine decide_eq_true (BitVec.eq_of_getLsbD_eq fun b hb => ?_)
    have hbit := h (64 * j + b)
    rw [bit, show (64 * j + b) / 64 = j by omega, show (64 * j + b) % 64 = b by omega,
      List.getD_eq_getElem _ _ hj] at hbit
    rw [hbit, BitVec.getLsbD_zero]

theorem and_bit_ne_zero (m : BitVec 64) {b : ℕ} (hb : b < 64) :
    m &&& 1#64 <<< b ≠ 0#64 ↔ m.getLsbD b = true := by
  constructor
  · intro h
    by_contra hbit
    refine h (BitVec.eq_of_getLsbD_eq fun a ha => ?_)
    rw [BitVec.getLsbD_and, getLsbD_one_shiftLeft ha, BitVec.getLsbD_zero]
    by_cases hab : a = b
    · rw [hab, Bool.eq_false_of_not_eq_true hbit, Bool.false_and]
    · rw [decide_eq_false hab, Bool.and_false]
  · intro hbit h
    have hzero := congrArg (·.getLsbD b) h
    simp only [BitVec.getLsbD_and, hbit, getLsbD_one_shiftLeft hb, BitVec.getLsbD_zero,
      decide_true, Bool.and_true, Bool.true_eq_false] at hzero

theorem contains_eq (hs : s.Clean) (hi : i < s.bitLength) : s.contains i = some (s.bit i) := by
  have hlast : s.bitLength % 64 = 0 ∨
      s.masks.getD (s.bitLength / 64) 0#64 &&& 1#64 <<< (s.bitLength % 64) = 0#64 := by
    right
    by_contra h
    rw [← ne_eq, and_bit_ne_zero _ (Nat.mod_lt _ (by decide))] at h
    exact Bool.false_ne_true ((hs _ le_rfl).symm.trans h)
  have hbit := and_bit_ne_zero (s.masks.getD (i / 64) 0#64) (Nat.mod_lt i (by decide : 0 < 64))
  simp only [contains, guard, if_pos hi, if_pos hlast]
  refine congrArg some (Bool.eq_iff_iff.2 ?_)
  rw [decide_eq_true_iff, hbit]
  rfl

/-! ### Exact observers and clean tails -/

theorem sorted_eq_filter (hs : s.Clean) (hx : s.Rep (n, e)) :
    ((List.range (maskLen s.bitLength * 64)).filter fun k => s.bit k) = sorted n e := by
  have hlen : s.bitLength = n := hx.bitLength
  have hle : n ≤ maskLen s.bitLength * 64 := by
    rw [hlen]
    unfold maskLen
    omega
  obtain ⟨k, hk⟩ := Nat.exists_eq_add_of_le hle
  have htail : ((List.range k).map (n + ·)).filter (fun k => s.bit k) = [] := by
    refine List.filter_eq_nil_iff.2 fun i hi => ?_
    obtain ⟨j, -, rfl⟩ := List.mem_map.1 hi
    rw [hs _ (by omega)]
    exact Bool.false_ne_true
  rw [hk, List.range_add, List.filter_append, htail, List.append_nil, sorted]
  exact List.filter_congr fun i hi => hx.bit i (List.mem_range.1 hi)

theorem mem_sorted : i ∈ sorted n e ↔ i < n ∧ i ∈ e := by
  rw [sorted, List.mem_filter, List.mem_range, decide_eq_true_iff]

theorem length_sorted (h : ∀ i ∈ e, i < n) : (sorted n e).length = e.card := by
  have hnodup : (sorted n e).Nodup := List.nodup_range.filter _
  rw [← List.toFinset_card_of_nodup hnodup]
  refine congrArg Finset.card (Finset.ext fun i => ?_)
  rw [List.mem_toFinset, mem_sorted]
  exact ⟨And.right, fun hi => ⟨h i hi, hi⟩⟩

theorem Rep.bit_of_mem (hx : s.Rep (n, e)) (hi : i ∈ e) : s.bit i = true :=
  (hx.bit i (hx.lt i hi)).trans (decide_eq_true hi)

/-- **The observers are exact when the tail is clear**, and only then. -/
theorem exact_iff_clean (hx : s.Rep (n, e)) : s.Exact (n, e) ↔ s.Clean := by
  have hlen : s.bitLength = n := hx.bitLength
  constructor
  · intro h i hi
    by_contra hbit
    rw [Bool.not_eq_false] at hbit
    have hbound : i < maskLen s.bitLength * 64 := by
      by_contra hge
      rw [bit_of_ge (by omega)] at hbit
      cases hbit
    have heq : ((List.range (maskLen s.bitLength * 64)).filter fun k => s.bit k ^^ false) =
        sorted n e := List.ext_getElem? fun k => (nthCall_iterNext false k).symm.trans (h.iter k)
    have hmem : i ∈ sorted n e := by
      rw [← heq, List.mem_filter, List.mem_range, Bool.xor_false]
      exact ⟨hbound, hbit⟩
    have hlt := (mem_sorted.1 hmem).1
    omega
  · intro hs
    refine ⟨?_, ?_, fun i hi => ?_, fun k => ?_⟩
    · rw [popCount_eq, sorted_eq_filter hs hx, length_sorted hx.lt]
    · rw [isEmpty_eq_true, Finset.eq_empty_iff_forall_notMem]
      constructor
      · intro h i hi
        exact Bool.false_ne_true ((h i).symm.trans (hx.bit_of_mem hi))
      · intro h i
        rcases Nat.lt_or_ge i n with hi | hi
        · rw [hx.bit i hi, decide_eq_false (h i)]
        · exact hs i (hlen ▸ hi)
    · rw [contains_eq hs (hlen ▸ hi), hx.bit i hi]
    · rw [nthCall_iterNext]
      simp only [Bool.xor_false]
      rw [sorted_eq_filter hs hx]

/-- **Inverted iteration is exact as well when there is no tail**, and only then. -/
theorem exact_and_exactInverted_iff (hx : s.Rep (n, e)) :
    (s.Exact (n, e) ∧ s.ExactInverted (n, e)) ↔ 64 ∣ n := by
  have hlen : s.bitLength = n := hx.bitLength
  constructor
  · rintro ⟨hexact, hinv⟩
    have hs := (exact_iff_clean hx).1 hexact
    have heq : ((List.range (maskLen s.bitLength * 64)).filter fun k => s.bit k ^^ true) =
        sorted n (Finset.range n \ e) :=
      List.ext_getElem? fun k => (nthCall_iterNext true k).symm.trans (hinv k)
    by_contra hdvd
    have hmem : n ∈ sorted n (Finset.range n \ e) := by
      rw [← heq, List.mem_filter, List.mem_range, hs n hlen.le, hlen]
      refine ⟨?_, rfl⟩
      unfold maskLen
      omega
    exact lt_irrefl n (mem_sorted.1 hmem).1
  · intro hdvd
    have hwords : maskLen s.bitLength * 64 = n := by
      rw [hlen]
      unfold maskLen
      omega
    have hs : s.Clean := fun i hi => bit_of_ge (by omega)
    refine ⟨(exact_iff_clean hx).2 hs, fun k => ?_⟩
    rw [nthCall_iterNext, hwords]
    refine congrArg (·[k]?) (List.filter_congr fun i hi => ?_)
    have hi := List.mem_range.1 hi
    rw [hx.bit i hi, Bool.xor_true, Bool.eq_iff_iff, decide_eq_true_iff, Finset.mem_sdiff,
      Finset.mem_range, Bool.not_eq_true', decide_eq_false_iff_not]
    exact ⟨fun h => ⟨hi, h⟩, And.right⟩

end BitSet

/-! ### One operation -/

/-- An operation that leaves a clear tail: it does not fill a word that has one, and it does not
cut off numbers of the set inside a word. -/
def Op.Fits (x : ℕ × Finset ℕ) : Op → Prop
  | .setAll true => 64 ∣ x.1
  | .resize size => ∀ i ∈ x.2, size ≤ i → 64 * maskLen size ≤ i
  | _ => True

namespace BitSet

variable {s t : BitSet} {i n : ℕ} {e : Finset ℕ} {op : Op}

theorem Rep.bit_eq (hx : s.Rep (n, e)) (hs : s.Clean) (i : ℕ) : s.bit i = decide (i ∈ e) := by
  have hlen : s.bitLength = n := hx.bitLength
  rcases Nat.lt_or_ge i n with hi | hi
  · exact hx.bit i hi
  · rw [hs i (hlen ▸ hi), decide_eq_false fun hmem => absurd (hx.lt i hmem) (by simpa using hi)]

/-- **`set` inserts or erases**, and leaves the tail. -/
theorem Rep.set {index : ℕ} {value c : Bool} (hx : s.Rep (n, e))
    (h : s.set index value = some (t, c)) :
    t.Rep (n, if value then insert index e else e.erase index) ∧ (t.Clean ↔ s.Clean) := by
  have hlen : s.bitLength = n := hx.bitLength
  obtain ⟨hindex, htlen, hbit⟩ := set_eq_some h
  have hwords : n ≤ 64 * maskLen n := by
    unfold maskLen
    omega
  refine ⟨⟨htlen.trans hlen, ?_, fun i hi => ?_⟩, ?_⟩
  · intro i hi
    have hcases : i = index ∨ i ∈ e := by
      cases value
      · exact .inr (Finset.mem_of_mem_erase hi)
      · exact Finset.mem_insert.1 hi
    rcases hcases with rfl | hi
    · exact hlen ▸ hindex
    · exact hx.lt i hi
  · have hi : i < n := hi
    rw [hbit i (by rw [hlen]; omega), hx.bit i hi]
    by_cases he : i = index
    · subst he
      cases value <;> simp
    · rw [if_neg he]
      cases value <;> simp [he]
  · refine forall_congr' fun i => ?_
    rw [htlen]
    refine imp_congr_right fun hi => ?_
    rcases Nat.lt_or_ge i (64 * maskLen s.bitLength) with hlt | hge
    · rw [hbit i hlt, if_neg (by omega)]
    · rw [bit_of_ge hge, bit_of_ge (htlen.symm ▸ hge)]

/-- **Every operation does to the bits what it does to the set**, if the tail is clear: a larger
array shows its bits.  The tail stays clear when the operation fits, and only then. -/
theorem Rep.step (hx : s.Rep (n, e)) (hs : s.Clean) (h : s.step op = some t) :
    t.Rep (specStep (n, e) op) ∧ (t.Clean ↔ op.Fits (n, e)) := by
  have hlen : s.bitLength = n := hx.bitLength
  have hwords : n ≤ 64 * maskLen n := by
    unfold maskLen
    omega
  cases op with
  | set index value =>
    obtain ⟨⟨u, c⟩, hset, rfl⟩ := Option.map_eq_some_iff.1 h
    obtain ⟨hrep, hclean⟩ := hx.set hset
    exact ⟨hrep, iff_of_true (hclean.2 hs) trivial⟩
  | setUnbounded index value =>
    -- out of range nothing is set
    rw [BitSet.step, setUnbounded] at h
    rw [hlen] at h
    by_cases hout : index < 0 ∨ index ≥ n
    · rw [if_pos hout] at h
      rw [specStep, if_pos hout]
      obtain rfl := Option.some.inj h
      exact ⟨hx, iff_of_true hs trivial⟩
    · rw [if_neg hout] at h
      rw [specStep, if_neg hout]
      obtain ⟨⟨u, c⟩, hset, rfl⟩ := Option.map_eq_some_iff.1 h
      obtain ⟨hrep, hclean⟩ := hx.set hset
      exact ⟨hrep, iff_of_true (hclean.2 hs) trivial⟩
  | setRange start stop =>
    obtain ⟨-, hstop, htlen, hbit⟩ := setRange_eq_some h
    refine ⟨⟨htlen.trans hlen, ?_, fun i hi => ?_⟩, iff_of_true ?_ trivial⟩
    · intro i hi
      show i < n
      rcases Finset.mem_union.1 hi with hi | hi
      · exact hx.lt i hi
      · have hi := Finset.mem_Ico.1 hi
        omega
    · have hi : i < n := hi
      rw [hbit i (by rw [hlen]; omega), hx.bit i hi, ← Bool.decide_or]
      exact decide_eq_decide.2 (by rw [specStep, Finset.mem_union, Finset.mem_Ico])
    · intro i hi
      rw [htlen] at hi
      rcases Nat.lt_or_ge i (64 * maskLen s.bitLength) with hlt | hge
      · rw [hbit i hlt, hs i hi, decide_eq_false (by omega), Bool.or_false]
      · exact bit_of_ge (htlen.symm ▸ hge)
  | setAll value =>
    obtain rfl := Option.some.inj h
    refine ⟨⟨hlen, ?_, fun i hi => ?_⟩, ?_⟩
    · intro i hi
      cases value
      · exact absurd hi (Finset.notMem_empty i)
      · exact Finset.mem_range.1 hi
    · have hi : i < n := hi
      rw [bit_setAll value (by rw [hlen]; omega)]
      cases value
      · exact (decide_eq_false (Finset.notMem_empty i)).symm
      · exact (decide_eq_true (Finset.mem_range.2 hi)).symm
    · cases value
      · refine iff_of_true (fun i _ => ?_) trivial
        rcases Nat.lt_or_ge i (64 * maskLen s.bitLength) with hlt | hge
        · exact bit_setAll false hlt
        · exact bit_of_ge hge
      · constructor
        · intro ht
          -- the bit behind the last one would be set
          by_contra hdvd
          have hdvd : ¬ 64 ∣ n := hdvd
          have hfill := bit_setAll (s := s) (i := n) true (by
            rw [hlen]
            unfold maskLen
            omega)
          exact Bool.false_ne_true ((ht n hlen.le).symm.trans hfill)
        · intro hdvd i hi
          have hdvd : 64 ∣ n := hdvd
          have hi : s.bitLength ≤ i := hi
          refine bit_of_ge ?_
          show 64 * maskLen s.bitLength ≤ i
          rw [hlen] at hi ⊢
          unfold maskLen
          omega
  | resize size =>
    obtain rfl := Option.some.inj h
    have hsize : size ≤ 64 * maskLen size := by
      unfold maskLen
      omega
    refine ⟨⟨rfl, fun i hi => Finset.mem_range.1 (Finset.mem_of_mem_inter_right hi), ?_⟩, ?_⟩
    · intro i hi
      have hi : i < size := hi
      rw [bit_resize (by omega), hx.bit_eq hs]
      refine decide_eq_decide.2 ?_
      show i ∈ e ↔ i ∈ e ∩ Finset.range size
      rw [Finset.mem_inter, Finset.mem_range]
      exact ⟨fun h => ⟨h, hi⟩, And.left⟩
    · constructor
      · intro ht i hi hle
        -- a member that is cut off would stay in the tail
        by_contra hlt
        have hbit := ht i hle
        rw [bit_resize (by omega), hx.bit_of_mem hi] at hbit
        cases hbit
      · intro hfits i hi
        have hi : size ≤ i := hi
        rcases Nat.lt_or_ge i (64 * maskLen size) with hlt | hge
        · rw [bit_resize hlt, hx.bit_eq hs, decide_eq_false]
          intro hmem
          have := hfits i hmem hi
          omega
        · exact bit_of_ge hge

/-! ### Sequences of operations -/

end BitSet

/-- Every operation of a sequence fits. -/
def Fits : ℕ × Finset ℕ → List Op → Prop
  | _, [] => True
  | x, op :: ops => op.Fits x ∧ Fits (specStep x op) ops

/-- No length that the array is given leaves a part of a word over. -/
def WholeWords (n : ℕ) (ops : List Op) : Prop := 64 ∣ n ∧ ∀ size, Op.resize size ∈ ops → 64 ∣ size

namespace BitSet

variable {s t : BitSet} {n : ℕ} {e : Finset ℕ} {x : ℕ × Finset ℕ} {op : Op} {ops : List Op}

theorem rep_init (n : ℕ) : (init n).Rep (n, ∅) :=
  ⟨rfl, fun i hi => absurd hi (Finset.notMem_empty i), fun i _ =>
    (bit_init n i).trans (decide_eq_false (Finset.notMem_empty i)).symm⟩

theorem clean_init (n : ℕ) : (init n).Clean := fun i _ => bit_init n i

theorem run_cons_eq_some (h : s.run (op :: ops) = some t) :
    ∃ u, s.step op = some u ∧ u.run ops = some t := Option.bind_eq_some_iff.1 h

/-- **The states of a run**, as long as its operations fit. -/
theorem Rep.run (hx : s.Rep x) (hs : s.Clean) (h : s.run ops = some t) (hfits : Fits x ops) :
    t.Rep (spec x ops) ∧ t.Clean := by
  induction ops generalizing s x with
  | nil =>
    obtain rfl := Option.some.inj h
    exact ⟨hx, hs⟩
  | cons op ops ih =>
    obtain ⟨u, hstep, hrun⟩ := run_cons_eq_some h
    obtain ⟨hrep, hclean⟩ := Rep.step hx hs hstep
    exact ih hrep (hclean.2 hfits.1) hrun hfits.2

/-- A run in which the observers are exact in every state has only operations that fit. -/
theorem Rep.fits_of_exact (hx : s.Rep x) (hs : s.Clean) (h : s.run ops = some t)
    (hexact : ∀ before, before <+: ops → ∀ u, s.run before = some u → u.Exact (spec x before)) :
    Fits x ops := by
  induction ops generalizing s x with
  | nil => trivial
  | cons op ops ih =>
    obtain ⟨u, hstep, hrun⟩ := run_cons_eq_some h
    obtain ⟨hrep, hclean⟩ := Rep.step hx hs hstep
    have hu : u.Clean := by
      refine (exact_iff_clean hrep).1 (hexact [op] (List.prefix_append [op] ops) u ?_)
      rw [BitSet.run, hstep]
      rfl
    refine ⟨hclean.1 hu, ih hrep hu hrun fun before hbefore v hv => ?_⟩
    refine hexact (op :: before) (List.cons_prefix_cons.2 ⟨rfl, hbefore⟩) v ?_
    rw [BitSet.run, hstep]
    exact hv

theorem Fits.of_prefix {before : List Op} (hfits : Fits x ops) (h : before <+: ops) :
    Fits x before := by
  induction before generalizing x ops with
  | nil => trivial
  | cons op before ih =>
    obtain ⟨rest, rfl⟩ := h
    exact ⟨hfits.1, ih hfits.2 (List.prefix_append before rest)⟩

theorem run_isSome_of_prefix {before : List Op} (h : s.run ops = some t) (hb : before <+: ops) :
    ∃ u, s.run before = some u := by
  induction before generalizing s ops with
  | nil => exact ⟨s, rfl⟩
  | cons op before ih =>
    obtain ⟨rest, rfl⟩ := hb
    obtain ⟨u, hstep, hrun⟩ := run_cons_eq_some h
    obtain ⟨v, hv⟩ := ih hrun (List.prefix_append before rest)
    exact ⟨v, by rw [BitSet.run, hstep]; exact hv⟩

theorem specStep_fst (x : ℕ × Finset ℕ) (op : Op) :
    (specStep x op).1 = x.1 ∨ op = .resize (specStep x op).1 := by
  cases op with
  | setUnbounded index value =>
    rw [specStep]
    split_ifs
    · exact .inl rfl
    · exact .inl rfl
    · exact .inl rfl
  | resize size => exact .inr rfl
  | set index value => exact .inl rfl
  | setRange start stop => exact .inl rfl
  | setAll value => exact .inl rfl

/-- A length is the first one, or that of a `resize`. -/
theorem spec_fst (x : ℕ × Finset ℕ) (ops : List Op) :
    (spec x ops).1 = x.1 ∨ Op.resize (spec x ops).1 ∈ ops := by
  induction ops generalizing x with
  | nil => exact .inl rfl
  | cons op ops ih =>
    rw [spec, List.foldl_cons]
    rcases ih (specStep x op) with h | h
    · rcases specStep_fst x op with hx | hx
      · exact .inl (h.trans hx)
      · right
        rw [spec] at h
        rw [h, ← hx]
        exact List.mem_cons_self
    · exact .inr (List.mem_cons_of_mem _ h)

theorem WholeWords.tail (h : WholeWords x.1 (op :: ops)) : WholeWords (specStep x op).1 ops := by
  refine ⟨?_, fun size hsize => h.2 size (List.mem_cons_of_mem _ hsize)⟩
  rcases specStep_fst x op with hx | hx
  · rw [hx]
    exact h.1
  · exact h.2 _ (List.mem_cons.2 (.inl hx.symm))

theorem Fits.of_wholeWords (h : WholeWords x.1 ops) : Fits x ops := by
  induction ops generalizing x with
  | nil => trivial
  | cons op ops ih =>
    refine ⟨?_, ih (WholeWords.tail h)⟩
    cases op with
    | setAll value =>
      cases value
      · trivial
      · exact h.1
    | resize size =>
      intro i _ hi
      have hsize := h.2 size List.mem_cons_self
      unfold maskLen
      omega
    | set index value => trivial
    | setUnbounded index value => trivial
    | setRange start stop => trivial

/-- **Exactly when bit arrays are sets.**  In every state of a run, counting, testing for emptiness,
lookups and plain iteration report the set, if and only if all operations of the run fit; and
inverted iteration does as well, if and only if no length leaves a part of a word over. -/
theorem run_exact_iff (n : ℕ) (ops : List Op) (s : BitSet) (h : (init n).run ops = some s) :
    ((∀ before, before <+: ops → ∀ t, (init n).run before = some t →
        t.Exact (spec (n, ∅) before)) ↔ Fits (n, ∅) ops) ∧
      ((∀ before, before <+: ops → ∀ t, (init n).run before = some t →
        t.Exact (spec (n, ∅) before) ∧ t.ExactInverted (spec (n, ∅) before)) ↔
          WholeWords n ops) := by
  have hrun {before : List Op} {t : BitSet} (hfits : Fits (n, ∅) ops) (hb : before <+: ops)
      (ht : (init n).run before = some t) : t.Rep (spec (n, ∅) before) ∧ t.Clean :=
    (rep_init n).run (clean_init n) ht (Fits.of_prefix hfits hb)
  refine ⟨⟨(rep_init n).fits_of_exact (clean_init n) h, fun hfits before hb t ht => ?_⟩, ?_, ?_⟩
  · obtain ⟨hrep, hclean⟩ := hrun hfits hb ht
    exact (exact_iff_clean hrep).2 hclean
  · intro hexact
    have hfits := (rep_init n).fits_of_exact (clean_init n) h fun before hb t ht =>
      (hexact before hb t ht).1
    have hlength {before : List Op} (hb : before <+: ops) : 64 ∣ (spec (n, ∅) before).1 := by
      obtain ⟨t, ht⟩ := run_isSome_of_prefix h hb
      exact (exact_and_exactInverted_iff (hrun hfits hb ht).1).1 (hexact before hb t ht)
    refine ⟨hlength List.nil_prefix, fun size hsize => ?_⟩
    obtain ⟨before, after, rfl⟩ := List.append_of_mem hsize
    have hb : before ++ [.resize size] <+: before ++ .resize size :: after :=
      ⟨after, by rw [List.append_assoc]; rfl⟩
    have hdvd := hlength hb
    rw [spec, List.foldl_append] at hdvd
    exact hdvd
  · intro hwhole before hb t ht
    have hfits := Fits.of_wholeWords (x := (n, ∅)) hwhole
    refine (exact_and_exactInverted_iff (hrun hfits hb ht).1).2 ?_
    rcases spec_fst (n, ∅) before with hlen | hlen
    · exact hlen.symm ▸ hwhole.1
    · exact hwhole.2 _ (hb.subset hlen)

/-- Filling an array of one bit, and growing it. -/
theorem run_exact_iff_grow :
    (init 1).run [.setAll true, .resize 64] = some ((init 1).setAll true |>.resize 64) ∧
      (((∀ before, before <+: [Op.setAll true, .resize 64] → ∀ t,
          (init 1).run before = some t → t.Exact (spec (1, ∅) before)) ↔
            Fits (1, ∅) [.setAll true, .resize 64]) ∧
        ((∀ before, before <+: [Op.setAll true, .resize 64] → ∀ t,
          (init 1).run before = some t →
            t.Exact (spec (1, ∅) before) ∧ t.ExactInverted (spec (1, ∅) before)) ↔
              WholeWords 1 [.setAll true, .resize 64])) :=
  ⟨rfl, run_exact_iff 1 [.setAll true, .resize 64] _ rfl⟩

/-- All bits of an array of one bit are 64, and it then holds the numbers up to 63. -/
theorem exists_run_not_exact :
    ((init 1).run [.setAll true]).map popCount = some 64 ∧ (spec (1, ∅) [.setAll true]).2.card = 1 ∧
      ((init 1).run [.setAll true]).bind (·.contains 0) = none ∧
      ((init 1).run [.setAll true, .resize 64]).bind (·.contains 63) = some true ∧
      63 ∉ (spec (1, ∅) [.setAll true, .resize 64]).2 ∧
      ((init 64).run [.set 10 true, .resize 10, .resize 64]).bind (·.contains 10) = some true ∧
      10 ∉ (spec (64, ∅) [.set 10 true, .resize 10, .resize 64]).2 ∧
      ((init 1).run []).map (fun s => nthCall (s.iterNext true) 1 iter) = some (some 1) := by
  decide +kernel

/-! ### Arrays with a clear tail -/

/-- The array holds exactly the numbers of a set, and its tail is clear. -/
structure Holds (s : BitSet) (e : Finset ℕ) : Prop where
  rep : s.Rep (s.bitLength, e)
  clean : s.Clean

theorem holds_init (n : ℕ) : (init n).Holds ∅ := ⟨rep_init n, clean_init n⟩

theorem Holds.bit_eq (h : s.Holds e) (i : ℕ) : s.bit i = decide (i ∈ e) := h.rep.bit_eq h.clean i

theorem Holds.lt (h : s.Holds e) {i : ℕ} (hi : i ∈ e) : i < s.bitLength := h.rep.lt i hi

/-- `set` says whether the bit was the other one. -/
theorem set_changed {index : ℕ} {value c : Bool} (h : s.set index value = some (t, c)) :
    c = (s.bit index != value) := by
  obtain ⟨hindex, -, hbit⟩ := set_eq_some h
  have hwords : c = decide (s.masks.getD (index / 64) 0#64 ≠ t.masks.getD (index / 64) 0#64) := by
    simp only [BitSet.set, Option.bind_eq_bind, Option.bind_eq_some_iff, Option.guard_eq_some',
      Option.pure_def] at h
    obtain ⟨-, -, h⟩ := h
    obtain ⟨rfl, rfl⟩ := Prod.mk.inj (Option.some.inj h)
    rfl
  have hrange {b : ℕ} (hb : b < 64) : 64 * (index / 64) + b < 64 * maskLen s.bitLength := by
    have := lt_maskLen hindex
    omega
  have hword (u : BitSet) {b : ℕ} (hb : b < 64) :
      (u.masks.getD (index / 64) 0#64).getLsbD b = u.bit (64 * (index / 64) + b) := by
    rw [BitSet.bit, show (64 * (index / 64) + b) / 64 = index / 64 by omega,
      show (64 * (index / 64) + b) % 64 = b by omega]
  have hself : t.bit index = value := by
    have := hbit index (by have := hrange (Nat.mod_lt index (by decide : 0 < 64)); omega)
    rwa [if_pos rfl] at this
  rw [hwords]
  by_cases hsame : s.bit index = value
  · rw [hsame, bne_self_eq_false, decide_eq_false_iff_not, not_not]
    refine BitVec.eq_of_getLsbD_eq fun b hb => ?_
    rw [hword s hb, hword t hb, hbit _ (hrange hb)]
    split_ifs with he
    · rw [he, hsame]
    · rfl
  · rw [show (s.bit index != value) = true from bne_iff_ne.2 hsame, decide_eq_true_iff]
    intro heq
    refine hsame (Eq.trans ?_ hself)
    rw [BitSet.bit, heq]
    rfl

theorem Holds.set {index : ℕ} {value c : Bool} (hs : s.Holds e)
    (h : s.set index value = some (t, c)) :
    t.Holds (if value then insert index e else e.erase index) ∧ t.bitLength = s.bitLength ∧
      c = (decide (index ∈ e) != value) := by
  obtain ⟨hrep, hclean⟩ := hs.rep.set h
  have hlen := (set_eq_some h).2.1
  refine ⟨⟨?_, hclean.2 hs.clean⟩, hlen, ?_⟩
  · rw [hlen]
    exact hrep
  · rw [set_changed h, hs.bit_eq]

theorem Holds.resize {size : ℕ} (hs : s.Holds e) (hsize : s.bitLength ≤ size) :
    (s.resize size).Holds e := by
  obtain ⟨hrep, hclean⟩ := Rep.step hs.rep hs.clean (show s.step (.resize size) = some _ from rfl)
  have hsub : e ∩ Finset.range size = e := Finset.inter_eq_left.2 fun i hi =>
    Finset.mem_range.2 ((hs.lt hi).trans_le hsize)
  refine ⟨?_, hclean.2 fun i hi hle => absurd (hs.lt hi) (by omega)⟩
  rw [specStep, hsub] at hrep
  exact hrep

/-- Clearing the array, and filling it up to a number. -/
theorem Holds.clear_setRange {n : ℕ} (hs : s.Holds e)
    (h : (s.setAll false).setRange 0 n = some t) : t.Holds (Finset.range n) := by
  obtain ⟨hrep, hclean⟩ := Rep.step hs.rep hs.clean (show s.step (.setAll false) = some _ from rfl)
  obtain ⟨hrep, hclean⟩ := Rep.step hrep (hclean.2 trivial)
    (show (s.setAll false).step (.setRange 0 n) = some t from h)
  have hlen : t.bitLength = s.bitLength := (setRange_eq_some h).2.2.1
  refine ⟨?_, hclean.2 trivial⟩
  rw [hlen]
  rw [specStep, specStep, if_neg Bool.false_ne_true, Finset.empty_union,
    ← Nat.Ico_zero_eq_range] at *
  exact hrep

end BitSet

end OdinSon.BitArr
