import Mathlib.Data.List.Basic
import Mathlib.Data.List.Range
import Mathlib.Data.Nat.Bitwise

/-!
# Scanning for set bits

An iterator over the set bits of an array of words keeps a word of which the bits that it has
returned are cleared, and the number of the word after it.  The lowest bit is the next one, and
`x &&& (x - 1)` clears it (`setBits_eq_cons`).

`nthCall_scan` says what the calls of such an iterator return: the places of the set bits, in
ascending order, and then nothing any more.
-/

namespace OdinSon.Lib

/-! ### Calls of an iterator -/

section Calls

variable {σ α : Type*} (next : σ → Option α × σ)

/-- What the `n`-th call returns, from a state on. -/
def nthCall : ℕ → σ → Option α
  | 0, s => (next s).1
  | n + 1, s => nthCall n (next s).2

variable {next}

/-- **The calls return the elements of a list**, and then nothing, when each returns the first one
and leaves the others. -/
theorem nthCall_eq (At : σ → List α → Prop)
    (hstep : ∀ s l, At s l → (next s).1 = l.head? ∧ At (next s).2 l.tail) :
    ∀ n s l, At s l → nthCall next n s = l[n]? := by
  intro n
  induction n with
  | zero =>
    intro s l h
    rw [nthCall, (hstep s l h).1, List.head?_eq_getElem?]
  | succ n ih =>
    intro s l h
    rw [nthCall, ih _ _ (hstep s l h).2, List.getElem?_tail]

end Calls

/-! ### The set bits of a word -/

variable {w : ℕ} {x : BitVec w} {i : ℕ}

/-- The places of the set bits, the lowest first. -/
def setBits (x : BitVec w) : List ℕ := (List.range w).filter fun i => x.getLsbD i

@[simp] theorem setBits_zero : setBits (0 : BitVec w) = [] :=
  List.filter_eq_nil_iff.2 fun _ _ => by simp

theorem mod_two_pow_ctz (hx : x ≠ 0#w) :
    x.toNat % 2 ^ (x.ctz.toNat + 1) = 2 ^ x.ctz.toNat := by
  refine Nat.eq_of_testBit_eq fun i => ?_
  rw [Nat.testBit_mod_two_pow, Nat.testBit_two_pow]
  rcases lt_trichotomy i x.ctz.toNat with hi | rfl | hi
  · have hbit : x.toNat.testBit i = false := BitVec.getLsbD_false_of_lt_ctz hi
    rw [hbit, Bool.and_false, decide_eq_false (by omega)]
  · have hbit : x.toNat.testBit x.ctz.toNat = true := BitVec.getLsbD_true_ctz_of_ne_zero hx
    rw [hbit, Bool.and_true, decide_eq_true (by omega), decide_eq_true rfl]
  · rw [decide_eq_false (by omega), Bool.false_and, decide_eq_false (by omega)]

/-- `x &&& (x - 1)` has the bits of `x` but for the lowest one. -/
theorem getLsbD_and_sub_one (hx : x ≠ 0#w) (i : ℕ) :
    (x &&& (x - 1#w)).getLsbD i = (x.getLsbD i && decide (i ≠ x.ctz.toNat)) := by
  have hmod := mod_two_pow_ctz hx
  have hpos := Nat.two_pow_pos x.ctz.toNat
  have hlt : 2 ^ x.ctz.toNat < 2 ^ (x.ctz.toNat + 1) := Nat.pow_lt_pow_right (by decide) (by omega)
  have hdecomp : x.toNat =
      2 ^ (x.ctz.toNat + 1) * (x.toNat / 2 ^ (x.ctz.toNat + 1)) + 2 ^ x.ctz.toNat := by
    have hdiv := Nat.div_add_mod x.toNat (2 ^ (x.ctz.toNat + 1))
    rw [hmod] at hdiv
    exact hdiv.symm
  generalize x.toNat / 2 ^ (x.ctz.toNat + 1) = q at hdecomp
  have hsub : (x - 1#w).toNat = 2 ^ (x.ctz.toNat + 1) * q + (2 ^ x.ctz.toNat - 1) := by
    have hone : 1 ≤ x.toNat := by omega
    have hle : 1#w ≤ x := by
      rw [BitVec.le_def]
      exact (Nat.mod_le _ _).trans hone
    have h1 : (1#w).toNat = 1 := by
      rw [BitVec.toNat_ofNat]
      exact Nat.mod_eq_of_lt (by have := x.isLt; omega)
    rw [BitVec.toNat_sub_of_le hle, h1]
    omega
  rw [BitVec.getLsbD_and, BitVec.getLsbD, BitVec.getLsbD, hsub]
  by_cases hi : i < x.ctz.toNat
  · have hbit : x.toNat.testBit i = false := BitVec.getLsbD_false_of_lt_ctz hi
    rw [hbit, Bool.false_and, Bool.false_and]
  · rw [Nat.testBit_two_pow_mul_add _ (by omega)]
    by_cases heq : i = x.ctz.toNat
    · rw [if_pos (by omega), Nat.testBit_two_pow_sub_one, decide_eq_false hi, Bool.and_false,
        decide_eq_false (not_not.2 heq), Bool.and_false]
    · have hhigh : x.toNat.testBit i = q.testBit (i - (x.ctz.toNat + 1)) := by
        rw [hdecomp, Nat.testBit_two_pow_mul_add _ hlt, if_neg (by omega)]
      rw [if_neg (by omega), ← hhigh, Bool.and_self, decide_eq_true heq, Bool.and_true]

/-- A list of numbers that satisfy a condition, from the least of them on. -/
theorem filter_range_eq_cons {p q : ℕ → Bool} {n k : ℕ} (hk : k < n) (hpk : p k = true)
    (hlow : ∀ j < k, p j = false) (hq : ∀ j, q j = (p j && decide (j ≠ k))) :
    (List.range n).filter p = k :: (List.range n).filter q := by
  have hsplit : List.range n = List.range k ++ k :: (List.range' (k + 1) (n - (k + 1))) := by
    rw [List.range_eq_range', List.range_eq_range', ← List.range'_succ,
      show n - (k + 1) + 1 = n - k by omega]
    have happ := List.range'_append_1 (s := 0) (m := k) (n := n - k)
    rw [Nat.zero_add] at happ
    rw [happ, Nat.add_sub_cancel' hk.le]
  have hqk : q k = false := by rw [hq, decide_eq_false (not_not.2 rfl), Bool.and_false]
  have hp : (List.range k).filter p = [] :=
    List.filter_eq_nil_iff.2 fun j hj => by
      rw [hlow j (List.mem_range.1 hj)]
      decide
  have hq' : (List.range k).filter q = [] :=
    List.filter_eq_nil_iff.2 fun j hj => by
      rw [hq, hlow j (List.mem_range.1 hj), Bool.false_and]
      decide
  rw [hsplit, List.filter_append, List.filter_append, hp, hq', List.nil_append, List.nil_append,
    List.filter_cons_of_pos hpk, List.filter_cons_of_neg (by rw [hqk]; decide)]
  refine congrArg _ (List.filter_congr fun j hj => ?_)
  have hj := List.mem_range'_1.1 hj
  rw [hq, decide_eq_true (by omega), Bool.and_true]

/-- **The lowest bit is the first**, and clearing it leaves the others. -/
theorem setBits_eq_cons (hx : x ≠ 0#w) :
    setBits x = x.ctz.toNat :: setBits (x &&& (x - 1#w)) := by
  have hbit := BitVec.getLsbD_true_ctz_of_ne_zero hx
  exact filter_range_eq_cons (BitVec.lt_of_getLsbD hbit) hbit
    (fun j hj => BitVec.getLsbD_false_of_lt_ctz hj) (getLsbD_and_sub_one hx)

/-- Counting the bits counts their places. -/
theorem length_setBits (x : BitVec w) : (setBits x).length = x.cpop.toNat := by
  have hcount : ∀ n, ((List.range n).filter fun i => x.getLsbD i).length = x.cpopNatRec n 0 := by
    intro n
    induction n with
    | zero => rfl
    | succ n ih =>
      rw [BitVec.cpopNatRec_succ, BitVec.cpopNatRec_eq, List.range_succ, List.filter_append,
        List.length_append, ih]
      cases hbit : x.getLsbD n
      · rw [List.filter_singleton, hbit]
        rfl
      · rw [List.filter_singleton, hbit]
        rfl
  rw [setBits, hcount, BitVec.toNat_cpop]

/-! ### The set bits of an array of words -/

/-- An iterator. -/
structure Scan (w : ℕ) where
  /-- The number of the next word. -/
  i : ℕ
  /-- What is left of the last word. -/
  mask : BitVec w

/-- Return the lowest bit of the mask, and clear it. -/
def Scan.take (s : Scan w) : Option ℕ × Scan w :=
  (some ((s.i - 1) * w + s.mask.ctz.toNat), { s with mask := s.mask &&& (s.mask - 1#w) })

/-- A call: go to the next word while there is nothing left, for so many words. -/
def scanFrom (load : ℕ → BitVec w) : ℕ → Scan w → Option ℕ × Scan w
  | 0, s => if s.mask ≠ 0#w then s.take else (none, s)
  | rest + 1, s => if s.mask ≠ 0#w then s.take else scanFrom load rest ⟨s.i + 1, load s.i⟩

/-- A call with `len` words. -/
def scanNext (load : ℕ → BitVec w) (len : ℕ) (s : Scan w) : Option ℕ × Scan w :=
  scanFrom load (len - s.i) s

variable {load : ℕ → BitVec w} {len rest : ℕ} {s : Scan w}

/-- What the iterator has before it. -/
def Scan.remaining (load : ℕ → BitVec w) (rest : ℕ) (s : Scan w) : List ℕ :=
  (setBits s.mask).map ((s.i - 1) * w + ·) ++
    (List.range' s.i rest).flatMap fun j => (setBits (load j)).map (j * w + ·)

theorem Scan.remaining_take (hm : s.mask ≠ 0#w) :
    s.remaining load rest = ((s.i - 1) * w + s.mask.ctz.toNat) :: s.take.2.remaining load rest := by
  rw [remaining, setBits_eq_cons hm, List.map_cons, List.cons_append]
  rfl

theorem scanFrom_spec (load : ℕ → BitVec w) : ∀ rest s,
    (scanFrom load rest s).1 = (s.remaining load rest).head? ∧
      (scanFrom load rest s).2.i + (s.i + rest - (scanFrom load rest s).2.i) = s.i + rest ∧
      (scanFrom load rest s).2.remaining load (s.i + rest - (scanFrom load rest s).2.i) =
        (s.remaining load rest).tail := by
  intro rest
  induction rest with
  | zero =>
    intro s
    rw [scanFrom]
    split_ifs with hm
    · rw [Scan.remaining_take hm]
      refine ⟨rfl, ?_, ?_⟩
      · show s.i + (s.i + 0 - s.i) = s.i + 0
        omega
      · show s.take.2.remaining load (s.i + 0 - s.i) = _
        rw [Nat.add_sub_cancel_left]
        rfl
    · rw [not_not] at hm
      have hnil : s.remaining load 0 = [] := by
        rw [Scan.remaining, hm, List.range'_zero, List.flatMap_nil, List.append_nil]
        exact congrArg _ setBits_zero
      rw [Nat.add_zero, Nat.sub_self, hnil]
      exact ⟨rfl, rfl, rfl⟩
  | succ rest ih =>
    intro s
    rw [scanFrom]
    split_ifs with hm
    · rw [Scan.remaining_take hm]
      refine ⟨rfl, ?_, ?_⟩
      · show s.i + (s.i + (rest + 1) - s.i) = s.i + (rest + 1)
        omega
      · show s.take.2.remaining load (s.i + (rest + 1) - s.i) = _
        rw [Nat.add_sub_cancel_left]
        rfl
    · rw [not_not] at hm
      have hnext : s.remaining load (rest + 1) =
          Scan.remaining load rest ⟨s.i + 1, load s.i⟩ := by
        rw [Scan.remaining, hm, List.range'_succ, List.flatMap_cons]
        exact congrArg (· ++ _) (congrArg _ setBits_zero)
      obtain ⟨hhead, hend, htail⟩ := ih ⟨s.i + 1, load s.i⟩
      rw [show s.i + 1 + rest = s.i + (rest + 1) by omega] at hend htail
      rw [hnext]
      exact ⟨hhead, hend, htail⟩

theorem flatMap_setBits (load : ℕ → BitVec w) (len : ℕ) :
    ((List.range len).flatMap fun j => (setBits (load j)).map (j * w + ·)) =
      (List.range (len * w)).filter fun k => (load (k / w)).getLsbD (k % w) := by
  induction len with
  | zero => rw [Nat.zero_mul]; rfl
  | succ len ih =>
    rw [List.range_succ, List.flatMap_append, ih, Nat.succ_mul, List.range_add, List.filter_append,
      List.filter_map, List.flatMap_singleton]
    refine congrArg _ (congrArg _ (List.filter_congr fun k hk => ?_))
    have hk := List.mem_range.1 hk
    have hw : 0 < w := by omega
    rw [Function.comp_apply, Nat.mul_comm len, Nat.mul_add_div hw, Nat.mul_add_mod,
      Nat.div_eq_of_lt hk, Nat.mod_eq_of_lt hk, Nat.add_zero]

/-- **The calls return the places of the set bits**, in ascending order, each once, and then
nothing. -/
theorem nthCall_scan (load : ℕ → BitVec w) (len n : ℕ) :
    nthCall (scanNext load len) n ⟨0, 0#w⟩ =
      ((List.range (len * w)).filter fun k => (load (k / w)).getLsbD (k % w))[n]? := by
  refine nthCall_eq (fun s l => s.i ≤ len ∧ s.remaining load (len - s.i) = l) ?_ n _ _
    ⟨Nat.zero_le _, ?_⟩
  · rintro s l ⟨hi, rfl⟩
    obtain ⟨hhead, hend, htail⟩ := scanFrom_spec load (len - s.i) s
    rw [Nat.add_sub_cancel' hi] at hend htail
    exact ⟨hhead, Nat.le.intro hend, htail⟩
  · rw [Scan.remaining, Nat.sub_zero, ← List.range_eq_range', flatMap_setBits]
    show (setBits (0 : BitVec w)).map _ ++ _ = _
    rw [setBits_zero]
    rfl

end OdinSon.Lib
