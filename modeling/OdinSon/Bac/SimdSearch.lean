import OdinSon.Bac.SimdIter
import OdinSon.Lib.BitScan

/-!
# Searching arrays with vectors

`simd_iter_next` of `bac/graph.odin` is the iterator of `SimdIter` in the other direction, and
`simd_search` of `utils/arna` finds the first element that is equal to a key, comparing as many at
a time as fit into a vector of 16 bytes.

## Main results

* `simdIterNext_exact`, `simdIterNextRev_exact` : the calls return the places of the byte, in
  ascending and in descending order, and then nothing.
* `simdSearch_eq` : the search is the linear one.
-/

namespace OdinSon

open Lib

/-! ### Ascending -/

/-- The bytes of a haystack. -/
def byteAt (haystack : List UInt8) (i : ℕ) : UInt8 := haystack.getD i 0

/-- `simd_iter_from`, which asserts that there are whole blocks. -/
def simdIterFrom (haystack : List UInt8) : Option (Scan 16) := do
  guard (haystack.length % 16 = 0)
  return ⟨0, 0#16⟩

/-- `simd_iter_next`. -/
def simdIterNext (haystack : List UInt8) (needle : UInt8) : Scan 16 → Option ℕ × Scan 16 :=
  scanNext (fun i => BitVec.ofNat 16 (lanesEq (byteAt haystack) needle i 16)) (haystack.length / 16)

/-- The occurrences of a byte, in ascending order. -/
def occurrences (haystack : List UInt8) (needle : UInt8) : List ℕ :=
  (List.range haystack.length).filter fun i => byteAt haystack i = needle

variable {haystack : List UInt8} {needle : UInt8} {it : Scan 16}

theorem getLsbD_lanesEq {i l : ℕ} (hl : l < 16) :
    (BitVec.ofNat 16 (lanesEq (byteAt haystack) needle i 16)).getLsbD l =
      decide (byteAt haystack (16 * i + l) = needle) := by
  rw [BitVec.getLsbD_ofNat, decide_eq_true hl, Bool.true_and, Bool.eq_iff_iff, testBit_lanesEq,
    decide_eq_true_iff]
  exact and_iff_right hl

theorem simdIterNext_exact (h : simdIterFrom haystack = some it) (n : ℕ) :
    nthCall (simdIterNext haystack needle) n it = (occurrences haystack needle)[n]? := by
  simp only [simdIterFrom, Option.bind_eq_bind, Option.bind_eq_some_iff, Option.guard_eq_some',
    Option.pure_def] at h
  obtain ⟨-, hlen, h⟩ := h
  obtain rfl := Option.some.inj h
  rw [simdIterNext, nthCall_scan, occurrences, Nat.div_mul_cancel (Nat.dvd_of_mod_eq_zero hlen)]
  refine congrArg (·[n]?) (List.filter_congr fun k _ => ?_)
  rw [getLsbD_lanesEq (Nat.mod_lt k (by decide)), Nat.div_add_mod]

/-! ### Descending -/

/-- A call of `simd_iter_next_rev`.  After the last place no block and no bit is left. -/
def simdIterNextRevCall (haystack : List UInt8) (needle : UInt8) (s : ℕ × ℕ) :
    Option ℕ × ℕ × ℕ :=
  match simdIterNextRev (byteAt haystack) needle s.1 s.2 with
  | some (k, rest, mask) => (some k, rest, mask)
  | none => (none, 0, 0)

theorem filter_range_eq_concat {p : ℕ → Bool} {c k : ℕ} (hk : k < c) (hpk : p k = true)
    (hhigh : ∀ j, k < j → j < c → p j = false) :
    (List.range c).filter p = (List.range k).filter p ++ [k] := by
  have hsplit : List.range c = List.range k ++ k :: (List.range' (k + 1) (c - (k + 1))) := by
    have happ := List.range'_append_1 (s := 0) (m := k) (n := c - k)
    rw [Nat.zero_add, Nat.add_sub_cancel' hk.le] at happ
    rw [List.range_eq_range', List.range_eq_range', ← List.range'_succ,
      show c - (k + 1) + 1 = c - k by omega, happ]
  have hrest : (List.range' (k + 1) (c - (k + 1))).filter p = [] :=
    List.filter_eq_nil_iff.2 fun j hj => by
      have hj := List.mem_range'_1.1 hj
      rw [hhigh j (by omega) (by omega)]
      decide
  rw [hsplit, List.filter_append, List.filter_cons_of_pos hpk, hrest]

theorem simdIterNextRev_exact (h : simdIterFrom haystack = some it) (n : ℕ) :
    nthCall (simdIterNextRevCall haystack needle) n (haystack.length / 16, 0) =
      (occurrences haystack needle).reverse[n]? := by
  simp only [simdIterFrom, Option.bind_eq_bind, Option.bind_eq_some_iff, Option.guard_eq_some'] at h
  obtain ⟨-, hlen, -⟩ := h
  refine nthCall_eq (fun s l => ∃ c, RevAt (byteAt haystack) needle s.1 s.2 c ∧
    l = ((List.range c).filter fun i => byteAt haystack i = needle).reverse) ?_ n _ _
    ⟨_, revAt_start _, ?_⟩
  · rintro ⟨rest, mask⟩ l ⟨c, hat, rfl⟩
    unfold simdIterNextRevCall
    cases hcall : simdIterNextRev (byteAt haystack) needle rest mask with
    | some r =>
      obtain ⟨k, rest', mask'⟩ := r
      obtain ⟨hk, hbyte, hbetween, hat'⟩ := simdIterNextRev_some hat hcall
      have hsplit := filter_range_eq_concat (p := fun i => byteAt haystack i = needle) hk
        (decide_eq_true hbyte) fun j hkj hjc => decide_eq_false (hbetween j hkj hjc)
      rw [hsplit, List.reverse_append]
      exact ⟨rfl, k, hat', rfl⟩
    | none =>
      have hnil : (List.range c).filter (fun i => byteAt haystack i = needle) = [] :=
        List.filter_eq_nil_iff.2 fun i hi hbyte =>
          simdIterNextRev_none hat hcall i (List.mem_range.1 hi) (of_decide_eq_true hbyte)
      rw [hnil]
      exact ⟨rfl, 0, revAt_start 0, rfl⟩
  · rw [occurrences, Nat.mul_div_cancel' (Nat.dvd_of_mod_eq_zero hlen)]

/-! ### The first one -/

section Search

variable {α : Type} [BEq α]

/-- The bits of the lanes below `n` for which something holds (`extract_lsbs`). -/
def laneBits (p : ℕ → Bool) : ℕ → ℕ
  | 0 => 0
  | n + 1 => laneBits p n ||| if p n then 2 ^ n else 0

/-- The loop of `simd_search` over whole vectors, from the `i`-th on. -/
def searchBlocks (bits : ℕ → BitVec 8) (lanes : ℕ) : ℕ → ℕ → Option ℕ
  | 0, _ => none
  | rest + 1, i =>
    if bits i = 0#8 then searchBlocks bits lanes rest (i + 1)
    else some (i * lanes + (bits i).ctz.toNat)

/-- `simd_search` in a slice of elements of `size` bytes.  The bits of the lanes are transmuted to
a `u8`, which the compiler refuses when they are more than 8. -/
def simdSearch (size : ℕ) (haistack : List α) (needle : α) : Option ℕ :=
  let lanes := 16 / size
  let bits := fun i => BitVec.ofNat 8 (laneBits (fun l =>
    haistack[i * lanes + l]?.any (· == needle)) lanes)
  let blocks := haistack.length / lanes
  match searchBlocks bits lanes blocks 0 with
  | some i => some i
  | none => ((haistack.drop (blocks * lanes)).findIdx? (· == needle)).map (blocks * lanes + ·)

theorem testBit_laneBits {p : ℕ → Bool} (n l : ℕ) :
    (laneBits p n).testBit l = (decide (l < n) && p l) := by
  induction n with
  | zero => simp [laneBits]
  | succ n ih =>
    rw [laneBits, Nat.testBit_or, ih]
    rcases lt_trichotomy l n with hl | rfl | hl
    · have hbit : (if p n then 2 ^ n else 0).testBit l = false := by
        split_ifs
        · rw [Nat.testBit_two_pow, decide_eq_false (by omega)]
        · exact Nat.zero_testBit l
      rw [hbit, Bool.or_false, decide_eq_true hl, decide_eq_true (by omega)]
    · rw [decide_eq_false (lt_irrefl l), Bool.false_and, Bool.false_or,
        decide_eq_true (Nat.lt_succ_self l), Bool.true_and]
      cases p l
      · exact Nat.zero_testBit l
      · rw [if_pos rfl, Nat.testBit_two_pow_self]
    · have hbit : (if p n then 2 ^ n else 0).testBit l = false := by
        split_ifs
        · rw [Nat.testBit_two_pow, decide_eq_false (by omega)]
        · exact Nat.zero_testBit l
      rw [hbit, Bool.or_false, decide_eq_false (by omega), decide_eq_false (by omega)]

/-- The first vector with a bit has the first element. -/
theorem searchBlocks_spec {bits : ℕ → BitVec 8} {p : ℕ → Bool} {lanes : ℕ} (hlanes : 0 < lanes)
    (hbits : ∀ i l, (bits i).getLsbD l = (decide (l < lanes) && p (i * lanes + l))) :
    ∀ rest i, match searchBlocks bits lanes rest i with
      | some k => i * lanes ≤ k ∧ k < (i + rest) * lanes ∧ p k = true ∧
          ∀ j, i * lanes ≤ j → j < k → p j = false
      | none => ∀ j, i * lanes ≤ j → j < (i + rest) * lanes → p j = false := by
  -- the elements of one vector
  have hblock (i j : ℕ) (hlo : i * lanes ≤ j) (hhi : j < (i + 1) * lanes) :
      p j = (bits i).getLsbD (j - i * lanes) := by
    rw [Nat.succ_mul] at hhi
    rw [hbits, Nat.add_sub_cancel' hlo, decide_eq_true (by omega), Bool.true_and]
  intro rest
  induction rest with
  | zero => exact fun i j hlo hhi => absurd hhi (by rw [Nat.add_zero]; omega)
  | succ rest ih =>
    intro i
    have hnext : (i + 1 + rest) * lanes = (i + (rest + 1)) * lanes := by
      rw [show i + 1 + rest = i + (rest + 1) by omega]
    have hstep : (i + 1) * lanes = i * lanes + lanes := Nat.succ_mul i lanes
    rw [searchBlocks]
    split_ifs with hzero
    · have hnone (j : ℕ) (hlo : i * lanes ≤ j) (hhi : j < (i + 1) * lanes) : p j = false := by
        rw [hblock i j hlo hhi, hzero, BitVec.getLsbD_zero]
      have hrest := ih (i + 1)
      rw [hnext] at hrest
      cases hcall : searchBlocks bits lanes rest (i + 1) with
      | some k =>
        rw [hcall] at hrest
        obtain ⟨hlo, hhi, hp, hbefore⟩ := hrest
        refine ⟨by omega, hhi, hp, fun j hj hjk => ?_⟩
        rcases lt_or_ge j ((i + 1) * lanes) with h | h
        · exact hnone j hj h
        · exact hbefore j h hjk
      | none =>
        rw [hcall] at hrest
        intro j hj hjk
        rcases lt_or_ge j ((i + 1) * lanes) with h | h
        · exact hnone j hj h
        · exact hrest j h hjk
    · have hfirst := BitVec.getLsbD_true_ctz_of_ne_zero hzero
      rw [hbits, Bool.and_eq_true, decide_eq_true_iff] at hfirst
      obtain ⟨hlt, hp⟩ := hfirst
      have hend : (i + 1) * lanes ≤ (i + (rest + 1)) * lanes :=
        Nat.mul_le_mul_right lanes (by omega)
      refine ⟨Nat.le_add_right _ _, by omega, hp, fun j hj hjk => ?_⟩
      rw [hblock i j hj (by omega)]
      exact BitVec.getLsbD_false_of_lt_ctz (by omega)

/-- **`simd_search` is the linear search**, when the lanes fit into the mask. -/
theorem simdSearch_eq {size : ℕ} (hpos : 0 < 16 / size) (hle : 16 / size ≤ 8) (haistack : List α)
    (needle : α) : simdSearch size haistack needle = haistack.findIdx? (· == needle) := by
  have hbits (i l : ℕ) : (BitVec.ofNat 8 (laneBits (fun l =>
      haistack[i * (16 / size) + l]?.any (· == needle)) (16 / size))).getLsbD l =
        (decide (l < 16 / size) && haistack[i * (16 / size) + l]?.any (· == needle)) := by
    rw [BitVec.getLsbD_ofNat, testBit_laneBits]
    by_cases hl : l < 16 / size
    · rw [decide_eq_true (show l < 8 by omega), Bool.true_and]
    · rw [decide_eq_false hl, Bool.false_and, Bool.and_false]
  have hspec := searchBlocks_spec (p := fun k => haistack[k]?.any (· == needle)) hpos hbits
    (haistack.length / (16 / size)) 0
  have hblocks := Nat.div_mul_le_self haistack.length (16 / size)
  rw [Nat.zero_add, Nat.zero_mul] at hspec
  unfold simdSearch
  dsimp only
  cases hcall : searchBlocks (fun i => BitVec.ofNat 8 (laneBits (fun l =>
      haistack[i * (16 / size) + l]?.any (· == needle)) (16 / size))) (16 / size)
      (haistack.length / (16 / size)) 0 with
  | some k =>
    rw [hcall] at hspec
    obtain ⟨-, hhi, hp, hbefore⟩ := hspec
    have hk : k < haistack.length := by omega
    refine (List.findIdx?_eq_some_iff_getElem.2 ⟨hk, ?_, fun j hj => ?_⟩).symm
    · rw [List.getElem?_eq_getElem hk] at hp
      exact hp
    · have hj' := hbefore j (Nat.zero_le j) hj
      rw [List.getElem?_eq_getElem (by omega)] at hj'
      exact Bool.eq_false_iff.1 hj'
  | none =>
    rw [hcall] at hspec
    have htake : (haistack.take (haistack.length / (16 / size) * (16 / size))).findIdx?
        (· == needle) = none := by
      refine List.findIdx?_eq_none_iff.2 fun x hx => ?_
      obtain ⟨j, hj, rfl⟩ := List.mem_take_iff_getElem.1 hx
      have hfalse := hspec j (Nat.zero_le j) (by omega)
      rw [List.getElem?_eq_getElem (by omega)] at hfalse
      exact hfalse
    have hsplit : (haistack.take (haistack.length / (16 / size) * (16 / size)) ++
        haistack.drop (haistack.length / (16 / size) * (16 / size))).findIdx? (· == needle) = _ :=
      List.findIdx?_append
    rw [List.take_append_drop, htake, Option.none_or, List.length_take_of_le hblocks] at hsplit
    rw [hsplit]
    exact congrArg (Option.map · _) (funext fun k => Nat.add_comm _ _)

end Search

/-! ### Both searches -/

/-- **The searches for bytes and elements are exact**: the iterators return the places of the byte
in ascending and in descending order, each once, and then nothing, and the search in a slice returns
the first element that is equal to the key, if there is one. -/
theorem search_exact (h : simdIterFrom haystack = some it) :
    (∀ n, nthCall (simdIterNext haystack needle) n it = (occurrences haystack needle)[n]?) ∧
      (∀ n, nthCall (simdIterNextRevCall haystack needle) n (haystack.length / 16, 0) =
        (occurrences haystack needle).reverse[n]?) ∧
      ∀ (α : Type) [BEq α] (size : ℕ), 0 < 16 / size → 16 / size ≤ 8 →
        ∀ (haistack : List α) (key : α),
          simdSearch size haistack key = haistack.findIdx? (· == key) :=
  ⟨simdIterNext_exact h, simdIterNextRev_exact h, fun _ _ _ hpos hle => simdSearch_eq hpos hle⟩

theorem search_exact_zeros : ∃ it, simdIterFrom (List.replicate 32 0) = some it ∧
    (∀ n, nthCall (simdIterNext (List.replicate 32 0) 0) n it =
      (occurrences (List.replicate 32 0) 0)[n]?) ∧
    (∀ n, nthCall (simdIterNextRevCall (List.replicate 32 0) 0) n (32 / 16, 0) =
      (occurrences (List.replicate 32 0) 0).reverse[n]?) ∧
    ∀ (α : Type) [BEq α] (size : ℕ), 0 < 16 / size → 16 / size ≤ 8 →
      ∀ (haistack : List α) (key : α),
        simdSearch size haistack key = haistack.findIdx? (· == key) :=
  ⟨⟨0, 0#16⟩, rfl, search_exact rfl⟩

end OdinSon
