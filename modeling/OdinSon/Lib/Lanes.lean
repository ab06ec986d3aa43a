import Mathlib.Data.Nat.Digits.Defs
import Mathlib.Tactic.Ring

/-!
# Lanes of a vector

A vector of `n` bits is cut into lanes of `w` bits, the lowest first.  `ofLanes` puts one together,
`lane` reads a lane as an unsigned number, and a lane of a lane is a narrower lane of the vector
(`lane_ofLanes_mul`), so that shuffles of wide lanes can be read at any width.
-/

namespace OdinSon.Lanes

/-- The `i`-th lane of `w` bits. -/
def lane {n : ℕ} (w : ℕ) (v : BitVec n) (i : ℕ) : ℕ := v.toNat / 2 ^ (w * i) % 2 ^ w

/-- The vector with the given lanes. -/
def ofLanes (n w : ℕ) (l : List ℕ) : BitVec n :=
  BitVec.ofNat n (Nat.ofDigits (2 ^ w) (l.map (· % 2 ^ w)))

/-- The vector whose lanes are the values of a function. -/
def build (n w : ℕ) (f : ℕ → ℕ) : BitVec n := ofLanes n w ((List.range (n / w)).map f)

variable {n w m : ℕ} {v : BitVec n}

theorem lane_lt (w : ℕ) (v : BitVec n) (i : ℕ) : lane w v i < 2 ^ w :=
  Nat.mod_lt _ (Nat.two_pow_pos w)

/-- Bits above the ones that are read do not matter. -/
theorem mod_div_mod {x a : ℕ} (h : a + w ≤ n) : x % 2 ^ n / 2 ^ a % 2 ^ w = x / 2 ^ a % 2 ^ w := by
  refine Nat.eq_of_testBit_eq fun i => ?_
  simp only [Nat.testBit_mod_two_pow, Nat.testBit_div_two_pow]
  by_cases hi : i < w
  · have hlt : a + i < n := by omega
    simp [hi, hlt, Nat.add_comm]
  · simp [hi]

theorem ofDigits_div_mod {l : List ℕ} (hl : ∀ d ∈ l, d < 2 ^ w) {i : ℕ} (hi : i < l.length) :
    Nat.ofDigits (2 ^ w) l / 2 ^ (w * i) % 2 ^ w = l[i] := by
  induction l generalizing i with
  | nil => exact absurd hi (Nat.not_lt_zero i)
  | cons d l ih =>
    have hd := hl d List.mem_cons_self
    rw [Nat.ofDigits_cons]
    cases i with
    | zero =>
      rw [Nat.mul_zero, pow_zero, Nat.div_one, List.getElem_cons_zero]
      exact (Nat.add_mul_mod_self_left ..).trans (Nat.mod_eq_of_lt hd)
    | succ i =>
      have hpow : 2 ^ (w * (i + 1)) = 2 ^ w * 2 ^ (w * i) := by rw [← pow_add]; congr 1; ring
      have hdiv : (d + 2 ^ w * Nat.ofDigits (2 ^ w) l) / 2 ^ w = Nat.ofDigits (2 ^ w) l := by
        rw [Nat.add_mul_div_left _ _ (Nat.two_pow_pos w), Nat.div_eq_of_lt hd, Nat.zero_add]
      rw [hpow, ← Nat.div_div_eq_div_mul, hdiv, List.getElem_cons_succ]
      exact ih (fun x hx => hl x (List.mem_cons_of_mem _ hx)) _

/-- **A lane of a vector that was built.** -/
theorem lane_build (f : ℕ → ℕ) {i : ℕ} (hi : i < n / w) :
    lane w (build n w f) i = f i % 2 ^ w := by
  have hw : 0 < w := Nat.pos_of_ne_zero fun h0 => by
    rw [h0, Nat.div_zero] at hi
    exact Nat.not_lt_zero i hi
  have hle : w * i + w ≤ n := by
    have := (Nat.le_div_iff_mul_le hw).1 hi
    rwa [Nat.succ_mul, Nat.mul_comm] at this
  have hlen : i < (((List.range (n / w)).map f).map (· % 2 ^ w)).length := by simpa using hi
  rw [lane, build, ofLanes, BitVec.toNat_ofNat, mod_div_mod hle,
    ofDigits_div_mod (fun d hd => ?_) hlen]
  · simp
  · obtain ⟨x, -, rfl⟩ := List.mem_map.1 hd
    exact Nat.mod_lt _ (Nat.two_pow_pos w)

/-- **A narrow lane lies in a wide one.** -/
theorem lane_mul (hm : 0 < m) (v : BitVec n) (i : ℕ) :
    lane w v i = lane (w * m) v (i / m) / 2 ^ (w * (i % m)) % 2 ^ w := by
  have hlt : i % m < m := Nat.mod_lt i hm
  have hle : w * (i % m) + w ≤ w * m := by
    rw [← Nat.mul_succ]
    exact Nat.mul_le_mul_left w hlt
  have hpow : 2 ^ (w * m * (i / m)) * 2 ^ (w * (i % m)) = 2 ^ (w * i) := by
    rw [← pow_add]
    congr 1
    rw [Nat.mul_assoc, ← Nat.mul_add, Nat.div_add_mod]
  rw [lane, lane, mod_div_mod hle, Nat.div_div_eq_div_mul, hpow]

/-- What is read from a wide lane, read from the vector. -/
theorem lane_of_wide (hm : 0 < m) (v : BitVec n) (i : ℕ) {j : ℕ} (hj : j < m) :
    lane (w * m) v i / 2 ^ (w * j) % 2 ^ w = lane w v (m * i + j) := by
  rw [lane_mul hm v (m * i + j), Nat.mul_add_div hm, Nat.div_eq_of_lt hj, Nat.add_zero,
    Nat.mul_add_mod, Nat.mod_eq_of_lt hj]

/-- The sum of the first `k` lanes. -/
def laneSum (w : ℕ) (v : BitVec n) (k : ℕ) : ℕ := ((List.range k).map (lane w v)).sum

end OdinSon.Lanes
