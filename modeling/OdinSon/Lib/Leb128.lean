import Mathlib.Data.Nat.Basic
import Mathlib.Tactic.Ring

/-!
# Numbers as bytes

Variable-length numbers (LEB128, without and with a sign) and numbers of a fixed length, with a reader
for each that gives back the number and what comes after it.
-/

namespace OdinSon.Lib

theorem toNat_ofNat_of_lt {n : ℕ} (h : n < 256) : (UInt8.ofNat n).toNat = n := by
  rw [UInt8.toNat_ofNat']
  exact Nat.mod_eq_of_lt h

/-- Seven bits a byte, the lowest first; the top bit says that there is more. -/
@[grind =] def uleb (value : ℕ) : List UInt8 :=
  if value / 128 = 0 then [UInt8.ofNat (value % 128)]
  else UInt8.ofNat (value % 128 + 128) :: uleb (value / 128)
termination_by value

/-- Read what `uleb` writes. -/
def readUleb : List UInt8 → Option (ℕ × List UInt8)
  | [] => none
  | b :: bytes =>
    if b.toNat < 128 then some (b.toNat, bytes)
    else (readUleb bytes).map fun p => (b.toNat % 128 + 128 * p.1, p.2)

theorem readUleb_uleb (value : ℕ) (bytes : List UInt8) :
    readUleb (uleb value ++ bytes) = some (value, bytes) := by
  induction value using Nat.strong_induction_on with
  | h value ih =>
    have hmod := Nat.mod_lt value (by decide : 128 > 0)
    rw [uleb]
    by_cases hlast : value / 128 = 0
    · have hbyte : (UInt8.ofNat (value % 128)).toNat = value % 128 :=
        toNat_ofNat_of_lt (by omega)
      have hvalue : value % 128 = value := by omega
      rw [if_pos hlast, List.singleton_append, readUleb, hbyte, if_pos hmod, hvalue]
    · have hbyte : (UInt8.ofNat (value % 128 + 128)).toNat = value % 128 + 128 :=
        toNat_ofNat_of_lt (by omega)
      have hvalue : (value % 128 + 128) % 128 + 128 * (value / 128) = value := by omega
      rw [if_neg hlast, List.cons_append, readUleb, hbyte, if_neg (by omega), ih _ (by omega),
        Option.map_some, hvalue]

/-- No encoding that reads back as a number is shorter than `uleb`'s. -/
theorem length_uleb_le {bytes : List UInt8} {value : ℕ}
    (h : readUleb bytes = some (value, [])) : (uleb value).length ≤ bytes.length := by
  induction bytes generalizing value with
  | nil => simp only [readUleb, reduceCtorEq] at h
  | cons b bytes ih =>
    rw [uleb]
    split_ifs with hlast
    · rw [List.length_singleton, List.length_cons]
      omega
    · rw [readUleb] at h
      split_ifs at h with hb
      · simp only [Option.some.injEq, Prod.mk.injEq] at h
        omega
      · obtain ⟨⟨rest, tail⟩, hrest, heq⟩ := Option.map_eq_some_iff.mp h
        simp only [Prod.mk.injEq] at heq
        obtain ⟨hvalue, rfl⟩ := heq
        have hdiv : value / 128 = rest := by omega
        have := ih hrest
        rw [hdiv, List.length_cons, List.length_cons]
        omega

theorem length_uleb_of_lt {n value : ℕ} (h : value < 128 ^ (n + 1)) :
    (uleb value).length ≤ n + 1 := by
  induction n generalizing value with
  | zero =>
    rw [zero_add, pow_one] at h
    rw [uleb, if_pos (Nat.div_eq_of_lt h)]
    rfl
  | succ n ih =>
    rw [uleb]
    split_ifs with hlast
    · rw [List.length_singleton]
      omega
    · have hdiv : value / 128 < 128 ^ (n + 1) := by
        rw [Nat.div_lt_iff_lt_mul (by decide), ← pow_succ]
        exact h
      rw [List.length_cons]
      exact Nat.succ_le_succ (ih hdiv)

/-- A number in `n` bytes: the bytes before the last have the top bit, and zeros may come last. -/
def fixedUleb : ℕ → ℕ → List UInt8
  | 0, _ => []
  | 1, value => [UInt8.ofNat (value % 128)]
  | n + 2, value => UInt8.ofNat (value % 128 + 128) :: fixedUleb (n + 1) (value / 128)

@[simp] theorem length_fixedUleb (n value : ℕ) : (fixedUleb n value).length = n := by
  induction n, value using fixedUleb.induct with
  | case1 value => rfl
  | case2 value => rfl
  | case3 n value ih => rw [fixedUleb, List.length_cons, ih]

/-- What does not fit is lost. -/
theorem readUleb_fixedUleb (n value : ℕ) (bytes : List UInt8) :
    readUleb (fixedUleb (n + 1) value ++ bytes) = some (value % 128 ^ (n + 1), bytes) := by
  have hmod (value : ℕ) := Nat.mod_lt value (by decide : 128 > 0)
  induction n generalizing value with
  | zero =>
    have hbyte : (UInt8.ofNat (value % 128)).toNat = value % 128 :=
      toNat_ofNat_of_lt (by have := hmod value; omega)
    rw [fixedUleb, List.singleton_append, readUleb, hbyte, if_pos (hmod value), zero_add, pow_one]
  | succ n ih =>
    have hbyte : (UInt8.ofNat (value % 128 + 128)).toNat = value % 128 + 128 :=
      toNat_ofNat_of_lt (by have := hmod value; omega)
    have hlow : (value % 128 + 128) % 128 = value % 128 := by omega
    rw [fixedUleb, List.cons_append, readUleb, hbyte, if_neg (by omega), ih, Option.map_some, hlow,
      pow_succ' 128 (n + 1), Nat.mod_mul]

/-- With a sign: the bit below the top one of the last byte. -/
def sleb (value : ℤ) : List UInt8 :=
  if h : value / 128 = 0 ∧ value % 128 < 64 ∨ value / 128 = -1 ∧ 64 ≤ value % 128 then
    [UInt8.ofNat (value % 128).toNat]
  else UInt8.ofNat ((value % 128).toNat + 128) :: sleb (value / 128)
termination_by value.natAbs

/-- Read what `sleb` writes. -/
def readSleb : List UInt8 → Option (ℤ × List UInt8)
  | [] => none
  | b :: bytes =>
    if b.toNat < 64 then some (b.toNat, bytes)
    else if b.toNat < 128 then some (b.toNat - 128, bytes)
    else (readSleb bytes).map fun p => (b.toNat % 128 + 128 * p.1, p.2)

theorem readSleb_sleb (value : ℤ) (bytes : List UInt8) :
    readSleb (sleb value ++ bytes) = some (value, bytes) := by
  induction value using sleb.induct with
  | case1 value hlast =>
    have hbyte : (UInt8.ofNat (value % 128).toNat).toNat = (value % 128).toNat :=
      toNat_ofNat_of_lt (by omega)
    rw [sleb, dif_pos hlast, List.singleton_append, readSleb, hbyte]
    -- the sign of the last byte is the sign of the number
    obtain ⟨hdiv, hsign⟩ | ⟨hdiv, hsign⟩ := hlast
    · have hvalue : ((value % 128).toNat : ℤ) = value := by omega
      rw [if_pos (by omega), hvalue]
    · have hvalue : ((value % 128).toNat : ℤ) - 128 = value := by omega
      rw [if_neg (by omega), if_pos (by omega), hvalue]
  | case2 value hlast ih =>
    have hbyte : (UInt8.ofNat ((value % 128).toNat + 128)).toNat = (value % 128).toNat + 128 :=
      toNat_ofNat_of_lt (by omega)
    have hvalue : ((((value % 128).toNat + 128 : ℕ) : ℤ) % 128 + 128 * (value / 128)) = value := by
      omega
    rw [sleb, dif_neg hlast, List.cons_append, readSleb, hbyte, if_neg (by omega),
      if_neg (by omega), ih, Option.map_some, hvalue]

theorem length_sleb_of_lt {n : ℕ} {value : ℤ} (hlow : -(64 * 128 ^ n) ≤ value)
    (hhigh : value < 64 * 128 ^ n) : (sleb value).length ≤ n + 1 := by
  induction n generalizing value with
  | zero =>
    rw [pow_zero] at hlow hhigh
    rw [sleb, dif_pos (by omega)]
    rfl
  | succ n ih =>
    rw [sleb]
    split_ifs with hlast
    · rw [List.length_singleton]
      omega
    · rw [pow_succ] at hlow hhigh
      rw [List.length_cons]
      exact Nat.succ_le_succ (ih (by omega) (by omega))

/-- No encoding that reads back as a number is shorter than `sleb`'s. -/
theorem length_sleb_le {bytes : List UInt8} {value : ℤ}
    (h : readSleb bytes = some (value, [])) : (sleb value).length ≤ bytes.length := by
  induction bytes generalizing value with
  | nil => simp only [readSleb, reduceCtorEq] at h
  | cons b bytes ih =>
    rw [sleb]
    split_ifs with hlast
    · rw [List.length_singleton, List.length_cons]
      omega
    · rw [readSleb] at h
      split_ifs at h with hb hb'
      · simp only [Option.some.injEq, Prod.mk.injEq] at h
        omega
      · simp only [Option.some.injEq, Prod.mk.injEq] at h
        omega
      · obtain ⟨⟨rest, tail⟩, hrest, heq⟩ := Option.map_eq_some_iff.mp h
        simp only [Prod.mk.injEq] at heq
        obtain ⟨hvalue, rfl⟩ := heq
        have hdiv : value / 128 = rest := by omega
        have := ih hrest
        rw [hdiv, List.length_cons, List.length_cons]
        omega

/-- A padded number reads the same with a sign, while the bit of the sign is clear. -/
theorem readSleb_fixedUleb {n value : ℕ} (h : value < 64 * 128 ^ n) (bytes : List UInt8) :
    readSleb (fixedUleb (n + 1) value ++ bytes) = some ((value : ℤ), bytes) := by
  induction n generalizing value with
  | zero =>
    rw [pow_zero, mul_one] at h
    have hmod : value % 128 = value := Nat.mod_eq_of_lt (by omega)
    have hbyte : (UInt8.ofNat value).toNat = value := toNat_ofNat_of_lt (by omega)
    rw [fixedUleb, hmod, List.singleton_append, readSleb, hbyte, if_pos h]
  | succ n ih =>
    have hbyte : (UInt8.ofNat (value % 128 + 128)).toNat = value % 128 + 128 :=
      toNat_ofNat_of_lt (by omega)
    have hdiv : value / 128 < 64 * 128 ^ n := by
      rw [Nat.div_lt_iff_lt_mul (by decide), mul_assoc, ← pow_succ]
      exact h
    have hvalue : (((value % 128 + 128 : ℕ) : ℤ) % 128 + 128 * ((value / 128 : ℕ) : ℤ)) = value := by
      omega
    rw [fixedUleb, List.cons_append, readSleb, hbyte, if_neg (by omega), if_neg (by omega), ih hdiv,
      Option.map_some, hvalue]

/-- `n` bytes, the lowest first. -/
def littleEndian : ℕ → ℕ → List UInt8
  | 0, _ => []
  | n + 1, value => UInt8.ofNat (value % 256) :: littleEndian n (value / 256)

/-- Read `n` bytes. -/
def readLittleEndian : ℕ → List UInt8 → Option (ℕ × List UInt8)
  | 0, bytes => some (0, bytes)
  | _ + 1, [] => none
  | n + 1, b :: bytes => (readLittleEndian n bytes).map fun p => (b.toNat + 256 * p.1, p.2)

theorem readLittleEndian_littleEndian {n value : ℕ} (h : value < 256 ^ n) (bytes : List UInt8) :
    readLittleEndian n (littleEndian n value ++ bytes) = some (value, bytes) := by
  induction n generalizing value with
  | zero =>
    obtain rfl : value = 0 := by omega
    rfl
  | succ n ih =>
    have hbyte : (UInt8.ofNat (value % 256)).toNat = value % 256 :=
      toNat_ofNat_of_lt (Nat.mod_lt _ (by decide))
    have hdiv : value / 256 < 256 ^ n := by
      rw [Nat.div_lt_iff_lt_mul (by decide), ← pow_succ]
      exact h
    rw [littleEndian, List.cons_append, readLittleEndian, ih hdiv, Option.map_some, hbyte,
      Nat.mod_add_div]

end OdinSon.Lib
