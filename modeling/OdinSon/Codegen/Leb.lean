import OdinSon.Lib.Leb128

/-!
# The writers of variable-length numbers

`uleb` and `sleb` (`bac/codegen.odin`) append a 64-bit number to a buffer, `fixed_uleb`
(`odinc/elf.odin`) fills a field of a given length.  `uleb_eq`, `sleb_eq` and `fixedUleb_eq` say that
they write the bytes of the numbers' encodings in `Lib`, `leb_reads` what a reader makes of them.
-/

namespace OdinSon.Codegen.Leb

open Lib (readUleb readSleb)

/-! ### The machine's arithmetic on one group -/

/-- `u8(v & 0x7f)`. -/
def group (v : BitVec 64) : UInt8 :=
  UInt8.ofBitVec ((v &&& 0x7f#64).setWidth 8)

theorem group_toNat (v : BitVec 64) : (group v).toNat = v.toNat % 128 := by
  have hand : (v &&& 0x7f#64).toNat = v.toNat % 128 := by
    rw [BitVec.toNat_and]
    exact Nat.and_two_pow_sub_one_eq_mod v.toNat 7
  have hmod := Nat.mod_lt v.toNat (by decide : 128 > 0)
  rw [group, UInt8.toNat_ofBitVec, BitVec.toNat_setWidth, hand]
  exact Nat.mod_eq_of_lt (by omega)

theorem group_eq (v : BitVec 64) : group v = UInt8.ofNat (v.toNat % 128) := by
  rw [← group_toNat, UInt8.ofNat_toNat]

theorem more_toNat {byte : UInt8} (h : byte.toNat < 128) :
    (byte ||| 0x80).toNat = byte.toNat + 128 := by
  rw [UInt8.toNat_or]
  exact @Nat.or_two_pow_eq_add_of_lt byte.toNat 7 h

theorem group_more_eq (v : BitVec 64) : group v ||| 0x80 = UInt8.ofNat (v.toNat % 128 + 128) := by
  have hgroup : (group v).toNat < 128 := by rw [group_toNat]; exact Nat.mod_lt _ (by decide)
  rw [← group_toNat, ← more_toNat hgroup, UInt8.ofNat_toNat]

theorem toNat_shift (v : BitVec 64) : (v >>> 7).toNat = v.toNat / 128 := by
  rw [BitVec.toNat_ushiftRight, Nat.shiftRight_eq_div_pow]

theorem toInt_shift (v : BitVec 64) : (v.sshiftRight 7).toInt = v.toInt / 128 := by
  rw [BitVec.toInt_sshiftRight, Int.shiftRight_eq_div_pow]
  rfl

theorem toNat_emod (v : BitVec 64) : ((v.toNat % 128 : ℕ) : ℤ) = v.toInt % 128 := by
  rw [BitVec.toInt_eq_toNat_cond]
  split_ifs <;> omega

/-! ### The loops -/

/-- `uleb`. -/
def uleb (b : List UInt8) (value : BitVec 64) : List UInt8 :=
  let byte := group value
  let v := value >>> 7
  if v = 0 then b ++ [byte]
  else uleb (b ++ [byte ||| 0x80]) v
termination_by value.toNat
decreasing_by
  rename_i h
  have hpos : (value >>> 7).toNat ≠ 0 := fun hv => h (BitVec.eq_of_toNat_eq hv)
  have hshift := toNat_shift value
  omega

/-- `(byte & 0x40) != 0`. -/
def sign (byte : UInt8) : Bool := byte &&& 0x40 != 0

/-- What ends the loop of `sleb`. -/
def slebDone (byte : UInt8) (v : BitVec 64) : Bool :=
  (v == 0 && !sign byte) || (v == -1 && sign byte)

theorem sign_iff {byte : UInt8} (h : byte.toNat < 128) : sign byte = true ↔ 64 ≤ byte.toNat := by
  have hall : ∀ n : Fin 128, sign (UInt8.ofNat n) = decide (64 ≤ n.val) := by decide
  have := hall ⟨byte.toNat, h⟩
  rw [UInt8.ofNat_toNat] at this
  rw [this, decide_eq_true_iff]

theorem slebDone_iff (v : BitVec 64) : slebDone (group v) (v.sshiftRight 7) = true ↔
    v.toInt / 128 = 0 ∧ v.toInt % 128 < 64 ∨ v.toInt / 128 = -1 ∧ 64 ≤ v.toInt % 128 := by
  have hgroup := group_toNat v
  have hsign := @sign_iff (group v) (by omega)
  have hmod := toNat_emod v
  have hzero : (v.sshiftRight 7 = 0) ↔ v.toInt / 128 = 0 := by
    rw [← toInt_shift, ← BitVec.toInt_inj]
    rfl
  have hones : (v.sshiftRight 7 = -1) ↔ v.toInt / 128 = -1 := by
    rw [← toInt_shift, ← BitVec.toInt_inj]
    rfl
  rw [slebDone, Bool.or_eq_true, Bool.and_eq_true, Bool.and_eq_true, beq_iff_eq, beq_iff_eq,
    Bool.not_eq_true', Bool.eq_false_iff, Ne, hsign, hzero, hones, hgroup]
  omega

/-- `sleb`. -/
def sleb (b : List UInt8) (value : BitVec 64) : List UInt8 :=
  let byte := group value
  let v := value.sshiftRight 7
  if slebDone byte v then b ++ [byte]
  else sleb (b ++ [byte ||| 0x80]) v
termination_by value.toInt.natAbs
decreasing_by
  rename_i h
  have hdone := (slebDone_iff value).not.mp h
  have hshift := toInt_shift value
  omega

/-- One round of the loop of `fixed_uleb`: the field and `v`. -/
def fixedByte (s : List UInt8 × BitVec 64) (i : ℕ) : List UInt8 × BitVec 64 :=
  let buf := s.1.set i (group s.2)
  (if i ≠ buf.length - 1 then buf.modify i (· ||| 0x80) else buf, s.2 >>> 7)

/-- `fixed_uleb`: the field after it. -/
def fixedUleb (buf : List UInt8) (value : BitVec 64) : List UInt8 :=
  ((List.range buf.length).foldl fixedByte (buf, value)).1

/-! ### What they write -/

theorem uleb_eq (b : List UInt8) (value : BitVec 64) :
    uleb b value = b ++ Lib.uleb value.toNat := by
  induction b, value using Leb.uleb.induct with
  | case1 b value v hv =>
    have hdiv : value.toNat / 128 = 0 := by
      rw [← toNat_shift]
      exact congrArg BitVec.toNat hv
    rw [uleb, Lib.uleb, if_pos hdiv, group_eq]
    exact if_pos hv
  | case2 b value byte v hv ih =>
    have hdiv : value.toNat / 128 ≠ 0 := by
      rw [← toNat_shift]
      exact fun h => hv (BitVec.eq_of_toNat_eq h)
    rw [uleb, Lib.uleb, if_neg hdiv, ← group_more_eq, ← toNat_shift]
    exact (if_neg hv).trans (ih.trans (List.append_assoc _ _ _))

theorem sleb_eq (b : List UInt8) (value : BitVec 64) :
    sleb b value = b ++ Lib.sleb value.toInt := by
  have hlow (value : BitVec 64) : value.toNat % 128 = (value.toInt % 128).toNat := by
    have := toNat_emod value
    omega
  induction b, value using sleb.induct with
  | case1 b value byte v hdone =>
    rw [sleb, Lib.sleb, dif_pos ((slebDone_iff value).mp hdone), ← hlow, ← group_eq]
    exact if_pos hdone
  | case2 b value byte v hdone ih =>
    rw [sleb, Lib.sleb, dif_neg ((slebDone_iff value).not.mp hdone), ← hlow, ← group_more_eq,
      ← toInt_shift]
    exact (if_neg hdone).trans (ih.trans (List.append_assoc _ _ _))

theorem fixedByte_eq {buf : List UInt8} {i : ℕ} (hi : i < buf.length) (v : BitVec 64) :
    fixedByte (buf, v) i =
      (buf.set i (if i ≠ buf.length - 1 then group v ||| 0x80 else group v), v >>> 7) := by
  rw [fixedByte]
  simp only [List.length_set]
  split_ifs with hlast
  · rw [List.modify_eq_set, List.getElem?_set_self hi, Option.getD_some, List.set_set]
  · rfl

/-- From byte `i` on, the rest of the field is written. -/
theorem foldl_fixedByte (n i : ℕ) (buf : List UInt8) (v : BitVec 64) (h : i + n = buf.length) :
    ((List.range' i n).foldl fixedByte (buf, v)).1 =
      buf.take i ++ Lib.fixedUleb n v.toNat := by
  induction n generalizing i buf v with
  | zero => rw [Lib.fixedUleb, List.append_nil, List.take_of_length_le (by omega)]; rfl
  | succ n ih =>
    have hi : i < buf.length := by omega
    have htake (byte : UInt8) : (buf.set i byte).take (i + 1) = buf.take i ++ [byte] := by
      rw [List.take_succ_eq_append_getElem (by rwa [List.length_set]), List.getElem_set_self,
        List.take_set_of_le le_rfl]
    rw [List.range'_succ, List.foldl_cons, fixedByte_eq hi,
      ih _ _ _ (by rw [List.length_set]; omega), htake, List.append_assoc, List.singleton_append,
      toNat_shift]
    -- the last byte alone has no bit for more
    cases n with
    | zero => rw [if_neg (by omega), group_eq, Lib.fixedUleb, Lib.fixedUleb]
    | succ n => rw [if_pos (by omega), group_more_eq, Lib.fixedUleb]

theorem fixedUleb_eq (buf : List UInt8) (value : BitVec 64) :
    fixedUleb buf value = Lib.fixedUleb buf.length value.toNat := by
  rw [fixedUleb, List.range_eq_range', foldl_fixedByte _ _ _ _ (zero_add _), List.take_zero,
    List.nil_append]

/-! ### What a reader makes of it -/

section Reading

variable {α : Type} (read : List UInt8 → Option (α × List UInt8)) (bytes : List UInt8) (value : α)

/-- The reader takes all of `bytes`, nothing behind them, and has `value`. -/
def Reads : Prop := ∀ rest, read (bytes ++ rest) = some (value, rest)

/-- No bytes that read as `value` are fewer. -/
def Shortest : Prop := ∀ other, Reads read other value → bytes.length ≤ other.length

end Reading

theorem reads_uleb (value : ℕ) : Reads readUleb (Lib.uleb value) value :=
  fun rest => Lib.readUleb_uleb value rest

theorem shortest_uleb (value : ℕ) : Shortest readUleb (Lib.uleb value) value := by
  intro other h
  have hread := h []
  rw [List.append_nil] at hread
  exact Lib.length_uleb_le hread

theorem reads_sleb (value : ℤ) : Reads readSleb (Lib.sleb value) value :=
  fun rest => Lib.readSleb_sleb value rest

theorem shortest_sleb (value : ℤ) : Shortest readSleb (Lib.sleb value) value := by
  intro other h
  have hread := h []
  rw [List.append_nil] at hread
  exact Lib.length_sleb_le hread

/-- The bytes of a field hold the number as far as it fits. -/
theorem reads_fixedUleb {buf : List UInt8} (h : buf ≠ []) (value : BitVec 64) :
    Reads readUleb (fixedUleb buf value) (value.toNat % 2 ^ (7 * buf.length)) := by
  intro rest
  obtain ⟨n, hn⟩ := Nat.exists_eq_succ_of_ne_zero (List.length_pos_iff.mpr h).ne'
  rw [fixedUleb_eq, hn, Nat.succ_eq_add_one, Lib.readUleb_fixedUleb, pow_mul]
  rfl

/-- **The writers are right**: what `uleb` and `sleb` append reads as the number in as few bytes as
there can be, and a field that has a byte reads as the number modulo what fits. -/
theorem leb_reads :
    (∀ b value, ∃ bytes, uleb b value = b ++ bytes ∧
      Reads readUleb bytes value.toNat ∧ Shortest readUleb bytes value.toNat) ∧
    (∀ b value, ∃ bytes, sleb b value = b ++ bytes ∧
      Reads readSleb bytes value.toInt ∧ Shortest readSleb bytes value.toInt) ∧
    ∀ buf value, buf ≠ [] → (fixedUleb buf value).length = buf.length ∧
      Reads readUleb (fixedUleb buf value) (value.toNat % 2 ^ (7 * buf.length)) := by
  refine ⟨fun b value => ⟨_, uleb_eq b value, reads_uleb _, shortest_uleb _⟩,
    fun b value => ⟨_, sleb_eq b value, reads_sleb _, shortest_sleb _⟩, fun buf value h => ?_⟩
  refine ⟨?_, reads_fixedUleb h value⟩
  rw [fixedUleb_eq, Lib.length_fixedUleb]

/-- A field of two bytes and a number of three: the lowest fourteen bits are in it. -/
theorem leb_reads_two_bytes :
    Reads readUleb (fixedUleb [0, 0] 0x4081) (0x4081 % 2 ^ 14) :=
  (leb_reads.2.2 [0, 0] 0x4081 (by decide)).2

/-- A field without bytes has nothing to read. -/
theorem not_reads_empty :
    ¬ ∀ buf value,
      Reads readUleb (fixedUleb buf value) (value.toNat % 2 ^ (7 * buf.length)) := by
  intro h
  have hread := h [] 0 []
  rw [fixedUleb_eq, List.length_nil, Lib.fixedUleb, List.nil_append, readUleb] at hread
  cases hread

end OdinSon.Codegen.Leb
