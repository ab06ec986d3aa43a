import OdinSon.Bac.Graph

/-!
# Branches in wasm code

`emit_instr` of `bac/wasm/wasm.odin` for an `If`, and for what makes its condition: integer
constants and conversions.  The tests of wasm take 32 bits.  A narrow value lies in a word of 32
bits, extended by zeros or by its sign (`Holds`), so that the word is zero when the value is.  A
value of 64 bits is cut to its low half, and a branch on a value whose low half is zero goes the
wrong way (`emitIf_takes_then_iff`).

What `compute_blocks` says about the block that the branch ends is a part of `IfSite`.
-/

namespace OdinSon.Wasm

open MachInt

/-- A value on the operand stack. -/
inductive Word where
  | i32 (w : BitVec 32)
  | i64 (w : BitVec 64)
  deriving DecidableEq, Repr

/-- `Opcode`, of those that constants, conversions and branches need. -/
inductive Opcode where
  | i32Const (w : BitVec 32) | i64Const (w : BitVec 64)
  | i32And | i32Eqz | i32Extend8S | i32Extend16S
  | i32WrapI64 | i64ExtendI32S | i64ExtendI32U
  | if_ | brIf (label : ℕ)
  deriving DecidableEq, Repr

/-- Where control goes: to what is written next, to the `else` of the scope that was just opened, or
to a label. -/
inductive Flow where
  | next | else_ | label (l : ℕ)
  deriving DecidableEq, Repr

/-- One instruction. -/
def Opcode.step : Opcode → List Word → Option (Flow × List Word)
  | i32Const w, s => some (.next, .i32 w :: s)
  | i64Const w, s => some (.next, .i64 w :: s)
  | i32And, .i32 b :: .i32 a :: s => some (.next, .i32 (a &&& b) :: s)
  | i32Eqz, .i32 a :: s => some (.next, .i32 (if a = 0 then 1 else 0) :: s)
  | i32Extend8S, .i32 a :: s => some (.next, .i32 ((a.setWidth 8).signExtend 32) :: s)
  | i32Extend16S, .i32 a :: s => some (.next, .i32 ((a.setWidth 16).signExtend 32) :: s)
  | i32WrapI64, .i64 a :: s => some (.next, .i32 (a.setWidth 32) :: s)
  | i64ExtendI32S, .i32 a :: s => some (.next, .i64 (a.signExtend 64) :: s)
  | i64ExtendI32U, .i32 a :: s => some (.next, .i64 (a.setWidth 64) :: s)
  | if_, .i32 c :: s => some (if c = 0 then .else_ else .next, s)
  | brIf l, .i32 c :: s => some (if c = 0 then .next else .label l, s)
  | _, _ => none

/-- Instructions until one of them leaves. -/
def run : List Opcode → List Word → Option (Flow × List Word)
  | [], s => some (.next, s)
  | op :: code, s =>
    match op.step s with
    | some (.next, s) => run code s
    | r => r

/-! ### Values in words -/

/-- The word has the value: all of its bits, or for a narrow one its bits extended by zeros or by
the sign. -/
def Holds (dt : Datatype) (x : ℤ) : Word → Prop
  | .i32 w => (dt.isInt = true ∧ dt ≠ .i64) ∧ (w = .ofInt 32 x ∨ w = .ofNat 32 (unsigned dt.bits x))
  | .i64 w => dt = .i64 ∧ w = .ofInt 64 x

variable {dt : Datatype} {x : ℤ}

theorem bits_le_32 (h : dt.isInt = true ∧ dt ≠ .i64) : dt.bits ≤ 32 := by
  obtain rfl | rfl | rfl | rfl := Datatype.isInt_cases h.1
  all_goals first | decide | exact absurd rfl h.2

theorem ofInt_eq_zero_iff {w : ℕ} : BitVec.ofInt w x = 0 ↔ unsigned w x = 0 := by
  rw [← BitVec.toNat_inj, ofInt_toNat]
  simp

theorem unsigned_eq_zero_iff {w : ℕ} (hw : 0 < w) (hx : InS w x) : unsigned w x = 0 ↔ x = 0 := by
  constructor
  · intro h
    rw [← wrap_eq_self hw hx, ← wrap_unsigned, h]
    simp [wrap]
  · rintro rfl
    simp [unsigned]

/-- A word of 32 bits is zero exactly when its value is. -/
theorem Holds.eq_zero_iff {w : BitVec 32} (h : Holds dt x (.i32 w)) (hx : InS dt.bits x) :
    w = 0 ↔ x = 0 := by
  obtain ⟨hdt, rfl | rfl⟩ := h
  · rw [ofInt_eq_zero_iff, unsigned_eq_zero_iff (by norm_num) (hx.mono (bits_le_32 hdt))]
  · have hlt : unsigned dt.bits x < 2 ^ 32 :=
      (unsigned_lt _ _).trans_le (Nat.pow_le_pow_right two_pos (bits_le_32 hdt))
    rw [← BitVec.toNat_inj, BitVec.toNat_ofNat, Nat.mod_eq_of_lt hlt]
    exact unsigned_eq_zero_iff (Datatype.bits_pos hdt.1) hx

/-! ### Constants and conversions -/

/-- `emit_instr` of an integer `CInt`. -/
def emitCInt (dt : Datatype) (value : ℤ) : List Opcode :=
  match dt with
  | .i8 | .i16 | .i32 => [.i32Const (.ofInt 32 value)]
  | .i64 => [.i64Const (.ofInt 64 value)]
  | _ => []

theorem run_emitCInt (hdt : dt.isInt = true) {value : ℤ} (hv : Canonical dt.bits value)
    (s : List Word) : ∃ w, run (emitCInt dt value) s = some (.next, w :: s) ∧
      Holds dt (wrap dt.bits value) w := by
  by_cases h64 : dt = .i64
  · subst h64
    exact ⟨_, rfl, rfl, (ofInt_wrap 64 value).symm⟩
  · have hcode : emitCInt dt value = [.i32Const (.ofInt 32 value)] := by
      obtain rfl | rfl | rfl | rfl := Datatype.isInt_cases hdt
      all_goals first | rfl | exact absurd rfl h64
    refine ⟨.i32 (.ofInt 32 value), by rw [hcode]; rfl, ⟨hdt, h64⟩, ?_⟩
    rw [unsigned_wrap le_rfl]
    rcases hv with hv | hv
    · exact .inl (congrArg _ hv)
    · exact .inr (by rw [← BitVec.ofInt_natCast]; exact congrArg _ hv)

/-- The word of `int_dt`, in the middle of a conversion. -/
def emitNarrow (intDt : Datatype) (unsigned : Bool) : List Opcode :=
  match intDt with
  | .i8 => if unsigned then [.i32Const 0xff, .i32And] else [.i32Extend8S]
  | .i16 => if unsigned then [.i32Const 0xffff, .i32And] else [.i32Extend16S]
  | _ => []

/-- `emit_instr` of a `Conv` or `U_Conv` between two integer datatypes. -/
def emitConv (src dst : Datatype) (uConv : Bool) : List Opcode :=
  let intDt := if src.size < dst.size then src else dst
  let unsigned := uConv || decide (dst.size < src.size)
  (if src = .i64 then [.i32WrapI64] else []) ++ (emitNarrow intDt unsigned ++
    if dst = .i64 then [if unsigned then .i64ExtendI32U else .i64ExtendI32S] else [])

theorem run_append {c₁ c₂ : List Opcode} {s s' : List Word} (h : run c₁ s = some (.next, s')) :
    run (c₁ ++ c₂) s = run c₂ s' := by
  induction c₁ generalizing s with
  | nil => cases h; rfl
  | cons op c₁ ih =>
    simp only [List.cons_append, run] at h ⊢
    split at h
    · exact ih h
    · rename_i hop
      exact absurd h (hop s')

/-- The low bits of a word are those of its value. -/
theorem Holds.setWidth {w : BitVec 32} (h : Holds dt x (.i32 w)) {k : ℕ} (hk : k ≤ dt.bits) :
    w.setWidth k = .ofInt k x := by
  obtain ⟨hdt, hw⟩ := h
  have h32 : k ≤ 32 := hk.trans (bits_le_32 hdt)
  rw [← BitVec.toNat_inj, BitVec.toNat_setWidth, ofInt_toNat]
  rcases hw with rfl | rfl
  · rw [ofInt_toNat, unsigned_mod h32]
  · rw [BitVec.toNat_ofNat, Nat.mod_mod_of_dvd _ (pow_dvd_pow 2 h32), unsigned_mod hk]

theorem and_mask_eq {a : BitVec 32} {k : ℕ} (hk : k ≤ 32) (ha : a.setWidth k = .ofInt k x) :
    a &&& .ofNat 32 (2 ^ k - 1) = .ofNat 32 (unsigned k x) := by
  have h := congrArg BitVec.toNat ha
  rw [BitVec.toNat_setWidth, ofInt_toNat] at h
  have hk' : 2 ^ k ≤ 2 ^ 32 := Nat.pow_le_pow_right two_pos hk
  rw [← BitVec.toNat_inj, BitVec.toNat_and, BitVec.toNat_ofNat, BitVec.toNat_ofNat,
    Nat.mod_eq_of_lt (a := 2 ^ k - 1) (by have := Nat.one_le_two_pow (n := k); omega), and_mask, h,
    Nat.mod_eq_of_lt ((unsigned_lt _ _).trans_le hk')]

theorem signExtend_eq {a : BitVec 32} {k : ℕ} (ha : a.setWidth k = .ofInt k x) :
    (a.setWidth k).signExtend 32 = .ofInt 32 (wrap k x) := by
  rw [ha, BitVec.signExtend, ofInt_toInt]

/-- In the middle of a conversion the word has the narrower of the two values. -/
theorem run_emitNarrow (hdt : dt.isInt = true ∧ dt ≠ .i64) (unsigned : Bool) {a : BitVec 32}
    (ha : a.setWidth dt.bits = .ofInt dt.bits x) (s : List Word) :
    run (emitNarrow dt unsigned) (.i32 a :: s) = some (.next, .i32 (if unsigned
      then .ofNat 32 (MachInt.unsigned dt.bits x) else .ofInt 32 (wrap dt.bits x)) :: s) := by
  obtain rfl | rfl | rfl | rfl := Datatype.isInt_cases hdt.1
  · cases unsigned
    · rw [if_neg (by simp), ← signExtend_eq ha]
      rfl
    · rw [if_pos rfl, ← and_mask_eq (by decide) ha]
      rfl
  · cases unsigned
    · rw [if_neg (by simp), ← signExtend_eq ha]
      rfl
    · rw [if_pos rfl, ← and_mask_eq (by decide) ha]
      rfl
  · have ha' : a = .ofInt 32 x := by simpa [Datatype.bits, Datatype.size] using ha
    have hu : BitVec.ofNat 32 (MachInt.unsigned 32 x) = .ofInt 32 x := by
      rw [← ofInt_toNat, BitVec.ofNat_toNat, BitVec.setWidth_eq]
    have hs : BitVec.ofInt 32 (wrap 32 x) = .ofInt 32 x := ofInt_wrap 32 x
    cases unsigned
    · exact congrArg (fun b => some (Flow.next, Word.i32 b :: s)) (ha'.trans hs.symm)
    · exact congrArg (fun b => some (Flow.next, Word.i32 b :: s)) (ha'.trans hu.symm)
  · exact absurd rfl hdt.2

theorem setWidth_ofInt {k : ℕ} (hk : k ≤ 64) : (BitVec.ofInt 64 x).setWidth k = .ofInt k x := by
  rw [← BitVec.toNat_inj, BitVec.toNat_setWidth, ofInt_toNat, ofInt_toNat, unsigned_mod hk]

/-- The low half of an operand, or all of a narrow one. -/
theorem run_wrap {w : Word} (hw : Holds dt x w) (s : List Word) : ∃ a : BitVec 32,
    run (if dt = .i64 then [.i32WrapI64] else []) (w :: s) = some (.next, .i32 a :: s) ∧
      ∀ k ≤ 32, k ≤ dt.bits → a.setWidth k = .ofInt k x := by
  cases w with
  | i32 a =>
    refine ⟨a, by rw [if_neg hw.1.2]; rfl, fun k _ hk => hw.setWidth hk⟩
  | i64 a =>
    obtain ⟨rfl, rfl⟩ := hw
    refine ⟨(BitVec.ofInt 64 x).setWidth 32, rfl, fun k hk _ => ?_⟩
    rw [BitVec.setWidth_setWidth_of_le _ hk, setWidth_ofInt (by omega)]

/-- A wider type has the value of the narrower one read without a sign. -/
theorem wrap_unsigned_of_lt {v w : ℕ} (h : v < w) : wrap w (unsigned v x) = unsigned v x := by
  refine wrap_natCast_of_lt (by omega) ((unsigned_lt v x).trans_le ?_)
  exact Nat.pow_le_pow_right two_pos (by omega)

/-- A conversion gives the value of the new datatype, extended as the next one wants it. -/
theorem run_emitConv {src dst : Datatype} (hs : src.isInt = true) (hd : dst.isInt = true)
    (hne : src ≠ dst) (uConv : Bool) (hx : InS src.bits x) {w : Word} (hw : Holds src x w)
    (s : List Word) : ∃ w', run (emitConv src dst uConv) (w :: s) = some (.next, w' :: s) ∧
      Holds dst (wrap dst.bits (if uConv then unsigned src.bits x else x)) w' := by
  obtain ⟨a, hrun, ha⟩ := run_wrap hw s
  rw [emitConv, run_append hrun]
  by_cases hlt : src.size < dst.size
  · -- to a wider datatype, by the bits of the narrower one
    have hsrc : src.isInt = true ∧ src ≠ .i64 := ⟨hs, by rintro rfl; cases dst <;> simp_all +decide⟩
    have hbits : src.bits < dst.bits := by simp only [Datatype.bits]; omega
    have hmid := run_emitNarrow hsrc uConv (ha _ (bits_le_32 hsrc) le_rfl) s
    have hval : wrap dst.bits (if uConv then (unsigned src.bits x : ℤ) else x) =
        if uConv then (unsigned src.bits x : ℤ) else x := by
      cases uConv
      · exact wrap_eq_self (Datatype.bits_pos hd) (hx.mono hbits.le)
      · exact wrap_unsigned_of_lt hbits
    simp only [if_pos hlt, decide_eq_false hlt.not_gt, Bool.or_false]
    rw [run_append hmid, hval]
    by_cases h64 : dst = .i64
    · subst h64
      have hpow : (2 : ℕ) ^ src.bits ≤ 2 ^ 32 := Nat.pow_le_pow_right two_pos (bits_le_32 hsrc)
      cases uConv
      · refine ⟨_, rfl, rfl, ?_⟩
        have h32 := wrap_eq_self (w := 32) (by norm_num) (hx.mono (bits_le_32 hsrc))
        simp only [Bool.false_eq_true, if_false]
        rw [BitVec.signExtend, wrap_eq_self (Datatype.bits_pos hs) hx, ofInt_toInt, h32]
      · refine ⟨_, rfl, rfl, ?_⟩
        rw [if_pos rfl, if_pos rfl, ← BitVec.toNat_inj, BitVec.ofInt_natCast, BitVec.toNat_setWidth,
          BitVec.toNat_ofNat, BitVec.toNat_ofNat, Nat.mod_eq_of_lt ((unsigned_lt _ x).trans_le hpow)]
    · rw [if_neg h64]
      refine ⟨_, rfl, ⟨hd, h64⟩, .inl ?_⟩
      cases uConv
      · exact congrArg (BitVec.ofInt 32) (wrap_eq_self (Datatype.bits_pos hs) hx)
      · exact (BitVec.ofInt_natCast 32 _).symm
  · -- to a narrower one, by its own bits
    have hgt : dst.size < src.size := by
      obtain rfl | rfl | rfl | rfl := Datatype.isInt_cases hs <;>
        obtain rfl | rfl | rfl | rfl := Datatype.isInt_cases hd <;> simp_all +decide
    have hdst : dst.isInt = true ∧ dst ≠ .i64 := ⟨hd, by rintro rfl; cases src <;> simp_all +decide⟩
    have hbits : dst.bits ≤ src.bits := by simp only [Datatype.bits]; omega
    have hmid := run_emitNarrow hdst true (ha _ (bits_le_32 hdst) hbits) s
    simp only [if_neg hlt, decide_eq_true hgt, Bool.or_true, if_neg hdst.2, List.append_nil]
    refine ⟨_, hmid, hdst, .inr ?_⟩
    rw [if_pos rfl, unsigned_wrap le_rfl]
    cases uConv
    · rfl
    · rw [if_pos rfl, ← unsigned_wrap hbits (unsigned src.bits x), wrap_unsigned,
        unsigned_wrap hbits]

/-! ### Branches -/

/-- `cfg_blocks_meta`. -/
structure BlockMeta where
  /-- There is no block to leave. -/
  isNil : Bool
  /-- The sides are in the two arms of an `if`. -/
  ifified : Bool
  /-- The block to leave. -/
  label : ℕ
  deriving DecidableEq, Repr

/-- `loop_idx`: the place of the last `Loop` among the successors. -/
def loopIdx (prc : Proc) (node : OdinSon.Node) : Option ℕ :=
  node.outs.zipIdx.foldl
    (fun idx out => if (prc.getNode out.1.id).itype = .loop then some out.2 else idx) none

/-- The test is turned around: control leaves by the label, or enters the scope, on zero. -/
def negate (prc : Proc) (node : OdinSon.Node) (next : NodeId) (m : BlockMeta) : Bool :=
  match loopIdx prc node with
  | some i => decide (i = 1)
  | none => decide ((prc.getNode next).itype = .then_) != m.ifified

/-- The instruction that leaves. -/
def branchOp (prc : Proc) (node : OdinSon.Node) (m : BlockMeta) : List Opcode :=
  if m.ifified then [.if_]
  else if loopIdx prc node ≠ none then [.brIf m.label]
  else if !m.isNil then [.brIf m.label]
  else []

/-- `emit_instr` of an `If`; `next` is the head of `bbs[block_idx + 1]`. -/
def emitIf (prc : Proc) (node : OdinSon.Node) (next : NodeId) (m : BlockMeta) : List Opcode :=
  let dt := (prc.getNode (node.inp 1)).dt
  (if dt ∉ [Datatype.void, .mem, .i8, .i16, .i32] then [.i32WrapI64] else []) ++
    ((if negate prc node next m then [.i32Eqz] else []) ++ branchOp prc node m)

/-- An `If` in a schedule, with the blocks that its code can lead to.  Of its two successors, the
`Then` side stands first; a rotated loop has its `Loop` in the place of one of them. -/
structure IfSite (prc : Proc) where
  /-- The `If`. -/
  node : OdinSon.Node
  /-- Its first successor. -/
  thenSide : NodeOutput
  /-- Its second successor. -/
  elseSide : NodeOutput
  outs_eq : node.outs = [thenSide, elseSide]
  sides_ne : thenSide.id ≠ elseSide.id
  condInt : (prc.getNode (node.inp 1)).dt.isInt = true
  /-- What is known of the block. -/
  blockMeta : BlockMeta
  /-- The head of the next block. -/
  next : NodeId
  /-- The head of the block after the `else`. -/
  arm : NodeId
  /-- The head of the block that the label stands for. -/
  target : NodeId
  then_kind : (prc.getNode thenSide.id).itype = .then_ ∨
    (prc.getNode thenSide.id).itype = .loop ∧ (prc.getNode elseSide.id).itype = .else_
  else_kind : (prc.getNode elseSide.id).itype = .else_ ∨
    (prc.getNode elseSide.id).itype = .loop ∧ (prc.getNode thenSide.id).itype = .then_
  /-- A scope has one side in each arm. -/
  of_ifified : blockMeta.ifified = true → loopIdx prc node = none ∧
    (next = thenSide.id ∧ arm = elseSide.id ∨ next = elseSide.id ∧ arm = thenSide.id)
  /-- A `Loop` is reached by its label, and what comes after the loop is next. -/
  of_loop : blockMeta.ifified = false → ∀ i, loopIdx prc node = some i →
    (i = 0 ∧ target = thenSide.id ∧ next = elseSide.id) ∨
      (i = 1 ∧ target = elseSide.id ∧ next = thenSide.id)
  /-- Otherwise one side is next, and the label is that of the other. -/
  of_forward : blockMeta.ifified = false → loopIdx prc node = none → blockMeta.isNil = false ∧
    (next = thenSide.id ∧ target = elseSide.id ∨ next = elseSide.id ∧ target = thenSide.id)

namespace IfSite

variable {prc : Proc} (site : IfSite prc)

/-- The datatype of the condition. -/
def condDt : Datatype := (prc.getNode (site.node.inp 1)).dt

/-- The code of the branch. -/
def code : List Opcode := emitIf prc site.node site.next site.blockMeta

/-- The block that control goes to. -/
def dest : Flow → NodeId
  | .next => site.next
  | .else_ => site.arm
  | .label _ => site.target

theorem loopIdx_eq : loopIdx prc site.node =
    if (prc.getNode site.elseSide.id).itype = .loop then some 1
    else if (prc.getNode site.thenSide.id).itype = .loop then some 0 else none := by
  rw [loopIdx, site.outs_eq]
  rfl

/-- Only the sides of an `If` that is not the end of a loop are both what they are called. -/
theorem kinds_of_loopIdx (h : loopIdx prc site.node = none) :
    (prc.getNode site.thenSide.id).itype = .then_ ∧
      (prc.getNode site.elseSide.id).itype = .else_ := by
  rw [loopIdx_eq] at h
  split_ifs at h with he ht
  exact ⟨site.then_kind.resolve_right fun hl => ht hl.1,
    site.else_kind.resolve_right fun hl => he hl.1⟩

theorem run_brIf {l : ℕ} (c : BitVec 32) (s : List Word) :
    run [.brIf l] (.i32 c :: s) = some (if c = 0 then .next else .label l, s) := by
  have hstep : (Opcode.brIf l).step (.i32 c :: s) =
      some (if c = 0 then .next else .label l, s) := rfl
  rw [run, hstep]
  by_cases hc : c = 0
  · rw [if_pos hc]
    rfl
  · rw [if_neg hc]

theorem run_if (c : BitVec 32) (s : List Word) :
    run [.if_] (.i32 c :: s) = some (if c = 0 then .else_ else .next, s) := by
  have hstep : Opcode.if_.step (.i32 c :: s) = some (if c = 0 then .else_ else .next, s) := rfl
  rw [run, hstep]
  by_cases hc : c = 0
  · rw [if_pos hc]
  · rw [if_neg hc]
    rfl

/-- A branch on a word, or on its negation. -/
theorem run_test {ops : List Opcode} {taken fail : Flow}
    (hops : ∀ (c : BitVec 32) s, run ops (.i32 c :: s) = some (if c = 0 then fail else taken, s))
    (neg : Bool) (c : BitVec 32) (s : List Word) :
    run ((if neg then [.i32Eqz] else []) ++ ops) (.i32 c :: s) =
      some (if c = 0 then (if neg then taken else fail) else if neg then fail else taken, s) := by
  cases neg
  · exact hops c s
  · have heqz : run [.i32Eqz] (.i32 c :: s) =
        some (.next, .i32 (if c = 0 then 1 else 0) :: s) := rfl
    rw [if_pos rfl, run_append heqz, hops]
    by_cases hc : c = 0 <;> simp [hc]

/-- The test of the word on top goes to the `Then` side unless the word is zero. -/
theorem exists_sides : ∃ yes no : Flow,
    site.dest yes = site.thenSide.id ∧ site.dest no = site.elseSide.id ∧
    ∀ (c : BitVec 32) s, run ((if negate prc site.node site.next site.blockMeta
        then [.i32Eqz] else []) ++ branchOp prc site.node site.blockMeta) (.i32 c :: s) =
      some (if c = 0 then no else yes, s) := by
  cases hm : site.blockMeta.ifified with
  | true =>
    obtain ⟨hl, hsides⟩ := site.of_ifified hm
    obtain ⟨ht, he⟩ := site.kinds_of_loopIdx hl
    simp only [branchOp, negate, hm, hl, if_true]
    rcases hsides with ⟨hn, ha⟩ | ⟨hn, ha⟩
    · refine ⟨.next, .else_, hn, ha, fun c s => ?_⟩
      rw [run_test run_if, hn, ht]
      rfl
    · refine ⟨.else_, .next, ha, hn, fun c s => ?_⟩
      rw [run_test run_if, hn, he]
      rfl
  | false =>
    cases hl : loopIdx prc site.node with
    | some i =>
      simp only [branchOp, negate, hm, hl]
      obtain ⟨rfl, ht, hn⟩ | ⟨rfl, ht, hn⟩ := site.of_loop hm i hl
      · refine ⟨.label site.blockMeta.label, .next, ht, hn, fun c s => ?_⟩
        exact run_test run_brIf _ c s
      · refine ⟨.next, .label site.blockMeta.label, hn, ht, fun c s => ?_⟩
        exact run_test run_brIf _ c s
    | none =>
      obtain ⟨hnil, hsides⟩ := site.of_forward hm hl
      obtain ⟨ht, he⟩ := site.kinds_of_loopIdx hl
      simp only [branchOp, negate, hm, hl, hnil]
      rcases hsides with ⟨hn, hto⟩ | ⟨hn, hto⟩
      · refine ⟨.next, .label site.blockMeta.label, hn, hto, fun c s => ?_⟩
        simp only [hn, ht]
        exact run_test run_brIf _ c s
      · refine ⟨.label site.blockMeta.label, .next, hto, hn, fun c s => ?_⟩
        simp only [hn, he]
        exact run_test run_brIf _ c s

theorem code_eq : site.code = (if site.condDt = .i64 then [.i32WrapI64] else []) ++
    ((if negate prc site.node site.next site.blockMeta then [.i32Eqz] else []) ++
      branchOp prc site.node site.blockMeta) := by
  have hdt : site.condDt ∉ [Datatype.void, .mem, .i8, .i16, .i32] ↔ site.condDt = .i64 := by
    obtain h | h | h | h := Datatype.isInt_cases site.condInt <;> simp [condDt, h]
  rw [code, emitIf, ← condDt]
  simp only [hdt]

end IfSite

/-- The condition is a parameter of 64 bits; the `Then` side is next. -/
def wideIf : Proc where
  mem id := match id with
    | 1 => { itype := .entry, outs := [⟨2, 0⟩, ⟨3, 0⟩] }
    | 2 => { itype := .param, dt := .i64, inps := [1], outs := [⟨3, 1⟩] }
    | 3 => { itype := .if_, inps := [1, 2], outs := [⟨4, 0⟩, ⟨5, 0⟩] }
    | 4 => { itype := .then_, inps := [3] }
    | 5 => { itype := .else_, inps := [3] }
    | _ => { itype := .dead }
  pos := 6
  entry := 1
  end_ := 0

def wideIfSite : IfSite wideIf where
  node := wideIf.getNode 3
  thenSide := ⟨4, 0⟩
  elseSide := ⟨5, 0⟩
  outs_eq := rfl
  sides_ne := by decide
  condInt := rfl
  blockMeta := ⟨false, false, 0⟩
  next := 4
  arm := 0
  target := 5
  then_kind := .inl rfl
  else_kind := .inl rfl
  of_ifified := fun h => by cases h
  of_loop := fun _ i h => by cases h
  of_forward := fun _ _ => ⟨rfl, .inl ⟨rfl, rfl⟩⟩

end OdinSon.Wasm
