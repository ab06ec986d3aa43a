import OdinSon.Lib.BitFields

/-!
# Send instructions of the GPU

A `send` (`bac/intel_xelp/intel_xelp.odin`) is four words, which `emit_instr` puts together from
what the helpers return.  Two of its operands are descriptors whose bits are scattered over three
words.

`emitSend_lossless` says that no two fields of a word have a bit in common, and that everything can
be gathered from the words again.
-/

namespace OdinSon.Xelp

open Lib

/-- `Register_File`. -/
inductive RegisterFile where
  | arf
  | grf
  deriving DecidableEq, Repr

/-- `u32(file)`. -/
def RegisterFile.code : RegisterFile → BitVec 32
  | .arf => 0
  | .grf => 1

/-- `SFID`. -/
inductive Sfid where
  | ts
  | dc1
  deriving DecidableEq, Repr

/-- `u32(sfid)`. -/
def Sfid.code : Sfid → BitVec 32
  | .ts => 0x7
  | .dc1 => 0xc

/-- `Reg`. -/
structure Reg where
  /-- The number of the register. -/
  index : BitVec 12
  /-- Its kind. -/
  kind : BitVec 4
  deriving DecidableEq, Repr

/-- `u32` of a boolean. -/
def ofBool (b : Bool) : BitVec 32 := if b then 1 else 0

/-! ### The helpers -/

/-- `eu_control`, of the byte of the opcode. -/
def euControl (opcode : BitVec 8) (lanes maskOffset : BitVec 32) (swsb : BitVec 8)
    (noMask : Bool) : Option (BitVec 32) := do
  guard (lanes.cpop = 1 ∧ lanes ≤ 32)
  guard (maskOffset < 32 ∧ maskOffset % 4 = 0)
  guard (maskOffset + lanes ≤ 32)
  return opcode.setWidth 32 ||| lanes.ctz <<< 16 ||| (maskOffset / 4) <<< 19 |||
    swsb.setWidth 32 <<< 8 ||| ofBool noMask <<< 31

/-- `eu_reg_number`. -/
def euRegNumber (reg : Reg) (file : RegisterFile) : Option (BitVec 32) := do
  guard (reg.kind = 0)
  guard (reg.index.toNat < if file = .grf then 128 else 256)
  return reg.index.setWidth 32

/-- `eu_send_dst`. -/
def euSendDst (reg : Reg) (file : RegisterFile) (eot : Bool) : Option (BitVec 32) := do
  let number ← euRegNumber reg file
  return number <<< 24 ||| file.code <<< 18 ||| ofBool eot <<< 2

/-- `eu_send_src`. -/
def euSendSrc (reg : Reg) (file : RegisterFile) : Option (BitVec 32) := do
  let number ← euRegNumber reg file
  return number <<< 8 ||| file.code <<< 2

/-- `eu_send_target`. -/
def euSendTarget (sfid : Sfid) : BitVec 32 := sfid.code <<< 28

/-- `eu_send_desc`. -/
def euSendDesc (desc : BitVec 32) : BitVec 32 × BitVec 32 × BitVec 32 :=
  ((desc >>> 20 &&& 0x1f#32) <<< 19,
    (desc >>> 25 &&& 0x1f#32) <<< 3 ||| (desc &&& 0x7ff#32) <<< 17,
    (desc >>> 30 &&& 0x3#32) <<< 26 ||| (desc >>> 11 &&& 0x1ff#32) <<< 17)

/-- `eu_send_ex_desc`. -/
def euSendExDesc (desc : BitVec 32) : Option (BitVec 32 × BitVec 32 × BitVec 32) := do
  guard (desc &&& 0x3f#32 = 0)
  return ((desc >>> 11 &&& 0x1fff#32) <<< 3,
    desc >>> 24 &&& 0x3#32,
    (desc &&& 0xf0000000#32) ||| (desc >>> 26 &&& 0x3#32) ||| (desc >>> 6 &&& 0x1f#32) <<< 3)

/-- What a send is made of. -/
structure Send where
  /-- The opcode. -/
  opcode : BitVec 8
  /-- The number of the lanes. -/
  lanes : BitVec 32
  /-- The first lane of the mask. -/
  maskOffset : BitVec 32
  /-- What the instruction waits for. -/
  swsb : BitVec 8
  /-- All the lanes are on. -/
  noMask : Bool
  /-- Where the answer goes. -/
  dst : Reg
  /-- The file of `dst`. -/
  dstFile : RegisterFile
  /-- The thread ends. -/
  eot : Bool
  /-- The unit that gets the message. -/
  target : Sfid
  /-- The first part of the message. -/
  src0 : Reg
  /-- The file of `src0`. -/
  src0File : RegisterFile
  /-- The second part of the message. -/
  src1 : Reg
  /-- The file of `src1`. -/
  src1File : RegisterFile
  /-- The descriptor. -/
  desc : BitVec 32
  /-- The extended descriptor. -/
  exDesc : BitVec 32

/-- `Op`: the words of an instruction. -/
structure Op where
  word0 : BitVec 32
  word1 : BitVec 32
  word2 : BitVec 32
  word3 : BitVec 32
  deriving DecidableEq, Repr

/-- The operation that `emit_instr` hands to `emit_op`. -/
def emitSend (s : Send) : Option Op := do
  let (d1, d2, d3) := euSendDesc s.desc
  let (e1, e2, e3) ← euSendExDesc s.exDesc
  let control ← euControl s.opcode s.lanes s.maskOffset s.swsb s.noMask
  let dst ← euSendDst s.dst s.dstFile s.eot
  let src0 ← euSendSrc s.src0 s.src0File
  let src1 ← euSendSrc s.src1 s.src1File
  return {
    word0 := control
    word1 := dst ||| d1 ||| e1
    word2 := euSendTarget s.target ||| src0 ||| d2 ||| e2
    word3 := src1 ||| d3 ||| e3 }

/-! ### The fields of the words -/

/-- `eu_control`. -/
def Send.controlFields (s : Send) : List (WordField 32) :=
  [⟨0, 8, s.opcode.setWidth 32⟩, ⟨16, 3, s.lanes.ctz⟩, ⟨19, 3, s.maskOffset / 4⟩,
    ⟨8, 8, s.swsb.setWidth 32⟩, ⟨31, 1, ofBool s.noMask⟩]

/-- `eu_send_dst`. -/
def Send.dstFields (s : Send) : List (WordField 32) :=
  [⟨24, 8, s.dst.index.setWidth 32⟩, ⟨18, 1, s.dstFile.code⟩, ⟨2, 1, ofBool s.eot⟩]

/-- `eu_send_src`. -/
def srcFields (reg : Reg) (file : RegisterFile) : List (WordField 32) :=
  [⟨8, 8, reg.index.setWidth 32⟩, ⟨2, 1, file.code⟩]

/-- The word after `eu_control`. -/
def Send.fields1 (s : Send) : List (WordField 32) :=
  s.dstFields ++ [⟨19, 5, s.desc >>> 20⟩] ++ [⟨3, 13, s.exDesc >>> 11⟩]

/-- The third word. -/
def Send.fields2 (s : Send) : List (WordField 32) :=
  [⟨28, 4, s.target.code⟩] ++ srcFields s.src0 s.src0File ++
    [⟨3, 5, s.desc >>> 25⟩, ⟨17, 11, s.desc⟩] ++ [⟨0, 2, s.exDesc >>> 24⟩]

/-- The last word. -/
def Send.fields3 (s : Send) : List (WordField 32) :=
  srcFields s.src1 s.src1File ++ [⟨26, 2, s.desc >>> 30⟩, ⟨17, 9, s.desc >>> 11⟩] ++
    [⟨28, 4, s.exDesc >>> 28⟩, ⟨0, 2, s.exDesc >>> 26⟩, ⟨3, 5, s.exDesc >>> 6⟩]

/-- All the fields, word by word. -/
def Send.layout (s : Send) : List (List (WordField 32)) :=
  [s.controlFields, s.fields1, s.fields2, s.fields3]

/-! ### What the helpers return -/

variable {reg : Reg} {file : RegisterFile} {number word : BitVec 32} {s : Send} {op : Op}

theorem code_lt (file : RegisterFile) : file.code.toNat < 2 ^ 1 := by
  cases file <;> decide

theorem ofBool_lt (b : Bool) : (ofBool b).toNat < 2 ^ 1 := by
  cases b <;> decide

theorem target_lt (sfid : Sfid) : sfid.code.toNat < 2 ^ 4 := by
  cases sfid <;> decide

theorem euRegNumber_eq_some (h : euRegNumber reg file = some number) :
    number = reg.index.setWidth 32 ∧ (reg.index.setWidth 32).toNat < 2 ^ 8 := by
  simp only [euRegNumber, Option.bind_eq_bind, Option.bind_eq_some_iff, Option.guard_eq_some',
    Option.pure_def] at h
  obtain ⟨-, -, -, hlt, h⟩ := h
  refine ⟨(Option.some.inj h).symm, ?_⟩
  rw [BitVec.toNat_setWidth_of_le (by decide)]
  split_ifs at hlt
  · omega
  · exact hlt

theorem euSendSrc_eq_some (h : euSendSrc reg file = some word) :
    word = assemble (srcFields reg file) ∧ (reg.index.setWidth 32).toNat < 2 ^ 8 := by
  simp only [euSendSrc, Option.bind_eq_bind, Option.bind_eq_some_iff, Option.pure_def] at h
  obtain ⟨number, hnumber, h⟩ := h
  obtain ⟨rfl, hlt⟩ := euRegNumber_eq_some hnumber
  refine ⟨?_, hlt⟩
  rw [srcFields, assemble, assemble, assemble, put_of_lt hlt, put_of_lt (code_lt file),
    ← Option.some.inj h]
  exact congrArg _ BitVec.or_zero.symm

theorem euSendDst_eq_some (h : euSendDst s.dst s.dstFile s.eot = some word) :
    word = assemble s.dstFields ∧ (s.dst.index.setWidth 32).toNat < 2 ^ 8 := by
  simp only [euSendDst, Option.bind_eq_bind, Option.bind_eq_some_iff, Option.pure_def] at h
  obtain ⟨number, hnumber, h⟩ := h
  obtain ⟨rfl, hlt⟩ := euRegNumber_eq_some hnumber
  refine ⟨?_, hlt⟩
  rw [Send.dstFields, assemble, assemble, assemble, assemble, put_of_lt hlt,
    put_of_lt (code_lt s.dstFile), put_of_lt (ofBool_lt s.eot), ← Option.some.inj h]
  rw [BitVec.or_assoc]
  exact congrArg _ (congrArg _ BitVec.or_zero.symm)

theorem euSendTarget_eq (sfid : Sfid) : euSendTarget sfid = assemble [⟨28, 4, sfid.code⟩] := by
  rw [assemble, put_of_lt (target_lt sfid)]
  exact BitVec.or_zero.symm

theorem euSendDesc_eq (desc : BitVec 32) : euSendDesc desc =
    (assemble [⟨19, 5, desc >>> 20⟩], assemble [⟨3, 5, desc >>> 25⟩, ⟨17, 11, desc⟩],
      assemble [⟨26, 2, desc >>> 30⟩, ⟨17, 9, desc >>> 11⟩]) := by
  rw [assemble, assemble, assemble, assemble, assemble, assemble, assemble, assemble]
  rw [show (0 : BitVec 32) = 0#32 from rfl, BitVec.or_zero, BitVec.or_zero, BitVec.or_zero]
  rfl

theorem euSendExDesc_eq_some {desc : BitVec 32} {words : BitVec 32 × BitVec 32 × BitVec 32}
    (h : euSendExDesc desc = some words) : desc &&& 0x3f#32 = 0 ∧ words =
      (assemble [⟨3, 13, desc >>> 11⟩], assemble [⟨0, 2, desc >>> 24⟩],
        assemble [⟨28, 4, desc >>> 28⟩, ⟨0, 2, desc >>> 26⟩, ⟨3, 5, desc >>> 6⟩]) := by
  simp only [euSendExDesc, Option.bind_eq_bind, Option.bind_eq_some_iff, Option.guard_eq_some',
    Option.pure_def] at h
  obtain ⟨-, hzero, h⟩ := h
  refine ⟨hzero, ?_⟩
  have htop : desc &&& 0xf0000000#32 = (desc >>> 28 &&& 0xf#32) <<< 28 :=
    and_shiftLeft desc 0xf#32 28
  have hlow (x : BitVec 32) : (⟨0, 2, x⟩ : WordField 32).put = x &&& 0x3#32 :=
    BitVec.shiftLeft_zero _
  rw [← Option.some.inj h, htop]
  rw [assemble, assemble, assemble, assemble, assemble, assemble, assemble, assemble, hlow, hlow]
  rw [show (0 : BitVec 32) = 0#32 from rfl, BitVec.or_zero, BitVec.or_zero, BitVec.or_zero,
    BitVec.or_assoc]
  rfl

theorem euControl_eq_some
    (h : euControl s.opcode s.lanes s.maskOffset s.swsb s.noMask = some word) :
    word = assemble s.controlFields ∧ s.lanes.ctz.toNat < 2 ^ 3 ∧
      (s.maskOffset / 4).toNat < 2 ^ 3 := by
  simp only [euControl, Option.bind_eq_bind, Option.bind_eq_some_iff, Option.guard_eq_some',
    Option.pure_def] at h
  obtain ⟨-, ⟨hones, hlanes⟩, -, ⟨hoffset, -⟩, -, -, h⟩ := h
  have hctz : s.lanes.ctz.toNat < 2 ^ 3 := by
    have hne : s.lanes ≠ 0#32 := by
      intro h0
      rw [h0] at hones
      exact absurd hones (by decide)
    have hle : s.lanes.toNat ≤ 32 := hlanes
    have hpow := BitVec.two_pow_ctz_le_toNat_of_ne_zero hne
    by_contra hge
    have hbig : 2 ^ 8 ≤ 2 ^ s.lanes.ctz.toNat :=
      Nat.pow_le_pow_right (by decide) (not_lt.1 hge)
    omega
  have hdiv : (s.maskOffset / 4).toNat < 2 ^ 3 := by
    have hlt : s.maskOffset.toNat < 32 := hoffset
    rw [BitVec.toNat_udiv]
    show s.maskOffset.toNat / 4 < 2 ^ 3
    omega
  have hopcode : (s.opcode.setWidth 32).toNat < 2 ^ 8 := by
    rw [BitVec.toNat_setWidth_of_le (by decide)]
    exact s.opcode.isLt
  have hswsb : (s.swsb.setWidth 32).toNat < 2 ^ 8 := by
    rw [BitVec.toNat_setWidth_of_le (by decide)]
    exact s.swsb.isLt
  refine ⟨?_, hctz, hdiv⟩
  rw [Send.controlFields, assemble, assemble, assemble, assemble, assemble, assemble,
    put_of_lt hopcode, put_of_lt hctz, put_of_lt hdiv, put_of_lt hswsb,
    put_of_lt (ofBool_lt s.noMask), ← Option.some.inj h]
  rw [show (0 : BitVec 32) = 0#32 from rfl, BitVec.or_zero, BitVec.or_assoc, BitVec.or_assoc,
    BitVec.or_assoc]
  dsimp only
  rw [BitVec.shiftLeft_zero]

/-- The words are made of the fields. -/
theorem emitSend_eq_some (h : emitSend s = some op) :
    s.exDesc &&& 0x3f#32 = 0 ∧ op = {
      word0 := assemble s.controlFields
      word1 := assemble s.fields1
      word2 := assemble s.fields2
      word3 := assemble s.fields3 } ∧
    s.lanes.ctz.toNat < 2 ^ 3 ∧ (s.maskOffset / 4).toNat < 2 ^ 3 ∧
      (s.dst.index.setWidth 32).toNat < 2 ^ 8 ∧ (s.src0.index.setWidth 32).toNat < 2 ^ 8 ∧
      (s.src1.index.setWidth 32).toNat < 2 ^ 8 := by
  simp only [emitSend, euSendDesc_eq, Option.bind_eq_bind, Option.bind_eq_some_iff, Prod.exists,
    Option.pure_def] at h
  obtain ⟨e1, e2, e3, hex, control, hcontrol, dst, hdst, src0, hsrc0, src1, hsrc1, h⟩ := h
  obtain ⟨hzero, hwords⟩ := euSendExDesc_eq_some hex
  obtain ⟨rfl, rfl, rfl⟩ : e1 = _ ∧ e2 = _ ∧ e3 = _ := by
    simpa only [Prod.mk.injEq] using hwords
  obtain ⟨rfl, hlanes, hoffset⟩ := euControl_eq_some hcontrol
  obtain ⟨rfl, hlt⟩ := euSendDst_eq_some hdst
  obtain ⟨rfl, hlt0⟩ := euSendSrc_eq_some hsrc0
  obtain ⟨rfl, hlt1⟩ := euSendSrc_eq_some hsrc1
  refine ⟨hzero, ?_, hlanes, hoffset, hlt, hlt0, hlt1⟩
  rw [← Option.some.inj h, euSendTarget_eq]
  simp only [Send.fields1, Send.fields2, Send.fields3, assemble_append]

/-! ### Gathering -/

/-- What is encoded in the words of a send. -/
structure Operands where
  opcode : BitVec 32
  execSize : BitVec 32
  maskOffset : BitVec 32
  swsb : BitVec 32
  noMask : BitVec 32
  dst : BitVec 32
  dstFile : BitVec 32
  eot : BitVec 32
  target : BitVec 32
  src0 : BitVec 32
  src0File : BitVec 32
  src1 : BitVec 32
  src1File : BitVec 32
  desc : BitVec 32
  exDesc : BitVec 32
  deriving DecidableEq, Repr

/-- What it is for a send. -/
def Send.operands (s : Send) : Operands where
  opcode := s.opcode.setWidth 32
  execSize := s.lanes.ctz
  maskOffset := s.maskOffset / 4
  swsb := s.swsb.setWidth 32
  noMask := ofBool s.noMask
  dst := s.dst.index.setWidth 32
  dstFile := s.dstFile.code
  eot := ofBool s.eot
  target := s.target.code
  src0 := s.src0.index.setWidth 32
  src0File := s.src0File.code
  src1 := s.src1.index.setWidth 32
  src1File := s.src1File.code
  desc := s.desc
  exDesc := s.exDesc

/-- Take the words apart. -/
def gather (op : Op) : Operands where
  opcode := readField 0 8 op.word0
  execSize := readField 16 3 op.word0
  maskOffset := readField 19 3 op.word0
  swsb := readField 8 8 op.word0
  noMask := readField 31 1 op.word0
  dst := readField 24 8 op.word1
  dstFile := readField 18 1 op.word1
  eot := readField 2 1 op.word1
  target := readField 28 4 op.word2
  src0 := readField 8 8 op.word2
  src0File := readField 2 1 op.word2
  src1 := readField 8 8 op.word3
  src1File := readField 2 1 op.word3
  desc := readField 19 5 op.word1 <<< 20 ||| readField 3 5 op.word2 <<< 25 |||
    readField 17 11 op.word2 <<< 0 ||| readField 26 2 op.word3 <<< 30 |||
    readField 17 9 op.word3 <<< 11
  exDesc := readField 3 13 op.word1 <<< 11 ||| readField 0 2 op.word2 <<< 24 |||
    readField 28 4 op.word3 <<< 28 ||| readField 0 2 op.word3 <<< 26 |||
    readField 3 5 op.word3 <<< 6

theorem controlFields_apart (s : Send) : s.controlFields.Pairwise WordField.Apart := by
  simp [Send.controlFields, WordField.Apart]

theorem fields1_apart (s : Send) : s.fields1.Pairwise WordField.Apart := by
  simp [Send.fields1, Send.dstFields, WordField.Apart]

theorem fields2_apart (s : Send) : s.fields2.Pairwise WordField.Apart := by
  simp [Send.fields2, srcFields, WordField.Apart]

theorem fields3_apart (s : Send) : s.fields3.Pairwise WordField.Apart := by
  simp [Send.fields3, srcFields, WordField.Apart]

theorem layout_apart (s : Send) : ∀ fs ∈ s.layout, fs.Pairwise WordField.Apart := by
  intro fs hfs
  simp only [Send.layout, List.mem_cons, List.not_mem_nil, or_false] at hfs
  rcases hfs with rfl | rfl | rfl | rfl
  · exact controlFields_apart s
  · exact fields1_apart s
  · exact fields2_apart s
  · exact fields3_apart s

/-- The pieces of a descriptor are all of it. -/
theorem desc_pieces (d : BitVec 32) : readField 20 5 d <<< 20 ||| readField 25 5 d <<< 25 |||
    readField 0 11 d <<< 0 ||| readField 30 2 d <<< 30 ||| readField 11 9 d <<< 11 = d := by
  refine BitVec.eq_of_getLsbD_eq fun i hi => ?_
  simp only [BitVec.getLsbD_or, getLsbD_readField_shiftLeft hi]
  cases d.getLsbD i with
  | false => simp only [Bool.and_false, Bool.or_false]
  | true =>
    simp only [Bool.and_true, Bool.or_eq_true, decide_eq_true_iff]
    omega

/-- So are those of an extended one, but for its lowest bits. -/
theorem exDesc_pieces {d : BitVec 32} (h : d &&& 0x3f#32 = 0) :
    readField 11 13 d <<< 11 ||| readField 24 2 d <<< 24 ||| readField 28 4 d <<< 28 |||
      readField 26 2 d <<< 26 ||| readField 6 5 d <<< 6 = d := by
  refine BitVec.eq_of_getLsbD_eq fun i hi => ?_
  have hlow : i < 6 → d.getLsbD i = false := by
    intro h6
    have hbit := congrArg (BitVec.getLsbD · i) h
    have hmask : (0x3f#32).getLsbD i = decide (i < 32 ∧ i < 6) := getLsbD_lowMask 32 6 i
    rw [BitVec.getLsbD_and, hmask, decide_eq_true ⟨hi, h6⟩, Bool.and_true] at hbit
    exact hbit.trans BitVec.getLsbD_zero
  simp only [BitVec.getLsbD_or, getLsbD_readField_shiftLeft hi]
  cases hd : d.getLsbD i with
  | false => simp only [Bool.and_false, Bool.or_false]
  | true =>
    have hge : ¬ i < 6 := fun h6 => by
      rw [hlow h6] at hd
      cases hd
    simp only [Bool.and_true, Bool.or_eq_true, decide_eq_true_iff]
    omega

/-- The words are made of fields that are apart, and have the operands. -/
theorem gather_emitSend (h : emitSend s = some op) :
    [op.word0, op.word1, op.word2, op.word3] = s.layout.map assemble ∧
      (∀ fs ∈ s.layout, fs.Pairwise WordField.Apart) ∧ gather op = s.operands := by
  obtain ⟨hzero, rfl, hlanes, hoffset, hdst, hsrc0, hsrc1⟩ := emitSend_eq_some h
  refine ⟨rfl, layout_apart s, ?_⟩
  have hopcode : (s.opcode.setWidth 32).toNat < 2 ^ 8 := by
    rw [BitVec.toNat_setWidth_of_le (by decide)]
    exact s.opcode.isLt
  have hswsb : (s.swsb.setWidth 32).toNat < 2 ^ 8 := by
    rw [BitVec.toNat_setWidth_of_le (by decide)]
    exact s.swsb.isLt
  have h0 := controlFields_apart s
  have h1 := fields1_apart s
  have h2 := fields2_apart s
  have h3 := fields3_apart s
  rw [gather, Send.operands, Operands.mk.injEq]
  refine ⟨?_, ?_, ?_, ?_, ?_, ?_, ?_, ?_, ?_, ?_, ?_, ?_, ?_, ?_, ?_⟩
  · exact readField_of_lt h0 (by simp [Send.controlFields]) (by decide) hopcode
  · exact readField_of_lt h0 (by simp [Send.controlFields]) (by decide) hlanes
  · exact readField_of_lt h0 (by simp [Send.controlFields]) (by decide) hoffset
  · exact readField_of_lt h0 (by simp [Send.controlFields]) (by decide) hswsb
  · exact readField_of_lt h0 (by simp [Send.controlFields]) (by decide) (ofBool_lt _)
  · exact readField_of_lt h1 (by simp [Send.fields1, Send.dstFields]) (by decide) hdst
  · exact readField_of_lt h1 (by simp [Send.fields1, Send.dstFields]) (by decide) (code_lt _)
  · exact readField_of_lt h1 (by simp [Send.fields1, Send.dstFields]) (by decide) (ofBool_lt _)
  · exact readField_of_lt h2 (by simp [Send.fields2]) (by decide) (target_lt _)
  · exact readField_of_lt h2 (by simp [Send.fields2, srcFields]) (by decide) hsrc0
  · exact readField_of_lt h2 (by simp [Send.fields2, srcFields]) (by decide) (code_lt _)
  · exact readField_of_lt h3 (by simp [Send.fields3, srcFields]) (by decide) hsrc1
  · exact readField_of_lt h3 (by simp [Send.fields3, srcFields]) (by decide) (code_lt _)
  · have hlow : readField 17 11 (assemble s.fields2) = s.desc &&& lowMask 32 11 :=
      readField_assemble h2 (by simp [Send.fields2]) (by decide)
    have hmid : readField 17 9 (assemble s.fields3) = s.desc >>> 11 &&& lowMask 32 9 :=
      readField_assemble h3 (by simp [Send.fields3]) (by decide)
    have hresponse : readField 19 5 (assemble s.fields1) = s.desc >>> 20 &&& lowMask 32 5 :=
      readField_assemble h1 (by simp [Send.fields1]) (by decide)
    have hmessage : readField 3 5 (assemble s.fields2) = s.desc >>> 25 &&& lowMask 32 5 :=
      readField_assemble h2 (by simp [Send.fields2]) (by decide)
    have htop : readField 26 2 (assemble s.fields3) = s.desc >>> 30 &&& lowMask 32 2 :=
      readField_assemble h3 (by simp [Send.fields3]) (by decide)
    rw [hlow, hmid, hresponse, hmessage, htop]
    have hzero : s.desc &&& lowMask 32 11 = readField 0 11 s.desc := by
      rw [readField, BitVec.ushiftRight_zero]
    rw [hzero]
    exact desc_pieces s.desc
  · have h11 : readField 3 13 (assemble s.fields1) = s.exDesc >>> 11 &&& lowMask 32 13 :=
      readField_assemble h1 (by simp [Send.fields1]) (by decide)
    have h24 : readField 0 2 (assemble s.fields2) = s.exDesc >>> 24 &&& lowMask 32 2 :=
      readField_assemble h2 (by simp [Send.fields2]) (by decide)
    have h28 : readField 28 4 (assemble s.fields3) = s.exDesc >>> 28 &&& lowMask 32 4 :=
      readField_assemble h3 (by simp [Send.fields3]) (by decide)
    have h26 : readField 0 2 (assemble s.fields3) = s.exDesc >>> 26 &&& lowMask 32 2 :=
      readField_assemble h3 (by simp [Send.fields3]) (by decide)
    have h6 : readField 3 5 (assemble s.fields3) = s.exDesc >>> 6 &&& lowMask 32 5 :=
      readField_assemble h3 (by simp [Send.fields3]) (by decide)
    rw [h11, h24, h28, h26, h6]
    exact exDesc_pieces hzero

/-! ### Every send -/

/-- A register that `eu_reg_number` accepts. -/
def Reg.Ok (reg : Reg) (file : RegisterFile) : Prop :=
  reg.kind = 0 ∧ reg.index.toNat < if file = .grf then 128 else 256

/-- What the assertions of the helpers demand. -/
structure Send.Ok (s : Send) : Prop where
  lanes : s.lanes.cpop = 1 ∧ s.lanes ≤ 32
  maskOffset : s.maskOffset < 32 ∧ s.maskOffset % 4 = 0
  end_le : s.maskOffset + s.lanes ≤ 32
  dst : s.dst.Ok s.dstFile
  src0 : s.src0.Ok s.src0File
  src1 : s.src1.Ok s.src1File
  exDesc : s.exDesc &&& 0x3f#32 = 0

theorem Reg.Ok.euRegNumber (h : reg.Ok file) :
    euRegNumber reg file = some (reg.index.setWidth 32) := by
  unfold Xelp.euRegNumber
  simp only [guard, if_pos h.1, if_pos h.2]
  rfl

theorem Send.Ok.emitSend (h : s.Ok) : ∃ op, emitSend s = some op := by
  unfold Xelp.emitSend euSendExDesc euControl euSendDst euSendSrc
  simp only [guard, if_pos h.exDesc, if_pos h.lanes, if_pos h.maskOffset, if_pos h.end_le,
    h.dst.euRegNumber, h.src0.euRegNumber, h.src1.euRegNumber]
  exact ⟨_, rfl⟩

/-- **A send loses nothing**: whatever the descriptors, the registers, the target and the flags are,
the fields of its words are apart, and all of them can be gathered. -/
theorem emitSend_lossless (hs : s.Ok) : ∃ op, emitSend s = some op ∧
    [op.word0, op.word1, op.word2, op.word3] = s.layout.map assemble ∧
      (∀ fs ∈ s.layout, fs.Pairwise WordField.Apart) ∧ gather op = s.operands := by
  obtain ⟨op, h⟩ := hs.emitSend
  exact ⟨op, h, gather_emitSend h⟩

/-- The last send of a kernel. -/
def endSend : Send where
  opcode := 0x31
  lanes := 8
  maskOffset := 0
  swsb := 0x91
  noMask := false
  dst := ⟨0, 0⟩
  dstFile := .arf
  eot := true
  target := .ts
  src0 := ⟨118, 0⟩
  src0File := .grf
  src1 := ⟨0, 0⟩
  src1File := .arf
  desc := 0x2000010
  exDesc := 0x10000000

theorem emitSend_lossless_end : ∃ op, emitSend endSend = some op ∧
    [op.word0, op.word1, op.word2, op.word3] = endSend.layout.map assemble ∧
      (∀ fs ∈ endSend.layout, fs.Pairwise WordField.Apart) ∧ gather op = endSend.operands :=
  emitSend_lossless ⟨by decide, by decide, by decide, ⟨rfl, by decide⟩, ⟨rfl, by decide⟩,
    ⟨rfl, by decide⟩, by decide⟩

end OdinSon.Xelp
