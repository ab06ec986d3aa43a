import OdinSon.Codegen.Amd64FoldSound
import OdinSon.Codegen.Amd64Frame

/-!
# The alignment of folded vectors

A load of 16 bytes is a `movups`, which takes any address.  Folded into an operation it becomes the
memory operand of an instruction like `paddb`, which faults unless its address is a multiple of 16,
and `post_schedule_peep` does not look at the address.

The prologue of `emit_function` leaves the stack pointer, less the part of the red zone that is used,
at a multiple of 16 (`frame_aligned`).  But the locals lie one after another from the one with the
fewest trailing zeros in its size on, behind the arguments of calls, and no local is aligned: a
vector behind a local of 8 bytes is not (`not_folded_aligned_twoLocals`).
-/

namespace OdinSon.Codegen.Amd64

open MachInt AmdGraph

/-- An operation on vectors with its right operand in memory: `emit_instr` emits an instruction of
SSE for it. -/
def AmdNode.IsSse (n : AmdNode) : Prop :=
  ∃ op, n.rtype = .bin op ∧ op.isComparison = false ∧ n.memOp.memMode = .src ∧ n.dt = .v128

/-- The base of a memory operand, by what `reg_and_disp_of` looks at: the `i`-th local of the frame,
the `i`-th parameter that is bytes on the stack, the `i`-th argument of a call, a global, or a value
in a register. -/
inductive Base where
  | body (i : ℕ)
  | param (i : ℕ)
  | callArg (sizes : List ℤ) (i : ℕ)
  | symbol (id : NodeId)
  | value (id : NodeId)

/-- What is given in a run. -/
structure Run where
  /-- The stack pointer at the entry. -/
  entry : BitVec 64
  /-- The addresses of the globals. -/
  symbol : NodeId → BitVec 64
  /-- The values of the nodes. -/
  word : NodeId → BitVec 64

namespace Base

/-- The function has the area. -/
def In (f : Func) : Base → Prop
  | body i => i < f.locals.length
  | param i => i < f.stackParams.length
  | callArg sizes i => sizes ∈ f.calls ∧ i < sizes.length
  | symbol _ | value _ => True

/-- `Local.offset`, once the frame is laid out. -/
def offset (f : Func) : Base → ℤ
  | body i => f.frame.localOffsets.getD i 0
  | param i => f.frame.paramOffsets.getD (f.regParams.length + i) 0
  | callArg sizes i => (layout 0 sizes).1.getD i 0
  | symbol _ | value _ => 0

end Base

/-- The stack pointer after the prologue. -/
def Func.rsp (f : Func) (r : Run) : BitVec 64 :=
  r.entry - BitVec.ofInt 64 f.frame.pushed - BitVec.ofInt 64 f.frame.stackSize

/-- The index of a memory operand, with its scale. -/
def AmdNode.scaled (n : AmdNode) (r : Run) : BitVec 64 :=
  if n.memOp.scale = 0 then 0 else r.word (n.inps.getLastD 0) * n.memOp.scale.setWidth 64

/-- The address that the emitted operand has. -/
def Func.effective (f : Func) (r : Run) (base : Base) (n : AmdNode) : BitVec 64 :=
  match base with
  | .symbol id => r.symbol id + n.memOp.dis.signExtend 64 + n.scaled r
  | .value id => r.word id + n.memOp.dis.signExtend 64 + n.scaled r
  | base =>
    f.rsp r + BitVec.ofInt 64 (wrap 32 (base.offset f + n.memOp.dis.toInt)) + n.scaled r

/-! ### The frame modulo 16 -/

theorem toNat_ofInt_emod (x : ℤ) : ((BitVec.ofInt 64 x).toNat : ℤ) % 16 = x % 16 := by
  rw [BitVec.toNat_ofInt, Int.toNat_of_nonneg (Int.emod_nonneg _ (by decide))]
  exact Int.emod_emod_of_dvd x (by decide)

theorem toInt_emod (x : BitVec 64) : x.toInt % 16 = (x.toNat : ℤ) % 16 := by
  rw [← toNat_ofInt_emod, BitVec.ofInt_toInt]

theorem wrap_emod (x : ℤ) : wrap 32 x % 16 = x % 16 := wrap_i32_emod x (by decide)

namespace Func

variable {f : Func}

theorem layoutLocals_wrap : layoutLocals f.locals (layoutCallArgs f.calls 0) =
    ((layoutLocals f.locals f.argBytes).1, wrap 32 (f.argBytes + f.localBytes)) := by
  obtain ⟨hlow, hhigh, -⟩ := @layoutCallArgs_bounds f.calls 0 (by decide)
  refine Prod.ext rfl ?_
  rw [← sum_sortLocals]
  exact layout_snd (wrap_i32 (le_trans (by decide) hlow) hhigh)

theorem layoutSpillSlots_wrap : (layoutSpillSlots boundary f.allocs (wrap 32 f.bodyBytes)).2 =
    wrap 32 (f.bodyBytes + 8 * f.slots .general + 16 * f.slots .vector) := by
  simp only [layoutSpillSlots, spillSlotSize, wrap_add_wrap]
  rw [mul_comm (8 : ℤ), mul_comm (16 : ℤ)]
  rfl

/-- The bytes of the frame before it is aligned, as an `i32`. -/
theorem rawStack_eq (offset : ℤ) : (computeParamOffsets f.paramSpecs
    (wrap 32 (f.bodyBytes + 8 * f.slots .general + 16 * f.slots .vector)) offset).stackSize =
      wrap 32 f.rawBytes := by
  rw [computeParamOffsets_stackSize _ _ (wrap_wrap 32 _), valueBytes_eq, wrap_sub_wrap, rawBytes]

/-- The frame is aligned: there is a call, or something in it. -/
def Aligns (f : Func) : Prop := f.hasCall = true ∨ wrap 32 f.rawBytes ≠ 0

instance (f : Func) : Decidable f.Aligns := inferInstanceAs (Decidable (_ ∨ _))

/-- The bytes of the frame, with the red zone. -/
def totalBytes (f : Func) : ℤ :=
  let toAlign := wrap 32 (f.savedBytes + 8 + wrap 32 f.rawBytes)
  if f.Aligns then wrap 32 (wrap 32 f.rawBytes + wrap 32 (wrap 32 (alignForward toAlign 16) - toAlign))
  else wrap 32 f.rawBytes

/-- What the frame is, whatever the sizes. -/
structure FrameIs (f : Func) : Prop where
  pushed : f.frame.pushed = f.savedBytes
  used : f.frame.usedRedZone = if f.hasCall then 0 else min f.redZoneSize f.totalBytes
  stackSize : f.frame.stackSize = f.totalBytes - f.frame.usedRedZone
  locals : f.frame.localOffsets = (layoutLocals f.locals f.argBytes).1.map fun offset =>
    wrap 32 (offset - f.frame.usedRedZone)
  params : f.frame.paramOffsets = (computeParamOffsets f.paramSpecs
    (wrap 32 (f.bodyBytes + 8 * f.slots .general + 16 * f.slots .vector))
    (f.savedBytes + 8)).offsets.map fun offset => wrap 32 (offset + f.frame.stackSize)

theorem frame_is (f : Func) : FrameIs f := by
  have hraw := rawStack_eq (f := f) (f.savedBytes + 8)
  have hsaved : 8 * (f.savedRegs.length : ℤ) = f.savedBytes := rfl
  have htotal : (if f.hasCall = true ∨ wrap 32 f.rawBytes ≠ 0 then
      wrap 32 (wrap 32 f.rawBytes + wrap 32 (wrap 32 (alignForward
        (wrap 32 (f.savedBytes + 8 + wrap 32 f.rawBytes)) 16) -
          wrap 32 (f.savedBytes + 8 + wrap 32 f.rawBytes)))
      else wrap 32 f.rawBytes) = f.totalBytes := rfl
  cases hk : f.tempSlot with
  | none =>
    have hbody : wrap 32 (f.argBytes + f.localBytes) = wrap 32 f.bodyBytes := by
      simp [bodyBytes, tempBytes, hk]
    refine ⟨rfl, ?_, ?_, ?_, ?_⟩ <;>
      simp only [frame, layoutLocals_wrap, hk, hbody, layoutSpillSlots_wrap, hsaved, hraw, htotal]
  | some k =>
    have hbody : wrap 32 (wrap 32 (f.argBytes + f.localBytes) + spillSlotSize k) =
        wrap 32 f.bodyBytes := by
      simp [bodyBytes, tempBytes, hk, wrap_add_wrap]
    refine ⟨rfl, ?_, ?_, ?_, ?_⟩ <;>
      simp only [frame, layoutLocals_wrap, hk, hbody, layoutSpillSlots_wrap, hsaved, hraw, htotal]

theorem alignForward_emod (x : ℤ) : alignForward x 16 % 16 = 0 := by
  rw [alignForward]
  omega

/-- **The stack pointer is aligned in the body**, but for the part of the red zone that is used. -/
theorem frame_aligned (h : f.Aligns) : (f.savedBytes + 8 + f.totalBytes) % 16 = 0 := by
  have ha := alignForward_emod (wrap 32 (f.savedBytes + 8 + wrap 32 f.rawBytes))
  have h₁ := wrap_emod (f.savedBytes + 8 + wrap 32 f.rawBytes)
  rw [totalBytes, if_pos h]
  have h₂ := wrap_emod (wrap 32 f.rawBytes + wrap 32 (wrap 32 (alignForward
    (wrap 32 (f.savedBytes + 8 + wrap 32 f.rawBytes)) 16) -
      wrap 32 (f.savedBytes + 8 + wrap 32 f.rawBytes)))
  have h₃ := wrap_emod (wrap 32 (alignForward
    (wrap 32 (f.savedBytes + 8 + wrap 32 f.rawBytes)) 16) -
      wrap 32 (f.savedBytes + 8 + wrap 32 f.rawBytes))
  have h₄ := wrap_emod (alignForward (wrap 32 (f.savedBytes + 8 + wrap 32 f.rawBytes)) 16)
  omega

/-- Without calls and with nothing in the frame there is no red zone in use either. -/
theorem totalBytes_of_not_aligns (h : ¬f.Aligns) :
    f.totalBytes = 0 ∧ f.frame.usedRedZone = 0 := by
  have hz : f.totalBytes = 0 := by
    rw [totalBytes, if_neg h]
    by_contra hne
    exact h (.inr hne)
  refine ⟨hz, ?_⟩
  rw [(frame_is f).used, hz]
  split_ifs
  · rfl
  · exact min_eq_right f.redZoneSize_nonneg

/-- What the stack pointer misses to a multiple of 16 in the body. -/
def skew (f : Func) : ℤ := if f.Aligns then 0 else 8 - f.savedBytes

/-- The stack pointer and the red zone together. -/
theorem rsp_emod (f : Func) (r : Run) (h : r.entry.toNat % 16 = 8) :
    (r.entry.toInt - f.frame.pushed - f.frame.stackSize - f.frame.usedRedZone) % 16 =
      f.skew % 16 := by
  have he := toInt_emod r.entry
  rw [(frame_is f).stackSize, (frame_is f).pushed, skew]
  split_ifs with ha
  · have := frame_aligned ha
    omega
  · obtain ⟨hz, hu⟩ := totalBytes_of_not_aligns ha
    omega

end Func

/-- The offset of a parameter modulo 16. -/
theorem getElem?_offsets_emod {params : List ParamSpec} {i : ℕ} (hi : i < params.length)
    (stack offset : ℤ) : ∃ o, (computeParamOffsets params stack offset).offsets[i]? = some o ∧
      o % 16 = (offset + ((params.take i).map (·.size)).sum) % 16 := by
  induction params generalizing i stack offset with
  | nil => exact absurd hi (Nat.not_lt_zero i)
  | cons p params ih =>
    rw [computeParamOffsets]
    cases i with
    | zero => exact ⟨offset, rfl, by simp⟩
    | succ i =>
      rw [List.length_cons] at hi
      obtain ⟨o, ho, hmod⟩ := ih (Nat.lt_of_succ_lt_succ hi)
        (if p.isValue then wrap 32 (stack - p.size) else stack) (wrap 32 (offset + p.size))
      refine ⟨o, ho, ?_⟩
      have := wrap_emod (offset + p.size)
      rw [hmod, List.take_succ_cons, List.map_cons, List.sum_cons]
      omega

namespace Base

/-- **The bytes below the base**, as far as they count for its alignment: for a local those of the
arguments of calls and of the locals before it, for a parameter those of the parameters before. -/
def bytes (f : Func) (r : Run) : Base → ℤ
  | body i => f.argBytes + (((sortLocals f.locals).map (·.size)).take i).sum + f.skew
  | param i => ((f.stackParams.map (·.spec.size)).take i).sum
  | callArg sizes i => (sizes.take i).sum
  | symbol id => (r.symbol id).toInt
  | value id => (r.word id).toInt

end Base

/-- The index of an operand, as a number. -/
def AmdNode.indexBytes (n : AmdNode) (r : Run) : ℤ :=
  if n.memOp.scale = 0 then 0 else (r.word (n.inps.getLastD 0)).toInt * n.memOp.scale.toNat

theorem scaled_eq (n : AmdNode) (r : Run) : n.scaled r = BitVec.ofInt 64 (n.indexBytes r) := by
  unfold AmdNode.scaled AmdNode.indexBytes
  split_ifs
  · rfl
  · have hscale : n.memOp.scale.setWidth 64 = BitVec.ofInt 64 n.memOp.scale.toNat := by
      rw [BitVec.ofInt_natCast, BitVec.ofNat_toNat]
    rw [BitVec.ofInt_mul, BitVec.ofInt_toInt, hscale]

/-- An address modulo 16. -/
theorem toNat_add_emod (x : BitVec 64) (d i : ℤ) :
    ((x + BitVec.ofInt 64 d + BitVec.ofInt 64 i).toNat : ℤ) % 16 = (x.toInt + d + i) % 16 := by
  rw [← BitVec.ofInt_toInt (x := x), ← BitVec.ofInt_add, ← BitVec.ofInt_add, toNat_ofInt_emod,
    BitVec.ofInt_toInt]

theorem rsp_toInt_emod (f : Func) (r : Run) :
    (f.rsp r).toInt % 16 = (r.entry.toInt - f.frame.pushed - f.frame.stackSize) % 16 := by
  have h : f.rsp r = BitVec.ofInt 64 (r.entry.toInt - f.frame.pushed - f.frame.stackSize) := by
    rw [Func.rsp, sub_eq_add_neg (a := r.entry.toInt - _), sub_eq_add_neg (a := r.entry.toInt),
      BitVec.ofInt_add, BitVec.ofInt_add, BitVec.ofInt_toInt, BitVec.ofInt_neg, BitVec.ofInt_neg,
      BitVec.sub_eq_add_neg, BitVec.sub_eq_add_neg]
  rw [h, toInt_emod, toNat_ofInt_emod]

/-- **The address of an operand is aligned iff the bytes below it are a multiple of 16.** -/
theorem effective_aligned_iff {f : Func} {r : Run} {base : Base} (hbase : base.In f)
    (habi : r.entry.toNat % 16 = 8) (n : AmdNode) :
    (f.effective r base n).toNat % 16 = 0 ↔
      (base.bytes f r + n.memOp.dis.toInt + n.indexBytes r) % 16 = 0 := by
  have hrsp := rsp_toInt_emod f r
  have hskew := Func.rsp_emod f r habi
  have hframe := Func.frame_is f
  have hsext : n.memOp.dis.signExtend 64 = BitVec.ofInt 64 n.memOp.dis.toInt := rfl
  -- an operand whose base is the stack pointer, with the offset of an area
  have hstack (off below : ℤ) (hoff : (r.entry.toInt - f.frame.pushed - f.frame.stackSize + off) % 16
      = below % 16) : (f.rsp r + BitVec.ofInt 64 (wrap 32 (off + n.memOp.dis.toInt)) +
        n.scaled r).toNat % 16 = 0 ↔
      (below + n.memOp.dis.toInt + n.indexBytes r) % 16 = 0 := by
    have h := toNat_add_emod (f.rsp r) (wrap 32 (off + n.memOp.dis.toInt)) (n.indexBytes r)
    have hw := wrap_emod (off + n.memOp.dis.toInt)
    rw [← scaled_eq] at h
    omega
  -- an operand whose base is in a register or a symbol
  have hword (x : BitVec 64) : (x + n.memOp.dis.signExtend 64 + n.scaled r).toNat % 16 = 0 ↔
      (x.toInt + n.memOp.dis.toInt + n.indexBytes r) % 16 = 0 := by
    have h := toNat_add_emod x n.memOp.dis.toInt (n.indexBytes r)
    rw [← scaled_eq, ← hsext] at h
    omega
  cases base with
  | symbol id => exact hword _
  | value id => exact hword _
  | body i =>
    refine hstack (f.frame.localOffsets.getD i 0) _ ?_
    have hlen : i < ((sortLocals f.locals).map (·.size)).length := by
      rw [List.length_map, sortLocals, List.length_mergeSort]
      exact hbase
    have hget : (layout f.argBytes ((sortLocals f.locals).map (·.size))).1[i]? = _ :=
      getElem?_layout (List.getElem?_eq_getElem hlen)
    have hoff : f.frame.localOffsets.getD i 0 = wrap 32 (wrap 32 (f.argBytes +
        (((sortLocals f.locals).map (·.size)).take i).sum) - f.frame.usedRedZone) := by
      rw [hframe.locals, List.getD_eq_getElem?_getD, List.getElem?_map, layoutLocals, hget]
      rfl
    have h₁ := wrap_emod (wrap 32 (f.argBytes +
      (((sortLocals f.locals).map (·.size)).take i).sum) - f.frame.usedRedZone)
    have h₂ := wrap_emod (f.argBytes + (((sortLocals f.locals).map (·.size)).take i).sum)
    rw [hoff, Base.bytes]
    omega
  | param i =>
    refine hstack (f.frame.paramOffsets.getD (f.regParams.length + i) 0) _ ?_
    have hlen : f.regParams.length + i < f.paramSpecs.length := by
      rw [Func.paramSpecs, List.length_append, List.length_map, List.length_map]
      exact Nat.add_lt_add_left hbase _
    obtain ⟨o, ho, hmod⟩ := getElem?_offsets_emod hlen
      (wrap 32 (f.bodyBytes + 8 * f.slots .general + 16 * f.slots .vector)) (f.savedBytes + 8)
    have hoff : f.frame.paramOffsets.getD (f.regParams.length + i) 0 =
        wrap 32 (o + f.frame.stackSize) := by
      rw [hframe.params, List.getD_eq_getElem?_getD, List.getElem?_map, ho]
      rfl
    -- the parameters in registers have no size
    have hsum : ((f.paramSpecs.take (f.regParams.length + i)).map (·.size)).sum =
        ((f.stackParams.map (·.spec.size)).take i).sum := by
      rw [List.map_take, Func.map_size_paramSpecs, List.take_append, List.sum_append]
      simp
    have h₁ := wrap_emod (o + f.frame.stackSize)
    have he := toInt_emod r.entry
    have hp := hframe.pushed
    rw [hsum] at hmod
    rw [hoff, Base.bytes]
    omega
  | callArg sizes i =>
    refine hstack ((layout 0 sizes).1.getD i 0) _ ?_
    obtain ⟨hsizes, hlen⟩ := hbase
    have hoff : (layout 0 sizes).1.getD i 0 = wrap 32 ((sizes.take i).sum) := by
      rw [List.getD_eq_getElem?_getD, getElem?_layout (List.getElem?_eq_getElem hlen), zero_add]
      rfl
    have hcall : f.hasCall = true := by
      rw [Func.hasCall, List.isEmpty_eq_false_iff.2 (List.ne_nil_of_mem hsizes)]
      simp
    have hused : f.frame.usedRedZone = 0 := by rw [hframe.used, if_pos hcall]
    have hsk : f.skew = 0 := if_pos (.inl hcall)
    have h₁ := wrap_emod (sizes.take i).sum
    rw [hoff, Base.bytes]
    omega

/-! ### Folded loads -/

/-- What the new node has of the load: the base, the displacement and the index. -/
theorem operand_of_fold {g g₁ : AmdGraph} {preds : List NodeId} {instr new : NodeId}
    (hpos : g.pos ≠ 0) (h : g.postSchedulePeep preds instr = some (g₁, new))
    (hsh : (g.getNode ((g.getNode instr).inp 1)).Shaped g) (hsse : (g₁.getNode new).IsSse) :
    (g₁.getNode new).inp 2 = (g.getNode ((g.getNode instr).inp 1)).inp 2 ∧
      (g₁.getNode new).memOp.dis = (g.getNode ((g.getNode instr).inp 1)).memOp.dis ∧
      ∀ r, (g₁.getNode new).indexBytes r = (g.getNode ((g.getNode instr).inp 1)).indexBytes r := by
  obtain ⟨rfl, ⟨op, ht, -, hf, rfl⟩ | ⟨op, ht, -, -, -, rfl⟩⟩ := postSchedulePeep_cases h
  · obtain ⟨hload, -⟩ := isFoldable_spec hf
    obtain ⟨-, -, hbase, hlast⟩ := foldSlots_spec hsh hload ((g.getNode instr).inp 0)
    rw [getNode_makeNode hpos, if_pos rfl]
    refine ⟨hbase, rfl, fun r => ?_⟩
    simp only [AmdNode.indexBytes]
    by_cases hs : (g.getNode ((g.getNode instr).inp 1)).memOp.scale = 0
    · rw [if_pos hs, if_pos hs]
    · rw [if_neg hs, if_neg hs, hlast hs]
  · -- a comparison with memory is no instruction of SSE
    rw [getNode_makeNode hpos, if_pos rfl] at hsse
    obtain ⟨op', -, -, hmode, -⟩ := hsse
    cases hmode

/-- **When a folded vector is aligned**, for every function, every load of 16 bytes that is folded
into an operation, and every run whose stack pointer obeys the ABI at the entry: its address is a
multiple of 16 iff the bytes below its base, the displacement and the index add up to one.  For a
local of the frame the bytes below are those of the arguments of calls and of the locals before it;
nothing makes them a multiple of 16. -/
theorem foldedVector_aligned_iff {g g₁ : AmdGraph} {preds : List NodeId} {instr new : NodeId}
    (hpos : g.pos ≠ 0) (h : g.postSchedulePeep preds instr = some (g₁, new))
    (hsh : (g.getNode ((g.getNode instr).inp 1)).Shaped g) (hsse : (g₁.getNode new).IsSse)
    (f : Func) (baseOf : NodeId → Base)
    (hbase : (baseOf ((g.getNode ((g.getNode instr).inp 1)).inp 2)).In f) {r : Run}
    (habi : r.entry.toNat % 16 = 8) :
    (f.effective r (baseOf ((g₁.getNode new).inp 2)) (g₁.getNode new)).toNat % 16 = 0 ↔
      ((baseOf ((g.getNode ((g.getNode instr).inp 1)).inp 2)).bytes f r +
        (g.getNode ((g.getNode instr).inp 1)).memOp.dis.toInt +
        (g.getNode ((g.getNode instr).inp 1)).indexBytes r) % 16 = 0 := by
  obtain ⟨hinp, hdis, hindex⟩ := operand_of_fold hpos h hsh hsse
  rw [← hinp] at hbase
  rw [← hinp, ← hdis, ← hindex]
  exact effective_aligned_iff hbase habi _

theorem calls_nonneg_nil : ∀ sizes ∈ ([] : List (List ℤ)), ∀ n ∈ sizes, 0 ≤ n := nofun

/-- A function without calls whose locals have the given sizes. -/
def onlyLocals (locals : List LocalSlot) (hlocals : ∀ l ∈ locals, 0 ≤ l.size) : Func where
  calls := []
  libCall := false
  locals := locals
  tempSlot := none
  allocs := []
  calleeSaved := Func.systemVCalleeSaved
  args := Func.systemVArgs
  redZoneSize := 128
  regParams := [.v128]
  stackParams := []
  calls_nonneg := calls_nonneg_nil
  locals_nonneg := hlocals
  redZoneSize_nonneg := Func.systemVRedZoneSize_nonneg
  regParams_dt := by decide
  bytes_nonneg := nofun
  value_size := nofun
  args_full := nofun

/-- `x & *p` on vectors, where `p` is the second of two locals, `2` and `3`. -/
def andLoad : AmdGraph :=
  let g : AmdGraph := { mem := fun _ => { rtype := .base .dead }, pos := 1 }
  let g := (g.addNode (.base .mem) .mem [] {} .i8).1
  let g := (g.addNode (.base .local) .void [1] {} .i8).1
  let g := (g.addNode (.base .local) .void [1] {} .i8).1
  let g := (g.addNode (.base .param) .v128 [] {} .i8).1
  let g := (g.addNode .load .v128 [0, 1, 3] { dt := .v128 } .i8).1
  let g := (g.addNode (.base (.bin .and)) .v128 [4, 5] {} .i8).1
  (g.addNode .store .void [0, 1, 3, 6] { dt := .v128 } .i8).1

/-- With the load folded. -/
def andFolded : AmdGraph :=
  (andLoad.makeNode 6 (.bin .and) [0, 1, 3, 4] { dt := .v128, memMode := .src } true).1

theorem postSchedulePeep_andLoad : andLoad.postSchedulePeep [5] 6 = some (andFolded, 8) := rfl

theorem isSse_andFolded : (andFolded.getNode 8).IsSse := ⟨.and, rfl, rfl, rfl, rfl⟩

theorem shaped_andLoad : (andLoad.getNode ((andLoad.getNode 6).inp 1)).Shaped andLoad :=
  ⟨nofun, nofun, fun _ => rfl, nofun⟩

/-- A local of 16 bytes alone. -/
def oneLocal : Func := onlyLocals [⟨3, 16⟩] (by decide)

/-- Before it one of 8 bytes. -/
def twoLocals : Func := onlyLocals [⟨2, 8⟩, ⟨3, 16⟩] (by decide)

/-- A stack pointer as a call leaves it. -/
def someRun : Run := { entry := 0x1008, symbol := fun _ => 0, word := fun _ => 0 }

/-- A vector that is the only local is aligned. -/
theorem foldedVector_aligned_oneLocal :
    (oneLocal.effective someRun (.body 0) (andFolded.getNode 8)).toNat % 16 = 0 :=
  (foldedVector_aligned_iff (by decide) postSchedulePeep_andLoad shaped_andLoad isSse_andFolded
    oneLocal (fun _ => .body 0) (show 0 < 1 by decide) (by decide)).2 (by decide)

theorem sortLocals_twoLocals : sortLocals twoLocals.locals = [⟨2, 8⟩, ⟨3, 16⟩] :=
  List.mergeSort_of_pairwise (by decide)

/-- Behind a local of 8 bytes it is not. -/
theorem not_foldedVector_aligned_twoLocals :
    andLoad.postSchedulePeep [5] 6 = some (andFolded, 8) ∧ (andFolded.getNode 8).IsSse ∧
      someRun.entry.toNat % 16 = 8 ∧ (Base.body 1).In twoLocals ∧
      (twoLocals.effective someRun (.body 1) (andFolded.getNode 8)).toNat % 16 ≠ 0 := by
  have hbase : (Base.body 1).In twoLocals := show 1 < 2 by decide
  refine ⟨postSchedulePeep_andLoad, isSse_andFolded, by decide, hbase, fun h => ?_⟩
  have := (effective_aligned_iff hbase (by decide) (andFolded.getNode 8)).1 h
  rw [Base.bytes, sortLocals_twoLocals] at this
  exact absurd this (by decide)

end OdinSon.Codegen.Amd64
