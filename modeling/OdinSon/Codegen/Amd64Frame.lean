import OdinSon.Codegen.Frame
import Mathlib.Data.List.Dedup

/-!
# The stack frame on amd64

The frame that `emit_function` (`bac/amd64/amd64.odin`) lays out: from the stack pointer up there are
the arguments of calls, the locals, a temporary slot, the slots of spilled live ranges, the saved
registers, the return address and the parameters that come on the stack.

The frame gets smaller by the parameters that are values, since the allocation has slots for them
and they are in the frame of the caller.  But it only has those slots when it uses the parameters,
and the slots of vectors start after all the slots of general registers.  So the areas are apart
only on a condition (`areas_apart_iff`).  The caller puts an argument right after the one before,
the callee takes 8 bytes for a value, so the offsets agree if sizes do.
-/

namespace OdinSon.Codegen.Amd64

open Lib MachInt

/-- `spill_boundary`. -/
def boundary : RegKind → ℕ
  | .general => 17
  | .vector => 16

/-- A parameter that comes on the stack: a value, or the bytes of a type. -/
inductive StackParam where
  | value (dt : Datatype) (typeSize : ℤ)
  | bytes (typeSize : ℤ)
  deriving DecidableEq, Repr

namespace StackParam

/-- The size of the type, which is the size of the local of the caller (`alloca`). -/
def typeSize : StackParam → ℤ
  | value _ size => size
  | bytes size => size

/-- What `arg_gen_finalize` makes of it. -/
def spec : StackParam → ParamSpec
  | value dt _ => ⟨dt, 8⟩
  | bytes size => ⟨.void, alignForward size 8⟩

end StackParam

/-- What the layout of a frame depends on. -/
structure Func where
  /-- The calls, with the sizes of the arguments that they pass on the stack. -/
  calls : List (List ℤ)
  /-- There is a `Set` or a `Copy`. -/
  libCall : Bool
  /-- The locals, in the order of their offsets. -/
  locals : List LocalSlot
  /-- The kind of the register that is put aside for moves between slots, if there are any. -/
  tempSlot : Option RegKind
  /-- The registers that the nodes have. -/
  allocs : List Reg
  /-- The general registers that belong to the caller. -/
  calleeSaved : List ℕ
  /-- The registers for arguments. -/
  args : RegKind → List ℕ
  /-- The bytes below the stack pointer that may be used. -/
  redZoneSize : ℤ
  /-- The parameters that come in registers. -/
  regParams : List Datatype
  /-- The parameters that come on the stack. -/
  stackParams : List StackParam
  calls_nonneg : ∀ sizes ∈ calls, ∀ n ∈ sizes, 0 ≤ n
  locals_nonneg : ∀ l ∈ locals, 0 ≤ l.size
  redZoneSize_nonneg : 0 ≤ redZoneSize
  regParams_dt : ∀ dt ∈ regParams, dt ≠ .void
  bytes_nonneg : ∀ size, .bytes size ∈ stackParams → 0 ≤ size
  /-- A value on the stack takes one word at most. -/
  value_size : ∀ dt size, .value dt size ∈ stackParams → dt ≠ .void ∧ 0 ≤ size ∧ size ≤ 8
  /-- A value comes on the stack when there is no register left for it (`abi_sm_add`). -/
  args_full : ∀ dt size, .value dt size ∈ stackParams →
    regParams.countP (regKind · = regKind dt) = (args (regKind dt)).length

/-- Where things are, from the stack pointer after the prologue. -/
structure Frame where
  /-- The bytes of the registers that were pushed. -/
  pushed : ℤ
  /-- What the prologue takes off the stack pointer. -/
  stackSize : ℤ
  /-- How much of the frame is below the stack pointer. -/
  usedRedZone : ℤ
  /-- The offsets of the locals. -/
  localOffsets : List ℤ
  /-- The offset of the slot for that register. -/
  tempSlotOffset : ℤ
  /-- The offset of the first spill slot of a kind. -/
  spillSlotBase : RegKind → ℤ
  /-- The offsets of the parameters. -/
  paramOffsets : List ℤ
  /-- The offsets of the parameters of a kind that are values on the stack. -/
  stackParamOffset : RegKind → List ℤ

namespace Func

variable (f : Func)

/-- `has_call`. -/
def hasCall : Bool := f.libCall || !f.calls.isEmpty

/-- `param_specs`. -/
def paramSpecs : List ParamSpec :=
  f.regParams.map (fun dt => ⟨dt, 0⟩) ++ f.stackParams.map (·.spec)

/-- The registers that are pushed. -/
def savedRegs : List ℕ := f.calleeSaved.filter fun r => ⟨.general, r⟩ ∈ f.allocs

/-- The part of `emit_function` that lays out the frame. -/
def frame : Frame :=
  let stackSize := layoutCallArgs f.calls 0
  let (localOffsets, stackSize) := layoutLocals f.locals stackSize
  let (tempSlotOffset, stackSize) :=
    match f.tempSlot with
    | none => (0, stackSize)
    | some k => (stackSize, wrap 32 (stackSize + spillSlotSize k))
  let pushed : ℤ := 8 * f.savedRegs.length
  let (spillSlotBase, stackSize) := layoutSpillSlots boundary f.allocs stackSize
  let params := computeParamOffsets f.paramSpecs stackSize (pushed + 8)
  let stackSize := params.stackSize
  let stackSize :=
    if f.hasCall ∨ stackSize ≠ 0 then
      let toAlign := wrap 32 (pushed + 8 + stackSize)
      let padding := wrap 32 (wrap 32 (alignForward toAlign 16) - toAlign)
      wrap 32 (stackSize + padding)
    else stackSize
  let usedRedZone := if f.hasCall then 0 else min f.redZoneSize stackSize
  let stackSize := stackSize - usedRedZone
  { pushed, stackSize, usedRedZone
    localOffsets := localOffsets.map fun offset => wrap 32 (offset - usedRedZone)
    tempSlotOffset := wrap 32 (tempSlotOffset - usedRedZone)
    spillSlotBase := fun k => wrap 32 (spillSlotBase k - usedRedZone)
    paramOffsets := params.offsets.map fun offset => wrap 32 (offset + stackSize)
    stackParamOffset := fun k =>
      (params.stackParamOffset k).map fun offset => wrap 32 (offset + stackSize) }

/-! ### The areas -/

/-- The registers of spilled live ranges: those that are not the slots of parameters. -/
def spillRegs (k : RegKind) : List Reg :=
  (f.allocs.filter fun r =>
    r.kind = k ∧ boundary k + f.paramSpecs.countP (·.isValueOf k) ≤ r.index).dedup

/-- The slots of spilled live ranges. -/
def spillAreas (k : RegKind) : List Area :=
  (f.spillRegs k).map fun r =>
    ⟨spillSlotOffset boundary f.frame.stackParamOffset f.frame.spillSlotBase r, spillSlotSize k⟩

/-- The areas from the locals to the slots. -/
def lowAreas : List Area :=
  List.zipWith Area.mk f.frame.localOffsets ((sortLocals f.locals).map (·.size)) ++
    (f.tempSlot.toList.map fun k => ⟨f.frame.tempSlotOffset, spillSlotSize k⟩) ++
    f.spillAreas .general ++ f.spillAreas .vector

/-- The areas above: the saved registers, the last one pushed first, the return address and the
parameters. -/
def highAreas : List Area :=
  (List.range f.savedRegs.length).map (fun j : ℕ => ⟨f.frame.stackSize + 8 * j, 8⟩) ++
    ⟨f.frame.stackSize + f.frame.pushed, 8⟩ ::
    List.zipWith Area.mk (f.frame.paramOffsets.drop f.regParams.length)
      (f.stackParams.map (·.spec.size))

/-- All the areas; the arguments of calls are one of them. -/
def areas : List Area := ⟨0, layoutCallArgs f.calls 0⟩ :: (f.lowAreas ++ f.highAreas)

/-- The areas of the arguments of a call. -/
def callAreas (sizes : List ℤ) : List Area := List.zipWith Area.mk (layout 0 sizes).1 sizes

/-- Where the body reads the `i`-th parameter on the stack. -/
def readOffset (i : ℕ) : StackParam → ℤ
  | .value dt _ =>
    spillSlotOffset boundary f.frame.stackParamOffset f.frame.spillSlotBase
      (paramMask boundary f.args f.paramSpecs (f.regParams.length + i) dt)
  | .bytes _ => f.frame.paramOffsets.getD (f.regParams.length + i) 0

/-- Where the caller put it, from the stack pointer of the callee: above the frame, the saved
registers and the return address. -/
def callerOffset (i : ℕ) : ℤ :=
  f.frame.stackSize + f.frame.pushed + 8 +
    (layout 0 (f.stackParams.map (·.typeSize))).1.getD i 0

/-- **The frame is right**: its areas are apart, so are the arguments of each call in theirs, and the
parameters are where the caller put them. -/
structure Sound : Prop where
  apart : f.areas.Pairwise Area.Apart
  calls : ∀ sizes ∈ f.calls, (callAreas sizes).Pairwise Area.Apart ∧
    ∀ a ∈ callAreas sizes, 0 ≤ a.start ∧ a.stop ≤ layoutCallArgs f.calls 0
  params : ∀ i p, f.stackParams[i]? = some p → f.readOffset i p = f.callerOffset i

/-! ### Sizes -/

/-- The bytes of the arguments of calls. -/
def argBytes : ℤ := layoutCallArgs f.calls 0

/-- The bytes of the locals. -/
def localBytes : ℤ := (f.locals.map (·.size)).sum

/-- The bytes of the temporary slot. -/
def tempBytes : ℤ := (f.tempSlot.map spillSlotSize).getD 0

/-- The slots of the kind `k` that the allocation has, those of parameters included. -/
def slots (k : RegKind) : ℤ := spillSlotCount boundary f.allocs k

/-- The parameters on the stack that are values of the kind `k`. -/
def values (k : RegKind) : ℤ := f.paramSpecs.countP (·.isValueOf k)

/-- The bytes of the parameters on the stack. -/
def paramBytes : ℤ := (f.stackParams.map (·.spec.size)).sum

/-- The bytes of the saved registers. -/
def savedBytes : ℤ := 8 * f.savedRegs.length

/-- The bytes below the slots. -/
def bodyBytes : ℤ := f.argBytes + f.localBytes + f.tempBytes

/-- The bytes of the frame before it is aligned. -/
def rawBytes : ℤ :=
  f.bodyBytes + 8 * f.slots .general + 16 * f.slots .vector -
    8 * (f.values .general + f.values .vector)

/-- The bytes that align it. -/
def padding : ℤ :=
  if f.hasCall ∨ f.rawBytes ≠ 0 then -(f.savedBytes + 8 + f.rawBytes) % 16 else 0

/-- Everything fits an `i32`. -/
structure Fits : Prop where
  calls : ∀ sizes ∈ f.calls, sizes.sum < 2 ^ 31
  all : f.bodyBytes + 8 * f.slots .general + 16 * f.slots .vector + f.savedBytes + f.paramBytes +
    2 * 16 < 2 ^ 31

variable {f}

theorem spec_size_nonneg {p : StackParam} (h : p ∈ f.stackParams) : 0 ≤ p.spec.size := by
  cases p with
  | value dt size => exact (by decide : (0 : ℤ) ≤ 8)
  | bytes size =>
    have h0 := f.bytes_nonneg size h
    have := Int.emod_nonneg (-size) (by decide : (8 : ℤ) ≠ 0)
    simp only [StackParam.spec, alignForward]
    omega

theorem paramSpecs_nonneg {p : ParamSpec} (h : p ∈ f.paramSpecs) : 0 ≤ p.size := by
  obtain h | h := List.mem_append.1 h
  · obtain ⟨dt, -, rfl⟩ := List.mem_map.1 h
    exact le_refl _
  · obtain ⟨q, hq, rfl⟩ := List.mem_map.1 h
    exact spec_size_nonneg hq

/-- The sizes of the parameters: those in registers have none. -/
theorem map_size_paramSpecs :
    f.paramSpecs.map (·.size) =
      List.replicate f.regParams.length 0 ++ f.stackParams.map (·.spec.size) := by
  rw [paramSpecs, List.map_append, List.map_map, List.map_map]
  congr 1
  rw [List.eq_replicate_iff]
  refine ⟨by simp, fun n hn => ?_⟩
  obtain ⟨dt, -, rfl⟩ := List.mem_map.1 hn
  rfl

theorem sum_paramSpecs : (f.paramSpecs.map (·.size)).sum = f.paramBytes := by
  rw [map_size_paramSpecs, List.sum_append, List.sum_replicate, nsmul_zero, zero_add]
  rfl

theorem isValue_paramSpecs {p : ParamSpec} (h : p ∈ f.paramSpecs) (hv : p.isValue) : p.size = 8 := by
  simp only [ParamSpec.isValue, Bool.and_eq_true, decide_eq_true_eq] at hv
  obtain h | h := List.mem_append.1 h
  · obtain ⟨dt, -, rfl⟩ := List.mem_map.1 h
    exact absurd hv.1 (lt_irrefl _)
  · obtain ⟨q, -, rfl⟩ := List.mem_map.1 h
    cases q with
    | value dt size => rfl
    | bytes size => exact absurd rfl hv.2

/-- All values have 8 bytes. -/
theorem valueBytes_eq : valueBytes f.paramSpecs = 8 * (f.values .general + f.values .vector) := by
  suffices h : ∀ ps : List ParamSpec, (∀ p ∈ ps, p.isValue → p.size = 8) →
      valueBytes ps = 8 * ((ps.countP (·.isValueOf .general) : ℤ) +
        (ps.countP (·.isValueOf .vector) : ℤ)) from
    h _ fun p hp hv => isValue_paramSpecs hp hv
  intro ps hps
  induction ps with
  | nil => rfl
  | cons p ps ih =>
    rw [valueBytes_cons, ih fun q hq => hps q (List.mem_cons_of_mem _ hq), List.countP_cons,
      List.countP_cons]
    have hsize : (if p.isValue then p.size else 0) = if p.isValue then 8 else 0 := by
      split
      · exact hps p (List.mem_cons_self ..) ‹_›
      · rfl
    -- a value is of one of the two kinds
    have hone : (if p.isValue then (8 : ℤ) else 0) =
        8 * ((if p.isValueOf .general then 1 else 0 : ℕ) +
          (if p.isValueOf .vector then 1 else 0 : ℕ)) := by
      cases hv : p.isValue <;> cases hk : regKind p.dt <;> simp [ParamSpec.isValueOf, hv, hk]
    rw [hsize, hone]
    push_cast
    ring

theorem argBytes_nonneg : 0 ≤ f.argBytes :=
  (layoutCallArgs_bounds f.calls (by decide : (0 : ℤ) < 2 ^ 31)).1

theorem localBytes_nonneg : 0 ≤ f.localBytes := by
  refine List.sum_nonneg fun n hn => ?_
  obtain ⟨l, hl, rfl⟩ := List.mem_map.1 hn
  exact f.locals_nonneg l hl

theorem tempBytes_nonneg : 0 ≤ f.tempBytes := by
  rw [tempBytes]
  cases f.tempSlot with
  | none => exact le_refl _
  | some k => cases k <;> decide

/-- The values are among the parameters. -/
theorem values_le_paramBytes : 8 * (f.values .general + f.values .vector) ≤ f.paramBytes := by
  rw [← valueBytes_eq, ← sum_paramSpecs]
  have h : ∀ ps : List ParamSpec, (∀ p ∈ ps, 0 ≤ p.size) →
      valueBytes ps ≤ (ps.map (·.size)).sum := by
    intro ps hps
    induction ps with
    | nil => exact le_refl _
    | cons p ps ih =>
      have hp := hps p (List.mem_cons_self ..)
      have hrest := ih fun q hq => hps q (List.mem_cons_of_mem _ hq)
      rw [valueBytes_cons, List.map_cons, List.sum_cons]
      split <;> omega
  exact h _ fun p hp => paramSpecs_nonneg hp

theorem sum_sortLocals : ((sortLocals f.locals).map (·.size)).sum = f.localBytes :=
  ((List.mergeSort_perm f.locals _).map (·.size)).sum_eq

theorem sortLocals_nonneg : ∀ n ∈ (sortLocals f.locals).map (·.size), 0 ≤ n := by
  intro n hn
  obtain ⟨l, hl, rfl⟩ := List.mem_map.1 hn
  exact f.locals_nonneg l ((List.mergeSort_perm f.locals _).mem_iff.1 hl)

theorem padding_bounds : 0 ≤ f.padding ∧ f.padding < 16 := by
  rw [padding]
  split
  · exact ⟨Int.emod_nonneg _ (by decide), Int.emod_lt_of_pos _ (by decide)⟩
  · decide

/-- The part of the red zone that is used. -/
def redBytes (f : Func) : ℤ :=
  if f.hasCall then 0 else min f.redZoneSize (f.rawBytes + f.padding)

/-- The size of the frame without the red zone. -/
def frameBytes (f : Func) : ℤ := f.rawBytes + f.padding - f.redBytes

theorem sizes_nonneg : 0 ≤ f.argBytes ∧ 0 ≤ f.localBytes ∧ 0 ≤ f.tempBytes ∧
    0 ≤ f.slots .general ∧ 0 ≤ f.slots .vector ∧ 0 ≤ f.savedBytes ∧ 0 ≤ f.values .general ∧
    0 ≤ f.values .vector ∧ 8 * (f.values .general + f.values .vector) ≤ f.paramBytes :=
  ⟨argBytes_nonneg, localBytes_nonneg, tempBytes_nonneg, spillSlotCount_nonneg,
    spillSlotCount_nonneg, by rw [savedBytes]; omega, Int.natCast_nonneg _, Int.natCast_nonneg _,
    values_le_paramBytes⟩

theorem bodyBytes_nonneg : 0 ≤ f.bodyBytes := by
  obtain ⟨hargs, hlocals, htemp, -⟩ := sizes_nonneg (f := f)
  rw [bodyBytes]
  omega

theorem redBytes_le : f.redBytes ≤ max 0 (f.rawBytes + f.padding) := by
  rw [redBytes]
  split
  · exact le_max_left _ _
  · exact (min_le_right _ _).trans (le_max_right _ _)

theorem redBytes_ge : min 0 (f.rawBytes + f.padding) ≤ f.redBytes := by
  have := f.redZoneSize_nonneg
  rw [redBytes]
  split
  · exact min_le_left _ _
  · exact min_le_min_right _ this

/-- What the loops compute when nothing overflows. -/
structure FrameEq (f : Func) : Prop where
  pushed : f.frame.pushed = f.savedBytes
  stackSize : f.frame.stackSize = f.frameBytes
  locals : f.frame.localOffsets =
    (place (f.argBytes - f.redBytes) ((sortLocals f.locals).map (·.size))).map Area.start
  temp : f.tempSlot ≠ none →
    f.frame.tempSlotOffset = f.argBytes + f.localBytes - f.redBytes
  spillGeneral : f.frame.spillSlotBase .general = f.bodyBytes - f.redBytes
  spillVector : f.frame.spillSlotBase .vector =
    f.bodyBytes + 8 * f.slots .general - f.redBytes
  params : f.frame.paramOffsets =
    (place (f.savedBytes + 8 + f.frameBytes) (f.paramSpecs.map (·.size))).map Area.start

section Stages

theorem layoutLocals_eq (h : f.Fits) :
    layoutLocals f.locals (layoutCallArgs f.calls 0) =
      ((place f.argBytes ((sortLocals f.locals).map (·.size))).map Area.start,
        f.argBytes + f.localBytes) := by
  have hall := h.all
  obtain ⟨hargs, hlocals, htemp, hg, hv, hsaved, hng, hnv, hparams⟩ := sizes_nonneg (f := f)
  rw [bodyBytes] at hall
  rw [← sum_sortLocals]
  refine layout_eq hargs sortLocals_nonneg ?_
  rw [sum_sortLocals, ← argBytes]
  omega

theorem tempSlot_eq (h : f.Fits) :
    (match f.tempSlot with
      | none => ((0 : ℤ), f.argBytes + f.localBytes)
      | some k => (f.argBytes + f.localBytes,
          wrap 32 (f.argBytes + f.localBytes + spillSlotSize k))) =
      (if f.tempSlot = none then 0 else f.argBytes + f.localBytes, f.bodyBytes) := by
  have hall := h.all
  obtain ⟨hargs, hlocals, htemp, hg, hv, hsaved, hng, hnv, hparams⟩ := sizes_nonneg (f := f)
  rw [bodyBytes] at hall ⊢
  rw [tempBytes] at hall htemp ⊢
  cases hk : f.tempSlot with
  | none => simp
  | some k =>
    rw [hk, Option.map_some, Option.getD_some] at hall htemp
    rw [if_neg (Option.some_ne_none k), Option.map_some, Option.getD_some]
    dsimp only
    rw [wrap_i32 (by omega) (by omega)]

theorem layoutSpillSlots_eq (h : f.Fits) :
    layoutSpillSlots boundary f.allocs f.bodyBytes =
      (fun | .general => f.bodyBytes | .vector => f.bodyBytes + 8 * f.slots .general,
        f.bodyBytes + 8 * f.slots .general + 16 * f.slots .vector) := by
  have hall := h.all
  have hbody := bodyBytes_nonneg (f := f)
  obtain ⟨hargs, hlocals, htemp, hg, hv, hsaved, hng, hnv, hparams⟩ := sizes_nonneg (f := f)
  simp only [layoutSpillSlots, spillSlotSize]
  rewrite [show spillSlotCount boundary f.allocs .general = f.slots .general from rfl,
    show spillSlotCount boundary f.allocs .vector = f.slots .vector from rfl,
    mul_comm _ (8 : ℤ), mul_comm _ (16 : ℤ), wrap_i32 (by omega) (by omega),
    wrap_i32 (by omega) (by omega)]
  refine Prod.ext (funext fun k => ?_) rfl
  cases k <;> rfl

theorem computeParamOffsets_paramSpecs (h : f.Fits) :
    (computeParamOffsets f.paramSpecs
        (f.bodyBytes + 8 * f.slots .general + 16 * f.slots .vector) (f.savedBytes + 8)).stackSize =
      f.rawBytes ∧
    (computeParamOffsets f.paramSpecs
        (f.bodyBytes + 8 * f.slots .general + 16 * f.slots .vector) (f.savedBytes + 8)).offsets =
      (place (f.savedBytes + 8) (f.paramSpecs.map (·.size))).map Area.start := by
  have hall := h.all
  have hbody := bodyBytes_nonneg (f := f)
  obtain ⟨hargs, hlocals, htemp, hg, hv, hsaved, hng, hnv, hparams⟩ := sizes_nonneg (f := f)
  have hoffset : 0 ≤ f.savedBytes + 8 := by omega
  have hstop : f.savedBytes + 8 + (f.paramSpecs.map (·.size)).sum < 2 ^ 31 := by
    rw [sum_paramSpecs]
    omega
  have hlow : -2 ^ 31 ≤ f.bodyBytes + 8 * f.slots .general + 16 * f.slots .vector -
      valueBytes f.paramSpecs := by
    rw [valueBytes_eq]
    omega
  have := computeParamOffsets_eq (fun p hp => paramSpecs_nonneg hp) hoffset hstop hlow (by omega)
  rwa [valueBytes_eq] at this

theorem align_eq (h : f.Fits) :
    (if f.hasCall ∨ f.rawBytes ≠ 0 then
      wrap 32 (f.rawBytes + wrap 32 (wrap 32
        (alignForward (wrap 32 (f.savedBytes + 8 + f.rawBytes)) 16) -
          wrap 32 (f.savedBytes + 8 + f.rawBytes)))
    else f.rawBytes) = f.rawBytes + f.padding := by
  have hall := h.all
  have hbody := bodyBytes_nonneg (f := f)
  obtain ⟨hargs, hlocals, htemp, hg, hv, hsaved, hng, hnv, hparams⟩ := sizes_nonneg (f := f)
  have hraw : f.rawBytes = f.bodyBytes + 8 * f.slots .general + 16 * f.slots .vector -
    8 * (f.values .general + f.values .vector) := rfl
  rw [padding]
  split
  · have hpos := Int.emod_nonneg (-(f.savedBytes + 8 + f.rawBytes)) (by decide : (16 : ℤ) ≠ 0)
    have hlt := Int.emod_lt_of_pos (-(f.savedBytes + 8 + f.rawBytes)) (by decide : (0 : ℤ) < 16)
    rw [wrap_i32 (x := f.savedBytes + 8 + f.rawBytes) (by omega) (by omega), alignForward,
      wrap_i32 (x := f.savedBytes + 8 + f.rawBytes + _) (by omega) (by omega),
      add_sub_cancel_left, wrap_i32 (x := -_ % 16) (by omega) (by omega),
      wrap_i32 (by omega) (by omega)]
  · rw [add_zero]

end Stages

theorem map_wrap_place {start shift : ℤ} {sizes : List ℤ} (hs : ∀ n ∈ sizes, 0 ≤ n)
    (h0 : -2 ^ 31 ≤ start + shift) (h1 : start + sizes.sum + shift < 2 ^ 31) :
    ((place start sizes).map Area.start).map (fun offset => wrap 32 (offset + shift)) =
      (place (start + shift) sizes).map Area.start := by
  induction sizes generalizing start with
  | nil => rfl
  | cons size sizes ih =>
    have hsize := hs size (List.mem_cons_self ..)
    have hrest := fun n hn => hs n (List.mem_cons_of_mem _ hn)
    have hsum := List.sum_nonneg hrest
    rw [List.sum_cons] at h1
    simp only [place, List.map_cons]
    rw [wrap_i32 h0 (by omega), ih hrest (by omega) (by omega), add_right_comm]

/-- **The frame without overflow.** -/
theorem frame_eq (h : f.Fits) : FrameEq f := by
  have hall := h.all
  have hbody := bodyBytes_nonneg (f := f)
  obtain ⟨hargs, hlocals, htemp, hg, hv, hsaved, hng, hnv, hparams⟩ := sizes_nonneg (f := f)
  obtain ⟨hp1, hp2⟩ := computeParamOffsets_paramSpecs h
  have hred := redBytes_le (f := f)
  have hred' := redBytes_ge (f := f)
  have hpad := padding_bounds (f := f)
  have hraw : f.rawBytes = f.bodyBytes + 8 * f.slots .general + 16 * f.slots .vector -
    8 * (f.values .general + f.values .vector) := rfl
  have hbodyEq : f.bodyBytes = f.argBytes + f.localBytes + f.tempBytes := rfl
  have hframe : f.frameBytes = f.rawBytes + f.padding - f.redBytes := rfl
  have hsavedEq : 8 * (f.savedRegs.length : ℤ) = f.savedBytes := rfl
  have hredEq : (if f.hasCall = true then 0 else min f.redZoneSize (f.rawBytes + f.padding)) =
    f.redBytes := rfl
  refine ⟨rfl, ?_, ?_, ?_, ?_, ?_, ?_⟩ <;>
    simp only [frame, layoutLocals_eq h, tempSlot_eq h, layoutSpillSlots_eq h, hsavedEq, hp1,
      hp2, align_eq h, hredEq]
  · rfl
  · simp only [sub_eq_add_neg]
    refine map_wrap_place sortLocals_nonneg (by omega) ?_
    rw [sum_sortLocals]
    omega
  · intro ht
    rw [if_neg ht]
    exact wrap_i32 (by omega) (by omega)
  · exact wrap_i32 (by omega) (by omega)
  · exact wrap_i32 (by omega) (by omega)
  · refine map_wrap_place (fun n hn => ?_) (by omega) ?_
    · obtain ⟨p, hp, rfl⟩ := List.mem_map.1 hn
      exact paramSpecs_nonneg hp
    · rw [sum_paramSpecs]
      omega

/-! ### Which areas are apart -/

theorem redBytes_eq_zero_or : f.redBytes = 0 ∨ f.argBytes = 0 := by
  by_cases hc : f.hasCall = true
  · rw [redBytes, if_pos hc]
    exact .inl rfl
  · right
    have : f.calls = [] := by
      simpa [hasCall] using (Bool.or_eq_false_iff.1 (Bool.not_eq_true _ ▸ hc : f.hasCall = false)).2
    rw [argBytes, this]
    rfl

theorem frameBytes_nonneg (hf : f.hasCall = false) : 0 ≤ f.frameBytes := by
  rw [frameBytes, redBytes, hf]
  exact sub_nonneg.2 (min_le_right _ _)

/-- The sizes of the locals and of the temporary slot. -/
def bodySizes (f : Func) : List ℤ :=
  (sortLocals f.locals).map (·.size) ++ f.tempSlot.toList.map spillSlotSize

theorem bodySizes_nonneg : ∀ n ∈ f.bodySizes, 0 ≤ n := by
  intro n hn
  obtain hn | hn := List.mem_append.1 hn
  · exact sortLocals_nonneg n hn
  · obtain ⟨k, -, rfl⟩ := List.mem_map.1 hn
    cases k <;> decide

theorem sum_bodySizes : f.bodySizes.sum = f.localBytes + f.tempBytes := by
  rw [bodySizes, List.sum_append, sum_sortLocals, tempBytes]
  cases f.tempSlot with
  | none => rfl
  | some k => simp

theorem lowAreas_eq (h : FrameEq f) :
    f.lowAreas = place (f.argBytes - f.redBytes) f.bodySizes ++
      (f.spillAreas .general ++ f.spillAreas .vector) := by
  rw [lowAreas, h.locals, zipWith_start_place, bodySizes, place_append, sum_sortLocals,
    List.append_assoc, List.append_assoc, List.append_assoc]
  congr 2
  cases ht : f.tempSlot with
  | none => rfl
  | some k =>
    have := h.temp (by rw [ht]; exact Option.some_ne_none k)
    simp only [Option.toList_some, List.map_cons, List.map_nil, place, this]
    congr 2
    ring

theorem highAreas_eq (h : FrameEq f) :
    f.highAreas = place f.frameBytes
      (List.replicate f.savedRegs.length 8 ++ 8 :: f.stackParams.map (·.spec.size)) := by
  have hsaved : ∀ (n : ℕ) (s : ℤ),
      (List.range n).map (fun j : ℕ => (⟨s + 8 * j, 8⟩ : Area)) = place s (List.replicate n 8) := by
    intro n
    induction n with
    | zero => exact fun _ => rfl
    | succ n ih =>
      intro s
      rw [List.range_succ, List.map_append, ih, List.replicate_succ', place_append]
      simp [place, mul_comm]
  have hsum : (List.replicate f.savedRegs.length (8 : ℤ)).sum = f.savedBytes := by
    rw [List.sum_replicate, nsmul_eq_mul, mul_comm, savedBytes]
  rw [highAreas, h.pushed, h.stackSize, h.params, map_size_paramSpecs, place_append, hsaved,
    place_append, hsum, List.sum_replicate, nsmul_zero, add_zero, place, List.map_append,
    List.drop_append_of_le_length (by simp), List.drop_of_length_le (by simp), List.nil_append,
    zipWith_start_place, add_right_comm, add_comm f.savedBytes, add_right_comm]

theorem length_frame_stackParamOffset (k : RegKind) :
    (f.frame.stackParamOffset k).length = f.paramSpecs.countP (·.isValueOf k) := by
  simp only [frame, List.length_map, length_stackParamOffset]

/-- The first slot of the kind `k` that is not a parameter. -/
def spillBase (f : Func) : RegKind → ℤ
  | .general => f.bodyBytes
  | .vector => f.bodyBytes + 8 * f.slots .general

theorem mem_spillRegs {k : RegKind} {r : Reg} (hr : r ∈ f.spillRegs k) :
    r ∈ f.allocs ∧ r.kind = k ∧ (boundary k : ℤ) + f.values k ≤ r.index := by
  have := List.mem_filter.1 (List.mem_dedup.1 hr)
  simp only [decide_eq_true_eq] at this
  refine ⟨this.1, this.2.1, ?_⟩
  rw [values]
  exact_mod_cast this.2.2

/-- **Where a spilled live range is.** -/
theorem spillSlotOffset_eq (h : f.Fits) {k : RegKind} {r : Reg} (hr : r ∈ f.spillRegs k) :
    spillSlotOffset boundary f.frame.stackParamOffset f.frame.spillSlotBase r =
      f.spillBase k - f.redBytes + (r.index - boundary k - f.values k) * spillSlotSize k := by
  obtain ⟨hra, rfl, hle⟩ := mem_spillRegs hr
  have hall := h.all
  have hbody := bodyBytes_nonneg (f := f)
  obtain ⟨-, -, -, hg, hv, hsaved, hng, hnv, hparams⟩ := sizes_nonneg (f := f)
  have hred := redBytes_le (f := f)
  have hred' := redBytes_ge (f := f)
  have hpad := padding_bounds (f := f)
  have hraw : f.rawBytes = f.bodyBytes + 8 * f.slots .general + 16 * f.slots .vector -
    8 * (f.values .general + f.values .vector) := rfl
  have hslot : (r.index : ℤ) - boundary r.kind + 1 ≤ f.slots r.kind := le_spillSlotCount hra rfl
  have hvalues : ((f.frame.stackParamOffset r.kind).length : ℤ) = f.values r.kind := by
    rw [length_frame_stackParamOffset, values]
  have hnone : (f.frame.stackParamOffset r.kind)[r.index - boundary r.kind]? = none := by
    rw [List.getElem?_eq_none_iff]
    omega
  rw [spillSlotOffset, if_neg (by omega), hnone]
  dsimp only
  rw [hvalues]
  have hfr := frame_eq h
  cases hk : r.kind with
  | general =>
    rw [hk] at hslot hle
    rw [hfr.spillGeneral, wrap_i32]
    · simp only [spillBase, spillSlotSize]
      ring
    · simp only [spillSlotSize]
      omega
    · simp only [spillSlotSize]
      omega
  | vector =>
    rw [hk] at hslot hle
    rw [hfr.spillVector, wrap_i32]
    · simp only [spillBase, spillSlotSize]
      ring
    · simp only [spillSlotSize]
      omega
    · simp only [spillSlotSize]
      omega

/-- The slots of spilled live ranges are where there is room for them. -/
theorem mem_spillAreas (h : f.Fits) {k : RegKind} {a : Area} (ha : a ∈ f.spillAreas k) :
    f.spillBase k - f.redBytes ≤ a.start ∧
      a.stop ≤ f.spillBase k - f.redBytes + (f.slots k - f.values k) * spillSlotSize k ∧
      f.values k < f.slots k := by
  obtain ⟨r, hr, rfl⟩ := List.mem_map.1 ha
  obtain ⟨hra, rfl, hle⟩ := mem_spillRegs hr
  have hslot : (r.index : ℤ) - boundary r.kind + 1 ≤ f.slots r.kind := le_spillSlotCount hra rfl
  have hlow : 0 ≤ (r.index - boundary r.kind - f.values r.kind) * spillSlotSize r.kind :=
    mul_nonneg (by omega) (spillSlotSize_pos _).le
  have hhigh : (r.index - boundary r.kind - f.values r.kind + 1) * spillSlotSize r.kind ≤
      (f.slots r.kind - f.values r.kind) * spillSlotSize r.kind :=
    mul_le_mul_of_nonneg_right (by omega) (spillSlotSize_pos _).le
  rw [add_mul, one_mul] at hhigh
  simp only [Area.stop, spillSlotOffset_eq h hr]
  exact ⟨by linarith, by linarith, by omega⟩

/-- The last slot is used. -/
theorem exists_mem_spillAreas (h : f.Fits) {k : RegKind} (hlt : f.values k < f.slots k) :
    ∃ a ∈ f.spillAreas k, 0 < a.size ∧
      a.stop = f.spillBase k - f.redBytes + (f.slots k - f.values k) * spillSlotSize k := by
  have hpos : 0 < spillSlotCount boundary f.allocs k :=
    (Int.natCast_nonneg _ : (0 : ℤ) ≤ f.values k).trans_lt hlt
  obtain ⟨r, hra, rfl, he⟩ := exists_spillSlotCount hpos
  have hr : r ∈ f.spillRegs r.kind := by
    refine List.mem_dedup.2 (List.mem_filter.2 ⟨hra, ?_⟩)
    simp only [decide_eq_true_eq, true_and]
    rw [slots, values] at hlt
    omega
  refine ⟨_, List.mem_map_of_mem hr, ?_, ?_⟩
  · exact spillSlotSize_pos _
  · rw [← slots] at he
    simp only [Area.stop, spillSlotOffset_eq h hr, ← he]
    ring

theorem apart_spillAreas (h : f.Fits) (k : RegKind) : (f.spillAreas k).Pairwise Area.Apart := by
  rw [spillAreas, List.pairwise_map]
  refine (List.nodup_dedup _).pairwise_of_forall_ne fun r hr r' hr' hne => ?_
  have hk := (mem_spillRegs hr).2.1
  have hk' := (mem_spillRegs hr').2.1
  have hidx : r.index ≠ r'.index := by
    intro hidx
    refine hne ?_
    cases r
    cases r'
    simp_all
  simp only [spillSlotOffset_eq h hr, spillSlotOffset_eq h hr']
  intro x hx hx'
  simp only [Area.mem_def, Area.stop] at hx hx'
  cases k <;> simp only [spillSlotSize] at hx hx' <;> omega

/-- The areas below the saved registers never meet. -/
theorem apart_lowAreas (h : f.Fits) : f.lowAreas.Pairwise Area.Apart := by
  obtain ⟨-, -, -, hg, hv, -, hng, hnv, -⟩ := sizes_nonneg (f := f)
  have hsum : f.argBytes + f.bodySizes.sum = f.bodyBytes := by
    rw [sum_bodySizes, bodyBytes, add_assoc]
  rw [lowAreas_eq (frame_eq h)]
  refine List.pairwise_append.2 ⟨apart_place bodySizes_nonneg, List.pairwise_append.2
    ⟨apart_spillAreas h _, apart_spillAreas h _, fun a ha b hb => ?_⟩, fun a ha b hb => ?_⟩
  · have h1 := (mem_spillAreas h ha).2.1
    have h2 := (mem_spillAreas h hb).1
    simp only [spillBase, spillSlotSize] at h1 h2
    exact Area.apart_of_le (by omega)
  · have h1 := (mem_place_bounds bodySizes_nonneg ha).2
    obtain hb | hb := List.mem_append.1 hb
    · have h2 := (mem_spillAreas h hb).1
      simp only [spillBase] at h2
      exact Area.apart_of_le (by omega)
    · have h2 := (mem_spillAreas h hb).1
      simp only [spillBase] at h2
      exact Area.apart_of_le (by omega)

/-- The area of the arguments is below the others, or it is empty. -/
theorem apart_args (h : f.Fits) {a : Area} (ha : a ∈ f.lowAreas) :
    Area.Apart ⟨0, f.argBytes⟩ a := by
  obtain ⟨-, -, -, hg, -⟩ := sizes_nonneg (f := f)
  obtain hred | hargs := redBytes_eq_zero_or (f := f)
  · have hbody : f.argBytes ≤ f.bodyBytes := by
      obtain ⟨-, hlocals, htemp, -⟩ := sizes_nonneg (f := f)
      rw [bodyBytes]
      omega
    refine Area.apart_of_le ?_
    simp only [Area.stop, zero_add]
    rw [lowAreas_eq (frame_eq h)] at ha
    obtain ha | ha := List.mem_append.1 ha
    · have := (mem_place_bounds bodySizes_nonneg ha).1
      omega
    · obtain ha | ha := List.mem_append.1 ha
      · have := (mem_spillAreas h ha).1
        simp only [spillBase] at this
        omega
      · have := (mem_spillAreas h ha).1
        simp only [spillBase] at this
        omega
  · intro x hx
    simp only [Area.mem_def, Area.stop] at hx
    omega

/-- The frame has room for what is below the saved registers. -/
structure Room (f : Func) : Prop where
  body : 0 < f.bodyBytes →
    8 * (f.values .general + f.values .vector) ≤
      8 * f.slots .general + 16 * f.slots .vector + f.padding
  general : f.values .general < f.slots .general →
    8 * f.values .vector ≤ 16 * f.slots .vector + f.padding
  vector : f.values .vector < f.slots .vector →
    8 * f.values .general ≤ 8 * f.values .vector + f.padding

theorem frameBytes_eq : f.frameBytes = f.bodyBytes + 8 * f.slots .general + 16 * f.slots .vector -
    8 * (f.values .general + f.values .vector) + f.padding - f.redBytes := rfl

/-- What is below ends below the saved registers iff there is room. -/
theorem low_le_iff_room (h : f.Fits) :
    (∀ a ∈ ⟨0, f.argBytes⟩ :: f.lowAreas, 0 < a.size → a.stop ≤ f.frameBytes) ↔ f.Room := by
  have hframe := frameBytes_eq (f := f)
  have hsum : f.argBytes + f.bodySizes.sum = f.bodyBytes := by
    rw [sum_bodySizes, bodyBytes, add_assoc]
  have hnonneg := List.sum_nonneg (bodySizes_nonneg (f := f))
  rw [lowAreas_eq (frame_eq h)]
  constructor
  · intro hle
    refine ⟨fun hpos => ?_, fun hlt => ?_, fun hlt => ?_⟩
    · by_cases hs : 0 < f.bodySizes.sum
      · -- the last byte of the locals and the temporary slot
        have hge : f.argBytes - f.redBytes ≤ f.bodyBytes - f.redBytes - 1 := by omega
        have hlt : f.bodyBytes - f.redBytes - 1 < f.argBytes - f.redBytes + f.bodySizes.sum := by
          omega
        obtain ⟨a, ha, hx⟩ := exists_mem_place hge hlt
        have hx1 := hx.1
        have hx2 := hx.2
        have hsize : 0 < a.size := by
          rw [Area.stop] at hx2
          omega
        have := hle a (List.mem_cons_of_mem _ (List.mem_append_left _ ha)) hsize
        omega
      · have hargs : f.argBytes = f.bodyBytes := by omega
        have := hle _ (List.mem_cons_self ..) (by rw [hargs]; exact hpos)
        simp only [Area.stop] at this
        obtain hred | h0 := redBytes_eq_zero_or (f := f) <;> omega
    · obtain ⟨a, ha, hsize, hstop⟩ := exists_mem_spillAreas h hlt
      have := hle a (List.mem_cons_of_mem _ (List.mem_append_right _ (List.mem_append_left _ ha)))
        hsize
      simp only [hstop, spillBase, spillSlotSize] at this
      omega
    · obtain ⟨a, ha, hsize, hstop⟩ := exists_mem_spillAreas h hlt
      have := hle a (List.mem_cons_of_mem _ (List.mem_append_right _ (List.mem_append_right _ ha)))
        hsize
      simp only [hstop, spillBase, spillSlotSize] at this
      omega
  · intro hroom a ha hsize
    obtain rfl | ha := List.mem_cons.1 ha
    · simp only [Area.stop] at hsize ⊢
      have := hroom.body (by omega)
      obtain hred | h0 := redBytes_eq_zero_or (f := f) <;> omega
    obtain ha | ha := List.mem_append.1 ha
    · obtain ⟨h1, h2⟩ := mem_place_bounds bodySizes_nonneg ha
      have h3 : a.stop = a.start + a.size := rfl
      have hargs := argBytes_nonneg (f := f)
      have := hroom.body (by omega)
      omega
    obtain ha | ha := List.mem_append.1 ha
    · obtain ⟨-, h2, hlt⟩ := mem_spillAreas h ha
      have := hroom.general hlt
      simp only [spillBase, spillSlotSize] at h2
      omega
    · obtain ⟨-, h2, hlt⟩ := mem_spillAreas h ha
      have := hroom.vector hlt
      simp only [spillBase, spillSlotSize] at h2
      omega

/-- Nothing below reaches beyond the parameters. -/
theorem low_stop_le (h : f.Fits) {a : Area} (ha : a ∈ ⟨0, f.argBytes⟩ :: f.lowAreas) :
    a.stop ≤ f.frameBytes + (f.savedBytes + (8 + f.paramBytes)) := by
  have hframe := frameBytes_eq (f := f)
  have hpad := padding_bounds (f := f)
  obtain ⟨hargs, hlocals, htemp, hg, hv, hsaved, hng, hnv, hparams⟩ := sizes_nonneg (f := f)
  have hsum : f.argBytes + f.bodySizes.sum = f.bodyBytes := by
    rw [sum_bodySizes, bodyBytes, add_assoc]
  have hnonneg := List.sum_nonneg (bodySizes_nonneg (f := f))
  obtain rfl | ha := List.mem_cons.1 ha
  · simp only [Area.stop]
    by_cases hc : f.hasCall = true
    · have hred : f.redBytes = 0 := by rw [redBytes, if_pos hc]
      omega
    · have h0 := frameBytes_nonneg (Bool.not_eq_true _ ▸ hc : f.hasCall = false)
      obtain hred | h0 := redBytes_eq_zero_or (f := f) <;> omega
  rw [lowAreas_eq (frame_eq h)] at ha
  obtain ha | ha := List.mem_append.1 ha
  · have := (mem_place_bounds bodySizes_nonneg ha).2
    omega
  obtain ha | ha := List.mem_append.1 ha
  · have := (mem_spillAreas h ha).2.1
    simp only [spillBase, spillSlotSize] at this
    omega
  · have := (mem_spillAreas h ha).2.1
    simp only [spillBase, spillSlotSize] at this
    omega

/-- **The areas of the frame are apart iff there is room.** -/
theorem areas_apart_iff (h : f.Fits) : f.areas.Pairwise Area.Apart ↔ f.Room := by
  have hhigh : ∀ n ∈ List.replicate f.savedRegs.length (8 : ℤ) ++
      8 :: f.stackParams.map (·.spec.size), 0 ≤ n := by
    intro n hn
    obtain hn | hn := List.mem_append.1 hn
    · rw [(List.mem_replicate.1 hn).2]
      decide
    obtain rfl | hn := List.mem_cons.1 hn
    · decide
    · obtain ⟨p, hp, rfl⟩ := List.mem_map.1 hn
      exact spec_size_nonneg hp
  have hsum : (List.replicate f.savedRegs.length (8 : ℤ) ++
      8 :: f.stackParams.map (·.spec.size)).sum = f.savedBytes + (8 + f.paramBytes) := by
    rw [List.sum_append, List.sum_replicate, nsmul_eq_mul, mul_comm, List.sum_cons]
    rfl
  rw [← low_le_iff_room h, areas, ← argBytes, ← List.cons_append, List.pairwise_append,
    highAreas_eq (frame_eq h)]
  constructor
  · rintro ⟨-, -, hcross⟩ a ha
    refine (apart_place_iff hhigh ?_).1 (hcross a ha)
    rw [hsum]
    exact low_stop_le h ha
  · intro hle
    refine ⟨List.pairwise_cons.2 ⟨fun a ha => apart_args h ha, apart_lowAreas h⟩,
      apart_place hhigh, fun a ha => (apart_place_iff hhigh ?_).2 (hle a ha)⟩
    rw [hsum]
    exact low_stop_le h ha

/-! ### Parameters -/

theorem callAreas_spec (h : f.Fits) {sizes : List ℤ} (hs : sizes ∈ f.calls) :
    (callAreas sizes).Pairwise Area.Apart ∧
      ∀ a ∈ callAreas sizes, 0 ≤ a.start ∧ a.stop ≤ layoutCallArgs f.calls 0 := by
  have hnonneg := f.calls_nonneg sizes hs
  have hfit := h.calls sizes hs
  have heq := layout_eq (le_refl 0) hnonneg (by omega)
  have hle := (layoutCallArgs_bounds f.calls (by decide : (0 : ℤ) < 2 ^ 31)).2.2 sizes hs
  rw [callAreas, heq, zipWith_start_place]
  rw [heq] at hle
  refine ⟨apart_place hnonneg, fun a ha => ?_⟩
  obtain ⟨h1, h2⟩ := mem_place_bounds hnonneg ha
  exact ⟨h1, h2.trans hle⟩

theorem typeSize_le {p : StackParam} (h : p ∈ f.stackParams) :
    0 ≤ p.typeSize ∧ p.typeSize ≤ p.spec.size := by
  cases p with
  | value dt size => exact (f.value_size dt size h).2
  | bytes size =>
    have := Int.emod_nonneg (-size) (by decide : (8 : ℤ) ≠ 0)
    simp only [StackParam.typeSize, StackParam.spec, alignForward]
    exact ⟨f.bytes_nonneg size h, by omega⟩

theorem sum_typeSize_le {ps : List StackParam}
    (h : ∀ p ∈ ps, 0 ≤ p.typeSize ∧ p.typeSize ≤ p.spec.size) :
    (ps.map (·.typeSize)).sum ≤ (ps.map (·.spec.size)).sum := by
  induction ps with
  | nil => exact le_refl _
  | cons p ps ih =>
    have h1 := h p (List.mem_cons_self ..)
    have h2 := ih fun q hq => h q (List.mem_cons_of_mem _ hq)
    simp only [List.map_cons, List.sum_cons]
    omega

/-- Where the caller put the `i`-th parameter. -/
theorem callerOffset_eq (h : f.Fits) {i : ℕ} (hi : i < f.stackParams.length) :
    f.callerOffset i = f.frameBytes + f.savedBytes + 8 +
      ((f.stackParams.map (·.typeSize)).take i).sum := by
  have hall := h.all
  have hbody := bodyBytes_nonneg (f := f)
  obtain ⟨-, -, -, hg, hv, hsaved, -, -, -⟩ := sizes_nonneg (f := f)
  have hle := sum_typeSize_le fun p hp => typeSize_le (f := f) hp
  rw [← paramBytes] at hle
  have hnonneg : ∀ n ∈ f.stackParams.map (·.typeSize), 0 ≤ n := by
    intro n hn
    obtain ⟨p, hp, rfl⟩ := List.mem_map.1 hn
    exact (typeSize_le hp).1
  have hget : (f.stackParams.map (·.typeSize))[i]? = some (f.stackParams[i].typeSize) := by
    rw [List.getElem?_map, List.getElem?_eq_getElem hi, Option.map_some]
  rw [callerOffset, (frame_eq h).stackSize, (frame_eq h).pushed,
    layout_eq (le_refl 0) hnonneg (by omega), List.getD_eq_getElem?_getD, List.getElem?_map,
    getElem?_place hget]
  simp

theorem getElem?_paramOffsets (h : f.Fits) {i : ℕ} (hi : i < f.stackParams.length) :
    f.frame.paramOffsets[f.regParams.length + i]? = some (f.savedBytes + 8 + f.frameBytes +
      ((f.stackParams.map (·.spec.size)).take i).sum) := by
  have hget : (f.stackParams.map (·.spec.size))[i]? = some (f.stackParams[i].spec.size) := by
    rw [List.getElem?_map, List.getElem?_eq_getElem hi, Option.map_some]
  rw [(frame_eq h).params, map_size_paramSpecs, place_append, List.getElem?_map,
    List.getElem?_append_right (by simp), length_place, List.length_replicate,
    Nat.add_sub_cancel_left, getElem?_place hget, List.sum_replicate, nsmul_zero, add_zero]
  rfl

/-- The parameters before a value that are of its kind fill the registers. -/
theorem countP_take {i : ℕ} {dt : Datatype} {size : ℤ}
    (hi : f.stackParams[i]? = some (.value dt size)) :
    (f.paramSpecs.take (f.regParams.length + i)).countP
        (fun a => a.dt ≠ .void ∧ regKind a.dt = regKind dt) =
      (f.args (regKind dt)).length +
        (f.paramSpecs.take (f.regParams.length + i)).countP (·.isValueOf (regKind dt)) := by
  have hmem := List.mem_of_getElem? hi
  have htake : f.paramSpecs.take (f.regParams.length + i) =
      f.regParams.map (fun dt => ⟨dt, 0⟩) ++ (f.stackParams.take i).map (·.spec) := by
    rw [paramSpecs, List.take_append, List.length_map, Nat.add_sub_cancel_left,
      List.take_of_length_le (by simp), List.map_take]
  have hregs : (f.regParams.map (fun dt => (⟨dt, 0⟩ : ParamSpec))).countP
      (fun a => a.dt ≠ .void ∧ regKind a.dt = regKind dt) = (f.args (regKind dt)).length := by
    rw [← f.args_full dt size hmem, List.countP_map]
    refine List.countP_congr fun dt' hdt' => ?_
    simp [f.regParams_dt dt' hdt']
  have hzero : (f.regParams.map (fun dt => (⟨dt, 0⟩ : ParamSpec))).countP
      (·.isValueOf (regKind dt)) = 0 := by
    rw [List.countP_eq_zero]
    intro p hp
    obtain ⟨dt', -, rfl⟩ := List.mem_map.1 hp
    simp [ParamSpec.isValueOf, ParamSpec.isValue]
  rw [htake, List.countP_append, List.countP_append, hregs, hzero, zero_add]
  congr 1
  refine List.countP_congr fun p hp => ?_
  obtain ⟨q, hq, rfl⟩ := List.mem_map.1 hp
  cases q with
  | value dt' size' =>
    have hpos : (0 : ℤ) < 8 := by decide
    show decide _ = true ↔ (decide ((8 : ℤ) > 0) && decide (dt' ≠ .void) &&
      decide (regKind dt' = regKind dt)) = true
    rw [Bool.and_eq_true, Bool.and_eq_true, decide_eq_true_iff, decide_eq_true_iff,
      decide_eq_true_iff, decide_eq_true_iff]
    exact ⟨fun h => ⟨⟨hpos, h.1⟩, h.2⟩, fun h => ⟨h.1.2, h.2⟩⟩
  | bytes size' => simp [StackParam.spec, ParamSpec.isValueOf, ParamSpec.isValue]

/-- Where the body reads the `i`-th parameter. -/
theorem readOffset_eq (h : f.Fits) {i : ℕ} {p : StackParam} (hi : f.stackParams[i]? = some p) :
    f.readOffset i p = f.savedBytes + 8 + f.frameBytes +
      ((f.stackParams.map (·.spec.size)).take i).sum := by
  obtain ⟨hlt, hp⟩ := List.getElem?_eq_some_iff.1 hi
  have hoff := getElem?_paramOffsets h hlt
  cases p with
  | bytes size => rw [readOffset, List.getD_eq_getElem?_getD, hoff, Option.getD_some]
  | value dt size =>
    have hdt := (f.value_size dt size (List.mem_of_getElem? hi)).1
    have hspec : f.paramSpecs[f.regParams.length + i]? = some ⟨dt, 8⟩ := by
      rw [paramSpecs, List.getElem?_append_right (by simp), List.length_map,
        Nat.add_sub_cancel_left, List.getElem?_map, hi]
      rfl
    have hvalue : ParamSpec.isValueOf (regKind dt) ⟨dt, 8⟩ = true := by
      simp [ParamSpec.isValueOf, ParamSpec.isValue, hdt]
    have hcount := countP_take hi
    have hmask : paramMask boundary f.args f.paramSpecs (f.regParams.length + i) dt =
        ⟨regKind dt, boundary (regKind dt) +
          (f.paramSpecs.take (f.regParams.length + i)).countP (·.isValueOf (regKind dt))⟩ := by
      simp only [paramMask, hcount]
      rw [List.getElem?_eq_none (by omega)]
      dsimp only
      congr 1
      omega
    have hget : (f.frame.stackParamOffset (regKind dt))[
        (f.paramSpecs.take (f.regParams.length + i)).countP (·.isValueOf (regKind dt))]? =
        f.frame.paramOffsets[f.regParams.length + i]? := by
      simp only [frame, List.getElem?_map, stackParamOffset_getElem? hspec hvalue]
    rw [readOffset, hmask, spillSlotOffset, if_neg (by simp)]
    simp only [Nat.add_sub_cancel_left]
    rw [hget, hoff]

/-- The sums before each element agree iff all the elements but the last do. -/
theorem sums_eq_iff {α : Type*} (a b : α → ℤ) (xs : List α) :
    (∀ i, i < xs.length → ((xs.map a).take i).sum = ((xs.map b).take i).sum) ↔
      ∀ x ∈ xs.dropLast, a x = b x := by
  constructor
  · intro h x hx
    obtain ⟨i, hi, rfl⟩ := List.mem_iff_getElem.1 hx
    rw [List.length_dropLast] at hi
    have h1 := h i (by omega)
    have h2 := h (i + 1) (by omega)
    rw [← List.map_take, ← List.map_take] at h1 h2
    rw [List.take_succ_eq_append_getElem (by omega), List.map_append, List.map_append,
      List.sum_append, List.sum_append, h1] at h2
    rw [List.getElem_dropLast]
    simpa using h2
  · intro h i hi
    rw [← List.map_take, ← List.map_take]
    congr 1
    refine List.map_congr_left fun x hx => h x ?_
    rw [List.dropLast_eq_take]
    exact (List.take_sublist_take_left (by omega)).subset hx

/-- `AMD64_SYSTEMV_CC.callee_saved`. -/
def systemVCalleeSaved : List ℕ := [3, 5, 12, 13, 14, 15]

/-- `AMD64_SYSTEMV_CC.args`. -/
def systemVArgs : RegKind → List ℕ
  | .general => [7, 6, 2, 1, 8, 9]
  | .vector => [0, 1, 2, 3, 4, 5, 6, 7]

/-- `AMD64_SYSTEMV_CC.red_zone_size` is not negative. -/
theorem systemVRedZoneSize_nonneg : (0 : ℤ) ≤ 128 := by decide

/-- A function with seven integers as parameters, a local of 16 bytes and a call.  The seventh
parameter is on the stack, and `allocs` says whether the body uses it. -/
def sevenParams (allocs : List Reg) : Func where
  calls := [[]]
  libCall := false
  locals := [⟨1, 16⟩]
  tempSlot := none
  allocs := allocs
  calleeSaved := systemVCalleeSaved
  args := systemVArgs
  redZoneSize := 128
  regParams := List.replicate 6 .i64
  stackParams := [.value .i64 8]
  calls_nonneg := by decide
  locals_nonneg := by decide
  redZoneSize_nonneg := systemVRedZoneSize_nonneg
  regParams_dt := by decide
  bytes_nonneg := by
    intro size h
    simp at h
  value_size := by
    intro dt size h
    obtain ⟨rfl, rfl⟩ : dt = .i64 ∧ size = 8 := by simpa using h
    decide
  args_full := by
    intro dt size h
    obtain ⟨rfl, rfl⟩ : dt = .i64 ∧ size = 8 := by simpa using h
    decide

end Func

end OdinSon.Codegen.Amd64
