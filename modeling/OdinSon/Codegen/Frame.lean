import OdinSon.Lib.Placement
import OdinSon.Bac.Datatype
import Mathlib.Data.List.Sort

/-!
# The parts of a stack frame

What `bac/codegen.odin` does for the frame of a function, for all the backends: the area of the
arguments of calls, the locals, the slots of spilled live ranges, and where the parameters that come
on the stack are.  Sizes and offsets are `i32`, so each sum is wrapped.
-/

namespace OdinSon.Codegen

open Lib MachInt

/-- `Reg_Kind`, for the backends with general and vector registers. -/
inductive RegKind where
  | general | vector
  deriving DecidableEq, Repr

/-- `Reg`. -/
structure Reg where
  /-- The kind of the register. -/
  kind : RegKind
  /-- Its number; from the boundary of the kind on it is a slot of the stack. -/
  index : ℕ
  deriving DecidableEq, Repr

/-- `datatype_to_reg_kind`. -/
def regKind : Datatype → RegKind
  | .f32 | .f64 | .v128 | .v256 | .v512 => .vector
  | _ => .general

/-- `SPILL_SLOT_SIZE`. -/
def spillSlotSize : RegKind → ℤ
  | .general => 8
  | .vector => 16

/-- `Param_Spec`. -/
structure ParamSpec where
  /-- The type of a value; an area of the stack has none. -/
  dt : Datatype
  /-- The bytes on the stack, `0` for a parameter that comes in a register. -/
  size : ℤ
  deriving DecidableEq, Repr

namespace ParamSpec

/-- The parameter is a value that comes on the stack. -/
def isValue (p : ParamSpec) : Bool := p.size > 0 && p.dt ≠ .void

/-- It is one of the kind `k`. -/
def isValueOf (k : RegKind) (p : ParamSpec) : Bool := p.isValue && regKind p.dt = k

end ParamSpec

/-- `mem.align_forward_int`. -/
def alignForward (x align : ℤ) : ℤ := x + -x % align

/-- The loop that gives areas their offsets, `stack_size += size; offset = stack_size - size`.  The
second result is the size of the stack after it. -/
@[grind =] def layout : ℤ → List ℤ → List ℤ × ℤ
  | stackSize, [] => ([], stackSize)
  | stackSize, size :: sizes =>
    let stackSize := wrap 32 (stackSize + size)
    let (offsets, stop) := layout stackSize sizes
    (wrap 32 (stackSize - size) :: offsets, stop)

/-- `layout_call_args`, of calls with the sizes of the locals among their inputs. -/
def layoutCallArgs (calls : List (List ℤ)) (stackSize : ℤ) : ℤ :=
  calls.foldl (fun stackSize sizes => max stackSize (layout 0 sizes).2) stackSize

/-- A local of the body. -/
structure LocalSlot where
  /-- The node of the local. -/
  node : ℕ
  /-- Its size in bytes. -/
  size : ℤ
  deriving DecidableEq, Repr

/-- `count_trailing_zeros` of an `i32`. -/
def trailingZeros (x : ℤ) : ℕ :=
  ((List.range 32).find? fun i => (unsigned 32 x).testBit i).getD 32

/-- `Local_Slot` as a number: first the priority, then the node. -/
def LocalSlot.key (l : LocalSlot) : ℕ := l.node % 2 ^ 32 + 2 ^ 32 * trailingZeros l.size

/-- The order of the locals in the frame. -/
def sortLocals (locals : List LocalSlot) : List LocalSlot :=
  locals.mergeSort fun a b => a.key ≤ b.key

/-- `layout_locals`: the offsets are in the order of `sortLocals`. -/
def layoutLocals (locals : List LocalSlot) (stackSize : ℤ) : List ℤ × ℤ :=
  layout stackSize ((sortLocals locals).map (·.size))

/-- `spill_slot_count`: how many slots are needed, those of parameters included. -/
def spillSlotCount (boundary : RegKind → ℕ) (allocs : List Reg) (k : RegKind) : ℤ :=
  allocs.foldl (fun n r => if r.kind = k then max n (r.index - boundary k + 1) else n) 0

/-- `layout_spill_slots`: the bases of the slots and the size of the stack after it. -/
def layoutSpillSlots (boundary : RegKind → ℕ) (allocs : List Reg) (stackSize : ℤ) :
    (RegKind → ℤ) × ℤ :=
  let count := spillSlotCount boundary allocs
  let base := wrap 32 (stackSize + count .general * spillSlotSize .general)
  (fun | .general => stackSize | .vector => base,
    wrap 32 (base + count .vector * spillSlotSize .vector))

/-- What `compute_param_offsets` gives. -/
structure ParamOffsets where
  /-- The size of the stack. -/
  stackSize : ℤ
  /-- The offset of each parameter. -/
  offsets : List ℤ
  /-- For each kind, the offsets of the parameters that are values. -/
  stackParamOffset : RegKind → List ℤ

/-- `compute_param_offsets`. -/
@[grind =] def computeParamOffsets : List ParamSpec → ℤ → ℤ → ParamOffsets
  | [], stackSize, _ => ⟨stackSize, [], fun _ => []⟩
  | param :: params, stackSize, offset =>
    let rest := computeParamOffsets params
      (if param.isValue then wrap 32 (stackSize - param.size) else stackSize)
      (wrap 32 (offset + param.size))
    { stackSize := rest.stackSize
      offsets := offset :: rest.offsets
      stackParamOffset := fun k =>
        if param.isValueOf k then offset :: rest.stackParamOffset k
        else rest.stackParamOffset k }

/-- `spill_slot_offset`. -/
def spillSlotOffset (boundary : RegKind → ℕ) (stackParamOffset : RegKind → List ℤ)
    (spillSlotBase : RegKind → ℤ) (reg : Reg) : ℤ :=
  if reg.index < boundary reg.kind then 0
  else
    match (stackParamOffset reg.kind)[reg.index - boundary reg.kind]? with
    | some offset => offset
    | none =>
      wrap 32 (spillSlotBase reg.kind +
        (reg.index - (stackParamOffset reg.kind).length - boundary reg.kind) *
          spillSlotSize reg.kind)

/-- `param_mask`: the register of the parameter with the index `i`.  `args` are the registers for
parameters. -/
def paramMask (boundary : RegKind → ℕ) (args : RegKind → List ℕ) (params : List ParamSpec)
    (i : ℕ) (dt : Datatype) : Reg :=
  let kind := regKind dt
  let idx := (params.take i).countP fun a => a.dt ≠ .void ∧ regKind a.dt = kind
  match (args kind)[idx]? with
  | some reg => ⟨kind, reg⟩
  | none => ⟨kind, boundary kind + idx - (args kind).length⟩

/-! ### Without overflow -/

theorem wrap_i32 {x : ℤ} (h0 : -2 ^ 31 ≤ x) (h1 : x < 2 ^ 31) : wrap 32 x = x :=
  wrap_eq_self (by decide) ⟨h0, h1⟩

theorem wrap_i32_lt (x : ℤ) : wrap 32 x < 2 ^ 31 := (wrap_mem (by decide) x).2

theorem wrap_add_wrap (w : ℕ) (x y : ℤ) : wrap w (wrap w x + y) = wrap w (x + y) :=
  Int.bmod_add_bmod

theorem wrap_sub_wrap (w : ℕ) (x y : ℤ) : wrap w (wrap w x - y) = wrap w (x - y) :=
  Int.bmod_sub_bmod

/-- The lowest bits stay. -/
theorem wrap_i32_emod (x : ℤ) {n : ℤ} (h : n ∣ 2 ^ 32) : wrap 32 x % n = x % n := by
  have hdvd : (2 : ℤ) ^ 32 ∣ wrap 32 x - x := Int.dvd_bmod_sub_self
  exact Int.emod_eq_emod_iff_emod_sub_eq_zero.2 (Int.emod_eq_zero_of_dvd (h.trans hdvd))

theorem wrap_alignForward (x : ℤ) :
    wrap 32 (alignForward (wrap 32 x) 16) = wrap 32 (alignForward x 16) := by
  have h : -wrap 32 x % 16 = -x % 16 := by
    have := wrap_i32_emod x (by decide : (16 : ℤ) ∣ 2 ^ 32)
    omega
  rw [alignForward, alignForward, h, wrap_add_wrap]

/-- The offsets are sums, wrapped. -/
theorem getElem?_layout {start : ℤ} {sizes : List ℤ} {i : ℕ} {n : ℤ} (h : sizes[i]? = some n) :
    (layout start sizes).1[i]? = some (wrap 32 (start + (sizes.take i).sum)) := by
  induction sizes generalizing start i with
  | nil => cases h
  | cons size sizes ih =>
    cases i with
    | zero =>
      rw [layout]
      simp only [List.getElem?_cons_zero, List.take_zero, List.sum_nil, add_zero, wrap_sub_wrap,
        add_sub_cancel_right]
    | succ i =>
      rw [List.getElem?_cons_succ] at h
      rw [layout]
      simp only [List.getElem?_cons_succ, ih h, wrap_add_wrap, List.take_succ_cons, List.sum_cons,
        add_assoc]

theorem layout_snd {start : ℤ} {sizes : List ℤ} (h : wrap 32 start = start) :
    (layout start sizes).2 = wrap 32 (start + sizes.sum) := by
  induction sizes generalizing start with
  | nil => rw [layout, List.sum_nil, add_zero, h]
  | cons size sizes ih =>
    show (layout (wrap 32 (start + size)) sizes).2 = _
    rw [ih (wrap_wrap 32 _), wrap_add_wrap, List.sum_cons, add_assoc]

theorem layout_eq {start : ℤ} {sizes : List ℤ} (h0 : 0 ≤ start) (hs : ∀ n ∈ sizes, 0 ≤ n)
    (h1 : start + sizes.sum < 2 ^ 31) :
    layout start sizes = ((place start sizes).map Area.start, start + sizes.sum) := by
  induction sizes generalizing start with
  | nil => simp [layout, place]
  | cons size sizes ih =>
    have hsize := hs size (List.mem_cons_self ..)
    have hrest := fun n hn => hs n (List.mem_cons_of_mem _ hn)
    have hsum := List.sum_nonneg hrest
    rw [List.sum_cons] at h1
    have hw : wrap 32 (start + size) = start + size := wrap_i32 (by omega) (by omega)
    have hw' : wrap 32 (start + size - size) = start := by
      rw [add_sub_cancel_right]
      exact wrap_i32 (by omega) (by omega)
    rw [layout, hw, ih (by omega) hrest (by omega)]
    simp only [hw', place, List.map_cons, List.sum_cons, add_assoc]

theorem layout_lt (start : ℤ) (sizes : List ℤ) (h : start < 2 ^ 31) :
    (layout start sizes).2 < 2 ^ 31 := by
  induction sizes generalizing start with
  | nil => exact h
  | cons size sizes ih => exact ih _ (wrap_i32_lt _)

theorem layoutCallArgs_bounds (calls : List (List ℤ)) {start : ℤ} (h : start < 2 ^ 31) :
    start ≤ layoutCallArgs calls start ∧ layoutCallArgs calls start < 2 ^ 31 ∧
      ∀ sizes ∈ calls, (layout 0 sizes).2 ≤ layoutCallArgs calls start := by
  induction calls generalizing start with
  | nil => exact ⟨le_refl _, h, fun _ hc => by cases hc⟩
  | cons call calls ih =>
    have hmax : max start (layout 0 call).2 < 2 ^ 31 := max_lt h (layout_lt 0 call (by decide))
    obtain ⟨h1, h2, h3⟩ := ih hmax
    refine ⟨(le_max_left _ _).trans h1, h2, fun sizes hs => ?_⟩
    obtain rfl | hs := List.mem_cons.1 hs
    · exact (le_max_right _ _).trans h1
    · exact h3 sizes hs

section SpillSlotCount

variable {boundary : RegKind → ℕ} {allocs : List Reg} {k : RegKind}

/-- The slots of a loop that counts them from `n` on. -/
theorem foldl_count (n : ℤ) :
    let m := allocs.foldl
      (fun n r => if r.kind = k then max n ((r.index : ℤ) - boundary k + 1) else n) n
    n ≤ m ∧ (∀ r ∈ allocs, r.kind = k → (r.index : ℤ) - boundary k + 1 ≤ m) ∧
      (m = n ∨ ∃ r ∈ allocs, r.kind = k ∧ (r.index : ℤ) - boundary k + 1 = m) := by
  induction allocs generalizing n with
  | nil => exact ⟨le_refl _, fun _ h => (List.not_mem_nil h).elim, .inl rfl⟩
  | cons r allocs ih =>
    obtain ⟨h1, h2, h3⟩ := ih (if r.kind = k then max n ((r.index : ℤ) - boundary k + 1) else n)
    simp only [List.foldl_cons]
    refine ⟨le_trans ?_ h1, fun r' hr' hk => ?_, ?_⟩
    · split
      · exact le_max_left _ _
      · exact le_refl _
    · obtain rfl | hr' := List.mem_cons.1 hr'
      · refine le_trans ?_ h1
        rw [if_pos hk]
        exact le_max_right _ _
      · exact h2 r' hr' hk
    · obtain h3 | ⟨r', hr', hk, he⟩ := h3
      · rw [h3]
        split
        · rename_i hk
          obtain hm | hm := max_choice n ((r.index : ℤ) - boundary k + 1)
          · exact .inl hm
          · exact .inr ⟨r, List.mem_cons_self .., hk, hm.symm⟩
        · exact .inl rfl
      · exact .inr ⟨r', List.mem_cons_of_mem _ hr', hk, he⟩

theorem spillSlotSize_pos (k : RegKind) : 0 < spillSlotSize k := by cases k <;> decide

theorem spillSlotCount_nonneg : 0 ≤ spillSlotCount boundary allocs k := (foldl_count 0).1

theorem le_spillSlotCount {r : Reg} (hr : r ∈ allocs) (hk : r.kind = k) :
    (r.index : ℤ) - boundary k + 1 ≤ spillSlotCount boundary allocs k := (foldl_count 0).2.1 r hr hk

theorem exists_spillSlotCount (h : 0 < spillSlotCount boundary allocs k) :
    ∃ r ∈ allocs, r.kind = k ∧ (r.index : ℤ) - boundary k + 1 = spillSlotCount boundary allocs k :=
  (foldl_count 0).2.2.resolve_left h.ne'

end SpillSlotCount

/-! ### Parameters -/

/-- The bytes of the parameters that are values. -/
def valueBytes (params : List ParamSpec) : ℤ := ((params.filter (·.isValue)).map (·.size)).sum

theorem valueBytes_cons (p : ParamSpec) (params : List ParamSpec) :
    valueBytes (p :: params) = (if p.isValue then p.size else 0) + valueBytes params := by
  by_cases h : p.isValue
  · simp [valueBytes, h]
  · simp [valueBytes, h]

theorem valueBytes_nonneg {params : List ParamSpec} (h : ∀ p ∈ params, 0 ≤ p.size) :
    0 ≤ valueBytes params := by
  refine List.sum_nonneg fun n hn => ?_
  obtain ⟨p, hp, rfl⟩ := List.mem_map.1 hn
  exact h p (List.mem_filter.1 hp).1

/-- Without overflow the parameters are one after another, and the stack gets smaller by the bytes of
the values. -/
theorem computeParamOffsets_eq {params : List ParamSpec} {stack offset : ℤ}
    (hs : ∀ p ∈ params, 0 ≤ p.size) (h0 : 0 ≤ offset)
    (h1 : offset + (params.map (·.size)).sum < 2 ^ 31) (h2 : -2 ^ 31 ≤ stack - valueBytes params)
    (h3 : stack < 2 ^ 31) :
    (computeParamOffsets params stack offset).stackSize = stack - valueBytes params ∧
      (computeParamOffsets params stack offset).offsets =
        (place offset (params.map (·.size))).map Area.start := by
  induction params generalizing stack offset with
  | nil => simp [computeParamOffsets, valueBytes, place]
  | cons p params ih =>
    have hp := hs p (List.mem_cons_self ..)
    have hrest := fun q hq => hs q (List.mem_cons_of_mem _ hq)
    have hsum : 0 ≤ (params.map (·.size)).sum := by
      refine List.sum_nonneg fun n hn => ?_
      obtain ⟨q, hq, rfl⟩ := List.mem_map.1 hn
      exact hrest q hq
    have hv := valueBytes_nonneg hrest
    rw [List.map_cons, List.sum_cons] at h1
    rw [valueBytes_cons] at h2
    have hw : wrap 32 (offset + p.size) = offset + p.size := wrap_i32 (by omega) (by omega)
    have hstack : (if p.isValue then wrap 32 (stack - p.size) else stack) =
        stack - (if p.isValue then p.size else 0) := by
      split
      · rename_i hval
        rw [if_pos hval] at h2
        exact wrap_i32 (by omega) (by omega)
      · rw [sub_zero]
    have hif : (if p.isValue then p.size else 0) ≤ p.size ∧
        0 ≤ (if p.isValue then p.size else 0) := by
      split
      · exact ⟨le_refl _, hp⟩
      · exact ⟨hp, le_refl _⟩
    have hoffset : 0 ≤ offset + p.size := by omega
    have hstop : offset + p.size + (params.map (·.size)).sum < 2 ^ 31 := by omega
    have hlow : -2 ^ 31 ≤ stack - (if p.isValue then p.size else 0) - valueBytes params := by omega
    obtain ⟨hs1, hs2⟩ := ih hrest hoffset hstop hlow (by omega)
    rw [computeParamOffsets]
    dsimp only
    rw [hw, hstack]
    refine ⟨?_, ?_⟩
    · rw [hs1, valueBytes_cons]
      ring
    · rw [hs2, List.map_cons, place, List.map_cons]

/-- The bytes of the stack without those of the values, wrapped. -/
theorem computeParamOffsets_stackSize (params : List ParamSpec) {stack : ℤ} (offset : ℤ)
    (h : wrap 32 stack = stack) :
    (computeParamOffsets params stack offset).stackSize = wrap 32 (stack - valueBytes params) := by
  induction params generalizing stack offset with
  | nil => simp [computeParamOffsets, valueBytes, h]
  | cons p params ih =>
    rw [computeParamOffsets, valueBytes_cons]
    dsimp only
    split
    · rw [ih _ (wrap_wrap 32 _), wrap_sub_wrap, sub_sub]
    · rw [ih _ h, zero_add]

/-- The offset of a parameter is the sum of the sizes before it, wrapped. -/
theorem getElem?_offsets {params : List ParamSpec} {i : ℕ} (hi : i < params.length)
    (stack : ℤ) {offset : ℤ} (h : wrap 32 offset = offset) :
    (computeParamOffsets params stack offset).offsets[i]? =
      some (wrap 32 (offset + ((params.take i).map (·.size)).sum)) := by
  induction params generalizing i stack offset with
  | nil => exact absurd hi (Nat.not_lt_zero i)
  | cons p params ih =>
    rw [computeParamOffsets]
    cases i with
    | zero =>
      simp only [List.getElem?_cons_zero, List.take_zero, List.map_nil, List.sum_nil, add_zero, h]
    | succ i =>
      rw [List.length_cons] at hi
      simp only [List.getElem?_cons_succ, ih (Nat.lt_of_succ_lt_succ hi) _ (wrap_wrap 32 _),
        wrap_add_wrap, List.take_succ_cons, List.map_cons, List.sum_cons, add_assoc]

theorem length_stackParamOffset (params : List ParamSpec) (stack offset : ℤ) (k : RegKind) :
    ((computeParamOffsets params stack offset).stackParamOffset k).length =
      params.countP (·.isValueOf k) := by
  induction params generalizing stack offset with
  | nil => rfl
  | cons p params ih =>
    rw [computeParamOffsets, List.countP_cons]
    dsimp only
    split
    · rw [List.length_cons, ih]
    · rw [ih, add_zero]

/-- **A parameter that is a value is where its register says.** -/
theorem stackParamOffset_getElem? {params : List ParamSpec} {i : ℕ} {p : ParamSpec} {k : RegKind}
    (hi : params[i]? = some p) (hp : p.isValueOf k = true) (stack offset : ℤ) :
    ((computeParamOffsets params stack offset).stackParamOffset k)[
      (params.take i).countP (·.isValueOf k)]? =
      (computeParamOffsets params stack offset).offsets[i]? := by
  induction params generalizing i stack offset with
  | nil => cases hi
  | cons q params ih =>
    rw [computeParamOffsets]
    cases i with
    | zero =>
      obtain rfl := Option.some.inj hi
      simp only [List.take_zero, List.countP_nil, if_pos hp, List.getElem?_cons_zero]
    | succ i =>
      rw [List.getElem?_cons_succ] at hi
      simp only [List.take_succ_cons, List.countP_cons, List.getElem?_cons_succ]
      by_cases hq : q.isValueOf k = true
      · rw [if_pos hq, if_pos hq, List.getElem?_cons_succ, ih hi]
      · rw [if_neg hq, if_neg hq, add_zero, ih hi]

/-- The register of a value of the kind `k` is that of a parameter. -/
theorem exists_isValueOf {params : List ParamSpec} {j : ℕ} {k : RegKind}
    (h : j < params.countP (·.isValueOf k)) :
    ∃ i p, params[i]? = some p ∧ p.isValueOf k = true ∧
      (params.take i).countP (·.isValueOf k) = j := by
  induction params generalizing j with
  | nil => exact absurd h (Nat.not_lt_zero j)
  | cons q params ih =>
    rw [List.countP_cons] at h
    by_cases hq : q.isValueOf k = true
    · cases j with
      | zero => exact ⟨0, q, rfl, hq, rfl⟩
      | succ j =>
        rw [if_pos hq] at h
        obtain ⟨i, p, hi, hp, hc⟩ := ih (Nat.lt_of_succ_lt_succ h)
        refine ⟨i + 1, p, hi, hp, ?_⟩
        rw [List.take_succ_cons, List.countP_cons, if_pos hq, hc]
    · rw [if_neg hq] at h
      obtain ⟨i, p, hi, hp, hc⟩ := ih h
      refine ⟨i + 1, p, hi, hp, ?_⟩
      rw [List.take_succ_cons, List.countP_cons, if_neg hq, hc, add_zero]

end OdinSon.Codegen
