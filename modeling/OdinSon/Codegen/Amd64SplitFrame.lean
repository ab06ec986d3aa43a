import OdinSon.Codegen.Amd64Split
import Mathlib.Data.List.Pairwise

/-!
# Splits in a frame

In a frame with room for its areas (`Func.Room`) the slots of an allocation are apart: those of spilled
live ranges are below the saved registers, those of parameters above the return address.  So what is
left of the condition for a move to be exact (`SplitSite.Exact`) is about the two places and the
datatype only (`exact_of_room`).
-/

namespace OdinSon.Codegen.Amd64

open Lib Lib.X86

namespace SplitSite

variable {s : SplitSite}

/-! ### The slots of parameters -/

/-- The slot is that of a parameter. -/
def IsParam (s : SplitSite) (r : Reg) : Prop :=
  r.index - boundary r.kind < (s.f.frame.stackParamOffset r.kind).length

instance (r : Reg) : Decidable (s.IsParam r) := inferInstanceAs (Decidable (_ < _))

theorem slot_of_param {r : Reg} (hp : s.IsParam r) : s.slot r = ⟨s.off r, 8⟩ :=
  congrArg (Area.mk _) (if_pos hp)

theorem slot_of_not_param {r : Reg} (hp : ¬ s.IsParam r) :
    s.slot r = ⟨s.off r, spillSlotSize r.kind⟩ := congrArg (Area.mk _) (if_neg hp)

/-- The areas of all the parameters. -/
def paramAreas (f : Func) : List Area :=
  place (f.savedBytes + 8 + f.frameBytes) (f.paramSpecs.map (·.size))

/-- The parameter that a slot is of. -/
theorem exists_param (hf : s.f.Fits) {r : Reg} (hsp : isSpill r = true) (hp : s.IsParam r) :
    ∃ i p, s.f.paramSpecs[i]? = some p ∧ p.isValueOf r.kind = true ∧
      (s.f.paramSpecs.take i).countP (·.isValueOf r.kind) = r.index - boundary r.kind ∧
      (paramAreas s.f)[i]? = some (s.slot r) := by
  have hlt := hp
  rw [IsParam, Func.length_frame_stackParamOffset] at hlt
  obtain ⟨i, p, hi, hval, hcount⟩ := exists_isValueOf hlt
  refine ⟨i, p, hi, hval, hcount, ?_⟩
  have hsize : p.size = 8 := Func.isValue_paramSpecs (List.mem_of_getElem? hi)
    (Bool.and_eq_true _ _ ▸ hval).1
  have harea : (paramAreas s.f)[i]? = some ⟨s.f.savedBytes + 8 + s.f.frameBytes +
      ((s.f.paramSpecs.map (·.size)).take i).sum, 8⟩ :=
    getElem?_place (by rw [List.getElem?_map, hi, Option.map_some, hsize])
  have hoff : s.off r = s.f.savedBytes + 8 + s.f.frameBytes +
      ((s.f.paramSpecs.map (·.size)).take i).sum := by
    have hget : (s.f.frame.stackParamOffset r.kind)[r.index - boundary r.kind]? =
        s.f.frame.paramOffsets[i]? := by
      rw [← hcount]
      simp only [Func.frame, List.getElem?_map, stackParamOffset_getElem? hi hval]
    rw [(Func.frame_eq hf).params, List.getElem?_map] at hget
    rw [paramAreas] at harea
    rw [harea] at hget
    have hge : ¬ r.index < boundary r.kind := not_lt.2 (of_decide_eq_true hsp)
    rw [off, spillSlotOffset, if_neg hge, hget]
    rfl
  rw [harea, slot_of_param hp, hoff]

/-- The slot of a spilled live range is among the areas of those. -/
theorem mem_spillAreas_of_not_param {r : Reg} (hmem : r ∈ s.f.allocs) (hsp : isSpill r = true)
    (hp : ¬ s.IsParam r) : r ∈ s.f.spillRegs r.kind ∧ s.slot r ∈ s.f.spillAreas r.kind := by
  have hge : boundary r.kind ≤ r.index := of_decide_eq_true hsp
  have hlen := hp
  rw [IsParam, Func.length_frame_stackParamOffset] at hlen
  have hr : r ∈ s.f.spillRegs r.kind := by
    refine List.mem_dedup.2 (List.mem_filter.2 ⟨hmem, ?_⟩)
    simp only [decide_eq_true_eq, true_and]
    omega
  rw [slot_of_not_param hp]
  exact ⟨hr, List.mem_map_of_mem hr⟩

theorem paramSpecs_size_nonneg (f : Func) : ∀ n ∈ f.paramSpecs.map (·.size), 0 ≤ n := by
  intro n hn
  obtain ⟨p, hp, rfl⟩ := List.mem_map.1 hn
  exact Func.paramSpecs_nonneg hp

section Room

variable (hf : s.f.Fits) (hroom : s.f.Room)
include hf hroom

/-- What is below the saved registers is apart from the parameters. -/
theorem apart_param {a : Area} (ha : a ∈ s.f.lowAreas) (hpos : 0 < a.size) {r : Reg}
    (hsp : isSpill r = true) (hp : s.IsParam r) : Area.Apart a (s.slot r) := by
  obtain ⟨i, p, -, -, -, harea⟩ := exists_param hf hsp hp
  have hstop := (Func.low_le_iff_room hf).2 hroom a (List.mem_cons_of_mem _ ha) hpos
  have hstart := (mem_place_bounds (paramSpecs_size_nonneg s.f) (List.mem_of_getElem? harea)).1
  have hsaved : 0 ≤ s.f.savedBytes := by
    rw [Func.savedBytes]
    omega
  exact Area.apart_of_le (by omega)

/-- **The slots of an allocation are apart.** -/
theorem apart_slots {r r' : Reg} (hmem : r ∈ s.f.allocs) (hsp : isSpill r = true)
    (hmem' : r' ∈ s.f.allocs) (hsp' : isSpill r' = true) (hne : r ≠ r') :
    Area.Apart (s.slot r) (s.slot r') := by
  -- a slot that is no parameter is in this frame, below those of the caller
  have hlow : ∀ r, r ∈ s.f.allocs → isSpill r = true → ¬ s.IsParam r →
      s.slot r ∈ s.f.lowAreas ∧ 0 < (s.slot r).size := by
    intro r hmem hsp hp
    have harea := (mem_spillAreas_of_not_param hmem hsp hp).2
    refine ⟨?_, ?_⟩
    · rw [Func.lowAreas]
      cases hk : r.kind with
      | general =>
        rw [hk] at harea
        exact List.mem_append_left _ (List.mem_append_right _ harea)
      | vector =>
        rw [hk] at harea
        exact List.mem_append_right _ harea
    · rw [slot_of_not_param hp]
      exact spillSlotSize_pos _
  by_cases hp : s.IsParam r <;> by_cases hp' : s.IsParam r'
  · obtain ⟨i, p, hi, hval, hcount, harea⟩ := exists_param hf hsp hp
    obtain ⟨i', p', hi', hval', hcount', harea'⟩ := exists_param hf hsp' hp'
    -- one parameter has one slot: the same position means the same register
    have hii : i ≠ i' := by
      rintro rfl
      obtain rfl := Option.some.inj (hi.symm.trans hi')
      have hk : r.kind = r'.kind := by
        have h := of_decide_eq_true (Bool.and_eq_true _ _ ▸ hval).2
        have h' := of_decide_eq_true (Bool.and_eq_true _ _ ▸ hval').2
        exact h.symm.trans h'
      rw [hk] at hcount
      have hge : boundary r.kind ≤ r.index := of_decide_eq_true hsp
      have hge' : boundary r'.kind ≤ r'.index := of_decide_eq_true hsp'
      refine hne ?_
      rw [Reg.mk.injEq]
      rw [hk] at hge
      exact ⟨hk, by omega⟩
    have hpair : (paramAreas s.f).Pairwise Area.Apart := apart_place (paramSpecs_size_nonneg s.f)
    obtain ⟨hlt, harea⟩ := List.getElem?_eq_some_iff.1 harea
    obtain ⟨hlt', harea'⟩ := List.getElem?_eq_some_iff.1 harea'
    rw [← harea, ← harea']
    obtain hlt₂ | hlt₂ := lt_or_gt_of_ne hii
    · exact List.pairwise_iff_getElem.1 hpair i i' hlt hlt' hlt₂
    · exact (List.pairwise_iff_getElem.1 hpair i' i hlt' hlt hlt₂).symm
  · obtain ⟨ha, hpos⟩ := hlow r' hmem' hsp' hp'
    exact (apart_param hf hroom ha hpos hsp hp).symm
  · obtain ⟨ha, hpos⟩ := hlow r hmem hsp hp
    exact apart_param hf hroom ha hpos hsp' hp'
  · obtain ⟨hr, ha⟩ := mem_spillAreas_of_not_param hmem hsp hp
    obtain ⟨hr', ha'⟩ := mem_spillAreas_of_not_param hmem' hsp' hp'
    by_cases hk : r.kind = r'.kind
    · have hpair := Func.apart_spillAreas hf r.kind
      rw [Func.spillAreas, List.pairwise_map] at hpair
      rw [← hk] at hr'
      have : Std.Symm fun r₁ r₂ : Reg => Area.Apart
          ⟨s.off r₁, spillSlotSize r.kind⟩ ⟨s.off r₂, spillSlotSize r.kind⟩ :=
        ⟨fun _ _ h => h.symm⟩
      rw [slot_of_not_param hp, slot_of_not_param hp', ← hk]
      exact @List.Pairwise.forall _ _ _ this hpair _ hr _ hr' hne
    · -- the two kinds have areas of their own
      have hcross := (List.pairwise_append.1 (Func.apart_lowAreas hf)).2.2
      cases hkr : r.kind with
      | general =>
        have hkr' : r'.kind = .vector := by
          cases h : r'.kind with
          | general => exact absurd (hkr.trans h.symm) hk
          | vector => rfl
        rw [hkr] at ha
        rw [hkr'] at ha'
        exact hcross _ (List.mem_append_right _ ha) _ ha'
      | vector =>
        have hkr' : r'.kind = .general := by
          cases h : r'.kind with
          | general => rfl
          | vector => exact absurd (hkr.trans h.symm) hk
        rw [hkr] at ha
        rw [hkr'] at ha'
        exact (hcross _ (List.mem_append_right _ ha') _ ha).symm

/-- So is the temporary slot, if there is one. -/
theorem apart_temp {k : RegKind} (htemp : s.f.tempSlot = some k) {r : Reg} (hmem : r ∈ s.f.allocs)
    (hsp : isSpill r = true) : Area.Apart s.temp (s.slot r) := by
  have hle : 8 ≤ spillSlotSize k := by cases k <;> decide
  have hsub : ∀ a ∈ s.temp, a ∈ (⟨s.f.frame.tempSlotOffset, spillSlotSize k⟩ : Area) := by
    intro a ha
    simp only [temp, Area.mem_def, Area.stop] at ha ⊢
    omega
  have hlow : (⟨s.f.frame.tempSlotOffset, spillSlotSize k⟩ : Area) ∈
      s.f.tempSlot.toList.map fun k => (⟨s.f.frame.tempSlotOffset, spillSlotSize k⟩ : Area) := by
    rw [htemp]
    exact List.mem_singleton.2 rfl
  have hpair := Func.apart_lowAreas hf
  suffices hap : Area.Apart ⟨s.f.frame.tempSlotOffset, spillSlotSize k⟩ (s.slot r) from
    fun a ha => hap a (hsub a ha)
  by_cases hp : s.IsParam r
  · refine apart_param hf hroom ?_ (spillSlotSize_pos k) hsp hp
    exact List.mem_append_left _ (List.mem_append_left _ (List.mem_append_right _ hlow))
  · have ha := (mem_spillAreas_of_not_param hmem hsp hp).2
    rw [Func.lowAreas, List.pairwise_append] at hpair
    cases hk : r.kind with
    | general =>
      rw [hk] at ha
      exact (List.pairwise_append.1 hpair.1).2.2 _ (List.mem_append_right _ hlow) _ ha
    | vector =>
      rw [hk] at ha
      exact hpair.2.2 _ (List.mem_append_left _ (List.mem_append_right _ hlow)) _ ha

/-- **In a frame with room a move is exact but between two slots of vectors, of more than 16 bytes, and
of 16 bytes to the slot of a parameter.** -/
theorem exact_of_room (h : s.Assigned) (hone : ¬ (s.dst.kind = .vector ∧ s.dSpill = true ∧
    s.sSpill = true)) (hsize : s.dt.size ≤ 16) (hparam : s.IsParam s.dst → s.dt.size ≤ 8)
    (htemp : s.dSpill = true → s.sSpill = true → s.f.tempSlot ≠ none) : s.Exact := by
  refine ⟨hone, hsize, fun hd _ r hr a ha hb => ?_, fun hd hs r hmem hsp => ?_⟩
  · obtain ⟨hmem, hsp, hne⟩ := mem_others.1 hr
    refine apart_slots hf hroom h.dst_mem hd hmem hsp hne.symm a ?_ hb
    -- what is written fits the slot
    have hle : (s.moved : ℤ) ≤ (s.slot s.dst).size := by
      cases hkind : s.dst.kind with
      | general =>
        rw [moved, hkind, slot_general hkind]
        exact le_rfl
      | vector =>
        have hmoved : s.moved = s.dt.size := by rw [moved, hkind]
        rw [hmoved]
        by_cases hp : s.IsParam s.dst
        · rw [slot_of_param hp]
          exact Nat.cast_le_ofNat.2 (hparam hp)
        · rw [slot_of_not_param hp, hkind]
          exact Nat.cast_le_ofNat.2 hsize
    have hstart : (s.slot s.dst).start = s.off s.dst := rfl
    simp only [written, Area.mem_def, Area.stop] at ha
    rw [Area.mem_def, Area.stop, hstart]
    omega
  · obtain ⟨k, hk⟩ := Option.ne_none_iff_exists'.1 (htemp hd hs)
    exact apart_temp hf hroom hk hmem hsp

end Room

/-! ### The condition -/

/-- Two live ranges of floats in slots. -/
def twoFloats : SplitSite where
  f := { Func.sevenParams [⟨.vector, 16⟩, ⟨.vector, 17⟩] with tempSlot := some .vector }
  dst := ⟨.vector, 16⟩
  src := ⟨.vector, 17⟩
  dt := .f32
  cc := 0
  unordered := false

/-- A move of a float between slots loses what else is in `XMM15`. -/
theorem not_right_twoFloats : twoFloats.Assigned ∧ ¬ twoFloats.Right := by
  have h : twoFloats.Assigned := ⟨by decide, by decide, by decide, rfl, rfl, by decide, by decide⟩
  exact ⟨h, fun hr => oneSlot_of_right h hr ⟨rfl, by decide, by decide⟩⟩

/-- **A move is exact iff it is not between two slots of vectors, of 16 bytes at most, and neither
what it writes nor the temporary slot is in another slot.** -/
theorem splitRight_iff (h : s.Assigned) : s.Right ↔ s.Exact := by
  constructor
  · intro hr
    exact ⟨oneSlot_of_right h hr, size_of_right h hr,
      fun hd hoff r hmem => apart_of_right h hr hd hoff hmem,
      fun hd hs r hmem hsp => temp_of_right h hr hd hs hmem hsp⟩
  · intro hx
    by_cases hboth : s.dSpill = true ∧ s.sSpill = true
    · have hkind : s.dst.kind = .general := by
        cases hkind : s.dst.kind with
        | general => rfl
        | vector => exact absurd ⟨hkind, hboth⟩ hx.oneSlot
      exact right_slots h hkind hboth.1 hboth.2 hx
    · obtain ⟨code, hcode, hrun⟩ := emit_moved h hx.size hboth
      refine ⟨code, hcode, fun st => ?_⟩
      obtain ⟨st', hst', hmoved⟩ := hrun st
      refine ⟨st', hst', hmoved.arrived fun _ => ?_, hmoved.keeps fun hd r hr => ?_⟩
      · rw [moved]
        split
        · exact size_le_of_general (h.dst_kind.symm.trans ‹_›)
        · exact le_rfl
      · exact hx.apart hd (fun hs => absurd ⟨hd, hs⟩ hboth) r hr

/-- A spilled live range gets the value of `rbx`. -/
def spillRbx : SplitSite where
  f := Func.sevenParams [⟨.general, 3⟩, ⟨.general, 17⟩, ⟨.general, 18⟩]
  dst := ⟨.general, 18⟩
  src := ⟨.general, 3⟩
  dt := .i64
  cc := 0
  unordered := false

theorem right_spillRbx :
    spillRbx.Right ∧ spillRbx.emit = some [movStore 3 (spillRbx.off ⟨.general, 18⟩)] := by
  have h : spillRbx.Assigned := ⟨by decide, by decide, by decide, rfl, rfl, by decide, by decide⟩
  have hroom : spillRbx.f.Room := ⟨by decide, by decide, by decide⟩
  refine ⟨(splitRight_iff h).2 (exact_of_room ⟨by decide, by decide⟩ hroom h ?_ ?_ ?_ ?_), rfl⟩
  · decide
  · decide
  · intro _
    decide
  · intro _ hs
    cases hs

end SplitSite

end OdinSon.Codegen.Amd64
