import OdinSon.Odinc.GlobalsLaws

/-!
# Runs of stores

Globals are added and stored to, from the empty list on.  Pointers stay closed under this
(`Closed.stores`), a store is read back as its value (`loaded_store`) and is not seen elsewhere
(`loaded_frame`), and so along a run (`run_loads`).  The exceptions are pointers with the offset that
marks procedures: `load_sentinel` reads one back as a procedure.
-/

namespace OdinSon.Odinc

open MachInt

/-- What is done to the globals. -/
inductive Op where
  | add (data : List ℕ) (align : ℕ)
  | store (dest : Dest) (m : CheckMeta)

variable (fl : Floats)

def step (c : Globals) : Op → Option Globals
  | .add data align => some (c ++ [⟨data, align, []⟩])
  | .store dest m => globalStore fl c dest m

def run (c : Globals) (ops : List Op) : Option Globals := ops.foldlM (step fl) c

/-- The value that is stored: a literal, or what is at the source before. -/
def storedValue (c : Globals) (m : CheckMeta) : Option Value :=
  if m.lvalue then loaded fl c m.dest m.type else some (valueOf c m)

/-- Ranges with no byte in common. -/
def Apart (dest : Dest) (size : ℕ) (dest' : Dest) (size' : ℕ) : Prop :=
  dest.idx ≠ dest'.idx ∨ dest.offset + size ≤ dest'.offset ∨ dest'.offset + size' ≤ dest.offset

def Op.ApartFrom (dest : Dest) (size : ℕ) : Op → Prop
  | .add _ _ => True
  | .store d m => Apart d m.type.size dest size

def Op.Storable (c : Globals) : Op → Prop
  | .add _ _ => True
  | .store dest m => Odinc.Storable fl c dest m

def Op.Meets (c : Globals) : Op → Prop
  | .add _ _ => True
  | .store dest m => Odinc.Meets c dest m

/-- Each operation is made in a state that it can be made in. -/
def Along (p : Globals → Op → Prop) : Globals → List Op → Prop
  | _, [] => True
  | c, op :: ops => p c op ∧ ∀ c', step fl c op = some c' → Along p c' ops

/-- A place of the type in a global. -/
structure Location (c : Globals) (dest : Dest) (ty : Ty) : Prop where
  align : (getGlobal c dest.idx).align ≠ 0
  fits : dest.offset + ty.size ≤ (getGlobal c dest.idx).bytes.length
  size : ty.dt ≠ .void → 0 < ty.size

/-! ### One store -/

theorem lt_length_of_align {c : Globals} {i : ℕ} (h : (getGlobal c i).align ≠ 0) : i < c.length := by
  by_contra hi
  rw [getGlobal, List.getD_eq_default _ _ (not_lt.1 hi)] at h
  exact h rfl

theorem closed_nil : Closed [] := by
  intro i k a b h
  cases h

theorem Closed.add {c : Globals} (hc : Closed c) (data : List ℕ) (align : ℕ) :
    Closed (c ++ [⟨data, align, []⟩]) := by
  intro i k a b h hb
  obtain hi | hi := lt_or_ge i c.length
  · rw [getGlobal_append _ hi] at h
    have halign := hc i k a b h hb
    rwa [getGlobal_append _ (lt_length_of_align halign)]
  · rw [Global.cell, relocs_append _ (by simp) hi] at h
    cases h

section Store

variable {fl} {c c' : Globals} {dest : Dest} {size : ℕ} {cells : List Cell}

theorem Stores.align_eq (hs : Stores c c' dest size cells) {i : ℕ} (hi : i < c.length) :
    (getGlobal c' i).align = (getGlobal c i).align := by
  by_cases h : i = dest.idx
  · rw [h, hs.align]
  · rw [hs.other i hi h]

theorem Stores.bytes_eq (hs : Stores c c' dest size cells) {i : ℕ} (hi : i < c.length) :
    (getGlobal c' i).bytes.length = (getGlobal c i).bytes.length := by
  by_cases h : i = dest.idx
  · rw [h, hs.bytes]
  · rw [hs.other i hi h]

theorem Stores.location (hs : Stores c c' dest size cells) {dest' : Dest} {ty : Ty}
    (h : Location c dest' ty) : Location c' dest' ty := by
  have hi := lt_length_of_align h.align
  exact ⟨hs.align_eq hi ▸ h.align, hs.bytes_eq hi ▸ h.fits, h.size⟩

/-- A cell after the store is one of the value's or as before. -/
theorem Stores.cell_cases (hs : Stores c c' dest size cells) (i k : ℕ) :
    (i = dest.idx ∧ (getGlobal c' i).cell k ∈ cells) ∨
      (getGlobal c' i).cell k = (getGlobal c i).cell k ∨ ((getGlobal c' i).cell k).2 = none := by
  obtain hi | hi := lt_or_ge i c.length
  · by_cases h : i = dest.idx
    · subst h
      by_cases hk : dest.offset ≤ k ∧ k < dest.offset + size
      · refine .inl ⟨rfl, ?_⟩
        rw [← hs.cells, Global.cells, List.mem_map]
        exact ⟨k - dest.offset, List.mem_range.2 (by omega), by rw [Nat.add_sub_cancel' hk.1]⟩
      · exact .inr (.inl (hs.frame k hk))
    · exact .inr (.inl (by rw [hs.other i hi h]))
  · exact .inr (.inr (by rw [Global.cell, hs.fresh i hi]; rfl))

theorem mem_pointerCells {d : Dest} {byte a b : ℕ}
    (h : ((byte, some (a, b)) : Cell) ∈ pointerCells (.global d)) : a = d.idx := by
  simp only [pointerCells, List.mem_cons, List.mem_replicate, Prod.mk.injEq, Option.some.injEq,
    reduceCtorEq, and_false, or_false] at h
  exact h.2.1

theorem not_mem_bytes {byte a b : ℕ} {data : List ℕ} :
    ¬((byte, some (a, b)) : Cell) ∈ data.map (·, none) := by
  simp

/-- The pointers in what is stored: into globals with memory, or to the text of a string. -/
theorem storedCells_closed {m : CheckMeta} {byte a b : ℕ} (hc : Closed c)
    (h : ((byte, some (a, b)) : Cell) ∈ storedCells fl c m) (hb : b ≠ maxU32) :
    (getGlobal c a).align ≠ 0 ∨ (m.lvalue = false ∧ (∃ data, m.lit = .string data) ∧ a = c.length) := by
  unfold storedCells at h
  cases hl : m.lvalue with
  | true =>
    rw [hl, if_pos rfl, Global.cells, List.mem_map] at h
    obtain ⟨k, -, hk⟩ := h
    exact .inl (hc _ _ a b (congrArg Prod.snd hk) hb)
  | false =>
    rw [hl, if_neg Bool.false_ne_true] at h
    cases hlit : m.lit with
    | bits n =>
      rw [hlit] at h
      exact absurd h not_mem_bytes
    | dest d =>
      rw [hlit, litCells, place] at h
      split_ifs at h with halign
      · exact absurd h not_mem_bytes
      · exact .inl (mem_pointerCells h ▸ halign)
    | proc id =>
      rw [hlit, litCells] at h
      split_ifs at h
      · simp at h
      · simp only [List.mem_cons, Prod.mk.injEq, Option.some.injEq, List.mem_replicate, reduceCtorEq,
          and_false, or_false] at h
        exact absurd h.2.2 hb
    | string data =>
      rw [hlit, litCells, stringCells, List.mem_append] at h
      obtain h | h := h
      · exact .inr ⟨rfl, ⟨data, rfl⟩, mem_pointerCells h⟩
      · exact absurd h not_mem_bytes

/-- **A store keeps pointers closed.** -/
theorem Closed.stores {m : CheckMeta} (hc : Closed c)
    (hs : Stores c c' dest m.type.size (storedCells fl c m))
    (htext : ∀ data, m.lvalue = false → m.lit = .string data →
      getGlobal c' c.length = ⟨data, 1, []⟩) : Closed c' := by
  have hold {a : ℕ} (halign : (getGlobal c a).align ≠ 0) : (getGlobal c' a).align ≠ 0 := by
    rwa [hs.align_eq (lt_length_of_align halign)]
  intro i k a b hcell hb
  obtain ⟨-, hmem⟩ | hsame | hnone := hs.cell_cases i k
  · have heq : (getGlobal c' i).cell k = (((getGlobal c' i).cell k).1, some (a, b)) :=
      Prod.ext rfl hcell
    rw [heq] at hmem
    obtain halign | ⟨hl, ⟨data, hdata⟩, rfl⟩ := storedCells_closed hc hmem hb
    · exact hold halign
    · rw [htext data hl hdata]
      exact one_ne_zero
  · exact hold (hc i k a b (hsame ▸ hcell) hb)
  · rw [hnone] at hcell
    cases hcell

/-- **A store is not seen at a disjoint place.** -/
theorem loaded_frame {dest' : Dest} {ty : Ty} (hc : Closed c) (hc' : Closed c')
    (hs : Stores c c' dest size cells) (hloc : Location c dest' ty)
    (hapart : Apart dest size dest' ty.size) : loaded fl c' dest' ty = loaded fl c dest' ty := by
  have hloc' := hs.location hloc
  rw [loaded_eq hc' hloc'.align hloc'.fits hloc.size, loaded_eq hc hloc.align hloc.fits hloc.size]
  congr 2
  refine List.map_congr_left fun k hk => ?_
  have hk := List.mem_range.1 hk
  by_cases hidx : dest'.idx = dest.idx
  · rw [hidx]
    refine hs.frame _ fun hin => ?_
    obtain hne | hle | hle := hapart
    · exact hne hidx.symm
    · omega
    · omega
  · rw [hs.other dest'.idx (lt_length_of_align hloc.align) hidx]

/-- The cells of a literal are read back as its value. -/
theorem decode_storedCells {m : CheckMeta} (h : Storable fl c dest m) (hm : Meets c dest m)
    (hl : m.lvalue = false) : decode fl m.type (storedCells fl c m) = valueOf c m := by
  have hrep := h.value hl
  rw [storedCells, hl, if_neg Bool.false_ne_true]
  unfold valueOf
  cases hlit : m.lit with
  | bits n =>
    rw [hlit] at hrep
    exact decode_bits hrep
  | proc id =>
    rw [hlit] at hrep
    exact decode_proc hrep.1
  | dest d =>
    rw [hlit] at hrep
    simp only [hl, Bool.false_eq_true, if_false]
    refine decode_pointer hrep.1 (fun d' hd' => ?_) fun n hn => ?_
    · unfold place at hd'
      split_ifs at hd' with halign
      obtain rfl := Place.global.inj hd'
      exact hm.pointer d hl hlit halign
    · unfold place at hn
      split_ifs at hn
      obtain rfl := Place.address.inj hn
      exact Nat.mod_lt _ (by decide)
  | string data =>
    rw [hlit] at hrep
    have hvoid : m.type.dt = .void := by
      cases hty : m.type with
      | prim p => rw [hty] at hrep; cases p <;> first | rfl | cases hrep.1
      | _ => rw [hty] at hrep; cases hrep.1
    exact if_pos hvoid

/-- **A store is read back.** -/
theorem loaded_store {m : CheckMeta} (hc : Closed c) (hc' : Closed c') (h : Storable fl c dest m)
    (hm : Meets c dest m) (hs : Stores c c' dest m.type.size (storedCells fl c m)) :
    loaded fl c' dest m.type = storedValue fl c m := by
  have hsize : m.type.dt ≠ .void → 0 < m.type.size := fun hvoid => Ty.size_pos hvoid hm.simd
  have hloc := hs.location ⟨h.align, h.fits, hsize⟩
  rw [loaded_eq hc' hloc.align hloc.fits hsize, hs.cells, storedValue]
  cases hl : m.lvalue with
  | true =>
    obtain ⟨d, hd, -, halign, hfits⟩ := h.source hl
    have hdest : m.dest = d := by rw [CheckMeta.dest, hd]
    rw [if_pos rfl, hdest, loaded_eq hc halign hfits hsize, storedCells, if_pos hl, hdest]
  | false => rw [if_neg Bool.false_ne_true, decode_storedCells h hm hl]

end Store

/-! ### Runs -/

section Runs

variable {fl} {c : Globals}

/-- What one operation does. -/
theorem step_spec {op : Op} (hc : Closed c) (h : op.Storable fl c ∧ op.Meets c) :
    ∃ c', step fl c op = some c' ∧ Closed c' ∧
      ∀ dest ty, Location c dest ty → op.ApartFrom dest ty.size →
        Location c' dest ty ∧ loaded fl c' dest ty = loaded fl c dest ty := by
  cases op with
  | add data align =>
    refine ⟨_, rfl, hc.add data align, fun dest ty hloc _ => ?_⟩
    have hget := getGlobal_append [⟨data, align, []⟩] (lt_length_of_align hloc.align)
    have hloc' : Location (c ++ [⟨data, align, []⟩]) dest ty :=
      ⟨hget ▸ hloc.align, hget ▸ hloc.fits, hloc.size⟩
    refine ⟨hloc', ?_⟩
    rw [loaded_eq (hc.add data align) hloc'.align hloc'.fits hloc.size,
      loaded_eq hc hloc.align hloc.fits hloc.size, hget]
  | store dest m =>
    obtain ⟨c', heq, hs, htext⟩ := globalStore_stores h.1 h.2
    have hc' := hc.stores hs htext
    exact ⟨c', heq, hc', fun dest' ty hloc hapart =>
      ⟨hs.location hloc, loaded_frame hc hc' hs hloc hapart⟩⟩

theorem run_cons {op : Op} {ops : List Op} {c' : Globals} (h : step fl c op = some c') :
    run fl c (op :: ops) = run fl c' ops := by
  rw [run, List.foldlM_cons, h]
  rfl

/-- A run never fails, and a place that it does not store to keeps its value. -/
theorem run_spec {ops : List Op} (hc : Closed c)
    (h : Along fl (fun c op => op.Storable fl c ∧ op.Meets c) c ops) :
    ∃ c', run fl c ops = some c' ∧ Closed c' ∧
      ∀ dest ty, Location c dest ty → (∀ op ∈ ops, op.ApartFrom dest ty.size) →
        loaded fl c' dest ty = loaded fl c dest ty := by
  induction ops generalizing c with
  | nil => exact ⟨c, rfl, hc, fun _ _ _ _ => rfl⟩
  | cons op ops ih =>
    obtain ⟨c₁, hstep, hc₁, hkeep⟩ := step_spec hc h.1
    obtain ⟨c₂, hrun, hc₂, hkeep₂⟩ := ih hc₁ (h.2 c₁ hstep)
    refine ⟨c₂, (run_cons hstep).trans hrun, hc₂, fun dest ty hloc hapart => ?_⟩
    obtain ⟨hloc₁, heq⟩ := hkeep dest ty hloc (hapart op List.mem_cons_self)
    rw [hkeep₂ dest ty hloc₁ fun op' hop' => hapart op' (List.mem_cons_of_mem _ hop'), heq]

/-- The part of a run after some operations. -/
theorem Along.append {p : Globals → Op → Prop} {ops₁ ops₂ : List Op} {c' : Globals}
    (h : Along fl p c (ops₁ ++ ops₂)) (hrun : run fl c ops₁ = some c') : Along fl p c' ops₂ := by
  induction ops₁ generalizing c with
  | nil =>
    obtain rfl : c = c' := Option.some.inj hrun
    exact h
  | cons op ops₁ ih =>
    rw [run, List.foldlM_cons] at hrun
    cases hstep : step fl c op with
    | none =>
      rw [hstep] at hrun
      cases hrun
    | some c₁ =>
      rw [hstep] at hrun
      exact ih (h.2 c₁ hstep) hrun

theorem Along.left {p : Globals → Op → Prop} {ops₁ ops₂ : List Op}
    (h : Along fl p c (ops₁ ++ ops₂)) : Along fl p c ops₁ := by
  induction ops₁ generalizing c with
  | nil => trivial
  | cons op ops₁ ih => exact ⟨h.1, fun c' hstep => ih (h.2 c' hstep)⟩

end Runs

/-- **The memory of initializers**: in any run whose stores meet the condition, a location that is not
stored to again has the value that was stored there, and a store changes no value at a disjoint
location. -/
theorem run_loads (ops₁ ops₂ : List Op) (dest : Dest) (m : CheckMeta)
    (h : Along fl (fun c op => op.Storable fl c ∧ op.Meets c) [] (ops₁ ++ .store dest m :: ops₂)) :
    ∃ c₁ c₂ c₃, run fl [] ops₁ = some c₁ ∧ globalStore fl c₁ dest m = some c₂ ∧
      run fl c₂ ops₂ = some c₃ ∧
      ((∀ op ∈ ops₂, op.ApartFrom dest m.type.size) →
        loaded fl c₃ dest m.type = storedValue fl c₁ m) ∧
      (∀ dest' ty, Location c₁ dest' ty → Apart dest m.type.size dest' ty.size →
        loaded fl c₂ dest' ty = loaded fl c₁ dest' ty) ∧
      ∀ data, m.lvalue = false → m.lit = .string data →
        getGlobal c₂ c₁.length = ⟨data, 1, []⟩ := by
  obtain ⟨c₁, hrun₁, hc₁, -⟩ := run_spec closed_nil h.left
  obtain ⟨⟨hstore, hmeets⟩, hrest⟩ := h.append hrun₁
  obtain ⟨c₂, heq, hs, htext⟩ := globalStore_stores hstore hmeets
  have hc₂ := hc₁.stores hs htext
  obtain ⟨c₃, hrun₃, hc₃, hkeep⟩ := run_spec hc₂ (hrest c₂ heq)
  have hloc : Location c₂ dest m.type := hs.location
    ⟨hstore.align, hstore.fits, fun hvoid => Ty.size_pos hvoid hmeets.simd⟩
  refine ⟨c₁, c₂, c₃, hrun₁, heq, hrun₃, fun hapart => ?_, fun dest' ty hloc' hapart => ?_, htext⟩
  · rw [hkeep dest m.type hloc hapart, loaded_store hc₁ hc₂ hstore hmeets hs]
  · exact loaded_frame hc₁ hc₂ hs hloc' hapart

/-- Rounding, of zero and of one. -/
def floatsZeroOne : Floats where
  narrow n := if n = 0x3FF0000000000000 then 0x3F800000 else 0
  widen n := if n = 0x3F800000 then 0x3FF0000000000000 else 0
  narrow_lt n := by split_ifs <;> decide

/-- A pointer to the fourth byte of the second global, next to which a byte is stored afterwards. -/
theorem run_loads_pointer :
    ∃ c₁ c₂ c₃, run floatsZeroOne [] [.add (List.replicate 16 0) 8, .add (List.replicate 8 0) 8] =
        some c₁ ∧
      globalStore floatsZeroOne c₁ ⟨0, 0⟩ ⟨.pointer, false, .dest ⟨1, 4⟩⟩ = some c₂ ∧
      run floatsZeroOne c₂ [.store ⟨0, 8⟩ ⟨.prim .u8, false, .bits 5⟩] = some c₃ ∧
      loaded floatsZeroOne c₃ ⟨0, 0⟩ .pointer = some (.pointer (.global ⟨1, 4⟩)) := by
  obtain ⟨c₁, c₂, c₃, h₁, h₂, h₃, hload, -⟩ := run_loads floatsZeroOne
    [.add (List.replicate 16 0) 8, .add (List.replicate 8 0) 8]
    [.store ⟨0, 8⟩ ⟨.prim .u8, false, .bits 5⟩] ⟨0, 0⟩ ⟨.pointer, false, .dest ⟨1, 4⟩⟩ (by
      refine ⟨⟨trivial, trivial⟩, fun c₀ h₀ => ?_⟩
      obtain rfl := Option.some.inj h₀
      refine ⟨⟨trivial, trivial⟩, fun c₁ h₁ => ?_⟩
      obtain rfl := Option.some.inj h₁
      refine ⟨⟨⟨by decide, by decide, by decide, nofun, fun _ => ⟨rfl, by decide, by decide⟩⟩,
        ⟨by decide, nofun, ?_, rfl⟩⟩, fun c₂ h₂ => ?_⟩
      · rintro d - hd -
        obtain rfl := Lit.dest.inj hd
        decide
      obtain rfl := Option.some.inj h₂
      refine ⟨⟨⟨by decide, by decide, by decide, nofun, fun _ => ?_⟩,
        ⟨by decide, nofun, ?_, rfl⟩⟩, fun _ _ => trivial⟩
      · exact ⟨by decide, by decide, by decide, by decide⟩
      · rintro d - hd
        cases hd)
  refine ⟨c₁, c₂, c₃, h₁, h₂, h₃, ?_⟩
  have hvalue : storedValue floatsZeroOne c₁ ⟨.pointer, false, .dest ⟨1, 4⟩⟩ =
      some (.pointer (.global ⟨1, 4⟩)) := by
    obtain rfl := Option.some.inj h₁
    decide
  rw [hload (by simp [Op.ApartFrom, Apart, Ty.size]), hvalue]

/-- A pointer with the largest offset is read back as a procedure. -/
theorem load_sentinel : ∃ (ops : List Op) (dest : Dest) (m : CheckMeta) (c₁ c₂ : Globals),
    Along floatsZeroOne (Op.Storable floatsZeroOne) [] (ops ++ [.store dest m]) ∧
      run floatsZeroOne [] ops = some c₁ ∧ globalStore floatsZeroOne c₁ dest m = some c₂ ∧
      storedValue floatsZeroOne c₁ m = some (.pointer (.global ⟨1, 2 ^ 32 - 1⟩)) ∧
      loaded floatsZeroOne c₂ dest m.type = some (.proc 1) := by
  refine ⟨[.add (List.replicate 8 0) 8, .add [0, 0, 0] 1], ⟨0, 0⟩,
    ⟨.multiPointer, false, .dest ⟨1, 2 ^ 32 - 1⟩⟩, _, _, ?_, rfl, rfl, by decide, by decide⟩
  refine ⟨trivial, fun c₀ h₀ => ?_⟩
  obtain rfl := Option.some.inj h₀
  refine ⟨trivial, fun c₁ h₁ => ?_⟩
  obtain rfl := Option.some.inj h₁
  exact ⟨⟨by decide, by decide, by decide, nofun, fun _ => ⟨rfl, by decide, by decide⟩⟩,
    fun _ _ => trivial⟩

end OdinSon.Odinc
