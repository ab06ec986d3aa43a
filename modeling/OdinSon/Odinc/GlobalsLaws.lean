import OdinSon.Odinc.Globals

/-!
# Loads after stores

The bytes of a range of a global and the relocations that start in it are its `cells`.  A store
changes the cells of its range, to those of the value, and no others (`globalStore_stores`), and what is
loaded depends on the cells of the range only (`loaded_eq`).  So a location has the value that was
stored there last, over any sequence of stores (`OdinSon.Odinc.GlobalsRuns`).
-/

namespace OdinSon.Odinc

open MachInt

/-- A byte, and the relocation that starts at it. -/
abbrev Cell := ℕ × Option (ℕ × ℕ)

/-- The relocation at an offset, the first in the list. -/
def relocAt (relocs : List Reloc) (i : ℕ) : Option (ℕ × ℕ) :=
  (relocs.find? fun r => r.inOffset = i).map fun r => (r.toIdx, r.toOffset)

namespace Global

variable (g : Global)

def cell (i : ℕ) : Cell := (g.bytes.getD i 0, relocAt g.relocs i)

def cells (off n : ℕ) : List Cell := (List.range n).map fun i => g.cell (off + i)

/-- The bytes are written over, the relocations come after those there are. -/
def put (off : ℕ) (data : List ℕ) (relocs : List Reloc) : Global :=
  { g with bytes := splice g.bytes off data, relocs := g.relocs ++ relocs }

/-- The range gets these bytes and relocations, and loses those that it had. -/
def overwrite (off : ℕ) (data : List ℕ) (relocs : List Reloc) : Global :=
  { g with
    bytes := splice g.bytes off data
    relocs := g.relocs.filter (fun r => !(off ≤ r.inOffset && r.inOffset < off + data.length)) ++
      relocs }

end Global

/-! ### What a store changes -/

/-- The cells that these bytes and relocations make. -/
def cellsOf (off : ℕ) (data : List ℕ) (relocs : List Reloc) : List Cell :=
  (List.range data.length).map fun i => (data.getD i 0, relocAt relocs (off + i))

theorem relocAt_append {l₁ l₂ : List Reloc} {i : ℕ} (h : ∀ r ∈ l₁, r.inOffset ≠ i) :
    relocAt (l₁ ++ l₂) i = relocAt l₂ i := by
  have hnone : l₁.find? (fun r => r.inOffset = i) = none := by
    rw [List.find?_eq_none]
    intro r hr
    simpa using h r hr
  rw [relocAt, relocAt, List.find?_append, hnone, Option.none_or]

theorem relocAt_append_left {l₁ l₂ : List Reloc} {i : ℕ} (h : ∀ r ∈ l₂, r.inOffset ≠ i) :
    relocAt (l₁ ++ l₂) i = relocAt l₁ i := by
  have hnone : l₂.find? (fun r => r.inOffset = i) = none := by
    rw [List.find?_eq_none]
    intro r hr
    simpa using h r hr
  rw [relocAt, relocAt, List.find?_append, hnone, Option.or_none]

theorem relocAt_filter {l : List Reloc} {p : Reloc → Bool} {i : ℕ}
    (h : ∀ r ∈ l, r.inOffset = i → p r = true) : relocAt (l.filter p) i = relocAt l i := by
  induction l with
  | nil => rfl
  | cons r l ih =>
    have ih := ih fun r' hr' => h r' (List.mem_cons_of_mem _ hr')
    by_cases hp : p r = true
    · rw [List.filter_cons_of_pos hp]
      unfold relocAt at ih ⊢
      by_cases hr : r.inOffset = i
      · rw [List.find?_cons_of_pos (by simpa using hr), List.find?_cons_of_pos (by simpa using hr)]
      · rw [List.find?_cons_of_neg (by simpa using hr), List.find?_cons_of_neg (by simpa using hr), ih]
    · rw [List.filter_cons_of_neg hp, ih]
      have hr : r.inOffset ≠ i := fun hc => hp (h r List.mem_cons_self hc)
      unfold relocAt
      rw [List.find?_cons_of_neg (by simpa using hr)]

section Overwrite

variable {g : Global} {off i : ℕ} {data : List ℕ} {relocs : List Reloc}

/-- **What is stored over a range**: its cells are the new ones, the others stay. -/
theorem cell_overwrite (h : off + data.length ≤ g.bytes.length)
    (hrelocs : ∀ r ∈ relocs, off ≤ r.inOffset ∧ r.inOffset < off + data.length) :
    (g.overwrite off data relocs).cell i =
      if off ≤ i ∧ i < off + data.length then (data.getD (i - off) 0, relocAt relocs i)
      else g.cell i := by
  have hbyte : (splice g.bytes off data).getD i 0 =
      if off ≤ i ∧ i < off + data.length then data.getD (i - off) 0 else g.bytes.getD i 0 := by
    rw [List.getD_eq_getElem?_getD, getElem?_splice h]
    split_ifs <;> rw [List.getD_eq_getElem?_getD]
  unfold Global.cell Global.overwrite
  simp only [hbyte]
  split_ifs with hi
  · rw [relocAt_append]
    intro r hr hc
    have hin := (List.mem_filter.1 hr).2
    rw [hc] at hin
    simp [hi.1, hi.2] at hin
  · have hne (r : Reloc) (hr : r ∈ relocs) : r.inOffset ≠ i := by
      rintro rfl
      exact hi (hrelocs r hr)
    rw [relocAt_append_left hne, relocAt_filter]
    intro r _ hc
    have hin : (off ≤ r.inOffset && r.inOffset < off + data.length) = false := by
      rw [hc, Bool.and_eq_false_iff, decide_eq_false_iff_not, decide_eq_false_iff_not]
      exact not_and_or.1 hi
    rw [hin]
    rfl

theorem cells_overwrite (h : off + data.length ≤ g.bytes.length)
    (hrelocs : ∀ r ∈ relocs, off ≤ r.inOffset ∧ r.inOffset < off + data.length) :
    (g.overwrite off data relocs).cells off data.length = cellsOf off data relocs := by
  refine List.map_congr_left fun i hi => ?_
  have hi := List.mem_range.1 hi
  rw [cell_overwrite h hrelocs, if_pos ⟨Nat.le_add_right _ _, Nat.add_lt_add_left hi _⟩,
    Nat.add_sub_cancel_left]

end Overwrite

/-- A store that gives a range these cells. -/
structure Stores (c c' : Globals) (dest : Dest) (size : ℕ) (cells : List Cell) : Prop where
  length : c.length ≤ c'.length
  fresh : ∀ i, c.length ≤ i → (getGlobal c' i).relocs = []
  other : ∀ i < c.length, i ≠ dest.idx → getGlobal c' i = getGlobal c i
  align : (getGlobal c' dest.idx).align = (getGlobal c dest.idx).align
  bytes : (getGlobal c' dest.idx).bytes.length = (getGlobal c dest.idx).bytes.length
  frame : ∀ i, ¬(dest.offset ≤ i ∧ i < dest.offset + size) →
    (getGlobal c' dest.idx).cell i = (getGlobal c dest.idx).cell i
  cells : (getGlobal c' dest.idx).cells dest.offset size = cells

section Modify

variable {c : Globals} {i k : ℕ} {f : Global → Global}

theorem getGlobal_modify_self (h : i < c.length) :
    getGlobal (c.modify i f) i = f (getGlobal c i) := by
  rw [getGlobal, getGlobal, List.getD_eq_getElem?_getD, List.getElem?_modify_eq,
    List.getElem?_eq_getElem h, List.getD_eq_getElem?_getD, List.getElem?_eq_getElem h]
  rfl

theorem getGlobal_modify_ne (h : i ≠ k) : getGlobal (c.modify i f) k = getGlobal c k := by
  rw [getGlobal, getGlobal, List.getD_eq_getElem?_getD, List.getElem?_modify_ne _ _ h,
    List.getD_eq_getElem?_getD]

theorem getGlobal_append (extra : Globals) (h : i < c.length) :
    getGlobal (c ++ extra) i = getGlobal c i := by
  rw [getGlobal, getGlobal, List.getD_append _ _ _ _ h]

theorem getGlobal_append_self (c : Globals) (g : Global) : getGlobal (c ++ [g]) c.length = g := by
  rw [getGlobal, List.getD_eq_getElem?_getD, List.getElem?_append_right le_rfl, Nat.sub_self]
  rfl

/-- What is not there counts as empty. -/
theorem relocs_append (extra : Globals) (hextra : ∀ g ∈ extra, g.relocs = []) (h : c.length ≤ i) :
    (getGlobal (c ++ extra) i).relocs = [] := by
  rw [getGlobal, List.getD_eq_getElem?_getD, List.getElem?_append_right h]
  cases hg : extra[i - c.length]? with
  | none => rfl
  | some g => exact hextra g (List.mem_of_getElem? hg)

theorem modify_append {extra : Globals} (h : i < c.length) :
    (c ++ extra).modify i f = c.modify i f ++ extra := by
  refine List.ext_getElem? fun k => ?_
  rw [List.getElem?_modify]
  obtain hk | hk := lt_or_ge k c.length
  · rw [List.getElem?_append_left hk, List.getElem?_append_left (by rwa [List.length_modify]),
      List.getElem?_modify]
  · rw [List.getElem?_append_right hk, List.getElem?_append_right (by rwa [List.length_modify]),
      List.length_modify]
    simp only [(h.trans_le hk).ne, if_false]
    exact id_map _

end Modify

/-- A range that is written over, next to new globals. -/
theorem stores_modify {c : Globals} {dest : Dest} (extra : Globals) (data : List ℕ)
    (relocs : List Reloc) (f : Global → Global)
    (hf : f (getGlobal c dest.idx) = (getGlobal c dest.idx).overwrite dest.offset data relocs)
    (hextra : ∀ g ∈ extra, g.relocs = []) (hidx : dest.idx < c.length)
    (hfits : dest.offset + data.length ≤ (getGlobal c dest.idx).bytes.length)
    (hrelocs : ∀ r ∈ relocs, dest.offset ≤ r.inOffset ∧ r.inOffset < dest.offset + data.length) :
    Stores c ((c ++ extra).modify dest.idx f) dest data.length
      (cellsOf dest.offset data relocs) := by
  have hidx' : dest.idx < (c ++ extra).length := by
    rw [List.length_append]
    exact hidx.trans_le (Nat.le_add_right _ _)
  have hself := getGlobal_modify_self (f := f) hidx'
  rw [getGlobal_append _ hidx, hf] at hself
  refine ⟨?_, fun i hi => ?_, fun i hi hne => ?_, ?_, ?_, fun i hi => ?_, ?_⟩
  · rw [List.length_modify, List.length_append]
    exact Nat.le_add_right _ _
  · rw [getGlobal_modify_ne (hidx.trans_le hi).ne]
    exact relocs_append extra hextra hi
  · rw [getGlobal_modify_ne hne.symm, getGlobal_append _ hi]
  · rw [hself]
    rfl
  · rw [hself]
    exact length_splice hfits
  · rw [hself, cell_overwrite hfits hrelocs, if_neg hi]
  · rw [hself, cells_overwrite hfits hrelocs]

/-! ### Values -/

/-- Where a pointer points. -/
inductive Place where
  | address (n : ℕ)
  | global (d : Dest)
  deriving DecidableEq, Repr

/-- What is stored and loaded: the bits of a number, a pointer, a procedure, or the memory of an
aggregate. -/
inductive Value where
  | number (n : ℕ)
  | pointer (place : Place)
  | proc (id : ℕ)
  | memory (cells : List Cell)
  deriving DecidableEq, Repr

/-- The place that a pointer stands for: globals of alignment `0` are addresses. -/
def place (c : Globals) (d : Dest) : Place :=
  if (getGlobal c d.idx).align = 0 then
    .address ((ofLE ((getGlobal c d.idx).bytes.take 8) + d.offset) % 2 ^ 64)
  else .global d

def pointerCells : Place → List Cell
  | .address n => (toLE 8 n).map (·, none)
  | .global d => (0, some (d.idx, d.offset)) :: List.replicate 7 (0, none)

/-- The memory of a string: the pointer to its text, which is the next global, and its length. -/
def stringCells (c : Globals) (data : List ℕ) : List Cell :=
  pointerCells (.global ⟨c.length, 0⟩) ++ (toLE 8 data.length).map (·, none)

/-- The value that the checker has. -/
def valueOf (c : Globals) (m : CheckMeta) : Value :=
  match m.lit with
  | .bits n => .number n
  | .proc id => .proc id
  | .dest d =>
    if m.lvalue then .memory ((getGlobal c d.idx).cells d.offset m.type.size)
    else .pointer (place c d)
  | .string data => .memory (stringCells c data)

variable (fl : Floats)

/-- The value that `global_load` gives for a location. -/
def loaded (c : Globals) (dest : Dest) (ty : Ty) : Option Value :=
  (globalLoad fl c (lcmeta ty dest)).map fun r => valueOf r.1 r.2

/-- The value of a type that the cells are. -/
def decode (ty : Ty) (cells : List Cell) : Value :=
  if ty.dt = .void then .memory cells
  else
    match cells.head?.bind (·.2) with
    | some (idx, off) => if off = maxU32 then .proc idx else .pointer (.global ⟨idx, off⟩)
    | none =>
      let value := ofLE ((cells.map (·.1)).take 8)
      if ty.isDataPointer then .pointer (.address (value % 2 ^ 64))
      else if ty.isProc then .proc value
      else if ty.isF32 then .number (fl.widen (fl.narrow (loadNumber fl ty value)))
      else .number (loadNumber fl ty value)

/-- Pointers are into globals that are there, and that have memory. -/
def Closed (c : Globals) : Prop :=
  ∀ i k a b, ((getGlobal c i).cell k).2 = some (a, b) → b ≠ maxU32 → (getGlobal c a).align ≠ 0

theorem Ty.size_of_isDataPointer {ty : Ty} (h : ty.isDataPointer = true) : ty.size = 8 := by
  cases ty with
  | prim p => cases p <;> first | rfl | cases h
  | _ => first | rfl | cases h

theorem Ty.size_of_isProc {ty : Ty} (h : ty.isProc = true) : ty.size = 8 := by
  cases ty with
  | proc => rfl
  | _ => cases h

theorem Ty.size_of_isString {ty : Ty} (h : ty.isString = true) : ty.size = 16 := by
  cases ty with
  | prim p => cases p <;> first | rfl | cases h
  | _ => cases h

theorem Ty.size_pos {ty : Ty} (h : ty.dt ≠ .void) (hsimd : ty.isSimd = false) : 0 < ty.size := by
  cases ty with
  | prim p => cases p <;> first | exact absurd rfl h | decide
  | enum p => cases p <;> first | exact absurd rfl h | decide
  | simd elem len => cases hsimd
  | _ => first | exact absurd rfl h | decide

section Load

variable {fl} {c : Globals} {dest : Dest} {ty : Ty}

theorem map_fst_cells {g : Global} {off n : ℕ} (h : off + n ≤ g.bytes.length) :
    (g.cells off n).map (·.1) = g.slice off n := by
  refine List.ext_getElem? fun i => ?_
  rw [Global.cells, List.map_map, List.getElem?_map, Global.slice, List.getElem?_take,
    List.getElem?_drop]
  by_cases hi : i < n
  · have hlt : off + i < g.bytes.length := (Nat.add_lt_add_left hi _).trans_le h
    rw [if_pos hi, List.getElem?_range hi, List.getElem?_eq_getElem hlt, Option.map_some,
      Function.comp_apply, Global.cell, List.getD_eq_getElem?_getD, List.getElem?_eq_getElem hlt]
    rfl
  · rw [if_neg hi, List.getElem?_eq_none (by rw [List.length_range]; exact not_lt.1 hi)]
    rfl

theorem valueOf_tcmeta (lit : Lit) (hlit : ∀ n, lit ≠ .bits n) :
    valueOf c (tcmeta fl ty lit) = valueOf c ⟨ty, false, lit⟩ := by
  unfold tcmeta
  split
  · exact absurd rfl (hlit _)
  · rfl

/-- A new global for an address stands for it. -/
theorem place_address (value : ℕ) :
    place (c ++ [⟨toLE 8 value, 0, []⟩]) ⟨c.length, 0⟩ = .address (value % 2 ^ 64) := by
  have hget : getGlobal (c ++ [⟨toLE 8 value, 0, []⟩]) c.length = ⟨toLE 8 value, 0, []⟩ :=
    getGlobal_append_self c _
  have htake : (toLE 8 value).take 8 = toLE 8 value := List.take_of_length_le (length_toLE 8 value).le
  rw [place, hget, if_pos rfl, htake, ofLE_toLE, Nat.add_zero, show 256 ^ 8 = 2 ^ 64 from rfl,
    Nat.mod_mod]

theorem valueOf_tcmeta_bits (n : ℕ) : valueOf c (tcmeta fl ty (.bits n)) =
    if ty.isF32 then .number (fl.widen (fl.narrow n)) else .number n := by
  cases ty with
  | prim p => cases p <;> rfl
  | _ => rfl

/-- **What is loaded is in the cells.** -/
theorem loaded_eq (hc : Closed c) (halign : (getGlobal c dest.idx).align ≠ 0)
    (hfits : dest.offset + ty.size ≤ (getGlobal c dest.idx).bytes.length)
    (hsize : ty.dt ≠ .void → 0 < ty.size) :
    loaded fl c dest ty =
      some (decode fl ty ((getGlobal c dest.idx).cells dest.offset ty.size)) := by
  unfold loaded globalLoad decode
  by_cases hvoid : ty.dt = .void
  · rw [if_pos (.inr hvoid), if_pos hvoid]
    rfl
  have hpos := hsize hvoid
  have hhead : ((getGlobal c dest.idx).cells dest.offset ty.size).head?.bind (·.2) =
      relocAt (getGlobal c dest.idx).relocs dest.offset := by
    obtain ⟨n, hn⟩ := Nat.exists_eq_succ_of_ne_zero hpos.ne'
    rw [hn, Global.cells, List.range_succ_eq_map]
    rfl
  have hcond : ¬((lcmeta ty dest).lvalue = false ∨ (lcmeta ty dest).type.dt = .void) := by
    simp [lcmeta, hvoid]
  rw [if_neg hcond, if_neg hvoid, hhead, map_fst_cells hfits]
  have hguard : guard (f := Option) ((getGlobal c dest.idx).align ≠ 0 ∧
      dest.offset + ty.size ≤ (getGlobal c dest.idx).bytes.length) = some () :=
    if_pos ⟨halign, hfits⟩
  change (loadAt fl c ty dest).map _ = _
  simp only [loadAt, hguard, relocAt, Option.pure_def, Option.bind_eq_bind, Option.bind_some]
  cases hrel : (getGlobal c dest.idx).relocs.find? fun r => r.inOffset = dest.offset with
  | some rel =>
    simp only [Option.map_some]
    split_ifs with hmax
    · rw [Option.map_some, valueOf_tcmeta _ fun _ => Lit.noConfusion]
      rfl
    · have hplace : place c ⟨rel.toIdx, rel.toOffset⟩ = .global ⟨rel.toIdx, rel.toOffset⟩ := by
        refine if_neg (hc dest.idx dest.offset rel.toIdx rel.toOffset ?_ hmax)
        rw [Global.cell, relocAt, hrel, Option.map_some]
      rw [Option.map_some, valueOf_tcmeta _ fun _ => Lit.noConfusion]
      exact congrArg (fun p => some (Value.pointer p)) hplace
  | none =>
    simp only [Option.map_none]
    by_cases hptr : ty.isDataPointer = true
    · rw [if_pos hptr, if_pos hptr, Option.map_some, valueOf_tcmeta _ fun _ => Lit.noConfusion]
      exact congrArg (fun p => some (Value.pointer p)) (place_address _)
    rw [if_neg hptr, if_neg hptr]
    by_cases hproc : ty.isProc = true
    · rw [if_pos hproc, if_pos hproc, Option.map_some, valueOf_tcmeta _ fun _ => Lit.noConfusion]
      rfl
    · rw [if_neg hproc, if_neg hproc, Option.map_some, valueOf_tcmeta_bits]

end Load

/-! ### What can be stored -/

/-- A literal of the type: a number is what its bytes are read back as. -/
def Representable (c : Globals) (ty : Ty) : Lit → Prop
  | .dest d => ty.isDataPointer = true ∧ d.idx < c.length ∧ d.offset < 2 ^ 32
  | .proc id => ty.isProc = true ∧ id < 2 ^ 32
  | .string data => ty.isString = true ∧ data.length < 2 ^ 63
  | .bits n =>
    match ty with
    | .prim .f32 => fl.widen (fl.narrow n) = n
    | .prim p | .enum p => p.dt ≠ .void ∧ p ≠ .rawptr ∧ n < 2 ^ 64 ∧
      if p.isSigned then u64 (wrap (p.size * 8) n) = n else n < 256 ^ p.size
    | _ => False

/-- A store that the checker makes: to a place in a global, of a literal or of what is at such a
place. -/
structure Storable (c : Globals) (dest : Dest) (m : CheckMeta) : Prop where
  idx : dest.idx < c.length
  align : (getGlobal c dest.idx).align ≠ 0
  fits : dest.offset + m.type.size ≤ (getGlobal c dest.idx).bytes.length
  source : m.lvalue = true → ∃ d, m.lit = .dest d ∧ d.idx < c.length ∧
    (getGlobal c d.idx).align ≠ 0 ∧ d.offset + m.type.size ≤ (getGlobal c d.idx).bytes.length
  value : m.lvalue = false → Representable fl c m.type m.lit

/-- Where stores keep to the laws: the ranges end below 4 GiB, no pointer into a global has the offset
that marks procedures, and no value is a vector. -/
structure Meets (c : Globals) (dest : Dest) (m : CheckMeta) : Prop where
  low : dest.offset + m.type.size < 2 ^ 32
  lowSource : m.lvalue = true → m.dest.offset + m.type.size < 2 ^ 32
  pointer : ∀ d, m.lvalue = false → m.lit = .dest d → (getGlobal c d.idx).align ≠ 0 →
    d.offset ≠ maxU32
  simd : m.type.isSimd = false

/-- The cells of a literal; the text of a string is the next global. -/
def litCells (c : Globals) (ty : Ty) : Lit → List Cell
  | .dest d => pointerCells (place c d)
  | .proc id =>
    if id = 0 then List.replicate 8 (0, none) else (0, some (id, maxU32)) :: List.replicate 7 (0, none)
  | .string data => stringCells c data
  | .bits n => (toLE ty.size (if ty.isF32 then fl.narrow n else n)).map (·, none)

/-- The cells that a store gives its range. -/
def storedCells (c : Globals) (m : CheckMeta) : List Cell :=
  if m.lvalue then (getGlobal c m.dest.idx).cells m.dest.offset m.type.size
  else litCells fl c m.type m.lit

/-! ### The store -/

def pointerBytes : Place → List ℕ
  | .address n => toLE 8 n
  | .global _ => List.replicate 8 0

def pointerRelocs (off : ℕ) : Place → List Reloc
  | .address _ => []
  | .global d => [⟨off, d.idx, d.offset⟩]

theorem cellsOf_bytes (off : ℕ) (data : List ℕ) : cellsOf off data [] = data.map (·, none) := by
  refine List.ext_getElem? fun i => ?_
  rw [cellsOf, List.getElem?_map, List.getElem?_map]
  by_cases hi : i < data.length
  · rw [List.getElem?_range hi, List.getElem?_eq_getElem hi, Option.map_some, Option.map_some,
      List.getD_eq_getElem?_getD, List.getElem?_eq_getElem hi]
    rfl
  · rw [List.getElem?_eq_none (by rw [List.length_range]; exact not_lt.1 hi),
      List.getElem?_eq_none (not_lt.1 hi)]
    rfl

/-- A relocation at the start of the range. -/
theorem cellsOf_reloc (off a b : ℕ) (rest : List ℕ) :
    cellsOf off (0 :: rest) [⟨off, a, b⟩] = (0, some (a, b)) :: rest.map (·, none) := by
  have hrest : cellsOf (off + 1) rest [] = rest.map (·, none) := cellsOf_bytes _ _
  rw [← hrest, cellsOf, List.length_cons, List.range_succ_eq_map, List.map_cons, List.map_map, cellsOf]
  congr 1
  · simp [relocAt]
  · refine List.map_congr_left fun i _ => ?_
    simp [relocAt, List.find?_cons]

section Ranges

variable {g : Global} {off : ℕ} {data data₂ : List ℕ}

theorem add32_of_lt {off size : ℕ} (h : off + size < 2 ^ 32) : add32 off size = off + size :=
  Nat.mod_eq_of_lt h

theorem put_dropRelocs {relocs : List Reloc} (h : off + data.length < 2 ^ 32) :
    (g.dropRelocs off data.length).put off data relocs = g.overwrite off data relocs := by
  rw [Global.overwrite, Global.dropRelocs, add32_of_lt h]
  rfl

theorem write_eq_put (g : Global) (off : ℕ) (data : List ℕ) : g.write off data = g.put off data [] := by
  rw [Global.put, List.append_nil]
  rfl

theorem addReloc_comp_put (r : Reloc) :
    (fun g : Global => g.addReloc r) ∘ (fun g : Global => g.put off data []) =
      fun g : Global => g.put off data [r] := by
  funext g
  simp only [Function.comp_apply, Global.addReloc, Global.put, List.append_nil]

/-- A pointer and what follows it. -/
theorem write_put {relocs : List Reloc} (h : off + data.length + data₂.length ≤ g.bytes.length) :
    (g.put off data relocs).write (off + data.length) data₂ = g.put off (data ++ data₂) relocs := by
  rw [Global.put, Global.put, ← splice_splice h]
  rfl

/-- Dropping relocations is all that happens before the value is written. -/
theorem getGlobal_dropRelocs (c : Globals) (i off size k : ℕ) :
    (getGlobal (c.modify i (·.dropRelocs off size)) k).align = (getGlobal c k).align ∧
      (getGlobal (c.modify i (·.dropRelocs off size)) k).bytes = (getGlobal c k).bytes := by
  by_cases hk : i = k
  · subst hk
    by_cases hi : i < c.length
    · rw [getGlobal_modify_self hi]
      exact ⟨rfl, rfl⟩
    · have hnone := List.getElem?_eq_none (not_lt.1 hi)
      simp only [getGlobal, List.getD_eq_getElem?_getD, List.getElem?_modify_eq, hnone]
      exact ⟨rfl, rfl⟩
  · rw [getGlobal_modify_ne hk]
    exact ⟨rfl, rfl⟩

/-- So pointers are the same places after it. -/
theorem place_dropRelocs (c : Globals) (i size : ℕ) (d : Dest) :
    place (c.modify i (·.dropRelocs off size)) d = place c d := by
  rw [place, place, (getGlobal_dropRelocs ..).1, (getGlobal_dropRelocs ..).2]

end Ranges

theorem Stores.refl (c : Globals) (dest : Dest) (size : ℕ) :
    Stores c c dest size ((getGlobal c dest.idx).cells dest.offset size) :=
  ⟨le_rfl, fun i hi => List.append_nil c ▸ relocs_append [] (by simp) hi,
    fun _ _ _ => rfl, rfl, rfl, fun _ _ => rfl, rfl⟩

section Store

variable {fl} {c : Globals} {dest : Dest} {m : CheckMeta}

/-- Numbers are of at most eight bytes. -/
theorem size_le_of_representable {ty : Ty} {n : ℕ} (h : Representable fl c ty (.bits n)) :
    ty.size ≤ 8 := by
  cases ty with
  | prim p => cases p <;> first | decide | exact absurd rfl h.1
  | enum p => cases p <;> first | decide | exact absurd rfl h.1
  | _ => exact h.elim

/-- The relocations of a range, moved to another. -/
theorem relocAt_shift {l : List Reloc} {off src size i : ℕ} (hi : i < size)
    (hoff : off + size < 2 ^ 32) (hsrc : src + size < 2 ^ 32) :
    relocAt ((l.filter fun r => src ≤ r.inOffset && r.inOffset < add32 src size).map fun r =>
      { r with inOffset := add32 off (r.inOffset - src) }) (off + i) = relocAt l (src + i) := by
  rw [add32_of_lt hsrc]
  -- what the copy does with one relocation, by whether it is at the offset
  have hin (r : Reloc) : (src ≤ r.inOffset && r.inOffset < src + size) = true ↔
      src ≤ r.inOffset ∧ r.inOffset < src + size := by
    rw [Bool.and_eq_true, decide_eq_true_iff, decide_eq_true_iff]
  have hshift (r : Reloc) (hr : src ≤ r.inOffset ∧ r.inOffset < src + size) :
      add32 off (r.inOffset - src) = off + i ↔ r.inOffset = src + i := by
    rw [add32_of_lt (by omega)]
    omega
  induction l with
  | nil => rfl
  | cons r l ih =>
    unfold relocAt at ih ⊢
    rw [List.filter_cons]
    by_cases hr : r.inOffset = src + i
    · have hmem : src ≤ r.inOffset ∧ r.inOffset < src + size := by omega
      rw [if_pos ((hin r).2 hmem), List.map_cons,
        List.find?_cons_of_pos (by simpa using (hshift r hmem).2 hr),
        List.find?_cons_of_pos (by simpa using hr)]
      rfl
    · rw [List.find?_cons_of_neg (by simpa using hr), ← ih]
      split_ifs with hmem
      · have hne : add32 off (r.inOffset - src) ≠ off + i := mt (hshift r ((hin r).1 hmem)).1 hr
        rw [List.map_cons, List.find?_cons_of_neg (by simpa using hne)]
      · rfl

theorem length_slice {g : Global} {off size : ℕ} (h : off + size ≤ g.bytes.length) :
    (g.slice off size).length = size := by
  rw [Global.slice, List.length_take, List.length_drop]
  omega

/-- The cells of a place that relocations of another are moved to. -/
theorem cellsOf_copy {g : Global} {off src size : ℕ} (hfits : src + size ≤ g.bytes.length)
    (hoff : off + size < 2 ^ 32) (hsrc : src + size < 2 ^ 32) :
    cellsOf off (g.slice src size) ((g.relocsIn src size).map fun r =>
      { r with inOffset := add32 off (r.inOffset - src) }) = g.cells src size := by
  rw [cellsOf, length_slice hfits, Global.cells]
  refine List.map_congr_left fun i hi => ?_
  have hi := List.mem_range.1 hi
  rw [Global.cell]
  congr 1
  · rw [Global.slice, List.getD_eq_getElem?_getD, List.getElem?_take_of_lt hi, List.getElem?_drop,
      List.getD_eq_getElem?_getD]
  · exact relocAt_shift hi hoff hsrc

/-- The relocations of the copy are in its range. -/
theorem mem_copy (g : Global) {off src size : ℕ} (hoff : off + size < 2 ^ 32)
    (hsrc : src + size < 2 ^ 32) {r : Reloc}
    (hr : r ∈ (g.relocsIn src size).map fun r =>
      { r with inOffset := add32 off (r.inOffset - src) }) :
    off ≤ r.inOffset ∧ r.inOffset < off + size := by
  obtain ⟨r, hmem, rfl⟩ := List.mem_map.1 hr
  have hin := (List.mem_filter.1 hmem).2
  rw [Bool.and_eq_true, decide_eq_true_iff, decide_eq_true_iff, add32_of_lt hsrc] at hin
  change off ≤ add32 off (r.inOffset - src) ∧ add32 off (r.inOffset - src) < off + size
  rw [add32_of_lt (by omega)]
  omega

@[simp] theorem length_pointerBytes (p : Place) : (pointerBytes p).length = 8 := by
  cases p with
  | address n => exact length_toLE 8 n
  | global d => rfl

theorem cellsOf_pointer (off : ℕ) (p : Place) :
    cellsOf off (pointerBytes p) (pointerRelocs off p) = pointerCells p := by
  cases p with
  | address n => exact cellsOf_bytes off (toLE 8 n)
  | global d => exact cellsOf_reloc off d.idx d.offset (List.replicate 7 0)

theorem mem_pointerRelocs {off : ℕ} (p : Place) {r : Reloc} (h : r ∈ pointerRelocs off p) :
    r.inOffset = off := by
  cases p with
  | address n => cases h
  | global d => rw [List.mem_singleton.1 h]

theorem globalReloc_eq {d : Dest} (hfits : dest.offset + 8 ≤ (getGlobal c dest.idx).bytes.length) :
    globalReloc c dest d = some (c.modify dest.idx
      (·.put dest.offset (pointerBytes (place c d)) (pointerRelocs dest.offset (place c d)))) := by
  have hguard : guard (f := Option) (dest.offset + 8 ≤ (getGlobal c dest.idx).bytes.length) =
      some () := if_pos hfits
  unfold globalReloc place
  simp only [hguard, Option.pure_def, Option.bind_eq_bind, Option.bind_some]
  split_ifs
  · simp only [write_eq_put]
    rfl
  · rfl

theorem stores_put {size : ℕ} {data : List ℕ} (relocs : List Reloc) (hlen : data.length = size)
    (hidx : dest.idx < c.length)
    (hfits : dest.offset + size ≤ (getGlobal c dest.idx).bytes.length)
    (hlow : dest.offset + size < 2 ^ 32)
    (hrelocs : ∀ r ∈ relocs, dest.offset ≤ r.inOffset ∧ r.inOffset < dest.offset + size) :
    Stores c (c.modify dest.idx ((·.put dest.offset data relocs) ∘ (·.dropRelocs dest.offset size)))
      dest size (cellsOf dest.offset data relocs) := by
  subst hlen
  have hput : ((·.put dest.offset data relocs) ∘ (·.dropRelocs dest.offset data.length))
      (getGlobal c dest.idx) = (getGlobal c dest.idx).overwrite dest.offset data relocs :=
    put_dropRelocs hlow
  have hstores := stores_modify [] data relocs _ hput (by simp) hidx hfits hrelocs
  rwa [List.append_nil] at hstores

theorem guard_fits {size : ℕ} (hidx : dest.idx < c.length)
    (hfits : dest.offset + size ≤ (getGlobal c dest.idx).bytes.length) :
    guard (f := Option) (dest.idx < (c.modify dest.idx (·.dropRelocs dest.offset size)).length ∧
      dest.offset + size ≤
        (getGlobal (c.modify dest.idx (·.dropRelocs dest.offset size)) dest.idx).bytes.length) =
      some () := by
  rw [List.length_modify, (getGlobal_dropRelocs c dest.idx dest.offset size dest.idx).2]
  exact if_pos ⟨hidx, hfits⟩

section

variable (hs : Storable fl c dest m) (hm : Meets c dest m)
include hs hm

/-- A copy of what is at another place, or at the same. -/
theorem globalStore_lvalue (hl : m.lvalue = true) :
    ∃ c', globalStore fl c dest m = some c' ∧
      Stores c c' dest m.type.size (storedCells fl c m) := by
  obtain ⟨d, hd, hdidx, -, hdfits⟩ := hs.source hl
  have hdest : m.dest = d := by rw [CheckMeta.dest, hd]
  have hsrc := hm.lowSource hl
  rw [hdest] at hsrc
  rw [storedCells, if_pos hl, hdest]
  by_cases heq : d = dest
  · refine ⟨c, ?_, ?_⟩
    · rw [globalStore, hdest, if_pos ⟨hl, heq⟩]
      rfl
    · rw [heq]
      exact Stores.refl c dest _
  have hguard := guard_fits hs.idx hs.fits
  have hguard₂ : guard (f := Option) (d.offset + m.type.size ≤ (getGlobal c d.idx).bytes.length) =
      some () := if_pos hdfits
  have hlen := length_slice hdfits
  have hstores := stores_put _ hlen hs.idx hs.fits hm.low
    fun r hr => mem_copy (getGlobal c d.idx) hm.low hsrc hr
  rw [cellsOf_copy hdfits hm.low hsrc] at hstores
  refine ⟨_, ?_, hstores⟩
  simp only [globalStore, hdest, hl, heq, and_false, if_false, if_true, hguard, hguard₂,
    Option.pure_def, Option.bind_eq_bind, Option.bind_some, List.modify_modify_eq]
  rfl

omit hm in
theorem globalStore_literal (hl : m.lvalue = false) :
    globalStore fl c dest m =
      storeLit fl (c.modify dest.idx (·.dropRelocs dest.offset m.type.size)) dest m.type m.lit := by
  have hguard := guard_fits hs.idx hs.fits
  simp only [globalStore, hl, Bool.false_eq_true, false_and, if_false, hguard, Option.bind_eq_bind,
    Option.bind_some]

/-- A pointer: an address is its bytes, a place in a global is a relocation. -/
theorem globalStore_pointer {d : Dest} (hl : m.lvalue = false) (hd : m.lit = .dest d) :
    ∃ c', globalStore fl c dest m = some c' ∧
      Stores c c' dest m.type.size (storedCells fl c m) := by
  have hrep := hs.value hl
  rw [hd] at hrep
  have hsize := Ty.size_of_isDataPointer hrep.1
  have hlow := hm.low
  have hfits := hs.fits
  rw [hsize] at hlow hfits
  have hreloc := globalReloc_eq (c := c.modify dest.idx (·.dropRelocs dest.offset 8)) (d := d)
    (by rw [(getGlobal_dropRelocs ..).2]; exact hfits)
  rw [place_dropRelocs, List.modify_modify_eq] at hreloc
  have hstores := stores_put _ (length_pointerBytes (place c d)) hs.idx hfits hlow
    fun r hr => mem_pointerRelocs (place c d) hr ▸ ⟨le_rfl, by omega⟩
  rw [cellsOf_pointer] at hstores
  rw [globalStore_literal hs hl, storedCells, hl, hd, hsize, storeLit, if_pos hrep.1]
  exact ⟨_, hreloc, hstores⟩

/-- A procedure: a relocation with the largest offset, and none for the null procedure. -/
theorem globalStore_proc {id : ℕ} (hl : m.lvalue = false) (hid : m.lit = .proc id) :
    ∃ c', globalStore fl c dest m = some c' ∧
      Stores c c' dest m.type.size (storedCells fl c m) := by
  have hrep := hs.value hl
  rw [hid] at hrep
  have hsize := Ty.size_of_isProc hrep.1
  have hlow := hm.low
  have hfits := hs.fits
  rw [hsize] at hlow hfits
  have hstores (relocs : List Reloc) (hrelocs : ∀ r ∈ relocs, r.inOffset = dest.offset) :=
    stores_put relocs (List.length_replicate (n := 8) (a := 0)) hs.idx hfits hlow
      fun r hr => hrelocs r hr ▸ ⟨le_rfl, Nat.lt_add_of_pos_right (by decide)⟩
  rw [globalStore_literal hs hl, storedCells, hl, hid, hsize, storeLit, if_pos hrep.1, hsize]
  simp only [write_eq_put, List.modify_modify_eq]
  by_cases h0 : id = 0
  · have hnone := hstores [] (by simp)
    rw [cellsOf_bytes] at hnone
    refine ⟨_, if_neg (not_not.2 h0), ?_⟩
    rw [if_neg Bool.false_ne_true, litCells, if_pos h0]
    exact hnone
  · have hone := hstores [⟨dest.offset, id, maxU32⟩] (by simp)
    rw [show List.replicate 8 0 = 0 :: List.replicate 7 0 from rfl, cellsOf_reloc,
      List.map_replicate] at hone
    refine ⟨_, if_pos h0, ?_⟩
    rw [if_neg Bool.false_ne_true, litCells, if_neg h0, ← Function.comp_assoc, addReloc_comp_put]
    exact hone

/-- A string: its text is a new global, and the pointer to it and the length are stored. -/
theorem globalStore_string {data : List ℕ} (hl : m.lvalue = false) (hd : m.lit = .string data) :
    ∃ c', globalStore fl c dest m = some c' ∧
      Stores c c' dest m.type.size (storedCells fl c m) ∧
      getGlobal c' c.length = ⟨data, 1, []⟩ := by
  have hrep := hs.value hl
  rw [hd] at hrep
  have hsize := Ty.size_of_isString hrep.1
  have hlow := hm.low
  have hfits := hs.fits
  rw [hsize] at hlow hfits
  let text : Global := ⟨data, 1, []⟩
  have hidx := hs.idx
  have hne : dest.idx ≠ c.length := hidx.ne
  have htext : getGlobal (c ++ [text]) c.length = text := getGlobal_append_self c text
  have hplace : place ((c ++ [text]).modify dest.idx (·.dropRelocs dest.offset 16)) ⟨c.length, 0⟩ =
      .global ⟨c.length, 0⟩ := by
    rw [place_dropRelocs, place, htext]
    rfl
  have hreloc := globalReloc_eq (c := (c ++ [text]).modify dest.idx (·.dropRelocs dest.offset 16))
    (d := ⟨c.length, 0⟩) (by
      rw [(getGlobal_dropRelocs ..).2, getGlobal_append _ hidx]
      omega)
  rw [hplace, List.modify_modify_eq] at hreloc
  rw [globalStore_literal hs hl, storedCells, hl, hd, hsize, storeLit, if_pos hrep.1,
    List.length_modify, ← modify_append hidx, hreloc]
  refine ⟨_, rfl, ?_, ?_⟩
  · let bytes := pointerBytes (.global ⟨c.length, 0⟩) ++ toLE 8 data.length
    have hlen : bytes.length = 16 := by
      rw [List.length_append, length_toLE]
      rfl
    have hcells : cellsOf dest.offset bytes (pointerRelocs dest.offset (.global ⟨c.length, 0⟩)) =
        litCells fl c m.type (.string data) := by
      refine (cellsOf_reloc dest.offset c.length 0 (List.replicate 7 0 ++ toLE 8 data.length)).trans ?_
      rw [List.map_append, List.map_replicate]
      rfl
    rw [List.modify_modify_eq, if_neg Bool.false_ne_true, ← hcells, ← hlen]
    refine stores_modify [text] bytes _ _ ?_ (by simp [text]) hidx (by rw [hlen]; exact hfits) ?_
    · refine (write_put (by
        rw [length_pointerBytes, length_toLE]
        exact hfits)).trans ?_
      exact put_dropRelocs (by rw [hlen]; exact hlow)
    · intro r hr
      rw [mem_pointerRelocs _ hr, hlen]
      exact ⟨le_rfl, by omega⟩
  · exact (getGlobal_modify_ne hne).trans ((getGlobal_modify_ne hne).trans htext)

/-- A number: its low bytes, of a float those of the nearest one. -/
theorem globalStore_bits {n : ℕ} (hl : m.lvalue = false) (hn : m.lit = .bits n) :
    ∃ c', globalStore fl c dest m = some c' ∧
      Stores c c' dest m.type.size (storedCells fl c m) := by
  have hrep := hs.value hl
  rw [hn] at hrep
  have hsize := size_le_of_representable hrep
  have hstores := stores_put [] (length_toLE m.type.size (if m.type.isF32 then fl.narrow n else n)) hs.idx hs.fits hm.low (by simp)
  rw [cellsOf_bytes] at hstores
  rw [globalStore_literal hs hl, storedCells, hl, hn, storeLit, if_pos hsize]
  refine ⟨_, rfl, ?_⟩
  simp only [write_eq_put, List.modify_modify_eq]
  exact hstores

/-- **The store**: the range gets the cells of the value, and the text of a string is a new
global. -/
theorem globalStore_stores : ∃ c', globalStore fl c dest m = some c' ∧
    Stores c c' dest m.type.size (storedCells fl c m) ∧
    ∀ data, m.lvalue = false → m.lit = .string data → getGlobal c' c.length = ⟨data, 1, []⟩ := by
  cases hl : m.lvalue with
  | true =>
    obtain ⟨c', heq, hstores⟩ := globalStore_lvalue hs hm hl
    exact ⟨c', heq, hstores, nofun⟩
  | false =>
    cases hlit : m.lit with
    | bits n =>
      obtain ⟨c', heq, hstores⟩ := globalStore_bits hs hm hl hlit
      exact ⟨c', heq, hstores, nofun⟩
    | dest d =>
      obtain ⟨c', heq, hstores⟩ := globalStore_pointer hs hm hl hlit
      exact ⟨c', heq, hstores, nofun⟩
    | proc id =>
      obtain ⟨c', heq, hstores⟩ := globalStore_proc hs hm hl hlit
      exact ⟨c', heq, hstores, nofun⟩
    | string data =>
      obtain ⟨c', heq, hstores, htext⟩ := globalStore_string hs hm hl hlit
      refine ⟨c', heq, hstores, fun data' _ hdata => ?_⟩
      obtain rfl := Lit.string.inj hdata
      exact htext

end

end Store

/-! ### What is read back -/

section Decode

variable {fl} {c : Globals} {ty : Ty}

theorem decode_pointer {p : Place} (hty : ty.isDataPointer = true)
    (hoff : ∀ d, p = .global d → d.offset ≠ maxU32) (haddr : ∀ n, p = .address n → n < 2 ^ 64) :
    decode fl ty (pointerCells p) = .pointer p := by
  have hvoid : ty.dt ≠ .void := by
    cases ty with
    | prim p => cases p <;> first | decide | cases hty
    | pointer | multiPointer => decide
    | _ => cases hty
  rw [decode, if_neg hvoid]
  cases p with
  | global d => exact if_neg (hoff d rfl)
  | address n =>
    have hhead : ((toLE 8 n).map fun b => ((b, none) : Cell)).head?.bind (·.2) = none := rfl
    have hbytes : (((toLE 8 n).map fun b => ((b, none) : Cell)).map (·.1)).take 8 = toLE 8 n := by
      rw [List.map_map]
      exact (List.take_of_length_le (by simp)).trans (List.map_id _)
    rw [pointerCells, hhead, hbytes, ofLE_toLE]
    simp only [hty, if_true]
    rw [show 256 ^ 8 = 2 ^ 64 from rfl, Nat.mod_mod, Nat.mod_eq_of_lt (haddr n rfl)]

theorem decode_proc {id : ℕ} (hty : ty.isProc = true) :
    decode fl ty (litCells fl c ty (.proc id)) = .proc id := by
  cases ty with
  | proc =>
    by_cases h0 : id = 0
    · subst h0
      rfl
    · rw [litCells, if_neg h0]
      rfl
  | _ => cases hty

/-- The bytes of a number, read back. -/
theorem decode_bytes {n : ℕ} (hvoid : ty.dt ≠ .void) (hptr : ty.isDataPointer = false)
    (hproc : ty.isProc = false) (hpos : 0 < ty.size) (hsize : ty.size ≤ 8) :
    decode fl ty ((toLE ty.size n).map (·, none)) =
      if ty.isF32 then .number (fl.widen (fl.narrow (loadNumber fl ty (n % 256 ^ ty.size))))
      else .number (loadNumber fl ty (n % 256 ^ ty.size)) := by
  have hhead : ((toLE ty.size n).map fun b => ((b, none) : Cell)).head?.bind (·.2) = none := by
    obtain ⟨k, hk⟩ := Nat.exists_eq_succ_of_ne_zero hpos.ne'
    rw [hk]
    rfl
  have hbytes : (((toLE ty.size n).map fun b => ((b, none) : Cell)).map (·.1)).take 8 =
      toLE ty.size n := by
    rw [List.map_map]
    exact (List.take_of_length_le (by simpa using hsize)).trans (List.map_id _)
  rw [decode, if_neg hvoid, hhead, hbytes, ofLE_toLE]
  simp only [hptr, hproc, Bool.false_eq_true, if_false]

/-- A number of the type, cut to its bytes and read back. -/
theorem loadNumber_mod {n : ℕ} (hf : ty.isF32 = false) (hpos : 0 < ty.size) (hsize : ty.size ≤ 8)
    (hn : if ty.base.isSigned then u64 (wrap (ty.size * 8) n) = n else n < 256 ^ ty.size) :
    loadNumber fl ty (n % 256 ^ ty.size) = n := by
  have hload (v : ℕ) : loadNumber fl ty v =
      if ty.base.isSigned then u64 (wrap (ty.size * 8) v) else v := by
    have hext : u64 (shr64 (shl64 (i64 v) (64 - ty.size * 8)) (64 - ty.size * 8)) =
        u64 (wrap (ty.size * 8) v) := by
      rw [shr64_shl64 (by omega) (by omega), wrap_i64 (by omega)]
    rw [← hext]
    unfold loadNumber
    split
    · cases hf
    · rfl
  rw [hload]
  split_ifs at hn ⊢
  · rw [show 256 ^ ty.size = 2 ^ (ty.size * 8) by rw [mul_comm, pow_mul]; rfl, wrap_natCast_mod, hn]
  · exact Nat.mod_eq_of_lt hn

theorem decode_bits {n : ℕ} (h : Representable fl c ty (.bits n)) :
    decode fl ty (litCells fl c ty (.bits n)) = .number n := by
  have hsize := size_le_of_representable h
  have hkind : ty.dt ≠ .void ∧ ty.isDataPointer = false ∧ ty.isProc = false ∧ ty.isSimd = false := by
    cases ty with
    | prim p => cases p <;> first | decide | exact absurd rfl h.1 | exact absurd rfl h.2.1
    | enum p => exact ⟨h.1, rfl, rfl, rfl⟩
    | _ => exact h.elim
  obtain ⟨hvoid, hptr, hproc, hsimd⟩ := hkind
  have hpos := Ty.size_pos hvoid hsimd
  rw [litCells, decode_bytes hvoid hptr hproc hpos hsize]
  cases hf : ty.isF32 with
  | true =>
    obtain rfl : ty = .prim .f32 := by
      cases ty with
      | prim p => cases p <;> first | rfl | cases hf
      | _ => cases hf
    have hlt : fl.narrow n % 256 ^ 4 = fl.narrow n := Nat.mod_eq_of_lt (fl.narrow_lt n)
    change Value.number (fl.widen (fl.narrow (fl.widen (fl.narrow n % 256 ^ 4)))) = _
    have hn : fl.widen (fl.narrow n) = n := h
    rw [hlt, hn, hn]
  | false =>
    rw [if_neg Bool.false_ne_true, if_neg Bool.false_ne_true, loadNumber_mod hf hpos hsize]
    cases ty with
    | prim p => cases p <;> first | exact h.2.2.2 | exact absurd rfl h.1 | cases hf
    | enum p => exact h.2.2.2
    | _ => exact h.elim

end Decode

end OdinSon.Odinc
