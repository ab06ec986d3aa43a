import OdinSon.Odinc.WasmObjectSpec

/-!
# Relocating the code of a procedure

The relocations of a procedure are those of its instructions, at the places where these are
(`Output.foldl_emit`), so that relocating the code puts an index into each instruction by itself
(`foldlM_relocate`).  The index denotes what the instruction refers to exactly if that is in the module,
and a type fits the byte for its length (`instrOk_iff`).
-/

namespace OdinSon.Odinc.WasmObject

open Lib

/-! ### What an instruction leaves -/

namespace Instr

/-- The bytes before relocation. -/
def code : Instr → List UInt8
  | bytes bs => bs
  | call _ => [opCall, 0, 0, 0, 0]
  | procAddr _ => [opI64Const, 0, 0, 0, 0]
  | globalAddr _ => [opGlobalGet, 0, 0, 0, 0]
  | callIndirect _ => [opI32WrapI64, opCallIndirect, 0, 0, 0, 0, 0]

def constants : Instr → List UInt8
  | callIndirect sig => UInt8.ofNat sig.encode.length :: sig.encode
  | _ => []

/-- The relocations behind `n` bytes of code and `k` of constants. -/
@[grind =] def relocs (n k : ℕ) : Instr → List CodeReloc
  | bytes _ => []
  | call id | procAddr id | globalAddr id => [⟨n + 1, id⟩]
  | callIndirect _ => [⟨n + 2, k⟩]

theorem length_code (i : Instr) : i.code.length = i.size := by cases i <;> rfl

/-- The relocations of a list of instructions. -/
def relocsFrom : ℕ → ℕ → List Instr → List CodeReloc
  | _, _, [] => []
  | n, k, i :: is => i.relocs n k ++ relocsFrom (n + i.size) (k + i.constants.length) is

end Instr

namespace Output

theorem emit_eq (o : Output) (i : Instr) :
    o.emit i = ⟨o.code ++ i.code, o.constants ++ i.constants,
      o.relocs ++ i.relocs o.code.length o.constants.length⟩ := by
  cases i <;> simp [emit, emitReloc, Instr.code, Instr.constants, Instr.relocs]

theorem foldl_emit (o : Output) (is : List Instr) :
    is.foldl emit o = ⟨o.code ++ is.flatMap Instr.code, o.constants ++ is.flatMap Instr.constants,
      o.relocs ++ Instr.relocsFrom o.code.length o.constants.length is⟩ := by
  induction is generalizing o with
  | nil => simp [Instr.relocsFrom]
  | cons i is ih =>
    rw [List.foldl_cons, ih, emit_eq]
    simp only [List.flatMap_cons, Instr.relocsFrom, List.append_assoc, List.length_append,
      Instr.length_code]

end Output

/-! ### Relocation of an instruction -/

section Link

variable (funcs globals : List ℕ)

/-- The instruction with its index.  The type of an indirect call is read back by the byte that has
its length. -/
def Instr.link (m : Module) : Instr → Option (Module × List UInt8)
  | bytes bs => some (m, bs)
  | call p => funcs[p]?.map fun f => (m, opCall :: fixedUleb 4 f)
  | procAddr p => funcs[p]?.map fun f =>
    ({ m with indirectIds := (indirectId m.indirectIds f).1 },
      opI64Const :: fixedUleb 4 (indirectId m.indirectIds f).2)
  | globalAddr j => globals[j]?.map fun k => (m, opGlobalGet :: fixedUleb 4 k)
  | callIndirect sig =>
    some ({ m with types := m.types ++ [sig.encode.take (sig.encode.length % 256)] },
      opI32WrapI64 :: opCallIndirect :: fixedUleb 4 m.types.length ++ [0])

def linkAll (m : Module) : List Instr → Option (Module × List UInt8)
  | [] => some (m, [])
  | i :: is => do
    let r ← i.link funcs globals m
    let s ← linkAll r.1 is
    return (s.1, r.2 ++ s.2)

variable {funcs globals} {m : Module} {pre post : List UInt8}

theorem length_link {i : Instr} {r : Module × List UInt8} (h : i.link funcs globals m = some r) :
    r.2.length = i.size := by
  cases i with
  | bytes bs =>
    obtain rfl := Option.some.inj h
    rfl
  | call p | procAddr p | globalAddr p =>
    obtain ⟨f, -, rfl⟩ := Option.map_eq_some_iff.1 h
    simp [Instr.size]
  | callIndirect sig =>
    obtain rfl := Option.some.inj h
    simp [Instr.size]

/-- The four bytes behind the opcode are written over. -/
theorem splice_field (pre post : List UInt8) (op : UInt8) (n : ℕ) :
    splice (pre ++ [op, 0, 0, 0, 0] ++ post) (pre.length + 1) (fixedUleb 4 n) =
      pre ++ op :: fixedUleb 4 n ++ post := by
  have h := splice_append_append (pre ++ [op]) [0, 0, 0, 0] post (length_fixedUleb 4 n)
  simpa using h

theorem getElem?_opcode (pre post : List UInt8) (op : UInt8) (rest : List UInt8) :
    (pre ++ op :: rest ++ post)[pre.length + 1 - 1]? = some op := by
  rw [Nat.add_sub_cancel, List.append_assoc, List.getElem?_append_right le_rfl, Nat.sub_self]
  rfl

section RelocId

variable {constants : List UInt8} {id : ℕ}

theorem relocId_call :
    relocId funcs globals constants m opCall id = funcs[id]?.map fun f => (m, f) := by
  cases h : funcs[id]? <;> simp [relocId, h, opCall, opI64Const]

theorem relocId_procAddr :
    relocId funcs globals constants m opI64Const id = funcs[id]?.map fun f =>
      ({ m with indirectIds := (indirectId m.indirectIds f).1 }, (indirectId m.indirectIds f).2) := by
  cases h : funcs[id]? <;> simp [relocId, h]

theorem relocId_globalAddr :
    relocId funcs globals constants m opGlobalGet id = globals[id]?.map fun k => (m, k) := by
  cases h : globals[id]? <;> simp [relocId, h, opCall, opI64Const, opGlobalGet]

end RelocId

/-- The type of an indirect call as it is read back. -/
theorem relocId_callIndirect (kpre kpost : List UInt8) (sig : Sig) :
    relocId funcs globals (kpre ++ (Instr.callIndirect sig).constants ++ kpost) m opCallIndirect
      kpre.length =
      some ({ m with types := m.types ++ [sig.encode.take (sig.encode.length % 256)] },
        m.types.length) := by
  have hlen : (kpre ++ (Instr.callIndirect sig).constants ++ kpost)[kpre.length]? =
      some (UInt8.ofNat sig.encode.length) := by
    have h := getElem?_opcode kpre kpost (UInt8.ofNat sig.encode.length) sig.encode
    rwa [Nat.add_sub_cancel] at h
  have hnat : (UInt8.ofNat sig.encode.length).toNat = sig.encode.length % 256 :=
    UInt8.toNat_ofNat'
  have hle := Nat.mod_le sig.encode.length 256
  have hdrop : (kpre ++ (Instr.callIndirect sig).constants ++ kpost).drop (kpre.length + 1) =
      sig.encode ++ kpost := by
    rw [List.append_assoc, ← List.drop_drop, List.drop_left' rfl]
    rfl
  have htake : (sig.encode ++ kpost).take (sig.encode.length % 256) =
      sig.encode.take (sig.encode.length % 256) := List.take_append_of_le_length hle
  have hbytes : (sig.encode.take (sig.encode.length % 256)).length = sig.encode.length % 256 := by
    rw [List.length_take, min_eq_left hle]
  rw [relocId, if_neg (by decide), if_neg (by decide), if_neg (by decide), if_pos rfl, hlen]
  simp only [Option.bind_eq_bind, Option.bind_some, hnat, hdrop, htake, hbytes, guard, if_true]
  rfl

/-- **Relocating an instruction where it stands.** -/
theorem foldlM_relocate_instr (i : Instr) (kpre kpost : List UInt8) :
    (i.relocs pre.length kpre.length).foldlM
      (relocate funcs globals (kpre ++ i.constants ++ kpost)) (m, pre ++ i.code ++ post) =
      (i.link funcs globals m).map fun r => (r.1, pre ++ r.2 ++ post) := by
  cases i with
  | bytes bs => rfl
  | call p =>
    simp only [Instr.relocs, Instr.code, List.foldlM_cons, List.foldlM_nil, relocate,
      getElem?_opcode, Option.bind_eq_bind, Option.bind_some, relocId_call, Instr.link]
    cases funcs[p]? with
    | none => rfl
    | some f => simpa using splice_field pre post opCall f
  | procAddr p =>
    simp only [Instr.relocs, Instr.code, List.foldlM_cons, List.foldlM_nil, relocate,
      getElem?_opcode, Option.bind_eq_bind, Option.bind_some, relocId_procAddr, Instr.link]
    cases funcs[p]? with
    | none => rfl
    | some f =>
      simpa using splice_field pre post opI64Const (indirectId m.indirectIds f).2
  | globalAddr j =>
    simp only [Instr.relocs, Instr.code, List.foldlM_cons, List.foldlM_nil, relocate,
      getElem?_opcode, Option.bind_eq_bind, Option.bind_some, relocId_globalAddr, Instr.link]
    cases globals[j]? with
    | none => rfl
    | some k => simpa using splice_field pre post opGlobalGet k
  | callIndirect sig =>
    have hop : (pre ++ (Instr.callIndirect sig).code ++ post)[pre.length + 2 - 1]? =
        some opCallIndirect := by
      simp [Instr.code]
    have hsplice := splice_field (pre ++ [opI32WrapI64]) (0 :: post) opCallIndirect
      m.types.length
    simp only [Instr.relocs, List.foldlM_cons, List.foldlM_nil, relocate, hop, Option.bind_eq_bind,
      Option.bind_some, relocId_callIndirect, Instr.link]
    simpa [Instr.code] using hsplice

/-- **Relocating the code of a procedure** relocates its instructions one after another. -/
theorem foldlM_relocate (is : List Instr) (kpre kpost : List UInt8) :
    (Instr.relocsFrom pre.length kpre.length is).foldlM
      (relocate funcs globals (kpre ++ is.flatMap Instr.constants ++ kpost))
      (m, pre ++ is.flatMap Instr.code ++ post) =
      (linkAll funcs globals m is).map fun r => (r.1, pre ++ r.2 ++ post) := by
  induction is generalizing m pre kpre with
  | nil => rfl
  | cons i is ih =>
    have hconstants : kpre ++ (i :: is).flatMap Instr.constants ++ kpost =
        kpre ++ i.constants ++ (is.flatMap Instr.constants ++ kpost) := by
      simp only [List.flatMap_cons, List.append_assoc]
    have hcode : pre ++ (i :: is).flatMap Instr.code ++ post =
        pre ++ i.code ++ (is.flatMap Instr.code ++ post) := by
      simp only [List.flatMap_cons, List.append_assoc]
    rw [Instr.relocsFrom, List.foldlM_append, hconstants, hcode, foldlM_relocate_instr, linkAll]
    cases hlink : i.link funcs globals m with
    | none => rfl
    | some r =>
      have hnext := @ih r.1 (pre ++ r.2) (kpre ++ i.constants)
      rw [List.length_append, length_link hlink, List.length_append, List.append_assoc (kpre ++ _),
        List.append_assoc (pre ++ _)] at hnext
      simp only [Option.map_some, Option.bind_eq_bind, Option.bind_some, hnext]
      cases linkAll funcs globals r.1 is <;> simp

/-! ### What relocation changes -/

/-- Relocation adds types and slots of the table, behind those that are there. -/
structure Module.Grows (m m' : Module) : Prop where
  types : m.types <+: m'.types
  ids : m.indirectIds <+: m'.indirectIds

theorem Module.Grows.refl (m : Module) : m.Grows m := ⟨List.prefix_rfl, List.prefix_rfl⟩

theorem Module.Grows.trans {m m' m'' : Module} (h : m.Grows m') (h' : m'.Grows m'') : m.Grows m'' :=
  ⟨h.types.trans h'.types, h.ids.trans h'.ids⟩

theorem indirectId_spec (ids : List ℕ) (f : ℕ) :
    ids <+: (indirectId ids f).1 ∧ (indirectId ids f).1[(indirectId ids f).2 - 1]? = some f ∧
      (indirectId ids f).2 ≠ 0 ∧ (indirectId ids f).2 ≤ (indirectId ids f).1.length := by
  by_cases h : f ∈ ids
  · have hlt := List.idxOf_lt_length_of_mem h
    rw [indirectId, if_pos h]
    refine ⟨List.prefix_rfl, ?_, Nat.succ_ne_zero _, hlt⟩
    rw [Nat.add_sub_cancel, List.getElem?_eq_getElem hlt, List.getElem_idxOf]
  · rw [indirectId, if_neg h]
    refine ⟨List.prefix_append _ _, ?_, Nat.succ_ne_zero _, by simp⟩
    simp

/-- The slots of the table have different functions, each from the list. -/
def IdsFrom (p : ℕ → Prop) (ids : List ℕ) : Prop := ids.Nodup ∧ ∀ f ∈ ids, p f

theorem IdsFrom.indirectId {p : ℕ → Prop} {ids : List ℕ} (h : IdsFrom p ids) {f : ℕ} (hf : p f) :
    IdsFrom p (indirectId ids f).1 := by
  rw [WasmObject.indirectId]
  split_ifs with hmem
  · exact h
  · refine ⟨List.nodup_append.2 ⟨h.1, List.pairwise_singleton _ f, ?_⟩, ?_⟩
    · intro g hg g' hg' heq
      exact hmem (List.mem_singleton.1 hg' ▸ heq ▸ hg)
    · intro g hg
      obtain hg | hg := List.mem_append.1 hg
      · exact h.2 g hg
      · exact List.mem_singleton.1 hg ▸ hf

theorem grows_link {i : Instr} {r : Module × List UInt8} (h : i.link funcs globals m = some r) :
    m.Grows r.1 := by
  cases i with
  | bytes bs =>
    obtain rfl := Option.some.inj h
    exact .refl m
  | call p | globalAddr p =>
    obtain ⟨f, -, rfl⟩ := Option.map_eq_some_iff.1 h
    exact .refl m
  | procAddr p =>
    obtain ⟨f, -, rfl⟩ := Option.map_eq_some_iff.1 h
    exact ⟨List.prefix_rfl, (indirectId_spec _ f).1⟩
  | callIndirect sig =>
    obtain rfl := Option.some.inj h
    exact ⟨List.prefix_append _ _, List.prefix_rfl⟩

/-- All else stays. -/
theorem rest_link {i : Instr} {r : Module × List UInt8} (h : i.link funcs globals m = some r) :
    r.1 = { m with types := r.1.types, indirectIds := r.1.indirectIds } := by
  cases i with
  | bytes bs | callIndirect sig =>
    obtain rfl := Option.some.inj h
    rfl
  | call p | globalAddr p | procAddr p =>
    obtain ⟨f, -, rfl⟩ := Option.map_eq_some_iff.1 h
    rfl

theorem idsFrom_link {p : ℕ → Prop} {i : Instr} {r : Module × List UInt8}
    (hfuncs : ∀ id ∈ i.prcs, ∀ f, funcs[id]? = some f → p f) (hids : IdsFrom p m.indirectIds)
    (h : i.link funcs globals m = some r) : IdsFrom p r.1.indirectIds := by
  cases i with
  | bytes bs | callIndirect sig =>
    obtain rfl := Option.some.inj h
    exact hids
  | call id | globalAddr id =>
    obtain ⟨f, -, rfl⟩ := Option.map_eq_some_iff.1 h
    exact hids
  | procAddr id =>
    obtain ⟨f, hf, rfl⟩ := Option.map_eq_some_iff.1 h
    exact hids.indirectId (hfuncs id (List.mem_singleton_self id) f hf)

theorem length_types_link {i : Instr} {r : Module × List UInt8}
    (h : i.link funcs globals m = some r) : r.1.types.length = m.types.length + i.sigs.length := by
  cases i with
  | bytes bs =>
    obtain rfl := Option.some.inj h
    rfl
  | call id | globalAddr id | procAddr id =>
    obtain ⟨f, -, rfl⟩ := Option.map_eq_some_iff.1 h
    rfl
  | callIndirect sig =>
    obtain rfl := Option.some.inj h
    exact List.length_append

end Link

/-! ### Indexes that denote -/

section Denotes

variable {globals : List Global} {procs : List Prc}

/-- The counts of the module fit three bytes. -/
structure Small (globals : List Global) (procs : List Prc) (m : Module) : Prop where
  funcs : (funcSpace procs).length < maxCount
  globals : (order globals).length + 1 < maxCount
  types : m.types.length < maxCount
  ids : m.indirectIds.length ≤ maxCount

theorem isFunc_of_mem {p : ℕ} (h : p ∈ (funcSpace procs).map Prod.snd) :
    ∃ f, IsFunc procs f p ∧ (funcIdxes procs)[p]? = some f ∧ f < (funcSpace procs).length := by
  obtain ⟨⟨prc, _⟩, hprc, rfl⟩ := List.mem_map.1 h
  obtain ⟨f, hf⟩ := List.mem_iff_getElem?.1 hprc
  exact ⟨f, ⟨prc, hf⟩, funcIdxes_spec hf, (List.getElem?_eq_some_iff.1 hf).1⟩

theorem IsFunc.mem {f p : ℕ} (h : IsFunc procs f p) : p ∈ (funcSpace procs).map Prod.snd := by
  obtain ⟨prc, hprc⟩ := h
  exact List.mem_map_of_mem (List.mem_of_getElem? hprc)

theorem isGlobal_of_mem {j : ℕ} (h : j ∈ (order globals).map Prod.snd) :
    ∃ k, IsGlobal globals k j ∧ (layout globals).idxes[j]? = some (k + 1) ∧
      k < (order globals).length := by
  obtain ⟨⟨g, _⟩, hg, rfl⟩ := List.mem_map.1 h
  obtain ⟨k, hk⟩ := List.mem_iff_getElem?.1 hg
  obtain ⟨a, -, hidx, -⟩ := layout_spec hk
  exact ⟨k, ⟨g, hk⟩, hidx, (List.getElem?_eq_some_iff.1 hk).1⟩

theorem IsGlobal.mem {k j : ℕ} (h : IsGlobal globals k j) : j ∈ (order globals).map Prod.snd := by
  obtain ⟨g, hg⟩ := h
  exact List.mem_map_of_mem (List.mem_of_getElem? hg)

/-- A field of four bytes reads as the index, while that is small. -/
theorem readUleb_field {n : ℕ} (h : n < 128 ^ 4) : readUleb (fixedUleb 4 n) = some (n, []) := by
  have hread := readUleb_fixedUleb 3 n []
  rwa [List.append_nil, Nat.mod_eq_of_lt h] at hread

theorem readSleb_field {n : ℕ} (h : n < 64 * 128 ^ 3) :
    readSleb (fixedUleb 4 n) = some ((n : ℤ), []) := by
  have hread := readSleb_fixedUleb h []
  rwa [List.append_nil] at hread

theorem getElem?_of_isPrefix {α : Type*} {l l' : List α} (h : l <+: l') {i : ℕ} {x : α}
    (hi : l[i]? = some x) : l'[i]? = some x := by
  obtain ⟨rest, rfl⟩ := h
  rw [List.getElem?_append_left (List.getElem?_eq_some_iff.1 hi).1, hi]

theorem link_isSome {i : Instr} (h : i.Fits globals procs) (m : Module) :
    ∃ r, i.link (funcIdxes procs) (layout globals).idxes m = some r := by
  cases i with
  | bytes bs | callIndirect sig => exact ⟨_, rfl⟩
  | call p | procAddr p =>
    obtain ⟨f, -, hf, -⟩ := isFunc_of_mem (h.prcs p (List.mem_singleton_self p))
    exact ⟨_, Option.map_eq_some_iff.2 ⟨f, hf, rfl⟩⟩
  | globalAddr j =>
    obtain ⟨k, -, hk, -⟩ := isGlobal_of_mem (h.globals j (List.mem_singleton_self j))
    exact ⟨_, Option.map_eq_some_iff.2 ⟨k + 1, hk, rfl⟩⟩

variable {m m' : Module} {i : Instr} {r : Module × List UInt8}

/-- **The index of an instruction denotes what it refers to**, in any module that the one after it
grows into. -/
theorem instrOk_of_fits (hsmall : Small globals procs m') (hfits : i.Fits globals procs)
    (hlink : i.link (funcIdxes procs) (layout globals).idxes m = some r) (hgrows : r.1.Grows m') :
    m'.InstrOk globals procs i r.2 := by
  have hmax : maxCount < 64 * 128 ^ 3 := by decide
  have hmax' : maxCount < 128 ^ 4 := by decide
  cases i with
  | bytes bs =>
    obtain rfl := Option.some.inj hlink
    rfl
  | call p =>
    obtain ⟨f, hf, rfl⟩ := Option.map_eq_some_iff.1 hlink
    obtain ⟨f', hfunc, hf', hlt⟩ := isFunc_of_mem (hfits.prcs p (List.mem_singleton_self p))
    obtain rfl := Option.some.inj (hf.symm.trans hf')
    exact ⟨_, f, rfl, readUleb_field ((hlt.trans hsmall.funcs).trans hmax'), hfunc⟩
  | procAddr p =>
    obtain ⟨f, hf, rfl⟩ := Option.map_eq_some_iff.1 hlink
    obtain ⟨f', hfunc, hf', -⟩ := isFunc_of_mem (hfits.prcs p (List.mem_singleton_self p))
    obtain rfl := Option.some.inj (hf.symm.trans hf')
    obtain ⟨-, hslot, hne, hle⟩ := indirectId_spec m.indirectIds f
    have hlt := (hle.trans hgrows.ids.length_le).trans hsmall.ids
    refine ⟨_, _, f, rfl, readSleb_field (hlt.trans_lt hmax), ?_, hfunc⟩
    rw [Module.slot, if_neg hne]
    exact getElem?_of_isPrefix hgrows.ids hslot
  | globalAddr j =>
    obtain ⟨k, hk, rfl⟩ := Option.map_eq_some_iff.1 hlink
    obtain ⟨k', hglobal, hk', hlt⟩ := isGlobal_of_mem (hfits.globals j (List.mem_singleton_self j))
    obtain rfl := Option.some.inj (hk.symm.trans hk')
    have hfield := ((Nat.succ_lt_succ hlt).trans hsmall.globals).trans hmax'
    exact ⟨_, k', rfl, readUleb_field hfield, hglobal⟩
  | callIndirect sig =>
    obtain rfl := Option.some.inj hlink
    have hlt := hfits.sigs sig (List.mem_singleton_self sig)
    have htype : (m.types ++ [sig.encode.take (sig.encode.length % 256)])[m.types.length]? =
        some sig.encode := by
      rw [List.getElem?_concat_length, Nat.mod_eq_of_lt hlt, List.take_length]
    have htype' := getElem?_of_isPrefix hgrows.types htype
    have hfield := (List.getElem?_eq_some_iff.1 htype').1
    exact ⟨_, _, rfl, readUleb_field ((hfield.trans hsmall.types).trans hmax'), htype'⟩

/-- An index that denotes what the instruction refers to says that it is in the module. -/
theorem fits_of_instrOk (hsmall : Small globals procs m')
    (hlink : i.link (funcIdxes procs) (layout globals).idxes m = some r) (hgrows : r.1.Grows m')
    (hok : m'.InstrOk globals procs i r.2) : i.Fits globals procs := by
  cases i with
  | bytes bs => exact ⟨nofun, nofun, nofun⟩
  | call p =>
    obtain ⟨_, _, _, _, hfunc⟩ := hok
    refine ⟨fun q hq => ?_, nofun, nofun⟩
    rw [List.mem_singleton.1 hq]
    exact hfunc.mem
  | procAddr p =>
    obtain ⟨_, _, _, _, _, _, hfunc⟩ := hok
    refine ⟨fun q hq => ?_, nofun, nofun⟩
    rw [List.mem_singleton.1 hq]
    exact hfunc.mem
  | globalAddr j =>
    obtain ⟨_, _, _, _, hglobal⟩ := hok
    refine ⟨nofun, fun k hk => ?_, nofun⟩
    rw [List.mem_singleton.1 hk]
    exact hglobal.mem
  | callIndirect sig =>
    obtain rfl := Option.some.inj hlink
    obtain ⟨field, t, hcode, hread, htype⟩ := hok
    refine ⟨nofun, nofun, fun s hs => ?_⟩
    rw [List.mem_singleton.1 hs]
    -- the index is that of the type that was read back, which is shorter if it is cut
    have hback : (m.types ++ [sig.encode.take (sig.encode.length % 256)])[m.types.length]? =
        some (sig.encode.take (sig.encode.length % 256)) := List.getElem?_concat_length
    have hback' := getElem?_of_isPrefix hgrows.types hback
    have hlt := (List.getElem?_eq_some_iff.1 hback').1
    have hfield : field = fixedUleb 4 m.types.length := by
      simpa using hcode.symm
    rw [hfield, readUleb_field ((hlt.trans hsmall.types).trans (by decide))] at hread
    obtain rfl : m.types.length = t := congrArg Prod.fst (Option.some.inj hread)
    have heq := congrArg List.length (Option.some.inj (hback'.symm.trans htype))
    rw [List.length_take] at heq
    omega

/-! ### The code of a procedure -/

theorem linkAll_cons {funcs idxes : List ℕ} {is : List Instr} :
    linkAll funcs idxes m (i :: is) = some r ↔
      ∃ s t, i.link funcs idxes m = some s ∧ linkAll funcs idxes s.1 is = some t ∧
        r = (t.1, s.2 ++ t.2) := by
  simp only [linkAll, Option.bind_eq_bind, Option.bind_eq_some_iff, Option.pure_def,
    Option.some.injEq]
  constructor
  · rintro ⟨s, hs, t, ht, rfl⟩
    exact ⟨s, t, hs, ht, rfl⟩
  · rintro ⟨s, t, hs, ht, rfl⟩
    exact ⟨s, hs, t, ht, rfl⟩

theorem grows_linkAll {funcs idxes : List ℕ} {is : List Instr}
    (h : linkAll funcs idxes m is = some r) : m.Grows r.1 := by
  induction is generalizing m r with
  | nil =>
    obtain rfl := Option.some.inj h
    exact .refl m
  | cons i is ih =>
    obtain ⟨s, t, hs, ht, rfl⟩ := linkAll_cons.1 h
    have hrest := ih ht
    exact (grows_link hs).trans hrest

theorem rest_linkAll {funcs idxes : List ℕ} {is : List Instr}
    (h : linkAll funcs idxes m is = some r) :
    r.1 = { m with types := r.1.types, indirectIds := r.1.indirectIds } := by
  induction is generalizing m r with
  | nil =>
    obtain rfl := Option.some.inj h
    rfl
  | cons i is ih =>
    obtain ⟨s, t, hs, ht, rfl⟩ := linkAll_cons.1 h
    have hrest := ih ht
    rw [rest_link hs] at hrest
    exact hrest

theorem idsFrom_linkAll {funcs idxes : List ℕ} {p : ℕ → Prop} {is : List Instr}
    (hfuncs : ∀ id ∈ is.flatMap Instr.prcs, ∀ f, funcs[id]? = some f → p f)
    (hids : IdsFrom p m.indirectIds) (h : linkAll funcs idxes m is = some r) :
    IdsFrom p r.1.indirectIds := by
  induction is generalizing m r with
  | nil =>
    obtain rfl := Option.some.inj h
    exact hids
  | cons i is ih =>
    obtain ⟨s, t, hs, ht, rfl⟩ := linkAll_cons.1 h
    rw [List.flatMap_cons] at hfuncs
    have hids' := idsFrom_link (fun id hid => hfuncs id (List.mem_append_left _ hid)) hids hs
    have hrest := ih (fun id hid => hfuncs id (List.mem_append_right _ hid)) hids' ht
    exact hrest

theorem length_types_linkAll {funcs idxes : List ℕ} {is : List Instr}
    (h : linkAll funcs idxes m is = some r) :
    r.1.types.length = m.types.length + (is.flatMap Instr.sigs).length := by
  induction is generalizing m r with
  | nil =>
    obtain rfl := Option.some.inj h
    rfl
  | cons i is ih =>
    obtain ⟨s, t, hs, ht, rfl⟩ := linkAll_cons.1 h
    rw [ih ht, length_types_link hs, List.flatMap_cons, List.length_append, Nat.add_assoc]

theorem linkAll_isSome {is : List Instr} (h : ∀ i ∈ is, i.Fits globals procs) (m : Module) :
    ∃ r, linkAll (funcIdxes procs) (layout globals).idxes m is = some r := by
  induction is generalizing m with
  | nil => exact ⟨_, rfl⟩
  | cons i is ih =>
    obtain ⟨s, hs⟩ := link_isSome (h i (List.mem_cons_self ..)) m
    obtain ⟨t, ht⟩ := ih (fun i hi => h i (List.mem_cons_of_mem _ hi)) s.1
    exact ⟨_, linkAll_cons.2 ⟨s, t, hs, ht, rfl⟩⟩

/-- **The code of a procedure is right exactly if what it refers to is in the module.** -/
theorem codeOk_iff {is : List Instr} (hsmall : Small globals procs m')
    (hlink : linkAll (funcIdxes procs) (layout globals).idxes m is = some r)
    (hgrows : r.1.Grows m') :
    m'.CodeOk globals procs is r.2 ↔ ∀ i ∈ is, i.Fits globals procs := by
  induction is generalizing m r with
  | nil =>
    obtain rfl := Option.some.inj hlink
    exact iff_of_true rfl nofun
  | cons i is ih =>
    obtain ⟨s, t, hs, ht, rfl⟩ := linkAll_cons.1 hlink
    have hgrows' := (grows_linkAll ht).trans hgrows
    rw [Module.CodeOk, ← length_link hs, List.take_left' rfl, List.drop_left' rfl, ih ht hgrows,
      List.forall_mem_cons]
    refine and_congr_left fun _ => ⟨?_, ?_⟩
    · exact fits_of_instrOk hsmall hs hgrows'
    · exact fun hfits => instrOk_of_fits hsmall hfits hs hgrows'

end Denotes

end OdinSon.Odinc.WasmObject
