import OdinSon.Odinc.WasmObjectData

/-!
# The module is consistent

What `emit_wasm_module` makes, pass by pass (`Built`), and from it when the module is consistent
(`emitModule_consistent_iff`).
-/

namespace OdinSon.Odinc.WasmObject

open Lib

/-! ### The passes over the procedures -/

section Passes

variable {α β : Type*}

/-- A pass that does nothing for some elements is a pass over the others. -/
theorem foldlM_filter_of_skip {f : β → α → Option β} {p : α → Bool}
    (h : ∀ b a, p a = false → f b a = some b) (l : List α) (b : β) :
    l.foldlM f b = (l.filter p).foldlM f b := by
  induction l generalizing b with
  | nil => rfl
  | cons a l ih =>
    rw [List.foldlM_cons, List.filter_cons]
    cases hp : p a with
    | false =>
      rw [h b a hp, Option.bind_eq_bind, Option.bind_some, ih]
      rfl
    | true =>
      rw [if_pos rfl, List.foldlM_cons]
      exact bind_congr ih

end Passes

section Procs

variable {funcs idxes : List ℕ} {m m' : Module} {prc : Prc × ℕ} {prcs : List (Prc × ℕ)}

theorem foldl_emitImport (funcs : List ℕ) (prcs : List (Prc × ℕ)) (m : Module) :
    prcs.foldl (emitImport funcs) m =
      { m with
        types := m.types ++
          (prcs.filter fun prc => decide (prc.1.body = none)).map (·.1.sig.encode)
        imports := m.imports ++ (prcs.filter fun prc => decide (prc.1.body = none)).map
          fun prc => ⟨prc.1.name, funcs.getD prc.2 0⟩ } := by
  induction prcs generalizing m with
  | nil => simp
  | cons prc prcs ih =>
    rw [List.foldl_cons, ih, List.filter_cons, emitImport]
    by_cases h : prc.1.body = none
    · rw [if_pos h, if_pos (decide_eq_true h)]
      simp only [List.map_cons, List.append_assoc, List.singleton_append]
    · rw [if_neg h, if_neg (ne_true_of_eq_false (decide_eq_false h))]

/-- The entry of the export section for a procedure. -/
def mainExport (funcs : List ℕ) (prc : Prc × ℕ) : List Export :=
  if prc.1.name = mainName then [⟨mainName, .func, funcs.getD prc.2 0⟩] else []

/-- The instructions of a procedure. -/
def body (prc : Prc × ℕ) : List Instr := prc.1.body.getD []

theorem out_eq (prc : Prc × ℕ) :
    prc.1.out = ⟨(body prc).flatMap Instr.code, (body prc).flatMap Instr.constants,
      Instr.relocsFrom 0 0 (body prc)⟩ := by
  rw [Prc.out, Output.foldl_emit]
  rfl

theorem emitProc_eq (h : prc.1.out.code ≠ []) :
    emitProc funcs idxes m prc =
      (linkAll funcs idxes { m with exports := m.exports ++ mainExport funcs prc } (body prc)).map
        fun r => { r.1 with
          code := r.1.code ++ [r.2]
          types := r.1.types ++ [prc.1.sig.encode]
          functions := r.1.functions ++ [r.1.types.length] } := by
  have hreloc := @foldlM_relocate funcs idxes
    { m with exports := m.exports ++ mainExport funcs prc } [] [] (body prc) [] []
  simp only [List.nil_append, List.append_nil, List.length_nil, mainExport] at hreloc
  rw [emitProc, if_neg h, out_eq]
  simp only [mainExport, hreloc, Option.bind_eq_bind]
  cases linkAll funcs idxes _ (body prc) <;> rfl

/-- A function of the module is the procedure. -/
def ProcIn (funcs idxes : List ℕ) (m' : Module) (prc : Prc × ℕ) (f : ℕ × List UInt8) : Prop :=
  m'.types[f.1]? = some prc.1.sig.encode ∧
    ∃ m r, linkAll funcs idxes m (body prc) = some r ∧ r.2 = f.2 ∧ r.1.Grows m'

theorem ProcIn.mono {m'' : Module} {f : ℕ × List UInt8} (h : ProcIn funcs idxes m' prc f)
    (hgrows : m'.Grows m'') : ProcIn funcs idxes m'' prc f := by
  obtain ⟨htype, m, r, hr, hcode, hm⟩ := h
  exact ⟨getElem?_of_isPrefix hgrows.types htype, m, r, hr, hcode, hm.trans hgrows⟩

/-- What is known of the module after the code of some procedures. -/
structure Emitted (funcs idxes : List ℕ) (m : Module) (prcs : List (Prc × ℕ)) (m' : Module) :
    Prop where
  grows : m.Grows m'
  rest : m' = { m with
    types := m'.types
    indirectIds := m'.indirectIds
    functions := m'.functions
    code := m'.code
    exports := m.exports ++ prcs.flatMap (mainExport funcs) }
  typeCount : m'.types.length =
    m.types.length + prcs.length + ((prcs.flatMap body).flatMap Instr.sigs).length
  functions : ∃ fs : List (ℕ × List UInt8), m'.functions = m.functions ++ fs.map Prod.fst ∧
    m'.code = m.code ++ fs.map Prod.snd ∧ List.Forall₂ (ProcIn funcs idxes m') prcs fs
  ids : ∀ p : ℕ → Prop,
    (∀ id ∈ (prcs.flatMap body).flatMap Instr.prcs, ∀ f, funcs[id]? = some f → p f) →
    IdsFrom p m.indirectIds → IdsFrom p m'.indirectIds

theorem Emitted.cons {m'' : Module} (hcode : prc.1.out.code ≠ [])
    (h : emitProc funcs idxes m prc = some m') (hrest : Emitted funcs idxes m' prcs m'') :
    Emitted funcs idxes m (prc :: prcs) m'' := by
  rw [emitProc_eq hcode] at h
  obtain ⟨r, hr, rfl⟩ := Option.map_eq_some_iff.1 h
  obtain ⟨hgrows, hrest, hcount, ⟨fs, hfunctions, hcodes, hfs⟩, hids⟩ := hrest
  have hstart := rest_linkAll hr
  have hlinked : r.1.Grows m'' :=
    ⟨(List.prefix_append _ _).trans hgrows.types, hgrows.ids⟩
  have hlink := grows_linkAll hr
  refine ⟨⟨hlink.types.trans hlinked.types, hlink.ids.trans hlinked.ids⟩, ?_, ?_,
    ⟨(r.1.types.length, r.2) :: fs, ?_, ?_, .cons ⟨?_, _, r, hr, rfl, hlinked⟩ hfs⟩, ?_⟩
  · rw [hstart] at hrest
    simpa only [List.flatMap_cons, List.append_assoc] using hrest
  · have hlen := length_types_linkAll hr
    simp only [List.length_append, List.length_singleton, hlen] at hcount
    simp only [List.flatMap_cons, List.flatMap_append, List.length_append, List.length_cons]
    omega
  · rw [hfunctions, hstart]
    simp only [List.map_cons, List.append_assoc, List.singleton_append]
  · rw [hcodes, hstart]
    simp only [List.map_cons, List.append_assoc, List.singleton_append]
  · exact getElem?_of_isPrefix hgrows.types List.getElem?_concat_length
  · intro p hp hm
    rw [List.flatMap_cons, List.flatMap_append] at hp
    have hm' : IdsFrom p
        ({ m with exports := m.exports ++ mainExport funcs prc } : Module).indirectIds := hm
    refine hids p (fun id hid => hp id (List.mem_append_right _ hid)) ?_
    exact idsFrom_linkAll (fun id hid => hp id (List.mem_append_left _ hid)) hm' hr

theorem emitted_foldlM (hcode : ∀ prc ∈ prcs, prc.1.out.code ≠ [])
    (h : prcs.foldlM (emitProc funcs idxes) m = some m') : Emitted funcs idxes m prcs m' := by
  induction prcs generalizing m with
  | nil =>
    obtain rfl := Option.some.inj h
    exact ⟨.refl m, by simp, by simp, ⟨[], by simp, by simp, .nil⟩, fun _ _ hids => hids⟩
  | cons prc prcs ih =>
    obtain ⟨hprc, hprcs⟩ := List.forall_mem_cons.1 hcode
    rw [List.foldlM_cons, Option.bind_eq_bind, Option.bind_eq_some_iff] at h
    obtain ⟨m₁, h₁, h⟩ := h
    exact .cons hprc h₁ (ih hprcs h)

theorem foldlM_emitProc_isSome {globals : List Global} {procs : List Prc}
    (hcode : ∀ prc ∈ prcs, prc.1.out.code ≠ [])
    (h : ∀ prc ∈ prcs, ∀ i ∈ body prc, i.Fits globals procs) (m : Module) :
    ∃ m', prcs.foldlM (emitProc (funcIdxes procs) (layout globals).idxes) m = some m' := by
  induction prcs generalizing m with
  | nil => exact ⟨m, rfl⟩
  | cons prc prcs ih =>
    obtain ⟨hprc, hprcs⟩ := List.forall_mem_cons.1 hcode
    obtain ⟨hfits, hrest⟩ := List.forall_mem_cons.1 h
    obtain ⟨r, hr⟩ := linkAll_isSome hfits
      { m with exports := m.exports ++ mainExport (funcIdxes procs) prc }
    obtain ⟨m', hm'⟩ := ih hprcs hrest _
    refine ⟨m', ?_⟩
    rw [List.foldlM_cons, emitProc_eq hprc, hr]
    exact hm'

end Procs

/-! ### All passes -/

section Build

variable {globals : List Global} {procs : List Prc} {m : Module}

/-- The size of the segment. -/
def segmentSize (globals : List Global) : ℕ := (layout globals).size - (zeroLayout globals).size

/-- **What is known of the emitted module.** -/
structure Built (globals : List Global) (procs : List Prc) (m : Module) : Prop where
  layout : m.globals = (layout globals).globals
  pages : m.pages = ((WasmObject.layout globals).size + pageSize - 1) / pageSize
  start : m.dataStart = (zeroLayout globals).size
  imports : m.imports = (imported procs).map fun prc =>
    ⟨prc.1.name, (funcIdxes procs).getD prc.2 0⟩
  importTypes : (imported procs).map (·.1.sig.encode) <+: m.types
  typeCount : m.types.length =
    (imported procs).length + (defined procs).length + ((instrs procs).flatMap Instr.sigs).length
  functions : ∃ fs : List (ℕ × List UInt8), m.functions = fs.map Prod.fst ∧
    m.code = fs.map Prod.snd ∧ List.Forall₂
      (ProcIn (funcIdxes procs) (WasmObject.layout globals).idxes m) (defined procs) fs
  exports : m.exports = (defined procs).flatMap (mainExport (funcIdxes procs)) ++
    [⟨stackPointerName, .global, 0⟩, ⟨memoryName, .mem, 0⟩]
  data : ∃ vss, m.data = spliceAll (List.replicate (segmentSize globals) 0)
      (initParts (WasmObject.layout globals).offsets m.dataStart (placed false globals) vss) ∧
    List.Forall₂ (fun g vs => List.Forall₂
      (ValueIn (funcIdxes procs) (WasmObject.layout globals).offsets m) g.1.relocs vs)
      (placed false globals) vss
  ids : ∀ p : ℕ → Prop,
    (∀ id ∈ (instrs procs).flatMap Instr.prcs, ∀ f, (funcIdxes procs)[id]? = some f → p f) →
    (∀ g ∈ placed false globals, ∀ rel ∈ g.1.relocs, rel.toOffset = maxU32 →
      ∀ f, (funcIdxes procs)[rel.toIdx]? = some f → p f) →
    IdsFrom p m.indirectIds

theorem offset_of_placed {g : Global × ℕ} (hg : g ∈ placed false globals) :
    ∃ a, (WasmObject.layout globals).offsets.getD g.2 0 = a ∧ (zeroLayout globals).size ≤ a ∧
      a + g.1.bytes.length ≤ (WasmObject.layout globals).size ∧
      ∃ k : ℕ, (order globals)[k]? = some g ∧ (addrs globals)[k]? = some a := by
  obtain ⟨hmem, hlive, hzero⟩ := mem_placed.1 hg
  obtain ⟨k, hk⟩ := List.mem_iff_getElem?.1 (mem_order.2 ⟨hmem, hlive⟩)
  obtain ⟨a, ha, -, hoffset, -, -, hend⟩ := layout_spec hk
  have hdata := layout_data hk ha
  rw [hzero, if_neg Bool.false_ne_true] at hdata
  refine ⟨a, ?_, hdata, hend, k, hk, ha⟩
  rw [List.getD_eq_getElem?_getD, hoffset, Option.getD_some]

theorem zipIdx_filter (hhead : ∀ g, globals[0]? = some g → g.align = 0) :
    globals.zipIdx.filter (fun g => decide (Live g.1) && (zeroed g.1 == false)) =
      placed false globals := by
  cases globals with
  | nil => rfl
  | cons g globals =>
    have hdead : ¬Live g := fun h => h (hhead g rfl)
    rw [List.zipIdx_cons, List.filter_cons, decide_eq_false hdead]
    rfl

theorem initGlobal_skip {funcs offsets : List ℕ} {start : ℕ} (m : Module) (g : Global × ℕ)
    (h : (decide (Live g.1) && (zeroed g.1 == false)) = false) :
    initGlobal funcs offsets start m g = some m := by
  rw [initGlobal, if_pos]
  by_cases hlive : Live g.1
  · rw [decide_eq_true hlive, Bool.true_and] at h
    cases hzero : zeroed g.1 with
    | false =>
      rw [hzero] at h
      cases h
    | true => exact .inr rfl
  · exact .inl (not_not.1 hlive)

theorem foldlM_initGlobal_placed (procs : List Prc) (hhead : ∀ g, globals[0]? = some g → g.align = 0)
    (hrels : ∀ g ∈ globals, RelocsFit g) (m : Module) :
    globals.zipIdx.foldlM
      (initGlobal (funcIdxes procs) (WasmObject.layout globals).offsets (zeroLayout globals).size)
      { m with data := List.replicate (segmentSize globals) 0 } =
    (initValues (funcIdxes procs) (WasmObject.layout globals).offsets m (placed false globals)).map
      fun r => { r.1 with
        data := spliceAll (List.replicate (segmentSize globals) 0)
          (initParts (WasmObject.layout globals).offsets (zeroLayout globals).size
            (placed false globals) r.2) } := by
  rw [foldlM_filter_of_skip initGlobal_skip, zipIdx_filter hhead]
  refine foldlM_initGlobal ?_ ?_ ?_
  · exact fun g hg => (mem_placed.1 hg).2
  · intro g hg
    exact hrels g.1 (List.mem_of_getElem? (mem_numbered.1 (mem_placed.1 hg).1).2)
  · intro g hg
    obtain ⟨a, hoffset, hstart, hend, -⟩ := offset_of_placed hg
    rw [hoffset, List.length_replicate, segmentSize]
    omega

theorem emitProc_skip {funcs idxes : List ℕ} (m : Module) (prc : Prc × ℕ)
    (h : decide (prc.1.out.code ≠ []) = false) : emitProc funcs idxes m prc = some m := by
  rw [emitProc, if_pos (not_not.1 (of_decide_eq_false h))]

/-- The module before the passes over the procedures. -/
def importModule (globals : List Global) (procs : List Prc) : Module :=
  { types := (imported procs).map (·.1.sig.encode)
    imports := (imported procs).map fun prc => ⟨prc.1.name, (funcIdxes procs).getD prc.2 0⟩
    globals := (WasmObject.layout globals).globals
    pages := ((WasmObject.layout globals).size + pageSize - 1) / pageSize
    dataStart := (zeroLayout globals).size }

theorem emitModule_eq (hhead : ∀ g, globals[0]? = some g → g.align = 0)
    (hrels : ∀ g ∈ globals, RelocsFit g) :
    emitModule globals procs = do
      let m ← (defined procs).foldlM
        (emitProc (funcIdxes procs) (WasmObject.layout globals).idxes) (importModule globals procs)
      let r ← initValues (funcIdxes procs) (WasmObject.layout globals).offsets m
        (placed false globals)
      return { r.1 with
        data := spliceAll (List.replicate (segmentSize globals) 0)
          (initParts (WasmObject.layout globals).offsets (zeroLayout globals).size
            (placed false globals) r.2)
        exports := r.1.exports ++ [⟨stackPointerName, .global, 0⟩, ⟨memoryName, .mem, 0⟩] } := by
  have himports := foldl_emitImport (funcIdxes procs) (numbered procs)
    { globals := (WasmObject.layout globals).globals
      pages := ((WasmObject.layout globals).size + pageSize - 1) / pageSize
      dataStart := (zeroLayout globals).size }
  simp only [List.nil_append] at himports
  rw [emitModule, himports, foldlM_filter_of_skip emitProc_skip]
  refine bind_congr fun m => ?_
  have hinit := foldlM_initGlobal_placed procs hhead hrels m
  simp only [segmentSize] at hinit
  simp only [hinit]
  cases initValues (funcIdxes procs) (WasmObject.layout globals).offsets m
    (placed false globals) <;> rfl

theorem built_of_emitModule (hhead : ∀ g, globals[0]? = some g → g.align = 0)
    (hrels : ∀ g ∈ globals, RelocsFit g) (h : emitModule globals procs = some m) :
    Built globals procs m := by
  rw [emitModule_eq hhead hrels] at h
  simp only [Option.bind_eq_bind, Option.bind_eq_some_iff, Option.pure_def, Option.some.injEq] at h
  obtain ⟨m₁, h₁, r, hr, rfl⟩ := h
  have hcode : ∀ prc ∈ defined procs, prc.1.out.code ≠ [] := fun prc hprc => (mem_defined.1 hprc).2
  obtain ⟨hgrows, hrest, hcount, ⟨fs, hfunctions, hcodes, hfs⟩, hids⟩ := emitted_foldlM hcode h₁
  obtain ⟨hrest', hgrows', hvalues, hids'⟩ := initValues_spec hr
  have htypes : r.1.types = m₁.types := by rw [hrest']
  constructor
  case layout | pages | start | imports =>
    simp only
    rw [hrest', hrest]
    rfl
  case importTypes => exact hgrows.types.trans hgrows'.types
  case typeCount =>
    simp only [htypes]
    rw [hcount, importModule, List.length_map]
    rfl
  case functions =>
    refine ⟨fs, ?_, ?_, hfs.imp fun _ _ hf => hf.mono ⟨hgrows'.types, hgrows'.ids⟩⟩
    · simp only
      rw [hrest', hfunctions]
      rfl
    · simp only
      rw [hrest', hcodes]
      rfl
  case exports =>
    simp only
    rw [hrest', hrest]
    rfl
  case data =>
    refine ⟨r.2, ?_, hvalues.imp fun _ _ hg => hg.imp fun _ _ hv => hv.mono
      ⟨List.prefix_rfl, List.prefix_rfl⟩⟩
    have hstart : r.1.dataStart = (zeroLayout globals).size := by
      rw [hrest', hrest]
      rfl
    simp only [hstart]
  case ids =>
    intro p hp hp'
    exact hids' p hp' (hids p hp ⟨List.nodup_nil, nofun⟩)

/-- The compiler does not stop where all that is referred to is there. -/
theorem emitModule_isSome (hhead : ∀ g, globals[0]? = some g → g.align = 0)
    (hrels : ∀ g ∈ globals, RelocsFit g)
    (hinstrs : ∀ i ∈ instrs procs, i.Fits globals procs)
    (hlinks : ∀ g ∈ placed false globals, ∀ rel ∈ g.1.relocs, ∀ m, ∃ r,
      relocValue (funcIdxes procs) (WasmObject.layout globals).offsets m rel = some r) :
    ∃ m, emitModule globals procs = some m := by
  have hcode : ∀ prc ∈ defined procs, prc.1.out.code ≠ [] := fun prc hprc => (mem_defined.1 hprc).2
  have hbody : ∀ prc ∈ defined procs, ∀ i ∈ body prc, i.Fits globals procs := by
    intro prc hprc i hi
    exact hinstrs i (List.mem_flatMap.2 ⟨prc, hprc, hi⟩)
  obtain ⟨m, hm⟩ := foldlM_emitProc_isSome hcode hbody (importModule globals procs)
  obtain ⟨r, hr⟩ := initValues_isSome hlinks m
  rw [emitModule_eq hhead hrels, hm]
  simp only [Option.bind_eq_bind, Option.bind_some, hr]
  exact ⟨_, rfl⟩

end Build

end OdinSon.Odinc.WasmObject
