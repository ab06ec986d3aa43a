import OdinSon.Odinc.WasmObjectConsistent

/-!
# When the module is consistent

From what is known of an emitted module (`Built`): it is consistent exactly if all that is referred to
is there, the counts and the types fit, and no pointer is taken for a procedure
(`emitModule_consistent_iff`).
-/

namespace OdinSon.Odinc.WasmObject

open Lib

variable {inits : List GlobalInit} {procs : List Prc} {m : Module}

/-! ### Globals with what they refer to -/

namespace WellFormed

variable (wf : WellFormed inits)

include wf

theorem globals_head : ∀ g, (globalsOf inits)[0]? = some g → g.align = 0 := by
  intro g hg
  rw [globalsOf, List.getElem?_map, Option.map_eq_some_iff] at hg
  obtain ⟨init, hinit, rfl⟩ := hg
  exact wf.head init hinit

theorem relocsFit {g : GlobalInit} (hg : g ∈ inits) : RelocsFit g.data := by
  intro rel hrel
  obtain ⟨l, hl, rfl⟩ := List.mem_map.1 hrel
  have hfits := wf.fits g hg l hl
  cases l.2 <;> exact hfits

theorem globals_relocsFit : ∀ g ∈ globalsOf inits, RelocsFit g := by
  intro g hg
  obtain ⟨init, hinit, rfl⟩ := List.mem_map.1 hg
  exact wf.relocsFit hinit

theorem relocsApart {g : GlobalInit} (hg : g ∈ inits) : RelocsApart g.data := by
  have hoffset (l : ℕ × Link) : (l.2.reloc l.1).inOffset = l.1 := by cases l.2 <;> rfl
  refine List.pairwise_map.2 ((wf.apart g hg).imp fun {l k} h => ?_)
  rw [hoffset, hoffset]
  exact h

end WellFormed

theorem mem_order_globalsOf {g : Global} {j : ℕ} (h : (g, j) ∈ order (globalsOf inits)) :
    ∃ init, inits[j]? = some init ∧ g = init.data := by
  obtain ⟨-, hj⟩ := mem_numbered.1 (mem_order.1 h).1
  rw [globalsOf, List.getElem?_map, Option.map_eq_some_iff] at hj
  obtain ⟨init, hinit, rfl⟩ := hj
  exact ⟨init, hinit, rfl⟩

namespace Built

variable (hb : Built (globalsOf inits) procs m)

include hb

theorem hasAddr {g : GlobalInit} {j a : ℕ} (hg : inits[j]? = some g)
    (h : m.HasAddr (globalsOf inits) j a) :
    ∃ k : ℕ, (order (globalsOf inits))[k]? = some (g.data, j) ∧
      (addrs (globalsOf inits))[k]? = some a := by
  obtain ⟨k, g', hk, ha⟩ := (hasAddr_iff hb.layout).1 h
  obtain ⟨init, hinit, rfl⟩ := mem_order_globalsOf (List.mem_of_getElem? hk)
  obtain rfl := Option.some.inj (hinit.symm.trans hg)
  exact ⟨k, hk, ha⟩

theorem addressed {g : GlobalInit} {j : ℕ} (hg : (g, j) ∈ numbered inits) (hlive : Live g.data) :
    ∃ a, m.HasAddr (globalsOf inits) j a := by
  obtain ⟨hpos, hj⟩ := mem_numbered.1 hg
  have hmem : (g.data, j) ∈ numbered (globalsOf inits) :=
    mem_numbered.2 ⟨hpos, by rw [globalsOf, List.getElem?_map, hj]; rfl⟩
  obtain ⟨k, hk⟩ := List.mem_iff_getElem?.1 (mem_order.2 ⟨hmem, hlive⟩)
  obtain ⟨a, ha, -⟩ := layout_spec hk
  exact ⟨a, (hasAddr_iff hb.layout).2 ⟨k, _, hk, ha⟩⟩

theorem placed {g : GlobalInit} {j a : ℕ} (hg : inits[j]? = some g)
    (h : m.HasAddr (globalsOf inits) j a) :
    g.align ∣ a ∧ stackSize ≤ a ∧ a + g.bytes.length ≤ m.pages * pageSize := by
  obtain ⟨k, hk, ha⟩ := hb.hasAddr hg h
  obtain ⟨a', ha', -, -, hdvd, hstack, hend⟩ := layout_spec hk
  obtain rfl := Option.some.inj (ha.symm.trans ha')
  refine ⟨hdvd, hstack, hend.trans ?_⟩
  rw [hb.pages]
  have hdiv := Nat.div_add_mod ((WasmObject.layout (globalsOf inits)).size + pageSize - 1) pageSize
  have hmod := Nat.mod_lt ((WasmObject.layout (globalsOf inits)).size + pageSize - 1)
    (by decide : pageSize > 0)
  rw [mul_comm] at hdiv
  have hpage : 0 < pageSize := by decide
  omega

theorem apart {g g' : GlobalInit} {j j' a a' : ℕ} (hg : inits[j]? = some g)
    (hg' : inits[j']? = some g') (hne : j ≠ j') (h : m.HasAddr (globalsOf inits) j a)
    (h' : m.HasAddr (globalsOf inits) j' a') :
    a + g.bytes.length ≤ a' ∨ a' + g'.bytes.length ≤ a := by
  obtain ⟨k, hk, ha⟩ := hb.hasAddr hg h
  obtain ⟨k', hk', ha'⟩ := hb.hasAddr hg' h'
  obtain hlt | rfl | hlt := lt_trichotomy k k'
  · exact .inl (layout_apart hk ha ha' hlt)
  · exact absurd (congrArg Prod.snd (Option.some.inj (hk.symm.trans hk'))) hne
  · exact .inr (layout_apart hk' ha' ha hlt)

end Built

/-! ### The data of a global -/

theorem mem_initParts {offsets : List ℕ} {start : ℕ} {gs : List (Global × ℕ)}
    {vss : List (List ℕ)} {p : ℕ × List ℕ} (h : p ∈ initParts offsets start gs vss) :
    ∃ g ∈ gs, ∃ vs, p = (offsets.getD g.2 0 - start, initBytes g.1 vs) := by
  induction gs generalizing vss with
  | nil => cases h
  | cons g gs ih =>
    cases vss with
    | nil => cases h
    | cons vs vss =>
      obtain rfl | h := List.mem_cons.1 h
      · exact ⟨g, List.mem_cons_self .., vs, rfl⟩
      · obtain ⟨g', hg', hp⟩ := ih h
        exact ⟨g', List.mem_cons_of_mem _ hg', hp⟩

theorem pairwise_initParts {offsets : List ℕ} (start : ℕ) {gs : List (Global × ℕ)}
    (hrels : ∀ g ∈ gs, RelocsFit g.1) (hstart : ∀ g ∈ gs, start ≤ offsets.getD g.2 0)
    (h : gs.Pairwise fun g g' =>
      offsets.getD g.2 0 + g.1.bytes.length ≤ offsets.getD g'.2 0) (vss : List (List ℕ)) :
    (initParts offsets start gs vss).Pairwise fun p q =>
      p.1 + p.2.length ≤ q.1 ∨ q.1 + q.2.length ≤ p.1 := by
  induction gs generalizing vss with
  | nil => exact .nil
  | cons g gs ih =>
    cases vss with
    | nil => exact .nil
    | cons vs vss =>
      obtain ⟨hrel, hrels⟩ := List.forall_mem_cons.1 hrels
      obtain ⟨hg, hgs⟩ := List.forall_mem_cons.1 hstart
      obtain ⟨hnext, hrest⟩ := List.pairwise_cons.1 h
      refine List.pairwise_cons.2 ⟨fun q hq => .inl ?_, ih hrels hgs hrest vss⟩
      obtain ⟨g', hg', vs', rfl⟩ := mem_initParts hq
      have hle := hnext g' hg'
      have hs := hgs g' hg'
      simp only [length_initBytes hrel]
      omega

theorem pairwise_placed (globals : List Global) : (placed false globals).Pairwise fun g g' =>
    (layout globals).offsets.getD g.2 0 + g.1.bytes.length ≤
      (layout globals).offsets.getD g'.2 0 := by
  have horder : (order globals).Pairwise fun g g' =>
      (layout globals).offsets.getD g.2 0 + g.1.bytes.length ≤
        (layout globals).offsets.getD g'.2 0 := by
    rw [List.pairwise_iff_getElem]
    intro i j hi hj hlt
    have hget (k : ℕ) (hk : k < (order globals).length) :
        ∃ a, (addrs globals)[k]? = some a ∧
          (layout globals).offsets.getD (order globals)[k].2 0 = a := by
      obtain ⟨a, ha, -, hoffset, -⟩ := layout_spec (List.getElem?_eq_getElem hk)
      exact ⟨a, ha, by rw [List.getD_eq_getElem?_getD, hoffset, Option.getD_some]⟩
    obtain ⟨a, ha, hi'⟩ := hget i hi
    obtain ⟨b, hb, hj'⟩ := hget j hj
    rw [hi', hj']
    exact layout_apart (List.getElem?_eq_getElem hi) ha hb hlt
  exact (List.pairwise_append.1 horder).2.1

/-- **The bytes that a global is loaded with** are its own, with values over the relocated places. -/
theorem Built.load {globals : List Global} (hb : Built globals procs m)
    (hrels : ∀ g ∈ globals, RelocsFit g) {g : Global} {j k a : ℕ}
    (hk : (order globals)[k]? = some (g, j)) (ha : (addrs globals)[k]? = some a) :
    ∃ vs, List.Forall₂ (ValueIn (funcIdxes procs) (WasmObject.layout globals).offsets m) g.relocs
        vs ∧ ∀ i < g.bytes.length, (initBytes g vs)[i]? = some (m.load (a + i)) := by
  have hmem := List.mem_of_getElem? hk
  have hdata := layout_data hk ha
  cases hzero : zeroed g with
  | true =>
    -- zeros before the segment
    rw [hzero, if_pos rfl] at hdata
    rw [zeroed, Bool.and_eq_true, List.all_eq_true, List.isEmpty_iff] at hzero
    refine ⟨[], by rw [hzero.2]; exact .nil, fun i hi => ?_⟩
    have hbyte := of_decide_eq_true (hzero.1 _ (List.getElem_mem hi))
    have hload : m.load (a + i) = 0 := by
      rw [Module.load, if_neg]
      rw [hb.start]
      simp only at hdata
      omega
    rw [initBytes, hzero.2, hload, ← hbyte]
    exact List.getElem?_eq_getElem hi
  | false =>
    have hplaced : (g, j) ∈ WasmObject.placed false globals :=
      mem_placed.2 ⟨(mem_order.1 hmem).1, (mem_order.1 hmem).2, hzero⟩
    have hrel : RelocsFit g := hrels g (List.mem_of_getElem? (mem_numbered.1 (mem_order.1 hmem).1).2)
    obtain ⟨vss, hdata', hvalues⟩ := hb.data
    obtain ⟨i, hi⟩ := List.mem_iff_getElem?.1 hplaced
    obtain ⟨hlt, hget⟩ := List.getElem?_eq_some_iff.1 hi
    obtain ⟨hlen, hnth⟩ := List.forall₂_iff_get.1 hvalues
    have hvs := hnth i hlt (hlen ▸ hlt)
    simp only [List.get_eq_getElem, hget] at hvs
    refine ⟨vss[i], hvs, fun n hn => ?_⟩
    obtain ⟨b, hoffset, hstart, hend, -, -, -⟩ := offset_of_placed hplaced
    obtain ⟨a', ha', -, ha'', -⟩ := layout_spec hk
    obtain rfl := Option.some.inj (ha.symm.trans ha')
    rw [List.getD_eq_getElem?_getD, ha'', Option.getD_some] at hoffset
    obtain rfl : a = b := hoffset
    -- the part of the segment for the global
    have hpart : (a - m.dataStart, initBytes g vss[i]) ∈ initParts
        (WasmObject.layout globals).offsets m.dataStart (WasmObject.placed false globals) vss := by
      have hzip : (initParts (WasmObject.layout globals).offsets m.dataStart
          (WasmObject.placed false globals) vss)[i]? =
          some (a - m.dataStart, initBytes g vss[i]) := by
        rw [initParts, List.getElem?_zipWith, hi, List.getElem?_eq_getElem (hlen ▸ hlt)]
        simp only [List.getD_eq_getElem?_getD, ha'', Option.getD_some]
      exact List.mem_of_getElem? hzip
    have hplacedRels : ∀ g ∈ WasmObject.placed false globals, RelocsFit g.1 := fun g hg =>
      hrels g.1 (List.mem_of_getElem? (mem_numbered.1 (mem_placed.1 hg).1).2)
    have hfit : ∀ p ∈ initParts (WasmObject.layout globals).offsets m.dataStart
        (WasmObject.placed false globals) vss,
        p.1 + p.2.length ≤ (List.replicate (segmentSize globals) 0).length := by
      intro p hp
      obtain ⟨g', hg', vs', rfl⟩ := mem_initParts hp
      obtain ⟨b, hoffset, hstart, hend, -⟩ := offset_of_placed hg'
      rw [hoffset, length_initBytes (hplacedRels g' hg'), List.length_replicate, segmentSize,
        hb.start]
      omega
    have hpairwise := pairwise_initParts m.dataStart hplacedRels (fun g' hg' => by
      obtain ⟨b, hoffset, hstart, -⟩ := offset_of_placed hg'
      rw [hoffset, hb.start]
      exact hstart) (pairwise_placed globals) vss
    have hn' : n < (initBytes g vss[i]).length := by rwa [length_initBytes hrel]
    have hget := getElem?_spliceAll_of_mem hfit hpairwise hpart hn'
    rw [← hdata'] at hget
    have hsub : a + n - m.dataStart = a - m.dataStart + n := by
      rw [hb.start]
      omega
    rw [Module.load, if_pos (by rw [hb.start]; omega), hsub, List.getD_eq_getElem?_getD, hget,
      List.getElem?_eq_getElem hn', Option.getD_some]

theorem exists_value {R : Reloc → ℕ → Prop} {rels : List Reloc} {vs : List ℕ}
    (h : List.Forall₂ R rels vs) {rel : Reloc} (hrel : rel ∈ rels) :
    ∃ v, R rel v ∧ (rel.inOffset, toLE 8 v) ∈ relocParts 0 rels vs := by
  induction h with
  | nil => cases hrel
  | @cons rel' v rels vs hv _ ih =>
    rw [relocParts_cons]
    obtain rfl | hrel := List.mem_cons.1 hrel
    · exact ⟨v, hv, List.mem_cons_self ..⟩
    · obtain ⟨w, hw, hmem⟩ := ih hrel
      exact ⟨w, hw, List.mem_cons_of_mem _ hmem⟩

@[simp] theorem Link.reloc_inOffset (link : Link) (inOffset : ℕ) :
    (link.reloc inOffset).inOffset = inOffset := by
  cases link <;> rfl

namespace Built

variable (wf : WellFormed inits) (hb : Built (globalsOf inits) procs m)

include wf hb

theorem bytes {g : GlobalInit} {j a i b : ℕ} (hg : inits[j]? = some g)
    (haddr : m.HasAddr (globalsOf inits) j a) (hi : g.bytes[i]? = some b)
    (hout : ∀ l ∈ g.links, ¬(l.1 ≤ i ∧ i < l.1 + 8)) : m.load (a + i) = b := by
  obtain ⟨k, hk, ha⟩ := hb.hasAddr hg haddr
  obtain ⟨vs, -, hload⟩ := hb.load wf.globals_relocsFit hk ha
  have hstays := initBytes_of_outside (wf.relocsFit (List.mem_of_getElem? hg)) vs (i := i) (by
    intro rel hrel
    obtain ⟨l, hl, rfl⟩ := List.mem_map.1 hrel
    rw [Link.reloc_inOffset]
    exact hout l hl)
  have hget := hload i (List.getElem?_eq_some_iff.1 hi).1
  rw [hstays] at hget
  exact Option.some.inj (hget.symm.trans hi)

theorem links {g : GlobalInit} {j a : ℕ} (hg : inits[j]? = some g)
    (haddr : m.HasAddr (globalsOf inits) j a) {l : ℕ × Link} (hl : l ∈ g.links) :
    ∃ v, ValueIn (funcIdxes procs) (WasmObject.layout (globalsOf inits)).offsets m
        (l.2.reloc l.1) v ∧
      (List.range 8).map (fun i => m.load (a + l.1 + i)) = toLE 8 v := by
  have hmem := List.mem_of_getElem? hg
  obtain ⟨k, hk, ha⟩ := hb.hasAddr hg haddr
  obtain ⟨vs, hvs, hload⟩ := hb.load wf.globals_relocsFit hk ha
  have hrel : l.2.reloc l.1 ∈ g.data.relocs := List.mem_map.2 ⟨l, hl, rfl⟩
  obtain ⟨v, hv, hpart⟩ := exists_value hvs hrel
  refine ⟨v, hv, List.ext_getElem? fun i => ?_⟩
  obtain hi | hi := lt_or_ge i 8
  · have hfit := wf.fits g hmem l hl
    have hlt : l.1 + i < g.data.bytes.length := lt_of_lt_of_le (by omega) hfit
    have hget := hload (l.1 + i) hlt
    have hbytes := initBytes_of_mem (wf.relocsFit hmem) (wf.relocsApart hmem) hpart hi
    rw [Link.reloc_inOffset, hget] at hbytes
    rw [List.getElem?_map, List.getElem?_range hi, Option.map_some, Nat.add_assoc]
    exact hbytes
  · rw [List.getElem?_eq_none (by simpa using hi), List.getElem?_eq_none (by simpa using hi)]

end Built

/-! ### Counts -/

theorem length_flatMap_mainExport (funcs : List ℕ) (prcs : List (Prc × ℕ)) :
    (prcs.flatMap (mainExport funcs)).length = prcs.countP (·.1.name = mainName) := by
  induction prcs with
  | nil => rfl
  | cons prc prcs ih =>
    rw [List.flatMap_cons, List.length_append, ih, List.countP_cons, mainExport, Nat.add_comm]
    by_cases h : prc.1.name = mainName
    · simp [h]
    · simp [h]

/-- A section is read back exactly if the number of its items fits. -/
theorem readUleb_content (s : Section) :
    readUleb s.content = some (s.items.length, s.items.flatten) ↔ s.items.length < maxCount := by
  have hread := readUleb_fixedUleb 2 s.items.length s.items.flatten
  have hmax : (128 : ℕ) ^ 3 = maxCount := by decide
  rw [Section.content, hread, Option.some.injEq, Prod.mk.injEq, and_iff_left rfl, hmax]
  refine ⟨fun h => ?_, Nat.mod_eq_of_lt⟩
  rw [← h]
  exact Nat.mod_lt _ (by decide)

namespace Built

variable {globals : List Global} (hb : Built globals procs m)

include hb

theorem length_globals : m.globals.length = (order globals).length + 1 := by
  rw [hb.layout, layout_globals, List.length_cons, List.length_map, addrs, Layout.length_addrs]

theorem length_exports :
    m.exports.length = (defined procs).countP (·.1.name = mainName) + 2 := by
  rw [hb.exports, List.length_append, length_flatMap_mainExport]
  rfl

theorem length_functions : m.functions.length = (defined procs).length ∧
    m.code.length = (defined procs).length := by
  obtain ⟨fs, hfunctions, hcode, hfs⟩ := hb.functions
  have hlen := hfs.length_eq
  rw [hfunctions, hcode, List.length_map, List.length_map]
  exact ⟨hlen.symm, hlen.symm⟩

/-- The sections are read back exactly if the types, the globals and the exports are few enough. -/
theorem sections_iff : (∀ s ∈ m.sections, readUleb s.content = some (s.items.length, s.items.flatten))
    ↔ m.types.length < maxCount ∧ (order globals).length + 1 < maxCount ∧
      (defined procs).countP (·.1.name = mainName) + 2 < maxCount := by
  have himports : m.imports.length = (imported procs).length := by
    rw [hb.imports, List.length_map]
  have hcount := hb.typeCount
  have hone : 1 < maxCount := by decide
  simp only [Module.sections, List.forall_mem_cons, readUleb_content, List.length_map,
    hb.length_globals, hb.length_exports, hb.length_functions.1, hb.length_functions.2, himports,
    List.length_singleton]
  constructor
  · rintro ⟨htypes, -, -, -, -, hglobals, hexports, -⟩
    exact ⟨htypes, hglobals, hexports⟩
  · rintro ⟨htypes, hglobals, hexports⟩
    exact ⟨htypes, by omega, by omega, hone, hone, hglobals, hexports, hone, by omega, hone, nofun⟩

theorem small (htypes : m.types.length < maxCount)
    (hglobals : (order globals).length + 1 < maxCount) : Small globals procs m := by
  have hcount := hb.typeCount
  have hspace : (funcSpace procs).length = (imported procs).length + (defined procs).length :=
    List.length_append
  obtain ⟨hnodup, hle⟩ := hb.ids (· ≤ (funcSpace procs).length)
    (fun _ _ f hf => le_length_of_mem_funcIdxes (List.mem_of_getElem? hf))
    (fun _ _ _ _ _ f hf => le_length_of_mem_funcIdxes (List.mem_of_getElem? hf))
  have hsub : m.indirectIds ⊆ List.range ((funcSpace procs).length + 1) := fun f hf =>
    List.mem_range.2 (Nat.lt_succ_of_le (hle f hf))
  have hlen := List.Nodup.length_le_of_subset hnodup hsub
  rw [List.length_range] at hlen
  exact ⟨by omega, hglobals, htypes, by omega⟩

end Built

/-! ### Addresses fit -/

theorem alignForward_le (n align : ℕ) : alignForward n align ≤ n + align := by
  have hdiv := Nat.div_mul_le_self (n + (align - 1)) align
  simp only [alignForward]
  omega

/-- The most that a global takes. -/
def room (g : Global × ℕ) : ℕ := g.1.align + g.1.bytes.length

theorem Layout.foldl_place_size_le (gs : List (Global × ℕ)) (l : Layout) :
    (gs.foldl place l).size ≤ l.size + (gs.map room).sum := by
  induction gs generalizing l with
  | nil => exact le_rfl
  | cons g gs ih =>
    have hplace := alignForward_le l.size g.1.align
    have hrest := ih (l.place g)
    rw [List.foldl_cons, List.map_cons, List.sum_cons]
    simp only [place, room] at hrest ⊢
    omega

theorem sum_placed_le (gs : List (Global × ℕ)) :
    ((gs.filter fun g => decide (Live g.1) && (zeroed g.1 == true)).map room).sum +
      ((gs.filter fun g => decide (Live g.1) && (zeroed g.1 == false)).map room).sum ≤
      (gs.map room).sum := by
  induction gs with
  | nil => exact le_rfl
  | cons g gs ih =>
    simp only [List.filter_cons, List.map_cons, List.sum_cons]
    cases decide (Live g.1)
    · exact ih.trans (Nat.le_add_left _ _)
    · cases zeroed g.1
      · rw [if_neg (by decide), if_pos (by decide), List.map_cons, List.sum_cons]
        omega
      · rw [if_pos (by decide), if_neg (by decide), List.map_cons, List.sum_cons]
        omega

theorem WellFormed.layout_size_lt (wf : WellFormed inits) :
    (layout (globalsOf inits)).size < 2 ^ 63 := by
  have hplaced := Layout.foldl_place_size_le (order (globalsOf inits))
    (emptyLayout (globalsOf inits))
  have hsum := sum_placed_le (numbered (globalsOf inits))
  have hnumbered : ((numbered (globalsOf inits)).map room).sum ≤
      (inits.map fun g => g.align + g.bytes.length).sum := by
    have hfst (l : List Global) (n : ℕ) : ((l.zipIdx n).map room).sum =
        (l.map fun g => g.align + g.bytes.length).sum := by
      induction l generalizing n with
      | nil => rfl
      | cons g l ih =>
        rw [List.zipIdx_cons, List.map_cons, List.map_cons, List.sum_cons, List.sum_cons, ih]
        rfl
    cases inits with
    | nil => exact le_rfl
    | cons g gs =>
      have htail : numbered (globalsOf (g :: gs)) = (globalsOf gs).zipIdx 1 := rfl
      rw [htail, hfst, globalsOf, List.map_map, List.map_cons, List.sum_cons]
      exact Nat.le_add_left _ _
  have hsmall := wf.small
  rw [layout_eq]
  rw [order, List.map_append, List.sum_append] at hplaced
  simp only [placed, emptyLayout] at hplaced hsum ⊢
  simp only [order, placed]
  omega

/-! ### When a module is consistent (`emitModule_consistent_iff`) -/

section Main

variable (wf : WellFormed inits)

include wf

theorem mem_numbered_of_live {g : GlobalInit} {j : ℕ} (hg : inits[j]? = some g) (hlive : Live g.data) :
    (g, j) ∈ numbered inits := by
  refine mem_numbered.2 ⟨Nat.pos_of_ne_zero ?_, hg⟩
  rintro rfl
  exact hlive (wf.head g hg)

/-- The compiler does not stop. -/
theorem HoldsWhen.emits (h : HoldsWhen inits procs) :
    ∃ m, emitModule (globalsOf inits) procs = some m := by
  refine emitModule_isSome wf.globals_head wf.globals_relocsFit h.instrs ?_
  intro g hg rel hrel m
  obtain ⟨hmem, hlive, -⟩ := mem_placed.1 hg
  obtain ⟨init, hinit, heq⟩ := mem_order_globalsOf (mem_order.2 ⟨hmem, hlive⟩)
  rw [heq] at hrel hlive
  obtain ⟨l, hl, rfl⟩ := List.mem_map.1 hrel
  exact relocValue_isSome (h.links init (List.mem_of_getElem? hinit) hlive l hl) l.1 m

theorem consistent_of_holdsWhen (hb : Built (globalsOf inits) procs m) (h : HoldsWhen inits procs) :
    m.Consistent inits procs := by
  have htypes : m.types.length < maxCount := hb.typeCount ▸ h.types
  have hsmall := hb.small htypes h.globals
  have hlive {g : GlobalInit} {j a : ℕ} (hg : inits[j]? = some g)
      (haddr : m.HasAddr (globalsOf inits) j a) : Live g.data := by
    obtain ⟨k, hk, -⟩ := hb.hasAddr hg haddr
    exact live_of_mem_order (List.mem_of_getElem? hk)
  obtain ⟨fs, hfunctions, hcode, hfs⟩ := hb.functions
  constructor
  case sections => exact hb.sections_iff.2 ⟨htypes, h.globals, h.exports⟩
  case stackPointer =>
    rw [hb.layout, layout_globals]
    rfl
  case addressed => exact fun g j => hb.addressed
  case placed => exact fun g j a => hb.placed
  case apart => exact fun g j a g' j' a' => hb.apart
  case bytes => exact fun g j a hg haddr i b => hb.bytes wf hg haddr
  case links =>
    intro g j a hg haddr l hl
    obtain ⟨v, hv, hbytes⟩ := hb.links wf hg haddr hl
    have hfits := h.links g (List.mem_of_getElem? hg) (hlive hg haddr) l hl
    exact ⟨v, linkOk_of_fits hb.layout hfits hv, hbytes⟩
  case functionCount =>
    refine ⟨?_, hb.length_functions⟩
    rw [hb.imports, List.length_map]
  case imports =>
    intro f prc p hf
    have hspace : (funcSpace procs)[f]? = some (prc, p) := by
      rw [funcSpace, List.getElem?_append_left (List.getElem?_eq_some_iff.1 hf).1, hf]
    refine ⟨f, ?_, getElem?_of_isPrefix hb.importTypes ?_⟩
    · rw [hb.imports, List.getElem?_map, hf, Option.map_some]
      rw [List.getD_eq_getElem?_getD, funcIdxes_spec hspace, Option.getD_some]
    · rw [List.getElem?_map, hf, Option.map_some]
  case functions =>
    intro i prc p hi
    obtain ⟨hlt, hget⟩ := List.getElem?_eq_some_iff.1 hi
    obtain ⟨hlen, hnth⟩ := List.forall₂_iff_get.1 hfs
    have hf := hnth i hlt (hlen ▸ hlt)
    simp only [List.get_eq_getElem, hget] at hf
    obtain ⟨htype, m₀, r, hr, hrcode, hgrows⟩ := hf
    have hget' : fs[i]? = some fs[i] := List.getElem?_eq_getElem (hlen ▸ hlt)
    refine ⟨fs[i].1, fs[i].2, ?_, htype, ?_, ?_⟩
    · rw [hfunctions, List.getElem?_map, hget', Option.map_some]
    · rw [hcode, List.getElem?_map, hget', Option.map_some]
    · rw [← hrcode]
      refine (codeOk_iff hsmall hr hgrows).2 fun instr hinstr => h.instrs instr ?_
      exact List.mem_flatMap.2 ⟨(prc, p), List.mem_of_getElem? hi, hinstr⟩
  case elements =>
    -- the table has functions only: those of the code, and those of the data
    have hisFunc {p f : ℕ} (hp : p ∈ (funcSpace procs).map Prod.snd)
        (hf : (funcIdxes procs)[p]? = some f) : ∃ p, IsFunc procs f p := by
      obtain ⟨f', hfunc, hf', -⟩ := isFunc_of_mem hp
      obtain rfl := Option.some.inj (hf.symm.trans hf')
      exact ⟨p, hfunc⟩
    refine (hb.ids (fun f => ∃ p, IsFunc procs f p) ?_ ?_).2
    · intro p hp f hf
      obtain ⟨i, hi, hp⟩ := List.mem_flatMap.1 hp
      exact hisFunc ((h.instrs i hi).prcs p hp) hf
    · intro g hg rel hrel hmax f hf
      obtain ⟨hmem, hlive, -⟩ := mem_placed.1 hg
      obtain ⟨init, hinit, heq⟩ := mem_order_globalsOf (mem_order.2 ⟨hmem, hlive⟩)
      rw [heq] at hrel hlive
      obtain ⟨⟨off, link⟩, hl, rfl⟩ := List.mem_map.1 hrel
      have hfits := h.links init (List.mem_of_getElem? hinit) hlive _ hl
      cases link with
      | pointer target => exact absurd hmax hfits.2
      | proc p => exact hisFunc hfits hf
  case exports =>
    intro e he
    rw [hb.exports] at he
    -- `main` where there is one, and then the two that every module has
    obtain he | he := List.mem_append.1 he
    · obtain ⟨⟨prc, p⟩, hprc, he⟩ := List.mem_flatMap.1 he
      rw [mainExport] at he
      split_ifs at he with hname
      · obtain rfl := List.mem_singleton.1 he
        obtain ⟨f, hf⟩ := List.mem_iff_getElem?.1
          (List.mem_append_right (imported procs) hprc)
        refine ⟨prc, p, ?_, hname⟩
        simp only [List.getD_eq_getElem?_getD]
        rw [@funcIdxes_spec _ _ (prc, p) hf, Option.getD_some]
        exact hf
      · cases he
    · obtain rfl | he := List.mem_cons.1 he
      · refine ⟨rfl, ?_⟩
        rw [hb.layout, layout_globals]
        rfl
      · obtain rfl := List.mem_singleton.1 he
        exact ⟨rfl, rfl⟩
  case exported =>
    rw [hb.exports]
    refine ⟨fun prc hprc hname => ?_, ⟨_, List.mem_append_right _ (List.mem_cons_self ..), rfl⟩,
      ⟨_, List.mem_append_right _ (List.mem_cons_of_mem _ (List.mem_cons_self ..)), rfl⟩⟩
    refine ⟨⟨mainName, .func, (funcIdxes procs).getD prc.2 0⟩, List.mem_append_left _ ?_, rfl⟩
    refine List.mem_flatMap.2 ⟨prc, hprc, ?_⟩
    rw [mainExport, if_pos hname]
    exact List.mem_singleton_self _

theorem holdsWhen_of_consistent (hb : Built (globalsOf inits) procs m)
    (h : m.Consistent inits procs) : HoldsWhen inits procs := by
  obtain ⟨htypes, hglobals, hexports⟩ := hb.sections_iff.1 h.sections
  have hsmall := hb.small htypes hglobals
  obtain ⟨fs, hfunctions, hcode, hfs⟩ := hb.functions
  constructor
  case types => exact hb.typeCount ▸ htypes
  case globals => exact hglobals
  case exports => exact hexports
  case instrs =>
    intro instr hinstr
    obtain ⟨⟨prc, p⟩, hprc, hinstr⟩ := List.mem_flatMap.1 hinstr
    obtain ⟨i, hi⟩ := List.mem_iff_getElem?.1 hprc
    obtain ⟨t, code, -, -, hcode', hok⟩ := h.functions i prc p hi
    obtain ⟨hlt, hget⟩ := List.getElem?_eq_some_iff.1 hi
    obtain ⟨hlen, hnth⟩ := List.forall₂_iff_get.1 hfs
    have hf := hnth i hlt (hlen ▸ hlt)
    simp only [List.get_eq_getElem, hget] at hf
    obtain ⟨-, m₀, r, hr, hrcode, hgrows⟩ := hf
    rw [hcode, List.getElem?_map, List.getElem?_eq_getElem (hlen ▸ hlt), Option.map_some] at hcode'
    obtain rfl := Option.some.inj hcode'
    rw [← hrcode] at hok
    exact (codeOk_iff hsmall hr hgrows).1 hok instr hinstr
  case links =>
    intro g hg hlive l hl
    obtain ⟨j, hj⟩ := List.mem_iff_getElem?.1 hg
    obtain ⟨a, haddr⟩ := h.addressed g j (mem_numbered_of_live wf hj hlive) hlive
    obtain ⟨v, hv, hbytes⟩ := hb.links wf hj haddr hl
    obtain ⟨w, hok, hbytes'⟩ := h.links g j a hj haddr l hl
    refine linkFits_of_linkOk hsmall.ids ?_ hok hv (hbytes.symm.trans hbytes')
    intro j' a' haddr'
    obtain ⟨k, g', hk, ha⟩ := (hasAddr_iff hb.layout).1 haddr'
    obtain ⟨b, hb', -, -, -, -, hend⟩ := layout_spec hk
    obtain rfl := Option.some.inj (ha.symm.trans hb')
    exact lt_of_le_of_lt ((Nat.le_add_right _ _).trans hend) wf.layout_size_lt

end Main

/-- A buffer, and a table with a pointer into the buffer and a procedure. -/
def tableInits : List GlobalInit :=
  [⟨[], 0, []⟩, ⟨[0, 0, 0, 0], 4, []⟩,
    ⟨List.replicate 16 0, 8, [(0, .pointer ⟨1, 2⟩), (8, .proc 3)]⟩]

/-- `main` calls an import with the table, and `f` by its address. -/
def tableProcs : List Prc :=
  [⟨[], ⟨[], []⟩, none⟩, ⟨[108, 111, 103], ⟨[.i64], []⟩, none⟩,
    ⟨mainName, ⟨[], []⟩, some [.globalAddr 2, .call 1, .procAddr 3, .callIndirect ⟨[], []⟩,
      .bytes [opEnd]]⟩,
    ⟨[102], ⟨[], []⟩, some [.bytes [opEnd]]⟩]

/-- A pointer with the largest offset. -/
def sentinelInits : List GlobalInit :=
  [⟨[], 0, []⟩, ⟨List.replicate 8 0, 8, [(0, .pointer ⟨2, maxU32⟩)]⟩, ⟨[1, 2, 3], 1, []⟩]

end OdinSon.Odinc.WasmObject
