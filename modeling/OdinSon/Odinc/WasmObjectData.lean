import Mathlib.Data.List.Forall2
import OdinSon.Odinc.WasmObjectCode

/-!
# The initial data

The globals that are not zero are written at their places of the segment, with a value over each
relocated place (`foldlM_initGlobal`).  The value is what the place refers to, unless it is a pointer
with the offset that marks a procedure (`linkOk_of_fits`, `linkFits_of_linkOk`).
-/

namespace OdinSon.Odinc.WasmObject

open Lib

/-! ### Values of relocations -/

section Values

variable (funcs offsets : List ℕ)

/-- The values of the relocations of a global. -/
def relocValues (m : Module) : List Reloc → Option (Module × List ℕ)
  | [] => some (m, [])
  | rel :: rels => do
    let r ← relocValue funcs offsets m rel
    let s ← relocValues r.1 rels
    return (s.1, r.2 :: s.2)

/-- The places behind `base` that the values are written to. -/
def relocParts (base : ℕ) (rels : List Reloc) (vs : List ℕ) : List (ℕ × List ℕ) :=
  List.zipWith (fun rel v => (base + rel.inOffset, toLE 8 v)) rels vs

variable {funcs offsets} {m : Module} {rel : Reloc} {rels : List Reloc} {data : List ℕ}

theorem relocValues_cons {r : Module × List ℕ} :
    relocValues funcs offsets m (rel :: rels) = some r ↔
      ∃ s t, relocValue funcs offsets m rel = some s ∧ relocValues funcs offsets s.1 rels = some t ∧
        r = (t.1, s.2 :: t.2) := by
  simp only [relocValues, Option.bind_eq_bind, Option.bind_eq_some_iff, Option.pure_def,
    Option.some.injEq]
  constructor
  · rintro ⟨s, hs, t, ht, rfl⟩
    exact ⟨s, t, hs, ht, rfl⟩
  · rintro ⟨s, t, hs, ht, rfl⟩
    exact ⟨s, hs, t, ht, rfl⟩

theorem relocValue_eq : relocValue funcs offsets m rel =
    if rel.toOffset = maxU32 then funcs[rel.toIdx]?.map fun f =>
      ({ m with indirectIds := (indirectId m.indirectIds f).1 }, (indirectId m.indirectIds f).2)
    else offsets[rel.toIdx]?.map fun offset => (m, offset + rel.toOffset) := by
  rw [relocValue]
  split_ifs
  · cases funcs[rel.toIdx]? <;> rfl
  · cases offsets[rel.toIdx]? <;> rfl

/-- The data do not matter for the value, and stay. -/
theorem relocValue_data : relocValue funcs offsets { m with data := data } rel =
    (relocValue funcs offsets m rel).map fun r => ({ r.1 with data := data }, r.2) := by
  rw [relocValue_eq, relocValue_eq]
  split_ifs
  · cases funcs[rel.toIdx]? <;> rfl
  · cases offsets[rel.toIdx]? <;> rfl

theorem foldlM_initReloc (base : ℕ) :
    rels.foldlM (initReloc funcs offsets base) { m with data := data } =
    (relocValues funcs offsets m rels).map fun r =>
      { r.1 with data := spliceAll data (relocParts base rels r.2) } := by
  induction rels generalizing m data with
  | nil => rfl
  | cons rel rels ih =>
    simp only [List.foldlM_cons, initReloc, relocValue_data, relocValues]
    cases relocValue funcs offsets m rel with
    | none => rfl
    | some r =>
      have hnext := @ih r.1 (splice data (base + rel.inOffset) (toLE 8 r.2))
      simp only [Option.map_some, Option.bind_eq_bind, Option.bind_some, Option.pure_def] at hnext ⊢
      rw [hnext]
      cases relocValues funcs offsets r.1 rels <;> rfl

theorem rest_relocValue {r : Module × ℕ} (h : relocValue funcs offsets m rel = some r) :
    r.1 = { m with indirectIds := r.1.indirectIds } := by
  rw [relocValue_eq] at h
  split_ifs at h
  all_goals
    obtain ⟨f, -, rfl⟩ := Option.map_eq_some_iff.1 h
    rfl

theorem grows_relocValue {r : Module × ℕ} (h : relocValue funcs offsets m rel = some r) :
    m.Grows r.1 := by
  rw [relocValue_eq] at h
  split_ifs at h
  · obtain ⟨f, -, rfl⟩ := Option.map_eq_some_iff.1 h
    exact ⟨List.prefix_rfl, (indirectId_spec _ f).1⟩
  · obtain ⟨offset, -, rfl⟩ := Option.map_eq_some_iff.1 h
    exact .refl m

theorem idsFrom_relocValue {p : ℕ → Prop} {r : Module × ℕ}
    (hfuncs : rel.toOffset = maxU32 → ∀ f, funcs[rel.toIdx]? = some f → p f)
    (hids : IdsFrom p m.indirectIds) (h : relocValue funcs offsets m rel = some r) :
    IdsFrom p r.1.indirectIds := by
  rw [relocValue_eq] at h
  split_ifs at h with hmax
  · obtain ⟨f, hf, rfl⟩ := Option.map_eq_some_iff.1 h
    exact hids.indirectId (hfuncs hmax f hf)
  · obtain ⟨offset, -, rfl⟩ := Option.map_eq_some_iff.1 h
    exact hids

/-- A value that a relocation had on the way to the module. -/
def ValueIn (funcs offsets : List ℕ) (m' : Module) (rel : Reloc) (v : ℕ) : Prop :=
  ∃ m r, relocValue funcs offsets m rel = some r ∧ r.2 = v ∧ r.1.Grows m'

theorem ValueIn.mono {m' m'' : Module} {v : ℕ} (h : ValueIn funcs offsets m' rel v)
    (hgrows : m'.Grows m'') : ValueIn funcs offsets m'' rel v := by
  obtain ⟨m, r, hr, hv, hm⟩ := h
  exact ⟨m, r, hr, hv, hm.trans hgrows⟩

/-- What is known of the module after some relocations. -/
structure Valued (funcs offsets : List ℕ) (m : Module) (rels : List Reloc) (r : Module × List ℕ) :
    Prop where
  rest : r.1 = { m with indirectIds := r.1.indirectIds }
  grows : m.Grows r.1
  values : List.Forall₂ (ValueIn funcs offsets r.1) rels r.2
  ids : ∀ p : ℕ → Prop,
    (∀ rel ∈ rels, rel.toOffset = maxU32 → ∀ f, funcs[rel.toIdx]? = some f → p f) →
    IdsFrom p m.indirectIds → IdsFrom p r.1.indirectIds

theorem relocValues_spec {r : Module × List ℕ} (h : relocValues funcs offsets m rels = some r) :
    Valued funcs offsets m rels r := by
  induction rels generalizing m r with
  | nil =>
    obtain rfl := Option.some.inj h
    exact ⟨rfl, .refl m, .nil, fun _ _ hids => hids⟩
  | cons rel rels ih =>
    obtain ⟨s, t, hs, ht, rfl⟩ := relocValues_cons.1 h
    obtain ⟨hrest, hgrows, hvalues, hids⟩ := ih ht
    refine ⟨?_, (grows_relocValue hs).trans hgrows, .cons ⟨m, s, hs, rfl, hgrows⟩ hvalues, ?_⟩
    · rw [rest_relocValue hs] at hrest
      exact hrest
    · intro p hp hm
      rw [List.forall_mem_cons] at hp
      exact hids p hp.2 (idsFrom_relocValue hp.1 hm hs)

end Values

/-! ### Values that are right -/

section LinkOk

variable {globals : List Global} {procs : List Prc}

/-- The constants of the module are the addresses of the layout. -/
theorem hasAddr_iff {m : Module} (hm : m.globals = (layout globals).globals) {j a : ℕ} :
    m.HasAddr globals j a ↔
      ∃ (k : ℕ) (g : Global), (order globals)[k]? = some (g, j) ∧ (addrs globals)[k]? = some a := by
  have hconst (k : ℕ) : m.globals[k + 1]? = some ⟨false, a⟩ ↔ (addrs globals)[k]? = some a := by
    rw [hm, layout_globals, List.getElem?_cons_succ, List.getElem?_map, Option.map_eq_some_iff]
    simp
  constructor
  · rintro ⟨k, ⟨g, hg⟩, ha⟩
    exact ⟨k, g, hg, (hconst k).1 ha⟩
  · rintro ⟨k, g, hg, ha⟩
    exact ⟨k, ⟨g, hg⟩, (hconst k).2 ha⟩

theorem relocValue_isSome {link : Link} (h : link.Fits globals procs) (inOffset : ℕ) (m : Module) :
    ∃ r, relocValue (funcIdxes procs) (layout globals).offsets m (link.reloc inOffset) = some r := by
  rw [relocValue_eq]
  cases link with
  | pointer target =>
    obtain ⟨⟨g, _⟩, hg, hidx⟩ := List.mem_map.1 h.1
    obtain ⟨k, hk⟩ := List.mem_iff_getElem?.1 hg
    obtain ⟨a, -, -, hoffset, -⟩ := layout_spec hk
    obtain rfl : _ = target.idx := hidx
    rw [Link.reloc, if_neg h.2]
    exact ⟨_, Option.map_eq_some_iff.2 ⟨a, hoffset, rfl⟩⟩
  | proc p =>
    obtain ⟨f, -, hf, -⟩ := isFunc_of_mem h
    rw [Link.reloc, if_pos rfl]
    exact ⟨_, Option.map_eq_some_iff.2 ⟨f, hf, rfl⟩⟩

variable {m' : Module} {link : Link} {inOffset v : ℕ}

/-- **The value of a relocated place is that of what it refers to.** -/
theorem linkOk_of_fits (hm : m'.globals = (layout globals).globals) (h : link.Fits globals procs)
    (hv : ValueIn (funcIdxes procs) (layout globals).offsets m' (link.reloc inOffset) v) :
    m'.LinkOk globals procs link v := by
  obtain ⟨m, r, hr, rfl, hgrows⟩ := hv
  rw [relocValue_eq] at hr
  cases link with
  | pointer target =>
    obtain ⟨⟨g, _⟩, hg, hidx⟩ := List.mem_map.1 h.1
    obtain ⟨k, hk⟩ := List.mem_iff_getElem?.1 hg
    obtain ⟨a, ha, -, hoffset, -⟩ := layout_spec hk
    obtain rfl : _ = target.idx := hidx
    rw [Link.reloc, if_neg h.2] at hr
    obtain ⟨b, hb, rfl⟩ := Option.map_eq_some_iff.1 hr
    obtain rfl := Option.some.inj (hoffset.symm.trans hb)
    exact ⟨a, (hasAddr_iff hm).2 ⟨k, g, hk, ha⟩, rfl⟩
  | proc p =>
    obtain ⟨f, hfunc, hf, -⟩ := isFunc_of_mem h
    rw [Link.reloc, if_pos rfl] at hr
    obtain ⟨f', hf', rfl⟩ := Option.map_eq_some_iff.1 hr
    obtain rfl := Option.some.inj (hf.symm.trans hf')
    obtain ⟨-, hslot, hne, -⟩ := indirectId_spec m.indirectIds f
    refine ⟨f, ?_, hfunc⟩
    rw [Module.slot, if_neg hne]
    exact getElem?_of_isPrefix hgrows.ids hslot

/-- A pointer that is taken for a procedure has the number of a slot, which is less than the offset of
the pointer. -/
theorem linkFits_of_linkOk (hids : m'.indirectIds.length ≤ maxCount)
    (hlt : ∀ j a, m'.HasAddr globals j a → a < 2 ^ 63) {w : ℕ} (hok : m'.LinkOk globals procs link w)
    (hv : ValueIn (funcIdxes procs) (layout globals).offsets m' (link.reloc inOffset) v)
    (hbytes : toLE 8 v = toLE 8 w) : link.Fits globals procs := by
  cases link with
  | pointer target =>
    obtain ⟨a, haddr, rfl⟩ := hok
    have ⟨k, hglobal, _⟩ := haddr
    refine ⟨hglobal.mem, fun hmax => ?_⟩
    obtain ⟨m, r, hr, rfl, hgrows⟩ := hv
    rw [relocValue_eq, Link.reloc, if_pos hmax] at hr
    obtain ⟨f, -, rfl⟩ := Option.map_eq_some_iff.1 hr
    obtain ⟨-, -, -, hle⟩ := indirectId_spec m.indirectIds f
    have hslot := (hle.trans hgrows.ids.length_le).trans hids
    have hvalue := congrArg ofLE hbytes
    have ha := hlt _ a haddr
    simp only [maxCount, maxU32] at hslot hmax
    rw [ofLE_toLE_of_lt (by omega), ofLE_toLE_of_lt (by omega)] at hvalue
    omega
  | proc p =>
    obtain ⟨f, -, hfunc⟩ := hok
    exact hfunc.mem

end LinkOk

/-! ### The segment -/

section Init

variable (funcs offsets : List ℕ)

/-- The values of the relocations of some globals. -/
def initValues (m : Module) : List (Global × ℕ) → Option (Module × List (List ℕ))
  | [] => some (m, [])
  | g :: gs => do
    let r ← relocValues funcs offsets m g.1.relocs
    let s ← initValues r.1 gs
    return (s.1, r.2 :: s.2)

/-- The bytes of a global with the values over its relocated places. -/
def initBytes (g : Global) (vs : List ℕ) : List ℕ := spliceAll g.bytes (relocParts 0 g.relocs vs)

/-- What is written to the segment. -/
def initParts (start : ℕ) (gs : List (Global × ℕ)) (vss : List (List ℕ)) : List (ℕ × List ℕ) :=
  List.zipWith (fun g vs => (offsets.getD g.2 0 - start, initBytes g.1 vs)) gs vss

variable {funcs offsets} {m : Module} {g : Global × ℕ} {gs : List (Global × ℕ)} {data : List ℕ}

theorem relocParts_base (base : ℕ) (rels : List Reloc) (vs : List ℕ) :
    relocParts base rels vs = (relocParts 0 rels vs).map fun p => (base + p.1, p.2) := by
  simp only [relocParts, List.map_zipWith, Nat.zero_add]

theorem relocParts_cons (rel : Reloc) (rels : List Reloc) (v : ℕ) (vs : List ℕ) :
    relocParts 0 (rel :: rels) (v :: vs) = (rel.inOffset, toLE 8 v) :: relocParts 0 rels vs := by
  simp only [relocParts, List.zipWith_cons_cons, Nat.zero_add]

theorem mem_relocParts {rels : List Reloc} {vs : List ℕ} {p : ℕ × List ℕ}
    (h : p ∈ relocParts 0 rels vs) : ∃ rel ∈ rels, ∃ v, p = (rel.inOffset, toLE 8 v) := by
  induction rels generalizing vs with
  | nil => cases h
  | cons rel rels ih =>
    cases vs with
    | nil => cases h
    | cons v vs =>
      rw [relocParts_cons] at h
      obtain rfl | h := List.mem_cons.1 h
      · exact ⟨rel, List.mem_cons_self .., v, rfl⟩
      · obtain ⟨rel', hrel, hp⟩ := ih h
        exact ⟨rel', List.mem_cons_of_mem _ hrel, hp⟩

/-- The relocated places are within the global. -/
def RelocsFit (g : Global) : Prop := ∀ rel ∈ g.relocs, rel.inOffset + 8 ≤ g.bytes.length

theorem relocParts_fit {g : Global} (h : RelocsFit g) (vs : List ℕ) :
    ∀ p ∈ relocParts 0 g.relocs vs, p.1 + p.2.length ≤ g.bytes.length := by
  intro p hp
  obtain ⟨rel, hrel, v, rfl⟩ := mem_relocParts hp
  rw [length_toLE]
  exact h rel hrel

theorem length_initBytes {g : Global} (h : RelocsFit g) (vs : List ℕ) :
    (initBytes g vs).length = g.bytes.length := length_spliceAll (relocParts_fit h vs)

theorem initGlobal_eq {start : ℕ} (hlive : Live g.1) (hzero : zeroed g.1 = false)
    (hrels : RelocsFit g.1)
    (hfits : offsets.getD g.2 0 - start + g.1.bytes.length ≤ data.length) :
    initGlobal funcs offsets start { m with data := data } g =
      (relocValues funcs offsets m g.1.relocs).map fun r =>
        { r.1 with data := splice data (offsets.getD g.2 0 - start) (initBytes g.1 r.2) } := by
  have hcond : ¬(g.1.align = 0 ∨ zeroed g.1 = true) := by
    rw [hzero]
    exact not_or.2 ⟨hlive, Bool.false_ne_true⟩
  rw [initGlobal, if_neg hcond]
  refine (foldlM_initReloc (m := m) _).trans ?_
  congr 1
  funext r
  rw [relocParts_base, spliceAll_splice hfits (relocParts_fit hrels r.2), initBytes]

/-- **The pass over the globals** writes each at its place, with the values of its relocations. -/
theorem foldlM_initGlobal {start : ℕ} (hgs : ∀ g ∈ gs, Live g.1 ∧ zeroed g.1 = false)
    (hrels : ∀ g ∈ gs, RelocsFit g.1)
    (hfits : ∀ g ∈ gs, offsets.getD g.2 0 - start + g.1.bytes.length ≤ data.length) :
    gs.foldlM (initGlobal funcs offsets start) { m with data := data } =
      (initValues funcs offsets m gs).map fun r =>
        { r.1 with data := spliceAll data (initParts offsets start gs r.2) } := by
  induction gs generalizing m data with
  | nil => rfl
  | cons g gs ih =>
    obtain ⟨⟨hlive, hzero⟩, hgs⟩ := List.forall_mem_cons.1 hgs
    obtain ⟨hrel, hrels⟩ := List.forall_mem_cons.1 hrels
    obtain ⟨hfit, hfits⟩ := List.forall_mem_cons.1 hfits
    rw [List.foldlM_cons, initGlobal_eq hlive hzero hrel hfit, initValues]
    cases relocValues funcs offsets m g.1.relocs with
    | none => rfl
    | some r =>
      have hlen : (splice data (offsets.getD g.2 0 - start) (initBytes g.1 r.2)).length =
          data.length := length_splice (by rwa [length_initBytes hrel])
      have hnext := ih (m := r.1) hgs hrels (by rwa [← hlen] at hfits)
      simp only [Option.map_some, Option.bind_eq_bind, Option.bind_some, hnext]
      cases initValues funcs offsets r.1 gs <;> rfl

/-- What is known of the module after the relocations of some globals. -/
structure InitValued (funcs offsets : List ℕ) (m : Module) (gs : List (Global × ℕ))
    (r : Module × List (List ℕ)) : Prop where
  rest : r.1 = { m with indirectIds := r.1.indirectIds }
  grows : m.Grows r.1
  values : List.Forall₂ (fun g vs => List.Forall₂ (ValueIn funcs offsets r.1) g.1.relocs vs) gs r.2
  ids : ∀ p : ℕ → Prop,
    (∀ g ∈ gs, ∀ rel ∈ g.1.relocs, rel.toOffset = maxU32 → ∀ f, funcs[rel.toIdx]? = some f → p f) →
    IdsFrom p m.indirectIds → IdsFrom p r.1.indirectIds

theorem initValues_spec {r : Module × List (List ℕ)}
    (h : initValues funcs offsets m gs = some r) : InitValued funcs offsets m gs r := by
  induction gs generalizing m r with
  | nil =>
    obtain rfl := Option.some.inj h
    exact ⟨rfl, .refl m, .nil, fun _ _ hids => hids⟩
  | cons g gs ih =>
    simp only [initValues, Option.bind_eq_bind, Option.bind_eq_some_iff, Option.pure_def,
      Option.some.injEq] at h
    obtain ⟨s, hs, t, ht, rfl⟩ := h
    obtain ⟨hrest, hgrows, hvalues, hids⟩ := relocValues_spec hs
    obtain ⟨hrest', hgrows', hvalues', hids'⟩ := ih ht
    refine ⟨?_, hgrows.trans hgrows', .cons (hvalues.imp fun _ _ h => h.mono hgrows') hvalues', ?_⟩
    · rw [hrest] at hrest'
      exact hrest'
    · intro p hp hm
      rw [List.forall_mem_cons] at hp
      exact hids' p hp.2 (hids p hp.1 hm)

theorem initValues_isSome (h : ∀ g ∈ gs, ∀ rel ∈ g.1.relocs, ∀ m,
    ∃ r, relocValue funcs offsets m rel = some r) (m : Module) :
    ∃ r, initValues funcs offsets m gs = some r := by
  have hvalues (rels : List Reloc)
      (hrels : ∀ rel ∈ rels, ∀ m, ∃ r, relocValue funcs offsets m rel = some r) (m : Module) :
      ∃ r, relocValues funcs offsets m rels = some r := by
    induction rels generalizing m with
    | nil => exact ⟨_, rfl⟩
    | cons rel rels ih =>
      obtain ⟨s, hs⟩ := hrels rel (List.mem_cons_self ..) m
      obtain ⟨t, ht⟩ := ih (fun rel hrel => hrels rel (List.mem_cons_of_mem _ hrel)) s.1
      exact ⟨_, relocValues_cons.2 ⟨s, t, hs, ht, rfl⟩⟩
  induction gs generalizing m with
  | nil => exact ⟨_, rfl⟩
  | cons g gs ih =>
    obtain ⟨s, hs⟩ := hvalues g.1.relocs (h g (List.mem_cons_self ..)) m
    obtain ⟨t, ht⟩ := ih (fun g hg => h g (List.mem_cons_of_mem _ hg)) s.1
    exact ⟨(t.1, s.2 :: t.2), by simp [initValues, hs, ht]⟩

/-! ### What a global is loaded with -/

/-- The relocated places do not overlap. -/
def RelocsApart (g : Global) : Prop := g.relocs.Pairwise fun r s =>
  r.inOffset + 8 ≤ s.inOffset ∨ s.inOffset + 8 ≤ r.inOffset

theorem pairwise_relocParts {rels : List Reloc}
    (h : rels.Pairwise fun r s => r.inOffset + 8 ≤ s.inOffset ∨ s.inOffset + 8 ≤ r.inOffset)
    (vs : List ℕ) :
    (relocParts 0 rels vs).Pairwise fun p q => p.1 + p.2.length ≤ q.1 ∨ q.1 + q.2.length ≤ p.1 := by
  induction rels generalizing vs with
  | nil => exact .nil
  | cons rel rels ih =>
    cases vs with
    | nil => exact .nil
    | cons v vs =>
      obtain ⟨hrel, hrels⟩ := List.pairwise_cons.1 h
      rw [relocParts_cons]
      refine List.pairwise_cons.2 ⟨fun q hq => ?_, ih hrels vs⟩
      obtain ⟨rel', hrel', v', rfl⟩ := mem_relocParts hq
      rw [length_toLE, length_toLE]
      exact hrel rel' hrel'

theorem initBytes_of_outside {g : Global} (h : RelocsFit g) (vs : List ℕ) {i : ℕ}
    (hout : ∀ rel ∈ g.relocs, ¬(rel.inOffset ≤ i ∧ i < rel.inOffset + 8)) :
    (initBytes g vs)[i]? = g.bytes[i]? := by
  refine getElem?_spliceAll_of_outside (relocParts_fit h vs) fun p hp => ?_
  obtain ⟨rel, hrel, v, rfl⟩ := mem_relocParts hp
  rw [length_toLE]
  exact hout rel hrel

theorem initBytes_of_mem {g : Global} (h : RelocsFit g) (hapart : RelocsApart g) {vs : List ℕ}
    {rel : Reloc} {v i : ℕ} (hmem : (rel.inOffset, toLE 8 v) ∈ relocParts 0 g.relocs vs)
    (hi : i < 8) : (initBytes g vs)[rel.inOffset + i]? = (toLE 8 v)[i]? :=
  getElem?_spliceAll_of_mem (relocParts_fit h vs) (pairwise_relocParts hapart vs) hmem
    (by rwa [length_toLE])

end Init

end OdinSon.Odinc.WasmObject
