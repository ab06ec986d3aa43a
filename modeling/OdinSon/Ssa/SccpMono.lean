import OdinSon.Ssa.SccpFits

/-!
# The transfer function is monotone

On a well typed graph `sccpCompute` is monotone in the order `LatLe` of the solver
(`sccpCompute_mono`); for a `Phi` this holds before widening (`phiBase_mono`), and widening goes up
from there (`phiWiden_spec`).
-/

namespace OdinSon

open MachInt

section Graph

variable {prc : Proc} {L L' : Lattices}

/-! ### Monotonicity -/

section Mono

variable (hL : ∀ id, Fits (prc.getNode id) (L id)) (hL' : ∀ id, Fits (prc.getNode id) (L' id))
  (hle : ∀ id, Lattice.LatLe (L id) (L' id))

open OdinSon.Lattice

theorem ne_top_of_isa {a b : Lattice} (ha : a.Canon) (hb : b.Canon) (h : isa a b = true)
    (hne : a.type ≠ .top) : b.type ≠ .top := by
  intro hc
  rw [hb.eq_top hc] at h
  exact hne (congrArg Lattice.type (isa_top_right ha h))

/-- A constant stays the same constant, or stops being one. -/
theorem const_of_isa {a b : Lattice} (ha : a.Canon) (hb : b.Canon) (h : isa a b = true)
    (hne : a.type ≠ .top) (hbc : b.type = .int ∧ b.min = b.max) :
    a.type = .int ∧ a.min = b.min ∧ a.max = b.min := by
  have hm := ha.min_le_max
  rcases (isa_iff ha hb).1 h with h | h | ⟨h, hf⟩
  · exact absurd h hne
  · simp [hbc.1] at h
  · have h1 := hf.min
    have h2 := hf.max
    exact ⟨h.trans hbc.1, by omega, by omega⟩

include hL hL' hle

theorem branch_dead_mono (node : Node) {c : NodeId}
    (hd : (sccpBranch prc L' node (.ofCtrl false)).dead = true)
    (hc : (prc.getNode (node.inp 0)).inp 1 = c) :
    (sccpBranch prc L node (.ofCtrl false)).dead = true := by
  simp only [sccpBranch, ofCtrl, ne_eq, not_true_eq_false, ↓reduceIte, hc] at hd ⊢
  by_cases ht : (L c).type = .top
  · simp only [ht, ↓reduceIte]
  have ht' := ne_top_of_isa (hL c).canon (hL' c).canon (hle c).1 ht
  rw [if_neg ht'] at hd
  by_cases hk : (L' c).type = .int ∧ (L' c).min = (L' c).max
  · obtain ⟨h1, h2, h3⟩ := const_of_isa (hL c).canon (hL' c).canon (hle c).1 ht hk
    rw [if_pos hk] at hd
    rw [if_neg ht, if_pos ⟨h1, h2.trans h3.symm⟩, h2]
    exact hd
  · rw [if_neg hk] at hd
    cases hd

theorem branch_mono (hT : prc.WellTyped) {id : NodeId}
    (hf : forwards (prc.getNode id).itype = true) :
    isa (if (L ((prc.getNode id).inp 0)).dead = true then L ((prc.getNode id).inp 0)
        else sccpBranch prc L (prc.getNode id) (L ((prc.getNode id).inp 0)))
      (if (L' ((prc.getNode id).inp 0)).dead = true then L' ((prc.getNode id).inp 0)
        else sccpBranch prc L' (prc.getNode id) (L' ((prc.getNode id).inp 0))) = true := by
  have hcfg := hT.cfg_inp id hf
  have hdead := fun h => branch_dead_mono hL hL' hle (prc.getNode id) h rfl
  have hisa := (hle ((prc.getNode id).inp 0)).1
  have hc := (hL ((prc.getNode id).inp 0)).canon
  have hc' := (hL' ((prc.getNode id).inp 0)).canon
  have hctrl (M : Lattices) (d : Bool) :
      ∃ d', sccpBranch prc M (prc.getNode id) (.ofCtrl d) = .ofCtrl d' := by
    simp only [sccpBranch, ofCtrl, ne_eq, not_true_eq_false, ↓reduceIte]
    split_ifs
    · exact ⟨_, rfl⟩
    · exact ⟨_, rfl⟩
    · exact ⟨_, rfl⟩
  have hisaCtrl (d d' : Bool) (hdd : d' = true → d = true) :
      isa (.ofCtrl d) (.ofCtrl d') = true := by
    rw [isa_iff (.ctlr d) (.ctlr d')]
    exact .inr (.inr ⟨rfl, by simpa [fieldsLe_iff, ofCtrl] using hdd⟩)
  rcases (hL ((prc.getNode id).inp 0)).cfg hcfg with ht | ht
  · rw [hc.eq_top ht]
    simp only [Bool.false_eq_true, ↓reduceIte, sccpBranch, ne_eq, reduceCtorEq, not_false_eq_true]
    exact isa_top _
  have ht' : (L' ((prc.getNode id).inp 0)).type = .ctlr :=
    ((hL' _).cfg hcfg).resolve_left (ne_top_of_isa hc hc' hisa (by simp [ht]))
  rw [hc.eq_ctrl ht, hc'.eq_ctrl ht'] at hisa ⊢
  generalize (L ((prc.getNode id).inp 0)).dead = d at hisa ⊢
  generalize (L' ((prc.getNode id).inp 0)).dead = d' at hisa ⊢
  obtain ⟨e, he⟩ := hctrl L false
  obtain ⟨e', he'⟩ := hctrl L' false
  rw [he, he'] at hdead
  cases d
  · cases d'
    · rw [if_neg (by simp [ofCtrl]), if_neg (by simp [ofCtrl]), he, he']
      exact hisaCtrl e e' hdead
    · exact absurd hisa (by decide)
  · obtain ⟨f, hf⟩ := hctrl L' d'
    rw [if_pos (show (ofCtrl true).dead = true from rfl), hf]
    split_ifs
    · exact hisaCtrl true d' (by simp)
    · exact hisaCtrl true f (by simp)

omit hL hL' hle in
/-- A comparison of a float with itself loses its result only by gaining a NaN. -/
theorem foldBinOpLattice_self {a : Lattice} {op : BinOp} {ty : Datatype} (hty : ty.isInt = false)
    (hop : op.isComparison = true) (ha : a.type ≠ .top) (hn : a.isNan = false) :
    foldBinOpLattice a op a ty = boolLattice := by
  rw [foldBinOpLattice_eq, if_neg (by simp [ha])]
  have hres : resLattice op ty = boolLattice := by simp [resLattice, hop]
  split_ifs with h1 h2
  · by_cases hf : a.type = .float
    · rw [foldFloatLattice_eq h1 hf hf]
      simp [hop, hn]
    · rw [foldFloatLattice_of_ne (.inl hf), hres]
  · simp [hty] at h2
  · exact hres

omit hL hL' hle in
theorem isa_boolLattice (p : Bool) : isa (.ofBounds (boolToInt p) (boolToInt p)) boolLattice = true := by
  cases p <;> decide

theorem binOp_mono (hT : prc.WellTyped) {id : NodeId} {op : BinOp}
    (ht : (prc.getNode id).itype = .bin op) :
    isa (sccpBinOp prc L (prc.getNode id) op) (sccpBinOp prc L' (prc.getNode id) op) = true := by
  have hm := (operandsFit hT hL ht).fold_mono (operandsFit hT hL' ht) (hle _).1 (hle _).1
  have h0 := (hle ((prc.getNode id).inp 0)).1
  have hc0 := (hL ((prc.getNode id).inp 0)).canon
  have hc0' := (hL' ((prc.getNode id).inp 0)).canon
  simp only [sccpBinOp]
  generalize prc.operationDatatype (prc.getNode id) = ty at hm ⊢
  by_cases hsame : (prc.getNode id).inp 0 = (prc.getNode id).inp 1 ∧ op.isComparison = true
  · obtain ⟨hin, hop⟩ := hsame
    rw [← hin] at hm ⊢
    generalize L ((prc.getNode id).inp 0) = a at hm h0 hc0 ⊢
    generalize L' ((prc.getNode id).inp 0) = a' at hm h0 hc0' ⊢
    by_cases hat : a.type = .top
    · rw [if_neg (by simp [hat]), foldBinOpLattice_eq, if_pos (.inl hat)]
      exact isa_top _
    have hat' := ne_top_of_isa hc0 hc0' h0 hat
    -- not being a NaN can only be lost
    have hnan : a'.isNotNan = true → a.isNotNan = true := by
      intro hn
      rcases (isa_iff hc0 hc0').1 h0 with h | h | ⟨-, hf⟩
      · exact absurd h hat
      · rw [hc0'.eq_bot h] at hn
        cases hn
      · exact hf.isNotNan hn
    split_ifs with hk hk' hk'
    · exact isa_refl (canon_boolConst _)
    · have hnn : a.isNotNan = true ∧ ty.isInt = false := by
        have := hk.2.2.2.2
        simp only [hat', hop, true_and, not_or, ne_eq, not_false_eq_true, Bool.not_eq_true] at hk'
        simp only [hk', Bool.false_eq_true, false_or, or_false] at this
        exact ⟨this, hk'.1⟩
      have hnan' : a'.isNan = false := by
        by_contra hc
        rw [Bool.not_eq_false] at hc
        rcases (isa_iff hc0 hc0').1 h0 with h | h | ⟨-, hf⟩
        · exact absurd h hat
        · rw [hc0'.eq_bot h] at hc
          cases hc
        · simpa [hc0.not_nan hnn.1] using hf.isNan hc
      rw [foldBinOpLattice_self hnn.2 hop hat' hnan']
      exact isa_boolLattice _
    · exact absurd ⟨hat, hat, rfl, hop, hk'.2.2.2.2.imp_right (Or.imp_left hnan)⟩ hk
    · exact hm
  · rw [if_neg (by tauto), if_neg (by tauto)]
    exact hm

omit hL' hle in
theorem widens_binOp (hT : prc.WellTyped) {id : NodeId} {op : BinOp}
    (ht : (prc.getNode id).itype = .bin op) :
    (sccpBinOp prc L (prc.getNode id) op).widens = 0 := by
  simp only [sccpBinOp]
  split_ifs
  · rfl
  · exact (operandsFit hT hL ht).canon_fold.2

theorem select_mono (node : Node) : LatLe (sccpSelect L node) (sccpSelect L' node) := by
  have hc (id : NodeId) := (hL id).canon
  have hc' (id : NodeId) := (hL' id).canon
  simp only [sccpSelect]
  generalize node.inp 2 = c
  by_cases ht : (L c).type = .top
  · rw [if_pos ht]
    split_ifs
    · exact .refl .top
    · exact .top (hc' _)
    · exact .top (hc' _)
    · exact .top ((hc' _).meet (hc' _))
  rw [if_neg ht, if_neg (ne_top_of_isa (hc c) (hc' c) (hle c).1 ht)]
  by_cases hk' : (L' c).type = .int ∧ (L' c).min = (L' c).max
  · obtain ⟨h1, h2, h3⟩ := const_of_isa (hc c) (hc' c) (hle c).1 ht hk'
    rw [if_pos hk', if_pos ⟨h1, h2.trans h3.symm⟩, h2]
    exact hle _
  · rw [if_neg hk']
    have hm := (hc' (node.inp 0)).meet (hc' (node.inp 1))
    have h0 := LatLe.trans (hc _) (hc' _) hm (hle (node.inp 0))
      (LatLe.meet_left (hc' (node.inp 0)) (hc' (node.inp 1)))
    have h1 := LatLe.trans (hc _) (hc' _) hm (hle (node.inp 1))
      (LatLe.meet_right (hc' (node.inp 0)) (hc' (node.inp 1)))
    split_ifs
    · exact h1
    · exact h0
    · exact LatLe.meet_mono (hc _) (hc _) (hc' _) (hc' _) (hle _) (hle _)

theorem region_mono (inps : List NodeId) {acc acc' : Lattice} (h : acc.Canon) (h' : acc'.Canon)
    (hacc : LatLe acc acc') :
    LatLe (inps.foldl (fun res inp => latticeMeet res (L inp)) acc)
      (inps.foldl (fun res inp => latticeMeet res (L' inp)) acc') := by
  induction inps generalizing acc acc' with
  | nil => exact hacc
  | cons i is ih =>
    exact ih (h.meet (hL i).canon) (h'.meet (hL' i).canon)
      (LatLe.meet_mono h (hL i).canon h' (hL' i).canon hacc (hle i))

/-- **The transfer function is monotone**, at every node but a `Phi`. -/
theorem sccpCompute_mono (hT : prc.WellTyped) {id : NodeId} (hphi : (prc.getNode id).itype ≠ .phi) :
    LatLe (sccpCompute prc L id) (sccpCompute prc L' id) := by
  have hfit := fits_sccpCompute hT hL' id
  cases sccpRule prc id with
  | const c hc h =>
    rw [h L, h L']
    exact .refl hc.canon
  | forward hf h =>
    rw [h L, h L']
    exact hle _
  | branch hf ht h =>
    rw [h L'] at hfit ⊢
    rw [h L]
    refine .of_isa (branch_mono hL hL' hle hT hf) (hfit.canon.widens_eq_zero ?_)
    have hcfg : (prc.getNode id).itype.isCfg = true := by rcases ht with ht | ht <;> rw [ht] <;> rfl
    rcases hfit.cfg hcfg with h | h <;> simp [h]
  | bin op ht hv h =>
    rw [h L, h L']
    exact .of_isa (binOp_mono hL hL' hle hT ht) (widens_binOp hL' hT ht)
  | select ht h =>
    rw [h L, h L']
    exact select_mono hL hL' hle _
  | phi ht h => exact absurd ht hphi
  | region ht h =>
    rw [h L, h L']
    exact region_mono hL hL' hle _ (.ctlr true) (.ctlr true) (.refl (.ctlr true))

end Mono

end Graph

/-! ### Widening -/

section Widen

open OdinSon.Lattice

variable {node : Node} {curr base : Lattice}

/-- The interval of a `Phi` after its last widening. -/
def fullWidened (dt : Datatype) : Lattice := { dtToLattice dt with widens := 4 }

/-- How the lattice of a `Phi` stands to what its inputs give: below it, or widened for good. -/
def PhiBelow (dt : Datatype) (curr base : Lattice) : Prop :=
  isa curr base = true ∨ base.type = .int ∧ curr = fullWidened dt

/-- The lattices that a `Phi` meets before widening. -/
structure IsBase (node : Node) (base : Lattice) : Prop where
  fits : Fits node base
  widens : base.widens = 0
  kind : node.dt.isInt = true → base.type = .top ∨ base.type = .int

theorem isBase_phiBase {prc : Proc} (hT : prc.WellTyped) {L : Lattices}
    (hL : ∀ id, Fits (prc.getNode id) (L id)) {id : NodeId} (h : (prc.getNode id).itype = .phi) :
    IsBase (prc.getNode id) (phiBase prc L (prc.getNode id)) := by
  obtain ⟨hc, hw, hi⟩ := phiBase_spec hT hL h
  refine ⟨⟨hc, hi, by simp [h, NodeType.isCfg]⟩, hw, fun hd => ?_⟩
  have hm : (phiMeet L (phiEdges prc (prc.getNode id)) {}).Canon :=
    canon_phiMeet (fun i => (hL i).canon) .top
  rw [phiBase_eq, join_int hd hm]
  split_ifs
  · obtain ⟨-, -, ht | ⟨ht, -⟩⟩ := clip_spec (prc.getNode id).dt hm
    · exact .inl ht
    · exact .inr ht
  · exact .inr (dtToLattice_type hd)
  · exact .inl rfl

theorem isBase_top (node : Node) : IsBase node {} := ⟨fits_top node, rfl, fun _ => .inl rfl⟩

theorem PhiBelow.mono {base' : Lattice} (hc : curr.Canon) (hb : IsBase node base)
    (hb' : IsBase node base') (h : isa base base' = true) (hbelow : PhiBelow node.dt curr base) :
    PhiBelow node.dt curr base' := by
  rcases hbelow with hbelow | ⟨ht, rfl⟩
  · exact .inl (isa_trans hc hb.fits.canon hb'.fits.canon hbelow h)
  · have hd := (hb.fits.int ht).1
    refine .inr ⟨(hb'.kind hd).resolve_left ?_, rfl⟩
    exact ne_top_of_isa hb.fits.canon hb'.fits.canon h (by simp [ht])

theorem IsBase.eq_ofBounds (hb : IsBase node base) (ht : base.type = .int) :
    base = .ofBounds base.min base.max := by
  have hc := hb.fits.canon
  have hw := hb.widens
  cases hc <;> cases ht
  simp_all [ofBounds]

theorem IsBase.bare (hb : IsBase node base) : base.bare = base := by
  rw [Lattice.bare, ← hb.widens]

/-- An interval is widened at its fourth change. -/
theorem phiWiden_int (hb : IsBase node base) (ht : base.type = .int) (curr : Lattice) :
    phiWiden node.dt curr base =
      if curr.bare = base then curr
      else if 3 ≤ curr.widens then fullWidened node.dt
      else { base with widens := curr.widens + 1 } := by
  have hbase := hb.eq_ofBounds ht
  have hiff : curr ≠ { base with widens := curr.widens } ↔ curr.bare ≠ base := by
    rw [ne_eq, ne_eq, not_iff_not]
    constructor
    · intro h
      rw [h, ← hb.bare]
      rfl
    · intro h
      rw [← h]
      rfl
  have hfull : { base with
      widens := 4
      min := (dtToLattice node.dt).min
      max := (dtToLattice node.dt).max } = fullWidened node.dt := by
    rw [fullWidened, isInterval_dtToLattice (hb.fits.int ht).1, hbase]
    rfl
  rw [phiWiden, if_pos ht]
  by_cases h : curr.bare = base
  · rw [if_neg (by rw [hiff]; exact not_not.2 h), if_pos h, ← h]
    rfl
  · rw [if_pos (hiff.2 h), if_neg h]
    by_cases hw : 3 ≤ curr.widens
    · have e : min (curr.widens + 1) 4 = 4 := by omega
      rw [if_pos hw, if_pos e, e]
      exact hfull
    · have e : min (curr.widens + 1) 4 = curr.widens + 1 := by omega
      rw [if_neg hw, if_neg (by omega), e]

theorem isa_full {l : Lattice} (hl : Fits node l) (hd : node.dt.isInt = true)
    (ht : l.type = .top ∨ l.type = .int) : isa l (dtToLattice node.dt) = true := by
  rcases ht with ht | ht
  · rw [hl.canon.eq_top ht]
    exact isa_top _
  · rw [isa_int_iff hl.canon (canon_dtToLattice _) ht (dtToLattice_type hd)]
    exact (hl.int ht).2

/-- **Widening goes up**, and doing it again changes nothing. -/
theorem phiWiden_spec (hc : Fits node curr) (hb : IsBase node base)
    (h : PhiBelow node.dt curr base) :
    LatLe curr (phiWiden node.dt curr base) ∧
      PhiBelow node.dt (phiWiden node.dt curr base) base ∧
      phiWiden node.dt (phiWiden node.dt curr base) base = phiWiden node.dt curr base := by
  by_cases ht : base.type = .int
  swap
  · have e (c : Lattice) : phiWiden node.dt c base = base := by rw [phiWiden, if_neg ht]
    rw [e, e]
    exact ⟨.of_isa (h.resolve_right fun hc => ht hc.1) hb.widens, .inl (isa_refl hb.fits.canon), rfl⟩
  obtain ⟨hdt, hs⟩ := hb.fits.int ht
  have hfb := isa_full hb.fits hdt (.inr ht)
  simp only [phiWiden_int hb ht]
  by_cases h1 : curr.bare = base
  · simp only [h1, ↓reduceIte]
    refine ⟨.refl hc.canon, .inl ?_, trivial⟩
    rw [← h1]
    exact isa_refl hc.canon
  by_cases h2 : 3 ≤ curr.widens
  · simp only [h1, h2, ↓reduceIte]
    have htc : curr.type = .top ∨ curr.type = .int := by
      rcases h with h | ⟨-, h⟩
      · rcases (isa_iff hc.canon hb.fits.canon).1 h with h | h | ⟨h, -⟩
        · exact .inl h
        · simp [ht] at h
        · exact .inr (h.trans ht)
      · rw [h]
        exact .inr (dtToLattice_type hdt)
    refine ⟨⟨isa_full hc hdt htc, fun he => ?_⟩, .inr ⟨ht, rfl⟩, ?_⟩
    · rcases h with h | ⟨-, h⟩
      · -- the interval was already the whole datatype, so nothing had changed
        refine absurd ?_ h1
        have hback : isa base curr = true := by
          have : isa base curr.bare = true := he ▸ hfb
          exact this
        rw [isa_antisymm hc.canon hb.fits.canon h hback, hb.bare]
      · rw [h]
        exact .inl rfl
    · split_ifs with h3 h4
      · rfl
      · rfl
      · exact absurd (by decide : 3 ≤ 4) h4
  · simp only [h1, h2, ↓reduceIte]
    have hisa : isa curr base = true := by
      rcases h with h | ⟨-, h⟩
      · exact h
      · exact absurd (h ▸ (by decide : 3 ≤ 4)) h2
    have hbare : ({ base with widens := curr.widens + 1 } : Lattice).bare = base := hb.bare
    refine ⟨⟨hisa, fun he => absurd (he.trans hbare) h1⟩, .inl ?_, ?_⟩
    · have hr := isa_refl hb.fits.canon
      rw [hb.eq_ofBounds ht] at hr ⊢
      exact hr
    · rw [if_pos hbare]

end Widen

end OdinSon
