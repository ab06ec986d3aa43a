import OdinSon.Ssa.Sccp
import OdinSon.Ssa.FoldLatticeOrder

/-!
# The lattices of a well typed graph

`Proc.WellTyped` collects what the graph promises about datatypes: the integer operands of an
operator have no more bits than the operation, control flows through control nodes.  On such a
graph `sccpCompute` keeps the lattice of every node within its datatype (`Fits`).

`SccpRule` is the case analysis over the kinds of node that all later proofs use.
-/

namespace OdinSon

open MachInt

/-- An integer datatype goes only into an integer datatype that is not smaller. -/
def Datatype.FitsIn (d ty : Datatype) : Prop := d.isInt = true → ty.isInt = true ∧ d.bits ≤ ty.bits

instance (d ty : Datatype) : Decidable (d.FitsIn ty) := inferInstanceAs (Decidable (_ → _))

/-- The datatypes of a graph. -/
structure Proc.WellTyped (prc : Proc) : Prop where
  /-- Control comes from control. -/
  cfg_inp : ∀ id, forwards (prc.getNode id).itype = true →
    prc.isCfg ((prc.getNode id).inp 0) = true
  region_inp : ∀ id, (prc.getNode id).itype = .region →
    ∀ inp ∈ (prc.getNode id).inps, prc.isCfg inp = true
  /-- A binary operator on operands of the operation's datatype; a shift count has any. -/
  bin_left : ∀ id op, (prc.getNode id).itype = .bin op →
    (prc.getNode ((prc.getNode id).inp 0)).dt.FitsIn (prc.operationDatatype (prc.getNode id))
  bin_right : ∀ id op, (prc.getNode id).itype = .bin op → op.isShift = false →
    (prc.getNode ((prc.getNode id).inp 1)).dt.FitsIn (prc.operationDatatype (prc.getNode id))
  /-- A comparison gives an integer or a vector of them. -/
  bin_dt : ∀ id op, (prc.getNode id).itype = .bin op → op.isComparison = true →
    (prc.getNode id).dt.isInt = true ∨ (prc.getNode id).dt.isVector = true
  select_inp : ∀ id, (prc.getNode id).itype = .select → ∀ i < 2,
    (prc.getNode ((prc.getNode id).inp i)).dt.FitsIn (prc.getNode id).dt
  phi_inp : ∀ id, (prc.getNode id).itype = .phi → ∀ inp ∈ (prc.getNode id).inps.tail,
    (prc.getNode inp).dt.FitsIn (prc.getNode id).dt

/-- The lattice `l` is one that a node like `node` may have. -/
structure Fits (node : Node) (l : Lattice) : Prop where
  canon : l.Canon
  int : l.type = .int → node.dt.isInt = true ∧ l.Sub (dtToLattice node.dt)
  cfg : node.itype.isCfg = true → l.type = .top ∨ l.type = .ctlr

/-! ### Joining with the lattice of a datatype -/

theorem Datatype.FitsIn.sub {d ty : Datatype} (h : d.FitsIn ty) (hd : d.isInt = true) :
    (dtToLattice d).Sub (dtToLattice ty) := by
  obtain ⟨hty, hle⟩ := h hd
  have hp : (2 : ℤ) ^ (d.bits - 1) ≤ 2 ^ (ty.bits - 1) :=
    pow_le_pow_right₀ (by norm_num) (by omega)
  constructor
  · rw [dtToLattice_min hd, dtToLattice_min hty]
    omega
  · rw [dtToLattice_max hd, dtToLattice_max hty]
    omega

section Join

variable {a a' : Lattice} {dt : Datatype}

/-- The intersection of an interval with that of an integer datatype. -/
def clip (dt : Datatype) (a : Lattice) : Lattice :=
  if max a.min (dtToLattice dt).min > min a.max (dtToLattice dt).max then {}
  else .ofBounds (max a.min (dtToLattice dt).min) (min a.max (dtToLattice dt).max)

theorem join_int (h : dt.isInt = true) (ha : a.Canon) :
    latticeJoin a (dtToLattice dt) =
      if a.type = .int then clip dt a else if a.type = .bot then dtToLattice dt else {} := by
  have hdt := isInterval_dtToLattice h
  rw [Lattice.IsInterval] at hdt
  have hle := (canon_dtToLattice dt).min_le_max
  unfold clip
  generalize (dtToLattice dt).min = lo, (dtToLattice dt).max = hi at hdt hle ⊢
  rw [hdt]
  cases ha <;>
    simp [latticeJoin, latticeMeet, latticeDual, Lattice.ofCtrl, Lattice.ofBounds, hle]

theorem join_float (h : dt.isFloat = true) (ha : a.Canon) :
    latticeJoin a (dtToLattice dt) =
      if a.type = .float then a else if a.type = .bot then dtToLattice dt else {} := by
  rw [dtToLattice_float h]
  cases ha <;> simp [latticeJoin, latticeMeet, latticeDual, Lattice.ofCtrl, Lattice.ofBounds]
  simp_all

theorem join_other (h : dt.isInt = false) (h' : dt.isFloat = false) (ha : a.Canon) :
    latticeJoin a (dtToLattice dt) = a := by
  rw [dtToLattice_other h h']
  cases ha <;> simp_all [latticeJoin, latticeMeet, latticeDual, Lattice.ofCtrl, Lattice.ofBounds]

theorem clip_spec (dt : Datatype) (ha : a.Canon) :
    (clip dt a).Canon ∧ (clip dt a).widens = 0 ∧ ((clip dt a).type = .top ∨
      (clip dt a).type = .int ∧ (clip dt a).Sub a ∧ (clip dt a).Sub (dtToLattice dt)) := by
  have hb := ha.bounds
  have hdt := (canon_dtToLattice dt).bounds
  unfold clip
  split_ifs with hc
  · exact ⟨.top, rfl, .inl rfl⟩
  · exact ⟨Lattice.canon_ofBounds (hb.1.1.trans (le_max_left _ _)) (not_lt.1 hc)
      ((min_le_left _ _).trans_lt hb.2.2), rfl, .inr ⟨rfl, ⟨le_max_left _ _, min_le_left _ _⟩,
      ⟨le_max_right _ _, min_le_right _ _⟩⟩⟩

theorem clip_mono (dt : Datatype) (ha : a.Canon) (ha' : a'.Canon) (haa : a.Sub a') :
    isa (clip dt a) (clip dt a') = true := by
  obtain ⟨h1, h2⟩ := haa
  obtain ⟨hc, -, ht⟩ := clip_spec dt ha
  obtain ⟨hc', -, ht'⟩ := clip_spec dt ha'
  rcases ht with ht | ⟨ht, -⟩
  · rw [hc.eq_top ht]
    exact Lattice.isa_top _
  · have e : clip dt a = .ofBounds (max a.min (dtToLattice dt).min)
        (min a.max (dtToLattice dt).max) := by
      unfold clip at ht ⊢
      split_ifs at ht ⊢
      rfl
    have hne : ¬ max a.min (dtToLattice dt).min > min a.max (dtToLattice dt).max := by
      unfold clip at ht
      split_ifs at ht with hgt
      exact hgt
    have e' : clip dt a' = .ofBounds (max a'.min (dtToLattice dt).min)
        (min a'.max (dtToLattice dt).max) := by
      unfold clip
      rw [if_neg (by omega)]
    rw [e] at hc ⊢
    rw [e'] at hc' ⊢
    rw [Lattice.isa_int_iff hc hc' rfl rfl]
    simp only [Lattice.ofBounds]
    omega

/-- Joining with the lattice of a datatype stays canonical. -/
theorem Lattice.Canon.join_dt (ha : a.Canon) (dt : Datatype) :
    (latticeJoin a (dtToLattice dt)).Canon := by
  by_cases h : dt.isInt = true
  · rw [join_int h ha]
    split_ifs
    · exact (clip_spec dt ha).1
    · exact canon_dtToLattice dt
    · exact .top
  by_cases h' : dt.isFloat = true
  · rw [join_float h' ha]
    split_ifs
    · exact ha
    · exact canon_dtToLattice dt
    · exact .top
  · rw [join_other (Bool.not_eq_true _ ▸ h) (Bool.not_eq_true _ ▸ h') ha]
    exact ha

/-- Joining with the lattice of a datatype is monotone. -/
theorem join_dt_mono (ha : a.Canon) (ha' : a'.Canon) (h : isa a a' = true) (dt : Datatype) :
    isa (latticeJoin a (dtToLattice dt)) (latticeJoin a' (dtToLattice dt)) = true := by
  have hcases := (Lattice.isa_iff ha ha').1 h
  have hdtc := canon_dtToLattice dt
  by_cases hi : dt.isInt = true
  · rw [join_int hi ha, join_int hi ha']
    by_cases hb' : a'.type = .bot
    · simp only [hb', reduceCtorEq, ↓reduceIte]
      split_ifs
      · obtain ⟨hc, -, ht | ⟨ht, -, hs⟩⟩ := clip_spec dt ha
        · rw [hc.eq_top ht]
          exact Lattice.isa_top _
        · rw [Lattice.isa_int_iff hc hdtc ht (dtToLattice_type hi)]
          exact hs
      · exact Lattice.isa_refl hdtc
      · exact Lattice.isa_top _
    rcases hcases with ht | ht | ⟨ht, hf⟩
    · simp only [ht, reduceCtorEq, ↓reduceIte]
      exact Lattice.isa_top _
    · exact absurd ht hb'
    · simp only [ht, hb', ↓reduceIte]
      split_ifs
      · exact clip_mono dt ha ha' ⟨hf.min, hf.max⟩
      · exact Lattice.isa_top _
  by_cases hfl : dt.isFloat = true
  · rw [join_float hfl ha, join_float hfl ha']
    by_cases hb' : a'.type = .bot
    · simp only [hb', reduceCtorEq, ↓reduceIte]
      have hdt := dtToLattice_float hfl
      split_ifs with h1
      · rw [hdt] at hdtc ⊢
        rw [Lattice.isa_iff ha hdtc]
        have hz : a.min = 0 ∧ a.max = 0 := by
          cases ha <;> cases h1
          exact ⟨rfl, rfl⟩
        exact .inr (.inr ⟨h1, by simp [Lattice.fieldsLe_iff, hz]⟩)
      · exact Lattice.isa_refl hdtc
      · exact Lattice.isa_top _
    rcases hcases with ht | ht | ⟨ht, hf⟩
    · simp only [ht, reduceCtorEq, ↓reduceIte]
      exact Lattice.isa_top _
    · exact absurd ht hb'
    · simp only [ht, hb', ↓reduceIte]
      split_ifs
      · exact h
      · exact Lattice.isa_top _
  · rw [join_other (Bool.not_eq_true _ ▸ hi) (Bool.not_eq_true _ ▸ hfl) ha,
      join_other (Bool.not_eq_true _ ▸ hi) (Bool.not_eq_true _ ▸ hfl) ha']
    exact h

end Join

/-! ### `Phi` before widening -/

/-- Control that is alive: neither dead nor still unknown. -/
def Lattice.Alive (l : Lattice) : Prop := l.dead = false ∧ l.type ≠ .top

instance (l : Lattice) : Decidable l.Alive := inferInstanceAs (Decidable (_ ∧ _))

theorem Lattice.Alive.mono {a b : Lattice} (ha : a.Canon) (hb : b.Canon) (h : isa a b = true)
    (hl : a.Alive) : b.Alive := by
  obtain ⟨hd, ht⟩ := hl
  rcases (Lattice.isa_iff ha hb).1 h with h | h | ⟨h, hf⟩
  · exact absurd h ht
  · rw [hb.eq_bot h]
    exact ⟨rfl, by simp⟩
  · refine ⟨?_, h ▸ ht⟩
    by_contra hc
    rw [Bool.not_eq_false] at hc
    simp [hf.dead hc] at hd

/-- The meet over the edges that are alive. -/
def phiMeet (L : Lattices) (edges : List (NodeId × NodeId)) (acc : Lattice) : Lattice :=
  edges.foldl (fun res e =>
    if (L e.2).dead = false ∧ (L e.2).type ≠ .top then latticeMeet res (L e.1) else res) acc

theorem phiBase_eq (prc : Proc) (L : Lattices) (node : Node) :
    phiBase prc L node = latticeJoin (phiMeet L (phiEdges prc node) {}) (dtToLattice node.dt) := rfl

theorem phiMeet_cons (L : Lattices) (e : NodeId × NodeId) (es : List (NodeId × NodeId))
    (acc : Lattice) :
    phiMeet L (e :: es) acc =
      phiMeet L es (if (L e.2).Alive then latticeMeet acc (L e.1) else acc) := rfl

section PhiMeet

variable {L L' : Lattices} (hL : ∀ id, (L id).Canon) (hL' : ∀ id, (L' id).Canon)

include hL

theorem canon_phiMeet {edges : List (NodeId × NodeId)} {acc : Lattice} (h : acc.Canon) :
    (phiMeet L edges acc).Canon := by
  induction edges generalizing acc with
  | nil => exact h
  | cons e es ih =>
    rw [phiMeet_cons]
    apply ih
    split_ifs
    · exact h.meet (hL _)
    · exact h

include hL' in
theorem phiMeet_mono (hle : ∀ id, isa (L id) (L' id) = true) {edges : List (NodeId × NodeId)}
    {acc acc' : Lattice} (h : acc.Canon) (h' : acc'.Canon) (hacc : isa acc acc' = true) :
    isa (phiMeet L edges acc) (phiMeet L' edges acc') = true := by
  induction edges generalizing acc acc' with
  | nil => exact hacc
  | cons e es ih =>
    rw [phiMeet_cons, phiMeet_cons]
    have hm := h'.meet (hL' e.1)
    by_cases hl : (L e.2).Alive
    · have hl' := hl.mono (hL _) (hL' _) (hle _)
      rw [if_pos hl, if_pos hl']
      exact ih (h.meet (hL _)) hm (Lattice.meet_isa h (hL _) hm
        (Lattice.isa_trans h h' hm hacc (Lattice.isa_meet_left h' (hL' _)))
        (Lattice.isa_trans (hL _) (hL' _) hm (hle _) (Lattice.isa_meet_right h' (hL' _))))
    · rw [if_neg hl]
      split_ifs
      · exact ih h hm (Lattice.isa_trans h h' hm hacc (Lattice.isa_meet_left h' (hL' _)))
      · exact ih h h' hacc

omit hL in
/-- A meet is an interval only if one of its sides is. -/
theorem meet_type_int {a b : Lattice} (h : (latticeMeet a b).type = .int) :
    a.type = .int ∨ b.type = .int := by
  simp only [latticeMeet] at h
  split_ifs at h
  · exact .inr h
  · exact .inl h
  · left
    revert h
    cases a.type <;> simp

omit hL in
theorem phiMeet_type {edges : List (NodeId × NodeId)} {acc : Lattice} (h : acc.type ≠ .int)
    (he : ∀ e ∈ edges, (L e.1).type ≠ .int) : (phiMeet L edges acc).type ≠ .int := by
  induction edges generalizing acc with
  | nil => exact h
  | cons e es ih =>
    rw [phiMeet_cons]
    refine ih ?_ fun e' he' => he e' (List.mem_cons_of_mem _ he')
    split_ifs
    · intro hc
      exact (meet_type_int hc).elim h (he e List.mem_cons_self)
    · exact h

end PhiMeet

section Graph

variable {prc : Proc} (hT : prc.WellTyped) {L L' : Lattices}

/-- An edge of a `Phi` carries one of its values. -/
theorem mem_phiEdges {node : Node} {e : NodeId × NodeId} (h : e ∈ phiEdges prc node) :
    e.1 ∈ node.inps.tail := (List.of_mem_zip h).1

section Fits

variable (hL : ∀ id, Fits (prc.getNode id) (L id))

include hT hL

/-- The lattice of a `Phi` before widening is one of its datatype, and not counted. -/
theorem phiBase_spec {id : NodeId} (h : (prc.getNode id).itype = .phi) :
    (phiBase prc L (prc.getNode id)).Canon ∧ (phiBase prc L (prc.getNode id)).widens = 0 ∧
      ((phiBase prc L (prc.getNode id)).type = .int →
        (prc.getNode id).dt.isInt = true ∧
          (phiBase prc L (prc.getNode id)).Sub (dtToLattice (prc.getNode id).dt)) := by
  have hc : (phiMeet L (phiEdges prc (prc.getNode id)) {}).Canon :=
    canon_phiMeet (fun i => (hL i).canon) .top
  rw [phiBase_eq]
  have hj := hc.join_dt (prc.getNode id).dt
  by_cases hi : (prc.getNode id).dt.isInt = true
  · obtain ⟨-, hw, ht⟩ := clip_spec (prc.getNode id).dt hc
    rw [join_int hi hc] at hj ⊢
    refine ⟨hj, ?_, fun hty => ⟨hi, ?_⟩⟩
    · split_ifs
      · exact hw
      · rw [isInterval_dtToLattice hi]
        rfl
      · rfl
    · split_ifs at hty ⊢
      · exact (ht.resolve_left (by simp [hty])).2.2
      · exact .refl _
  · have hne : (phiMeet L (phiEdges prc (prc.getNode id)) {}).type ≠ .int := by
      refine phiMeet_type (by simp) fun e he hint => hi ?_
      exact (hT.phi_inp id h e.1 (mem_phiEdges he) ((hL e.1).int hint).1).1
    have hne' : (latticeJoin (phiMeet L (phiEdges prc (prc.getNode id)) {})
        (dtToLattice (prc.getNode id).dt)).type ≠ .int := by
      by_cases hf : (prc.getNode id).dt.isFloat = true
      · rw [join_float hf hc, dtToLattice_float hf]
        split_ifs
        · exact hne
        · simp
        · simp
      · rw [join_other (Bool.not_eq_true _ ▸ hi) (Bool.not_eq_true _ ▸ hf) hc]
        exact hne
    exact ⟨hj, hj.widens_eq_zero hne', fun hty => absurd hty hne'⟩

end Fits

theorem phiBase_mono (hL : ∀ id, Fits (prc.getNode id) (L id))
    (hL' : ∀ id, Fits (prc.getNode id) (L' id)) (hle : ∀ id, isa (L id) (L' id) = true)
    (node : Node) : isa (phiBase prc L node) (phiBase prc L' node) = true := by
  rw [phiBase_eq, phiBase_eq]
  exact join_dt_mono (canon_phiMeet (fun i => (hL i).canon) .top)
    (canon_phiMeet (fun i => (hL' i).canon) .top)
    (phiMeet_mono (fun i => (hL i).canon) (fun i => (hL' i).canon) hle .top .top
      (Lattice.isa_top _)) node.dt

/-! ### Every node -/

theorem fits_top (node : Node) : Fits node {} := ⟨.top, by simp, fun _ => .inl rfl⟩

theorem fits_ctrl {node : Node} (d : Bool) : Fits node (.ofCtrl d) :=
  ⟨.ctlr d, by simp [Lattice.ofCtrl], fun _ => .inr rfl⟩

theorem fits_dt {node : Node} (h : node.itype.isCfg = false) : Fits node (dtToLattice node.dt) := by
  refine ⟨canon_dtToLattice _, fun ht => ⟨?_, .refl _⟩, by simp [h]⟩
  cases hd : node.dt <;> simp_all [dtToLattice, Datatype.isInt]

theorem fits_orDatatype {node : Node} (h : node.itype.isCfg = false) {l : Lattice}
    (hl : Fits node l) : Fits node (orDatatype node l) := by
  unfold orDatatype
  split_ifs
  · exact fits_dt h
  · exact hl

/-- A lattice that fits one data node fits another of no smaller datatype. -/
theorem Fits.of_dt {node node' : Node} {l : Lattice} (h : Fits node l)
    (hdt : node.dt.FitsIn node'.dt) (hcfg : node'.itype.isCfg = false) : Fits node' l := by
  refine ⟨h.canon, fun ht => ?_, by simp [hcfg]⟩
  obtain ⟨hi, hs⟩ := h.int ht
  exact ⟨(hdt hi).1, hs.trans (hdt.sub hi)⟩

theorem fits_meet {node : Node} {a b : Lattice} (ha : Fits node a) (hb : Fits node b) :
    Fits node (latticeMeet a b) := by
  by_cases ha0 : a.type = .top
  · rwa [ha.canon.eq_top ha0, Lattice.meet_top_left]
  by_cases hb0 : b.type = .top
  · rwa [hb.canon.eq_top hb0, Lattice.meet_top_right ha.canon]
  refine ⟨ha.canon.meet hb.canon, fun ht => ?_, fun hc => ?_⟩
  · have hint : a.type = .int ∧ b.type = .int := by
      simp only [latticeMeet, ha0, hb0, false_or] at ht
      split_ifs at ht with h1 h2 h3
      · simp [h1] at ht
      · simp [h2] at ht
      · have hab := not_ne_iff.1 h3
        revert ht
        rw [← hab]
        cases a.type <;> simp
    obtain ⟨hi, hsa⟩ := ha.int hint.1
    obtain ⟨-, hsb⟩ := hb.int hint.2
    have e : latticeMeet a b = .ofBounds (min a.min b.min) (max a.max b.max) := by
      simp [latticeMeet, hint.1, hint.2, Lattice.ofBounds]
    rw [e]
    exact ⟨hi, le_min hsa.1 hsb.1, max_le hsa.2 hsb.2⟩
  · have h1 := (ha.cfg hc).resolve_left ha0
    have h2 := (hb.cfg hc).resolve_left hb0
    right
    simp [latticeMeet, h1, h2]

theorem canon_floatConst (bits : ℕ) (dt : Datatype) : (floatConst bits dt).Canon :=
  .float _ _ _ _ _ (Bool.and_not_self _)

theorem fits_const {node : Node} (h : node.itype.isCfg = false) (hi : node.dt.isInt = true) {v : ℤ}
    (hd : (dtToLattice node.dt).Contains v) : Fits node (.ofBounds v v) := by
  have hv := ((dtToLattice_contains_iff hi).1 hd).mono (Datatype.bits_le hi)
  exact ⟨Lattice.canon_ofBounds hv.1 le_rfl hv.2, fun _ => ⟨hi, .of_contains hd hd⟩, by simp [h]⟩

theorem floatConst_type (bits : ℕ) (dt : Datatype) : (floatConst bits dt).type = .float := rfl

theorem fits_cInt {node : Node} (h : node.itype.isCfg = false) : Fits node (sccpCInt node) := by
  unfold sccpCInt
  split_ifs with hf hi
  · exact ⟨canon_floatConst _ _, by simp [floatConst_type], by simp [h]⟩
  · rw [sext_eq_wrap hi]
    exact fits_const h hi
      ((dtToLattice_contains_iff hi).2 (wrap_mem (Datatype.bits_pos hi) node.cIntValue))
  · exact fits_top node

/-- How `sccpCompute` treats a node: the one case analysis over the kinds. -/
inductive SccpRule (prc : Proc) (id : NodeId) : Prop
  /-- It does not look at any lattice. -/
  | const (c : Lattice) (hc : Fits (prc.getNode id) c) (h : ∀ L, sccpCompute prc L id = c)
  | forward (hf : forwards (prc.getNode id).itype = true)
      (h : ∀ L, sccpCompute prc L id = L ((prc.getNode id).inp 0))
  | branch (hf : forwards (prc.getNode id).itype = true)
      (ht : (prc.getNode id).itype = .then_ ∨ (prc.getNode id).itype = .else_)
      (h : ∀ L, sccpCompute prc L id =
        if (L ((prc.getNode id).inp 0)).dead = true then L ((prc.getNode id).inp 0)
        else sccpBranch prc L (prc.getNode id) (L ((prc.getNode id).inp 0)))
  | bin (op : BinOp) (ht : (prc.getNode id).itype = .bin op)
      (hv : (prc.getNode id).dt.isVector = false)
      (h : ∀ L, sccpCompute prc L id = sccpBinOp prc L (prc.getNode id) op)
  | select (ht : (prc.getNode id).itype = .select)
      (h : ∀ L, sccpCompute prc L id = sccpSelect L (prc.getNode id))
  | phi (ht : (prc.getNode id).itype = .phi)
      (h : ∀ L, sccpCompute prc L id = sccpPhi prc L (prc.getNode id) (L id))
  | region (ht : (prc.getNode id).itype = .region)
      (h : ∀ L, sccpCompute prc L id =
        (prc.getNode id).inps.foldl (fun res inp => latticeMeet res (L inp)) (.ofCtrl true))

theorem sccpRule (prc : Proc) (id : NodeId) : SccpRule prc id := by
  have hother (hcfg : (prc.getNode id).itype.isCfg = false)
      (h : ∀ L, sccpCompute prc L id = orDatatype (prc.getNode id) {}) : SccpRule prc id :=
    .const _ (fits_orDatatype hcfg (fits_top _)) h
  cases ht : (prc.getNode id).itype
  case nil => exact .const (.ofCtrl true) (fits_ctrl true) fun L => by simp [sccpCompute, ht, forwards]
  case cInt =>
    have hcfg : (prc.getNode id).itype.isCfg = false := by rw [ht]; rfl
    exact .const _ (fits_orDatatype hcfg (fits_cInt hcfg))
      fun L => by simp [sccpCompute, ht, forwards, NodeType.isCfg]
  case bin op =>
    by_cases hv : (prc.getNode id).dt.isVector = true
    · exact hother (by rw [ht]; rfl) fun L => by simp [sccpCompute, ht, hv, forwards, NodeType.isCfg]
    · exact .bin op ht (Bool.not_eq_true _ ▸ hv)
        fun L => by simp [sccpCompute, ht, hv, forwards, NodeType.isCfg]
  case select => exact .select ht fun L => by simp [sccpCompute, ht, forwards, NodeType.isCfg]
  case phi => exact .phi ht fun L => by simp [sccpCompute, ht, forwards, NodeType.isCfg]
  case mem =>
    exact .const { type := .mem } ⟨.mem, by simp, by simp [ht, NodeType.isCfg]⟩
      fun L => by simp [sccpCompute, ht, forwards, NodeType.isCfg]
  case entry =>
    exact .const (.ofCtrl false) (fits_ctrl false)
      fun L => by simp [sccpCompute, ht, forwards, Lattice.ofCtrl]
  case region => exact .region ht fun L => by simp [sccpCompute, ht, forwards]
  case then_ | else_ =>
    exact .branch (by rw [ht]; rfl) (by simp [ht])
      fun L => by simp [sccpCompute, ht, forwards, NodeType.isCfg]
  case loop | callEnd | if_ | jump | trap | call | always | return_ =>
    exact .forward (by rw [ht]; rfl) fun L => by simp [sccpCompute, ht, forwards, NodeType.isCfg]
  all_goals
    exact hother (by rw [ht]; rfl) fun L => by simp [sccpCompute, ht, forwards, NodeType.isCfg]

section

variable (hL : ∀ id, Fits (prc.getNode id) (L id))

include hT hL

theorem operandsFit {id : NodeId} {op : BinOp} (h : (prc.getNode id).itype = .bin op) :
    OperandsFit (L ((prc.getNode id).inp 0)) op (L ((prc.getNode id).inp 1))
      (prc.operationDatatype (prc.getNode id)) where
  canon_left := (hL _).canon
  canon_right := (hL _).canon
  left := fun _ ht => by
    obtain ⟨hi, hs⟩ := (hL _).int ht
    exact hs.trans ((hT.bin_left id op h).sub hi)
  right := fun _ hop ht => by
    obtain ⟨hi, hs⟩ := (hL _).int ht
    exact hs.trans ((hT.bin_right id op h hop).sub hi)

omit hT hL in
theorem boolLattice_sub {dt : Datatype} (h : dt.isInt = true) : boolLattice.Sub (dtToLattice dt) := by
  obtain rfl | rfl | rfl | rfl := Datatype.isInt_cases h <;> exact ⟨by decide, by decide⟩

omit hT hL in
/-- An interval comes from a comparison or from an integer operation. -/
theorem foldBinOpLattice_type_int {a b : Lattice} {op : BinOp} {ty : Datatype}
    (h : (foldBinOpLattice a op b ty).type = .int) : (resLattice op ty).type = .int := by
  by_cases hop : op.isComparison = true
  · simp only [resLattice, hop, ↓reduceIte]
    rfl
  rw [foldBinOpLattice_eq] at h
  split_ifs at h with h1 h2 h3
  · rw [Bool.not_eq_true] at hop
    have hfl := (canon_foldFloatLattice h2 a op b).1
    have hdt := dtToLattice_float h2
    rcases (Lattice.isa_iff hfl (canon_resLattice op ty)).1 (foldFloatLattice_isa h2 a op b) with
      ht | ht | ⟨ht, -⟩
    · simp [h] at ht
    · simp [resLattice, hop, hdt] at ht
    · rw [← ht, h]
  · simp only [resLattice, hop, Bool.false_eq_true, ↓reduceIte]
    exact dtToLattice_type h3.1
  · exact h

theorem fits_binOp {id : NodeId} {op : BinOp} (h : (prc.getNode id).itype = .bin op)
    (hv : (prc.getNode id).dt.isVector = false) :
    Fits (prc.getNode id) (sccpBinOp prc L (prc.getNode id) op) := by
  have hcfg : (prc.getNode id).itype.isCfg = false := by rw [h]; rfl
  have hcmp (hop : op.isComparison = true) : (prc.getNode id).dt.isInt = true :=
    (hT.bin_dt id op h hop).resolve_right (by simp [hv])
  have hof := operandsFit hT hL h
  simp only [sccpBinOp]
  split_ifs with hc
  · have hi := hcmp hc.2.2.2.1
    exact fits_const hcfg hi ((boolLattice_sub hi).contains (boolLattice_contains _))
  · have hcan := hof.canon_fold.1
    refine ⟨hcan, fun ht => ?_, by simp [hcfg]⟩
    have hres := foldBinOpLattice_type_int ht
    have hs := (Lattice.isa_int_iff hcan (canon_resLattice _ _) ht hres).1 hof.fold_isa
    by_cases hop : op.isComparison = true
    · simp only [resLattice, hop, ↓reduceIte] at hs
      exact ⟨hcmp hop, Lattice.Sub.trans hs (boolLattice_sub (hcmp hop))⟩
    · have hty : prc.operationDatatype (prc.getNode id) = (prc.getNode id).dt := by
        simp [Proc.operationDatatype, h, hop, hv]
      rw [Bool.not_eq_true] at hop
      simp only [resLattice, hop, Bool.false_eq_true, ↓reduceIte, hty] at hs hres
      rw [hty]
      refine ⟨?_, hs⟩
      cases hd : (prc.getNode id).dt <;> simp_all [dtToLattice, Datatype.isInt]

theorem fits_select {id : NodeId} (h : (prc.getNode id).itype = .select) :
    Fits (prc.getNode id) (sccpSelect L (prc.getNode id)) := by
  have hcfg : (prc.getNode id).itype.isCfg = false := by rw [h]; rfl
  have hi (i : ℕ) (hlt : i < 2) : Fits (prc.getNode id) (L ((prc.getNode id).inp i)) :=
    (hL _).of_dt (hT.select_inp id h i hlt) hcfg
  simp only [sccpSelect]
  split_ifs
  · exact fits_top _
  · exact hi 1 (by norm_num)
  · exact hi 0 (by norm_num)
  · exact fits_meet (hi 0 (by norm_num)) (hi 1 (by norm_num))

/-- Widening stays in the datatype. -/
theorem fits_phi {id : NodeId} (h : (prc.getNode id).itype = .phi) (curr : Lattice) :
    Fits (prc.getNode id) (sccpPhi prc L (prc.getNode id) curr) := by
  have hcfg : (prc.getNode id).itype.isCfg = false := by rw [h]; rfl
  unfold sccpPhi
  split_ifs
  · exact fits_top _
  obtain ⟨hc, hw, hi⟩ := phiBase_spec hT hL h
  generalize phiBase prc L (prc.getNode id) = base at hc hw hi
  by_cases ht : base.type = .int
  · obtain ⟨hdt, hs⟩ := hi ht
    have e : base = .ofBounds base.min base.max := by
      cases hc <;> cases ht
      simp_all [Lattice.ofBounds]
    have hb := hc.bounds
    have hle := hc.min_le_max
    have hd := (canon_dtToLattice (prc.getNode id).dt).bounds
    have hdle := (canon_dtToLattice (prc.getNode id).dt).min_le_max
    have hfit (w : ℕ) : Fits (prc.getNode id) { base with widens := w } := by
      refine ⟨?_, fun _ => ⟨hdt, hs⟩, by simp [hcfg]⟩
      rw [e]
      exact .int w hb.1.1 hle hb.2.2
    rw [phiWiden, if_pos ht]
    dsimp only
    split_ifs
    · refine ⟨?_, fun _ => ⟨hdt, .refl _⟩, by simp [hcfg]⟩
      rw [e]
      exact .int _ hd.1.1 hdle hd.2.2
    · exact hfit _
    · exact hfit _
  · rw [phiWiden, if_neg ht]
    exact ⟨hc, fun hc => absurd hc ht, by simp [hcfg]⟩

theorem fits_region {id : NodeId} (h : (prc.getNode id).itype = .region) :
    Fits (prc.getNode id)
      ((prc.getNode id).inps.foldl (fun res inp => latticeMeet res (L inp)) (.ofCtrl true)) := by
  have hin := hT.region_inp id h
  generalize (prc.getNode id).inps = inps at hin ⊢
  suffices ∀ acc, Fits (prc.getNode id) acc →
      Fits (prc.getNode id) (inps.foldl (fun res inp => latticeMeet res (L inp)) acc) from
    this _ (fits_ctrl true)
  intro acc hacc
  induction inps generalizing acc with
  | nil => exact hacc
  | cons i is ih =>
    refine ih (fun j hj => hin j (List.mem_cons_of_mem _ hj)) _ (fits_meet hacc ?_)
    have hc := (hL i).cfg (hin i List.mem_cons_self)
    exact ⟨(hL i).canon, fun ht => by simp [ht] at hc, fun _ => hc⟩

/-- Control that is passed on. -/
theorem fits_forward {id : NodeId} (h : forwards (prc.getNode id).itype = true) :
    Fits (prc.getNode id) (L ((prc.getNode id).inp 0)) := by
  have hc := (hL _).cfg (hT.cfg_inp id h)
  exact ⟨(hL _).canon, fun ht => by simp [ht] at hc, fun _ => hc⟩

theorem fits_branch {id : NodeId} (h : forwards (prc.getNode id).itype = true) :
    Fits (prc.getNode id)
      (sccpBranch prc L (prc.getNode id) (L ((prc.getNode id).inp 0))) := by
  have hf := fits_forward hT hL h
  simp only [sccpBranch]
  split_ifs with h1 h2 h3
  · exact hf
  · rw [hf.canon.eq_ctrl (not_ne_iff.1 h1)]
    exact fits_ctrl true
  · rw [hf.canon.eq_ctrl (not_ne_iff.1 h1)]
    exact fits_ctrl _
  · exact hf

theorem fits_sccpCompute (id : NodeId) : Fits (prc.getNode id) (sccpCompute prc L id) := by
  cases sccpRule prc id with
  | const c hc h => exact h L ▸ hc
  | forward hf h => exact h L ▸ fits_forward hT hL hf
  | branch hf ht h =>
    rw [h L]
    split_ifs
    · exact fits_forward hT hL hf
    · exact fits_branch hT hL hf
  | bin op ht hv h => exact h L ▸ fits_binOp hT hL ht hv
  | select ht h => exact h L ▸ fits_select hT hL ht
  | phi ht h => exact h L ▸ fits_phi hT hL ht _
  | region ht h => exact h L ▸ fits_region hT hL ht

end

end Graph

end OdinSon
