import OdinSon.Ssa.FoldLatticeMono

/-!
# Folding on canonical lattices

`foldBinOpLattice` keeps lattices canonical and below the widest lattice of the operator, and it
is monotone for `isa`: the part on integers comes from `foldIntLattice_mono`, the part on floats
from the flags.
-/

namespace OdinSon

open MachInt

/-- The lattice `fold_bin_op_lattice` starts from. -/
def resLattice (op : BinOp) (ty : Datatype) : Lattice :=
  if op.isComparison then boolLattice else dtToLattice ty

theorem canon_dtToLattice (ty : Datatype) : (dtToLattice ty).Canon := by
  cases ty
  case i8 | i16 | i32 | i64 => exact Lattice.canon_ofBounds (by norm_num) (by norm_num) (by norm_num)
  case f32 | f64 => exact .float false false false false false rfl
  all_goals exact .bot

theorem canon_boolConst (p : Bool) : (Lattice.ofBounds (boolToInt p) (boolToInt p)).Canon :=
  Lattice.canon_ofBounds (by cases p <;> decide) le_rfl (by cases p <;> decide)

theorem canon_resLattice (op : BinOp) (ty : Datatype) : (resLattice op ty).Canon := by
  unfold resLattice
  split_ifs
  · exact Lattice.canon_ofBounds (by norm_num) (by norm_num) (by norm_num)
  · exact canon_dtToLattice ty

theorem widens_resLattice (op : BinOp) (ty : Datatype) : (resLattice op ty).widens = 0 := by
  unfold resLattice
  split_ifs
  · rfl
  · cases ty <;> rfl

theorem foldBinOpLattice_eq (a : Lattice) (op : BinOp) (b : Lattice) (ty : Datatype) :
    foldBinOpLattice a op b ty =
      if a.type = .top ∨ b.type = .top then {}
      else if ty.isFloat then foldFloatLattice a op b (resLattice op ty)
      else if ty.isInt ∧ a.type = .int ∧ b.type = .int then foldIntLattice a op b ty
      else resLattice op ty := by
  simp only [foldBinOpLattice, resLattice]
  split_ifs <;> simp_all

/-- What the operands of an integer operator have to satisfy: their intervals are those of the
datatype, a shift count apart. -/
structure OperandsFit (a : Lattice) (op : BinOp) (b : Lattice) (ty : Datatype) : Prop where
  canon_left : a.Canon
  canon_right : b.Canon
  left : ty.isInt = true → a.type = .int → a.Sub (dtToLattice ty)
  right : ty.isInt = true → op.isShift = false → b.type = .int → b.Sub (dtToLattice ty)

theorem Lattice.Canon.bounds {l : Lattice} (h : l.Canon) : InS 64 l.min ∧ InS 64 l.max := by
  cases h <;> refine ⟨⟨?_, ?_⟩, ⟨?_, ?_⟩⟩ <;> simp [Lattice.ofCtrl, Lattice.ofBounds] <;> omega

section

variable {a a' b b' : Lattice} {op : BinOp} {ty : Datatype}

theorem OperandsFit.foldIntLattice_sub (hf : OperandsFit a op b ty) (h : ty.isInt = true)
    (ha : a.type = .int) (hb : b.type = .int) : (foldIntLattice a op b ty).Sub (resLattice op ty) :=
  OdinSon.foldIntLattice_sub h (hf.left h ha) (fun hs => hf.right h hs hb) hf.canon_right.bounds

theorem OperandsFit.foldIntLattice_canon (hf : OperandsFit a op b ty) (h : ty.isInt = true)
    (ha : a.type = .int) (hb : b.type = .int) : (foldIntLattice a op b ty).Canon := by
  have hs := hf.foldIntLattice_sub h ha hb
  have hr := (canon_resLattice op ty).bounds
  have hi := foldIntLattice_isInterval h a op b
  have hle : (foldIntLattice a op b ty).min ≤ (foldIntLattice a op b ty).max := by
    by_cases ht : mayTrap a op b (dtToLattice ty) = true
    · rw [foldIntLattice, if_pos ht]
      exact (canon_resLattice op ty).min_le_max
    · have hx : a.Contains a.min := ⟨le_rfl, hf.canon_left.min_le_max⟩
      have hy : b.Contains b.min := ⟨le_rfl, hf.canon_right.min_le_max⟩
      obtain ⟨v, hv⟩ := machine_isSome h (hf.left h ha) (fun hs => hf.right h hs hb)
        (Bool.not_eq_true _ ▸ ht) hx hy
      have hc := foldIntLattice_contains h (hf.left h ha) (fun hs => hf.right h hs hb)
        hf.canon_right.bounds hx hy hv
      exact hc.1.trans hc.2
  rw [hi]
  exact Lattice.canon_ofBounds (hr.1.1.trans hs.1) hle (hs.2.trans_lt hr.2.2)

/-- When a float operator on operands that are no NaN gives none. -/
def floatNotNan (a : Lattice) (op : BinOp) (b : Lattice) : Bool :=
  match op with
  | .add => (a.isNotNinf || b.isNotPinf) && (a.isNotPinf || b.isNotNinf)
  | .sub => (a.isNotNinf || b.isNotNinf) && (a.isNotPinf || b.isNotPinf)
  | .mul =>
    (a.isNotNinf && a.isNotPinf || b.isNotZero) && (b.isNotNinf && b.isNotPinf || a.isNotZero)
  | .div =>
    (a.isNotZero || b.isNotZero) && (a.isNotNinf && a.isNotPinf || b.isNotNinf && b.isNotPinf)
  | _ => false

/-- `foldFloatLattice` on two float lattices. -/
theorem foldFloatLattice_eq (h : ty.isFloat = true) (ha : a.type = .float) (hb : b.type = .float) :
    foldFloatLattice a op b (resLattice op ty) =
      if op.isComparison then
        if a.isNan || b.isNan then .ofBounds (boolToInt (op = .ne)) (boolToInt (op = .ne))
        else boolLattice
      else if a.isNan || b.isNan then
        { type := .float, isNan := true, isNotNinf := true, isNotPinf := true, isNotZero := true }
      else if !a.isNotNan || !b.isNotNan then { type := .float }
      else { type := .float, isNotNan := floatNotNan a op b } := by
  have hdt := dtToLattice_float h
  simp only [foldFloatLattice, ha, hb, ne_eq, not_true_eq_false, or_self, ↓reduceIte, resLattice,
    hdt]
  cases hop : op.isComparison with
  | true =>
    simp only [↓reduceIte]
    rfl
  | false =>
    simp only [Bool.false_eq_true, ↓reduceIte]
    cases op <;> rfl

theorem foldFloatLattice_of_ne (h : a.type ≠ .float ∨ b.type ≠ .float) (res : Lattice) :
    foldFloatLattice a op b res = res := by
  rw [foldFloatLattice, if_pos h]

theorem canon_foldFloatLattice (h : ty.isFloat = true) (a : Lattice) (op : BinOp) (b : Lattice) :
    (foldFloatLattice a op b (resLattice op ty)).Canon ∧
      (foldFloatLattice a op b (resLattice op ty)).widens = 0 := by
  by_cases hab : a.type = .float ∧ b.type = .float
  · rw [foldFloatLattice_eq h hab.1 hab.2]
    split_ifs
    · exact ⟨canon_boolConst _, rfl⟩
    · exact ⟨Lattice.canon_ofBounds (by norm_num) (by norm_num) (by norm_num), rfl⟩
    · exact ⟨.float false true true true true rfl, rfl⟩
    · exact ⟨.float false false false false false rfl, rfl⟩
    · exact ⟨.float _ false false false false rfl, rfl⟩
  · rw [foldFloatLattice_of_ne (by tauto)]
    exact ⟨canon_resLattice op ty, widens_resLattice op ty⟩

/-- A folded float lattice is below the widest one. -/
theorem foldFloatLattice_isa (h : ty.isFloat = true) (a : Lattice) (op : BinOp) (b : Lattice) :
    isa (foldFloatLattice a op b (resLattice op ty)) (resLattice op ty) = true := by
  rw [Lattice.isa_iff (canon_foldFloatLattice h a op b).1 (canon_resLattice op ty)]
  refine .inr (.inr ?_)
  have hdt := dtToLattice_float h
  by_cases hab : a.type = .float ∧ b.type = .float
  · rw [foldFloatLattice_eq h hab.1 hab.2]
    unfold resLattice
    rw [hdt]
    split_ifs
    · have := ofBounds_bool_sub (decide (op = .ne)) (decide (op = .ne))
      simpa [Lattice.fieldsLe_iff, Lattice.ofBounds, boolLattice, Lattice.Sub] using this
    all_goals simp [Lattice.fieldsLe_iff]
  · rw [foldFloatLattice_of_ne (by tauto)]
    simp [Lattice.fieldsLe_iff]

theorem floatNotNan_mono (ha : Lattice.FieldsLe a a') (hb : Lattice.FieldsLe b b')
    (h : floatNotNan a' op b' = true) : floatNotNan a op b = true := by
  have h₁ := ha.isNotNinf
  have h₂ := ha.isNotPinf
  have h₃ := ha.isNotZero
  have h₄ := hb.isNotNinf
  have h₅ := hb.isNotPinf
  have h₆ := hb.isNotZero
  cases op <;> simp only [floatNotNan, Bool.and_eq_true, Bool.or_eq_true, Bool.false_eq_true] at h ⊢ <;>
    grind

theorem Lattice.Canon.not_nan {l : Lattice} (h : l.Canon) (hn : l.isNotNan = true) :
    l.isNan = false := by
  cases h <;> simp_all [Lattice.ofCtrl, Lattice.ofBounds]

theorem foldFloatLattice_mono (h : ty.isFloat = true) (ha : a.Canon) (hb : b.Canon)
    (hta : a.type = .float) (htb : b.type = .float) (hta' : a'.type = .float)
    (htb' : b'.type = .float) (haa : Lattice.FieldsLe a a') (hbb : Lattice.FieldsLe b b') :
    isa (foldFloatLattice a op b (resLattice op ty)) (foldFloatLattice a' op b' (resLattice op ty)) =
      true := by
  have hc := canon_foldFloatLattice h a op b
  have hisa := foldFloatLattice_isa h a op b
  have hdt := dtToLattice_float h
  have hn : (a'.isNan || b'.isNan) = true → (a.isNan || b.isNan) = true := by
    rw [Bool.or_eq_true, Bool.or_eq_true]
    exact Or.imp haa.isNan hbb.isNan
  by_cases hnan : (a'.isNan || b'.isNan) = true
  · have e : foldFloatLattice a op b (resLattice op ty) =
        foldFloatLattice a' op b' (resLattice op ty) := by
      rw [foldFloatLattice_eq h hta htb, foldFloatLattice_eq h hta' htb']
      simp only [hnan, hn hnan, ↓reduceIte]
    rw [← e]
    exact Lattice.isa_refl hc.1
  · cases hop : op.isComparison with
    | true =>
      rw [foldFloatLattice_eq h hta' htb', hop, if_pos rfl, if_neg hnan]
      simpa only [resLattice, hop, ↓reduceIte] using hisa
    | false =>
      rw [foldFloatLattice_eq h hta' htb', hop, if_neg (by simp), if_neg hnan]
      by_cases hnn : (!a'.isNotNan || !b'.isNotNan) = true
      · rw [if_pos hnn, ← hdt]
        simpa only [resLattice, hop, Bool.false_eq_true, ↓reduceIte] using hisa
      · rw [if_neg hnn]
        simp only [Bool.or_eq_true, Bool.not_eq_true', not_or, Bool.not_eq_false] at hnn
        have h1 := haa.isNotNan hnn.1
        have h2 := hbb.isNotNan hnn.2
        rw [foldFloatLattice_eq h hta htb, hop, if_neg (by simp),
          if_neg (by simp [ha.not_nan h1, hb.not_nan h2]), if_neg (by simp [h1, h2]),
          Lattice.isa_iff (.float _ false false false false rfl) (.float _ false false false false rfl)]
        refine .inr (.inr ⟨rfl, ?_⟩)
        simpa [Lattice.fieldsLe_iff] using floatNotNan_mono haa hbb

/-- A folded lattice is canonical, and not counted. -/
theorem OperandsFit.canon_fold (hf : OperandsFit a op b ty) :
    (foldBinOpLattice a op b ty).Canon ∧ (foldBinOpLattice a op b ty).widens = 0 := by
  rw [foldBinOpLattice_eq]
  split_ifs with h1 h2 h3
  · exact ⟨.top, rfl⟩
  · exact canon_foldFloatLattice h2 a op b
  · refine ⟨hf.foldIntLattice_canon h3.1 h3.2.1 h3.2.2, ?_⟩
    rw [foldIntLattice_isInterval h3.1 a op b]
    rfl
  · exact ⟨canon_resLattice op ty, widens_resLattice op ty⟩

theorem OperandsFit.foldIntLattice_isa (hf : OperandsFit a op b ty) (h : ty.isInt = true)
    (ha : a.type = .int) (hb : b.type = .int) :
    isa (foldIntLattice a op b ty) (resLattice op ty) = true := by
  have hres : (resLattice op ty).type = .int := by
    unfold resLattice
    split_ifs
    · rfl
    · exact dtToLattice_type h
  rw [Lattice.isa_int_iff (hf.foldIntLattice_canon h ha hb) (canon_resLattice op ty)
    (foldIntLattice_isInterval h a op b).type hres]
  exact hf.foldIntLattice_sub h ha hb

/-- A folded lattice is below the widest one of the operator. -/
theorem OperandsFit.fold_isa (hf : OperandsFit a op b ty) :
    isa (foldBinOpLattice a op b ty) (resLattice op ty) = true := by
  rw [foldBinOpLattice_eq]
  split_ifs with h1 h2 h3
  · exact Lattice.isa_top _
  · exact foldFloatLattice_isa h2 a op b
  · exact hf.foldIntLattice_isa h3.1 h3.2.1 h3.2.2
  · exact Lattice.isa_refl (canon_resLattice op ty)

/-- **Folding a binary operator is monotone** in the order of the solver. -/
theorem OperandsFit.fold_mono (hf : OperandsFit a op b ty) (hf' : OperandsFit a' op b' ty)
    (ha : isa a a' = true) (hb : isa b b' = true) :
    isa (foldBinOpLattice a op b ty) (foldBinOpLattice a' op b' ty) = true := by
  have hisa := hf.fold_isa
  have htop {x y : Lattice} (hx : x.Canon) (hxy : isa x y = true) (hne : x.type ≠ .top) (hy : y.Canon) :
      y.type ≠ .top := by
    intro hc
    rw [hy.eq_top hc] at hxy
    exact hne (congrArg Lattice.type (Lattice.isa_top_right hx hxy))
  by_cases h1 : a.type = .top ∨ b.type = .top
  · rw [foldBinOpLattice_eq a op b, if_pos h1]
    exact Lattice.isa_top _
  rw [not_or] at h1
  have h1' : ¬ (a'.type = .top ∨ b'.type = .top) := by
    rw [not_or]
    exact ⟨htop hf.canon_left ha h1.1 hf'.canon_left, htop hf.canon_right hb h1.2 hf'.canon_right⟩
  -- a lattice that is not `Top` has the kind of the one that covers it, unless that is `Bot`
  have hkind {x y : Lattice} (hx : x.Canon) (hy : y.Canon) (hxy : isa x y = true)
      (hne : x.type ≠ .top) (hb : y.type ≠ .bot) : x.type = y.type ∧ Lattice.FieldsLe x y := by
    rw [Lattice.isa_iff hx hy] at hxy
    exact (hxy.resolve_left hne).resolve_left hb
  rw [foldBinOpLattice_eq a' op b', if_neg h1']
  by_cases h2 : ty.isFloat = true
  · rw [if_pos h2]
    by_cases h3 : a'.type = .float ∧ b'.type = .float
    · obtain ⟨hta, hfa⟩ := hkind hf.canon_left hf'.canon_left ha h1.1 (by simp [h3.1])
      obtain ⟨htb, hfb⟩ := hkind hf.canon_right hf'.canon_right hb h1.2 (by simp [h3.2])
      rw [foldBinOpLattice_eq, if_neg (by tauto), if_pos h2]
      exact foldFloatLattice_mono h2 hf.canon_left hf.canon_right (hta.trans h3.1)
        (htb.trans h3.2) h3.1 h3.2 hfa hfb
    · rw [foldFloatLattice_of_ne (by tauto)]
      exact hisa
  · rw [if_neg h2]
    by_cases h3 : ty.isInt = true ∧ a'.type = .int ∧ b'.type = .int
    · obtain ⟨h3, h4, h5⟩ := h3
      obtain ⟨hta, hfa⟩ := hkind hf.canon_left hf'.canon_left ha h1.1 (by simp [h4])
      obtain ⟨htb, hfb⟩ := hkind hf.canon_right hf'.canon_right hb h1.2 (by simp [h5])
      have hta := hta.trans h4
      have htb := htb.trans h5
      rw [if_pos ⟨h3, h4, h5⟩, foldBinOpLattice_eq, if_neg (by tauto), if_neg h2,
        if_pos ⟨h3, hta, htb⟩,
        Lattice.isa_int_iff (hf.foldIntLattice_canon h3 hta htb) (hf'.foldIntLattice_canon h3 h4 h5)
          (foldIntLattice_isInterval h3 a op b).type (foldIntLattice_isInterval h3 a' op b').type]
      exact foldIntLattice_mono h3 (hf'.left h3 h4) (fun hs => hf'.right h3 hs h5)
        hf'.canon_right.bounds hf.canon_left.min_le_max hf.canon_right.min_le_max
        ⟨hfa.min, hfa.max⟩ ⟨hfb.min, hfb.max⟩
    · rw [if_neg h3]
      exact hisa

end

end OdinSon
