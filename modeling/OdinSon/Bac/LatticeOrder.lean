import OdinSon.Bac.Lattice

/-!
# The order of the lattice

The lattices that occur in the solver are `Canon`: the fields that their kind does not use are
zero, an interval is not empty, and no float lattice is both a NaN and not a NaN.  On them `isa`
is a preorder that compares everything but `widens`.

`LatLe` refines it: a lattice that only changes its counter may do so by clearing it.  This is the
order in which the solver goes up, since a `Select` copies the lattice of a `Phi` with its
counter.  `Lattice.rank` goes up strictly along it.
-/

namespace OdinSon

open MachInt

/-- A lattice whose unused fields are zero. -/
inductive Lattice.Canon : Lattice → Prop
  | top : Canon {}
  | bot : Canon { type := .bot }
  | mem : Canon { type := .mem }
  | ctlr (d : Bool) : Canon (.ofCtrl d)
  | int {lo hi : ℤ} (w : ℕ) (hlo : -2 ^ 63 ≤ lo) (hle : lo ≤ hi) (hhi : hi < 2 ^ 63) :
      Canon { Lattice.ofBounds lo hi with widens := w }
  | float (n ni pi z : Bool) (nan : Bool) (h : (nan && n) = false) :
      Canon { type := .float, isNotNan := n, isNotNinf := ni, isNotPinf := pi, isNotZero := z,
              isNan := nan }

namespace Lattice

/-- The lattice without its counter. -/
def bare (l : Lattice) : Lattice := { l with widens := 0 }

variable {a b c : Lattice}

theorem canon_ofBounds {lo hi : ℤ} (hlo : -2 ^ 63 ≤ lo) (hle : lo ≤ hi) (hhi : hi < 2 ^ 63) :
    (Lattice.ofBounds lo hi).Canon := .int 0 hlo hle hhi

/-- Only intervals are counted. -/
theorem Canon.widens_eq_zero (h : a.Canon) (ht : a.type ≠ .int) : a.widens = 0 := by
  cases h <;> first | rfl | exact absurd rfl ht

theorem Canon.eq_top (h : a.Canon) (ht : a.type = .top) : a = {} := by
  cases h <;> first | rfl | cases ht

theorem Canon.eq_bot (h : a.Canon) (ht : a.type = .bot) : a = { type := .bot } := by
  cases h <;> first | rfl | cases ht

theorem Canon.eq_ctrl (h : a.Canon) (ht : a.type = .ctlr) : a = .ofCtrl a.dead := by
  cases h <;> first | rfl | cases ht

theorem Canon.min_le_max (h : a.Canon) : a.min ≤ a.max := by
  cases h <;> first | exact le_rfl | assumption

/-! ### `isa` on canonical lattices -/

theorem isa_top (b : Lattice) : isa {} b = true := by
  simp [isa, latticeMeet]

theorem isa_refl (ha : a.Canon) : isa a a = true := by
  cases ha <;> simp [isa, latticeMeet, ofCtrl, ofBounds]

/-- The fields of `b` say no more than those of `a`. -/
@[mk_iff]
structure FieldsLe (a b : Lattice) : Prop where
  min : b.min ≤ a.min
  max : a.max ≤ b.max
  isNotNan : b.isNotNan = true → a.isNotNan = true
  isNotNinf : b.isNotNinf = true → a.isNotNinf = true
  isNotPinf : b.isNotPinf = true → a.isNotPinf = true
  isNotZero : b.isNotZero = true → a.isNotZero = true
  isNan : b.isNan = true → a.isNan = true
  dead : b.dead = true → a.dead = true

theorem FieldsLe.trans (h : FieldsLe a b) (h' : FieldsLe b c) : FieldsLe a c where
  min := h'.min.trans h.min
  max := h.max.trans h'.max
  isNotNan := h.isNotNan ∘ h'.isNotNan
  isNotNinf := h.isNotNinf ∘ h'.isNotNinf
  isNotPinf := h.isNotPinf ∘ h'.isNotPinf
  isNotZero := h.isNotZero ∘ h'.isNotZero
  isNan := h.isNan ∘ h'.isNan
  dead := h.dead ∘ h'.dead

theorem FieldsLe.antisymm (h : FieldsLe a b) (h' : FieldsLe b a) (ht : a.type = b.type) :
    a.bare = b.bare := by
  have hmin := le_antisymm h'.min h.min
  have hmax := le_antisymm h.max h'.max
  simp only [bare, Lattice.mk.injEq, and_true, hmin, hmax, ht, true_and]
  exact ⟨Bool.eq_iff_iff.2 ⟨h'.isNotNan, h.isNotNan⟩, Bool.eq_iff_iff.2 ⟨h'.isNotNinf, h.isNotNinf⟩,
    Bool.eq_iff_iff.2 ⟨h'.isNotPinf, h.isNotPinf⟩, Bool.eq_iff_iff.2 ⟨h'.isNotZero, h.isNotZero⟩,
    Bool.eq_iff_iff.2 ⟨h'.isNan, h.isNan⟩, Bool.eq_iff_iff.2 ⟨h'.dead, h.dead⟩⟩

/-- `isa` compares the kinds, and the fields within a kind. -/
theorem isa_iff (ha : a.Canon) (hb : b.Canon) :
    isa a b = true ↔ a.type = .top ∨ b.type = .bot ∨ a.type = b.type ∧ FieldsLe a b := by
  have hand (p q : Bool) : (p && q) = q ↔ (q = true → p = true) := by
    cases p <;> cases q <;> simp
  cases ha <;> cases hb <;>
    simp [isa, latticeMeet, ofCtrl, ofBounds, Lattice.ext_iff, hand, fieldsLe_iff]

theorem isa_int_iff (ha : a.Canon) (hb : b.Canon) (hta : a.type = .int) (htb : b.type = .int) :
    isa a b = true ↔ b.min ≤ a.min ∧ a.max ≤ b.max := by
  cases ha <;> cases hta
  cases hb <;> cases htb
  simp [isa, latticeMeet, ofBounds, Lattice.ext_iff]

theorem isa_trans (ha : a.Canon) (hb : b.Canon) (hc : c.Canon) (h : isa a b = true)
    (h' : isa b c = true) : isa a c = true := by
  rw [isa_iff ha hb] at h
  rw [isa_iff hb hc] at h'
  rw [isa_iff ha hc]
  rcases h with h | h | ⟨h, hf⟩
  · exact .inl h
  · rcases h' with h' | h' | ⟨h', -⟩
    · simp [h] at h'
    · exact .inr (.inl h')
    · exact .inr (.inl (h'.symm.trans h))
  · rcases h' with h' | h' | ⟨h', hf'⟩
    · exact .inl (h.trans h')
    · exact .inr (.inl h')
    · exact .inr (.inr ⟨h.trans h', hf.trans hf'⟩)

theorem isa_antisymm (ha : a.Canon) (hb : b.Canon) (h : isa a b = true) (h' : isa b a = true) :
    a.bare = b.bare := by
  have htop {x y : Lattice} (hx : x.Canon) (hy : y.Canon) (h : isa x y = true)
      (ht : y.type = .top) : x.type = .top := by
    rw [isa_iff hx hy] at h
    rcases h with h | h | ⟨h, -⟩
    · exact h
    · simp [ht] at h
    · exact h.trans ht
  have hbot {x y : Lattice} (hx : x.Canon) (hy : y.Canon) (h : isa x y = true)
      (ht : x.type = .bot) : y.type = .bot := by
    rw [isa_iff hx hy] at h
    rcases h with h | h | ⟨h, -⟩
    · simp [ht] at h
    · exact h
    · exact h.symm.trans ht
  by_cases h1 : a.type = .top
  · rw [ha.eq_top h1, hb.eq_top (htop hb ha h' h1)]
  by_cases h2 : b.type = .top
  · exact absurd (htop ha hb h h2) h1
  by_cases h3 : b.type = .bot
  · rw [hb.eq_bot h3, ha.eq_bot (hbot hb ha h' h3)]
  by_cases h4 : a.type = .bot
  · exact absurd (hbot ha hb h h4) h3
  rw [isa_iff ha hb] at h
  rw [isa_iff hb ha] at h'
  simp only [h1, h2, h3, h4, false_or] at h h'
  exact h.2.antisymm h'.2 h.1

theorem eq_of_bare (h : a.bare = b.bare) (hw : a.widens = b.widens) : a = b := by
  simp only [bare, Lattice.mk.injEq, and_true] at h
  rw [Lattice.ext_iff]
  exact ⟨h.1, h.2.1, h.2.2.1, h.2.2.2.1, h.2.2.2.2.1, h.2.2.2.2.2.1, h.2.2.2.2.2.2.1,
    h.2.2.2.2.2.2.2.1, h.2.2.2.2.2.2.2.2, hw⟩

/-! ### The order of the solver -/

/-- `b` covers `a`, and differs in more than the counter or has it cleared. -/
def LatLe (a b : Lattice) : Prop :=
  isa a b = true ∧ (a.bare = b.bare → b.widens = a.widens ∨ b.widens = 0)

theorem LatLe.refl (ha : a.Canon) : LatLe a a := ⟨isa_refl ha, fun _ => .inl rfl⟩

theorem LatLe.of_isa (h : isa a b = true) (hb : b.widens = 0) : LatLe a b := ⟨h, fun _ => .inr hb⟩

theorem LatLe.trans (ha : a.Canon) (hb : b.Canon) (hc : c.Canon) (h : LatLe a b)
    (h' : LatLe b c) : LatLe a c := by
  refine ⟨isa_trans ha hb hc h.1 h'.1, fun hac => ?_⟩
  have hca : isa c a = true := by
    have : isa c a.bare = true := hac ▸ isa_refl hc
    exact this
  have hab : a.bare = b.bare := isa_antisymm ha hb h.1 (isa_trans hb hc ha h'.1 hca)
  have h1 := h.2 hab
  have h2 := h'.2 (hab.symm.trans hac)
  omega

/-- The height of a lattice: strictly increasing, and at most `2 ^ 67`. -/
def rank (l : Lattice) : ℕ :=
  match l.type with
  | .top => 0
  | .bot => 2 ^ 67
  | _ => 2 * (1 + (l.max - l.min).toNat + (!l.isNotNan).toNat + (!l.isNotNinf).toNat +
      (!l.isNotPinf).toNat + (!l.isNotZero).toNat + (!l.isNan).toNat + (!l.dead).toNat) +
      (decide (l.widens = 0)).toNat

theorem rank_of_type (h : a.type ≠ .top) (h' : a.type ≠ .bot) :
    a.rank = 2 * (1 + (a.max - a.min).toNat + (!a.isNotNan).toNat + (!a.isNotNinf).toNat +
      (!a.isNotPinf).toNat + (!a.isNotZero).toNat + (!a.isNan).toNat + (!a.dead).toNat) +
      (decide (a.widens = 0)).toNat := by
  cases ht : a.type <;> simp_all [rank]

theorem toNat_not_le {p q : Bool} (h : q = true → p = true) : (!p).toNat ≤ (!q).toNat := by
  cases p <;> cases q <;> simp_all

theorem eq_of_toNat_not {p q : Bool} (h : (!p).toNat = (!q).toNat) : p = q := by
  cases p <;> cases q <;> simp_all

/-- Within a kind the height grows, and stays the same only when the fields do. -/
theorem FieldsLe.rank_lt (h : FieldsLe a b) (ha : a.Canon) (ht : a.type = b.type)
    (h1 : a.type ≠ .top) (h2 : a.type ≠ .bot) (hne : a ≠ b)
    (hw : a.bare = b.bare → b.widens = a.widens ∨ b.widens = 0) : a.rank < b.rank := by
  have hle := ha.min_le_max
  have hmin := h.min
  have hmax := h.max
  have e1 := toNat_not_le h.isNotNan
  have e2 := toNat_not_le h.isNotNinf
  have e3 := toNat_not_le h.isNotPinf
  have e4 := toNat_not_le h.isNotZero
  have e5 := toNat_not_le h.isNan
  have e6 := toNat_not_le h.dead
  have e7 := Bool.toNat_le (decide (a.widens = 0))
  rw [rank_of_type h1 h2, rank_of_type (ht ▸ h1) (ht ▸ h2)]
  by_cases hbare : a.bare = b.bare
  · have hwne : a.widens ≠ b.widens := fun hc => hne (eq_of_bare hbare hc)
    have hb0 : b.widens = 0 := (hw hbare).resolve_left (Ne.symm hwne)
    simp only [hb0, show a.widens ≠ 0 by omega, decide_true, decide_false, Bool.toNat_true,
      Bool.toNat_false]
    omega
  · by_contra hc
    apply hbare
    simp only [bare, Lattice.mk.injEq, and_true]
    exact ⟨by omega, by omega, ht, eq_of_toNat_not (by omega), eq_of_toNat_not (by omega),
      eq_of_toNat_not (by omega), eq_of_toNat_not (by omega), eq_of_toNat_not (by omega),
      eq_of_toNat_not (by omega)⟩

theorem rank_pos (h : a.type ≠ .top) : 0 < a.rank := by
  by_cases hb : a.type = .bot
  · simp only [rank, hb]
    decide
  · rw [rank_of_type h hb]
    omega

theorem Canon.rank_lt_bot (ha : a.Canon) (h : a.type ≠ .bot) : a.rank < 2 ^ 67 := by
  have hb (p : Bool) : p.toNat ≤ 1 := Bool.toNat_le p
  cases ha with
  | top => decide
  | bot => exact absurd rfl h
  | mem => decide
  | ctlr d => cases d <;> decide
  | int w hlo hle hhi =>
    have := hb (decide (w = 0))
    simp only [rank, ofBounds, Bool.not_false, Bool.toNat_true]
    omega
  | float n ni pi z nan h =>
    have h1 := hb (!n)
    have h2 := hb (!ni)
    have h3 := hb (!pi)
    have h4 := hb (!z)
    have h5 := hb (!nan)
    simp only [rank, Bool.not_false, Bool.toNat_true, decide_true]
    omega

theorem Canon.rank_le (ha : a.Canon) : a.rank ≤ 2 ^ 67 := by
  by_cases h : a.type = .bot
  · rw [ha.eq_bot h]
    rfl
  · exact (ha.rank_lt_bot h).le

/-- The height goes up strictly in the order of the solver. -/
theorem LatLe.rank_lt (h : LatLe a b) (ha : a.Canon) (hb : b.Canon) (hne : a ≠ b) :
    a.rank < b.rank := by
  obtain ⟨hisa, hw⟩ := h
  by_cases ht : a.type = .top
  · obtain rfl := ha.eq_top ht
    exact rank_pos fun hc => hne (hb.eq_top hc).symm
  by_cases hbb : b.type = .bot
  · obtain rfl := hb.eq_bot hbb
    exact ha.rank_lt_bot fun hc => hne (ha.eq_bot hc)
  rw [isa_iff ha hb] at hisa
  simp only [ht, hbb, false_or] at hisa
  exact hisa.2.rank_lt ha hisa.1 ht (hisa.1 ▸ hbb) hne hw

/-! ### The meet -/

theorem meet_top_left (b : Lattice) : latticeMeet {} b = b := by simp [latticeMeet]

theorem meet_top_right (ha : a.Canon) : latticeMeet a {} = a := by
  cases ha <;> simp [latticeMeet, ofCtrl, ofBounds]

theorem isa_top_right (ha : a.Canon) (h : isa a {} = true) : a = {} := by
  rw [isa_iff ha .top] at h
  rcases h with h | h | h
  · exact ha.eq_top h
  · cases h
  · exact ha.eq_top h.1

theorem Canon.meet (ha : a.Canon) (hb : b.Canon) : (latticeMeet a b).Canon := by
  cases ha with
  | top => rwa [meet_top_left]
  | bot => cases hb <;> exact .bot
  | mem => cases hb <;> first | exact .bot | exact .mem
  | ctlr d => cases hb <;> first | exact .bot | exact .ctlr _
  | int w hlo hle hhi =>
    cases hb with
    | top => exact .int w hlo hle hhi
    | int w' hlo' hle' hhi' =>
      exact .int 0 (le_min hlo hlo') ((min_le_left _ _).trans (hle.trans (le_max_left _ _)))
        (max_lt hhi hhi')
    | _ => exact .bot
  | float n ni pi z nan h =>
    cases hb with
    | top => exact .float n ni pi z nan h
    | float n' ni' pi' z' nan' h' =>
      refine .float _ _ _ _ _ ?_
      cases n <;> cases nan <;> simp_all
    | _ => exact .bot

theorem isa_meet_left (ha : a.Canon) (hb : b.Canon) : isa a (latticeMeet a b) = true := by
  rw [isa_iff ha (ha.meet hb)]
  cases ha <;> cases hb <;> simp [latticeMeet, ofCtrl, ofBounds, fieldsLe_iff] <;> grind

theorem isa_meet_right (ha : a.Canon) (hb : b.Canon) : isa b (latticeMeet a b) = true := by
  rw [isa_iff hb (ha.meet hb)]
  cases ha <;> cases hb <;> simp [latticeMeet, ofCtrl, ofBounds, fieldsLe_iff]

/-- The meet is the least lattice that covers both. -/
theorem meet_isa (ha : a.Canon) (hb : b.Canon) (hc : c.Canon) (h : isa a c = true)
    (h' : isa b c = true) : isa (latticeMeet a b) c = true := by
  rw [isa_iff ha hc] at h
  rw [isa_iff hb hc] at h'
  rw [isa_iff (ha.meet hb) hc]
  cases ha <;> cases hb <;> cases hc <;>
    simp_all [latticeMeet, ofCtrl, ofBounds, fieldsLe_iff]

/-- Only a copied interval keeps its counter. -/
theorem widens_meet (ha : a.Canon) (hb : b.Canon) :
    (latticeMeet a b).widens = 0 ∨ a = {} ∨ b = {} := by
  cases ha <;> cases hb <;> simp [latticeMeet, ofCtrl, ofBounds]

theorem LatLe.meet_left (ha : a.Canon) (hb : b.Canon) : LatLe a (latticeMeet a b) := by
  rcases widens_meet ha hb with h | rfl | rfl
  · exact .of_isa (isa_meet_left ha hb) h
  · refine ⟨isa_top _, fun h => .inl ?_⟩
    rw [meet_top_left] at h ⊢
    rw [hb.eq_top (congrArg Lattice.type h).symm]
  · rw [meet_top_right ha]
    exact .refl ha

theorem LatLe.meet_right (ha : a.Canon) (hb : b.Canon) : LatLe b (latticeMeet a b) := by
  rcases widens_meet ha hb with h | rfl | rfl
  · exact .of_isa (isa_meet_right ha hb) h
  · rw [meet_top_left]
    exact .refl hb
  · refine ⟨isa_top _, fun h => .inl ?_⟩
    rw [meet_top_right ha] at h ⊢
    rw [ha.eq_top (congrArg Lattice.type h).symm]

theorem LatLe.top (hb : b.Canon) : LatLe {} b := by
  refine ⟨isa_top b, fun h => .inl ?_⟩
  rw [hb.eq_top (congrArg Lattice.type h).symm]

theorem LatLe.meet_mono {a' b' : Lattice} (ha : a.Canon) (hb : b.Canon) (ha' : a'.Canon)
    (hb' : b'.Canon) (h : LatLe a a') (h' : LatLe b b') :
    LatLe (latticeMeet a b) (latticeMeet a' b') := by
  rcases widens_meet ha' hb' with hw | rfl | rfl
  · have hm := ha'.meet hb'
    exact .of_isa (meet_isa ha hb hm (isa_trans ha ha' hm h.1 (isa_meet_left ha' hb'))
      (isa_trans hb hb' hm h'.1 (isa_meet_right ha' hb'))) hw
  · rw [isa_top_right ha h.1, meet_top_left, meet_top_left]
    exact h'
  · rw [isa_top_right hb h'.1, meet_top_right ha, meet_top_right ha']
    exact h

end Lattice

end OdinSon
