import OdinSon.Bac.Lattice

/-!
# The laws of the lattice

What a `Lattice` says is in the fields that its kind uses.  Up to the other fields and the counter
`latticeMeet` is the least upper bound of a partial order, which is `isa` on values whose other
fields are clear, and `latticeJoin` of two intervals is their intersection (`lattice_laws`).
-/

namespace OdinSon

namespace Lattice

/-- What a value says: the fields that its kind does not use are clear. -/
def used (l : Lattice) : Lattice :=
  match l.type with
  | .int => { type := .int, min := l.min, max := l.max }
  | .float =>
    { type := .float
      isNotNan := l.isNotNan
      isNotNinf := l.isNotNinf
      isNotPinf := l.isNotPinf
      isNotZero := l.isNotZero
      isNan := l.isNan }
  | .ctlr => { type := .ctlr, dead := l.dead }
  | t => { type := t }

/-- Values that say the same. -/
def Same (a b : Lattice) : Prop := a.used = b.used

/-- A value whose unused fields are clear. -/
def Clear (l : Lattice) : Prop := { l with widens := 0 } = l.used

/-- `isa` between values that say the same as these. -/
def IsaUpTo (a b : Lattice) : Prop :=
  ∃ a' b', Same a' a ∧ Same b' b ∧ isa a' b' = true

/-- The integer `x` is among the values that `l` stands for. -/
def Holds (l : Lattice) (x : ℤ) : Prop := l.type = .int ∧ l.Contains x

/-- The kinds of value, with what they use. -/
inductive Used : Lattice → Prop
  | top : Used {}
  | bot : Used { type := .bot }
  | mem : Used { type := .mem }
  | ctlr (d : Bool) : Used { type := .ctlr, dead := d }
  | int (lo hi : ℤ) : Used { type := .int, min := lo, max := hi }
  | float (n ni pi z nan : Bool) :
      Used { type := .float, isNotNan := n, isNotNinf := ni, isNotPinf := pi, isNotZero := z,
             isNan := nan }

variable {a b c : Lattice}

theorem used_used (l : Lattice) : l.used.used = l.used := by
  cases ht : l.type <;> simp only [used, ht]

theorem used_spec (l : Lattice) : Used l.used := by
  cases ht : l.type <;> simp only [used, ht]
  · exact .top
  · exact .int _ _
  · exact .float _ _ _ _ _
  · exact .ctlr _
  · exact .mem
  · exact .bot

theorem used_type (l : Lattice) : l.used.type = l.type := by
  cases ht : l.type <;> simp only [used, ht]

theorem used_widens (l : Lattice) : { l.used with widens := 0 } = l.used := by
  cases ht : l.type <;> simp only [used, ht]

theorem used_bare (l : Lattice) : ({ l with widens := 0 } : Lattice).used = l.used := rfl

/-- The meet reads and writes only what the kinds use. -/
theorem used_meet (a b : Lattice) : (latticeMeet a b).used = latticeMeet a.used b.used := by
  rw [latticeMeet, latticeMeet, used_type, used_type]
  split_ifs with h₁ h₂ h₃
  · rfl
  · rfl
  · rfl
  · rw [not_ne_iff] at h₃
    cases ha : a.type <;> rw [ha] at h₃ <;> simp only [used, ha, ← h₃]

theorem Used.meet_comm (ha : Used a) (hb : Used b) : latticeMeet a b = latticeMeet b a := by
  cases ha <;> cases hb <;>
    simp [latticeMeet, min_comm, max_comm, Bool.and_comm]

theorem Used.meet_self (ha : Used a) : latticeMeet a a = a := by
  cases ha <;> simp [latticeMeet]

theorem Used.meet_assoc (ha : Used a) (hb : Used b) (hc : Used c) :
    latticeMeet (latticeMeet a b) c = latticeMeet a (latticeMeet b c) := by
  cases ha <;> cases hb <;> cases hc <;>
    simp [latticeMeet, min_assoc, max_assoc, Bool.and_assoc]

/-! ### The order -/

/-- Up to what the kinds do not use, `b` covers `a` when the meet is `b`. -/
theorem isaUpTo_iff : IsaUpTo a b ↔ latticeMeet a.used b.used = b.used := by
  constructor
  · rintro ⟨a', b', ha, hb, hisa⟩
    rw [isa, beq_iff_eq] at hisa
    have h := congrArg used hisa
    rw [used_meet, used_bare, ha, hb] at h
    exact h
  · intro h
    refine ⟨a.used, b.used, used_used a, used_used b, ?_⟩
    rw [isa, beq_iff_eq, used_widens]
    exact h

/-- On values whose unused fields are clear, this is `isa` itself. -/
theorem isa_iff_isaUpTo (hb : b.Clear) : isa a b = true ↔ IsaUpTo a b := by
  refine ⟨fun h => ⟨a, b, rfl, rfl, h⟩, fun h => ?_⟩
  rw [isaUpTo_iff] at h
  rw [isa, beq_iff_eq, hb]
  rw [latticeMeet, used_type, used_type] at h
  rw [latticeMeet, used_type]
  split_ifs at h ⊢ with h₁ h₂ h₃
  · rfl
  · -- `a` is returned, so both have one kind, which is covered before
    have ht := congrArg Lattice.type h
    rw [used_type, used_type] at ht
    obtain hb | ha := h₂
    · exact absurd (.inl (ht.trans hb)) h₁
    · exact absurd (.inr (ht.symm.trans ha)) h₁
  · exact h
  · rw [not_ne_iff] at h₃
    cases ha : a.type <;> simp only [used, ha] at h ⊢ <;> exact h

theorem isaUpTo_of_same (h : Same a b) : IsaUpTo a b := by
  rw [isaUpTo_iff, h]
  exact (used_spec b).meet_self

theorem IsaUpTo.trans (h : IsaUpTo a b) (h' : IsaUpTo b c) : IsaUpTo a c := by
  rw [isaUpTo_iff] at h h' ⊢
  rw [← h', ← (used_spec a).meet_assoc (used_spec b) (used_spec c), h]

theorem IsaUpTo.antisymm (h : IsaUpTo a b) (h' : IsaUpTo b a) : Same a b := by
  rw [isaUpTo_iff] at h h'
  rw [(used_spec b).meet_comm (used_spec a)] at h'
  exact h'.symm.trans h

theorem isaUpTo_meet_left (a b : Lattice) : IsaUpTo a (latticeMeet a b) := by
  have ha := used_spec a
  rw [isaUpTo_iff, used_meet, ← ha.meet_assoc ha (used_spec b), ha.meet_self]

theorem isaUpTo_meet_right (a b : Lattice) : IsaUpTo b (latticeMeet a b) := by
  have ha := used_spec a
  have hb := used_spec b
  rw [isaUpTo_iff, used_meet, ha.meet_comm hb, ← hb.meet_assoc hb ha, hb.meet_self]

theorem meet_isaUpTo (h : IsaUpTo a c) (h' : IsaUpTo b c) : IsaUpTo (latticeMeet a b) c := by
  rw [isaUpTo_iff] at h h' ⊢
  rw [used_meet, (used_spec a).meet_assoc (used_spec b) (used_spec c), h', h]

/-! ### The dual and the join -/

theorem dual_dual (a : Lattice) : latticeDual (latticeDual a) = a := by
  obtain ⟨lo, hi, t, n, ni, pi, z, nan, dead, w⟩ := a
  cases t <;> simp only [latticeDual, Bool.not_not]

/-- The join of two intervals, when it is one. -/
theorem join_of_int (ha : a.type = .int) (hb : b.type = .int) :
    latticeJoin a b = if Min.min a.max b.max < Max.max a.min b.min then {}
      else { type := .int, min := Max.max a.min b.min, max := Min.min a.max b.max } := by
  simp only [latticeJoin, latticeMeet, latticeDual, ha, hb, reduceCtorEq, or_self, if_false,
    ne_eq, not_true_eq_false, true_and, false_and, or_false, gt_iff_lt]

theorem join_holds_iff (ha : a.type = .int) (hb : b.type = .int) (x : ℤ) :
    (latticeJoin a b).Holds x ↔ a.Holds x ∧ b.Holds x := by
  rw [join_of_int ha hb]
  simp only [Holds, ha, hb, true_and, Contains]
  split_ifs with h
  · simp only [false_and, false_iff]
    omega
  · simp only [true_and]
    omega

theorem join_type_iff (ha : a.type = .int) (hb : b.type = .int) :
    (latticeJoin a b).type = .top ↔ ∀ x, ¬ (a.Holds x ∧ b.Holds x) := by
  simp only [Holds, ha, hb, true_and, Contains]
  rw [join_of_int ha hb]
  split_ifs with h
  · simp only [true_iff]
    omega
  · simp only [false_iff, not_forall, not_not]
    exact ⟨Max.max a.min b.min, by omega⟩

/-- The algebra of the lattice, up to the counter and the fields that a kind does not use. -/
structure Laws : Prop where
  meet_congr : ∀ {a a' b b' : Lattice}, Same a a' → Same b b' →
    Same (latticeMeet a b) (latticeMeet a' b')
  meet_comm : ∀ a b, Same (latticeMeet a b) (latticeMeet b a)
  meet_assoc : ∀ a b c, Same (latticeMeet (latticeMeet a b) c) (latticeMeet a (latticeMeet b c))
  meet_self : ∀ a, Same (latticeMeet a a) a
  /-- On values whose unused fields are clear the order is `isa`. -/
  isa_iff : ∀ {a b : Lattice}, b.Clear → (isa a b = true ↔ IsaUpTo a b)
  refl : ∀ {a b : Lattice}, Same a b → IsaUpTo a b
  trans : ∀ {a b c : Lattice}, IsaUpTo a b → IsaUpTo b c → IsaUpTo a c
  antisymm : ∀ {a b : Lattice}, IsaUpTo a b → IsaUpTo b a → Same a b
  /-- The meet is the least upper bound. -/
  left_meet : ∀ a b, IsaUpTo a (latticeMeet a b)
  right_meet : ∀ a b, IsaUpTo b (latticeMeet a b)
  meet_least : ∀ {a b c : Lattice}, IsaUpTo a c → IsaUpTo b c → IsaUpTo (latticeMeet a b) c
  dual_dual : ∀ a, latticeDual (latticeDual a) = a
  /-- The join of two intervals stands for the integers of both. -/
  join_holds : ∀ {a b : Lattice}, a.type = .int → b.type = .int →
    ∀ x, (latticeJoin a b).Holds x ↔ a.Holds x ∧ b.Holds x
  join_top : ∀ {a b : Lattice}, a.type = .int → b.type = .int →
    ((latticeJoin a b).type = .top ↔ ∀ x, ¬ (a.Holds x ∧ b.Holds x))

/-- **The lattice is one**: the meet is the least upper bound of `isa`, the dual an involution, and
the join of intervals their intersection. -/
theorem lattice_laws : Laws where
  meet_congr ha hb := by rw [Same, used_meet, used_meet, ha, hb]
  meet_comm a b := by rw [Same, used_meet, used_meet, (used_spec a).meet_comm (used_spec b)]
  meet_assoc a b c := by
    simp only [Same, used_meet]
    exact (used_spec a).meet_assoc (used_spec b) (used_spec c)
  meet_self a := by rw [Same, used_meet, (used_spec a).meet_self]
  isa_iff := isa_iff_isaUpTo
  refl := isaUpTo_of_same
  trans := IsaUpTo.trans
  antisymm := IsaUpTo.antisymm
  left_meet := isaUpTo_meet_left
  right_meet := isaUpTo_meet_right
  meet_least := meet_isaUpTo
  dual_dual := dual_dual
  join_holds := join_holds_iff
  join_top := join_type_iff

end Lattice

end OdinSon
