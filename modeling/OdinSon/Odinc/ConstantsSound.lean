import OdinSon.Odinc.ConstantsAgree

/-!
# The checker computes what the code does

A literal of a floating-point type agrees with a value when the value is the literal as a number of
the type: they differ for a literal of `f32` that was never rounded.  An expression is evaluated as
the code does where the operands that are looked at as a whole have not overflowed
(`check_agrees`).
-/

namespace OdinSon.Odinc

open MachInt Lib Lib.Format

namespace Constants

/-! ### Floating-point numbers -/

section Float

variable {p q : Prim} {x y : FloatNum}

theorem Prim.format_cases (p : Prim) : p = .f32 ∧ p.format = binary32 ∨
    p ≠ .f32 ∧ p.format = binary64 := by
  by_cases h : p = .f32
  · exact .inl ⟨h, if_pos h⟩
  · exact .inr ⟨h, if_neg h⟩

theorem isFloat_cases (h : p.isFloat = true) : p = .f32 ∨ p = .f64 := by
  simpa [Prim.isFloat] using h

/-- A number of a floating-point type is an `f64`. -/
theorem cast_binary64 (h : p.format.cast x = x) : binary64.cast x = x := by
  obtain ⟨-, hf⟩ | ⟨-, hf⟩ := Prim.format_cases p
  · rw [hf] at h
    exact wider_binary.cast_self h
  · rwa [hf] at h

/-- An `f64` is rounded to the format of the type. -/
theorem constantRound_eq (h : binary64.cast x = x) : constantRound p x = p.format.cast x := by
  unfold constantRound
  obtain ⟨hp, hf⟩ | ⟨hp, hf⟩ := Prim.format_cases p
  · rw [if_pos hp, hf]
  · rw [if_neg hp, hf, h]

/-- The arithmetic of `f64`, rounded, is that of the type. -/
theorem constantRound_arith (op : Arith) (hx : p.format.cast x = x) (hy : p.format.cast y = y) :
    constantRound p (binary64.arith op x y) = p.format.arith op x y := by
  unfold constantRound
  obtain ⟨hp, hf⟩ | ⟨hp, hf⟩ := Prim.format_cases p
  · rw [hf] at hx hy ⊢
    rw [if_pos hp, wider_binary.cast_arith op hx hy]
  · rw [if_neg hp, hf]

/-- The code negates by a subtraction. -/
theorem zero_sub_eq {fmt : Format} (hx : fmt.cast x = x) :
    fmt.arith .sub (.fin 0) x = x.neg := by
  cases x with
  | fin r =>
    have hneg : fmt.round (-r) = .fin (-r) := (cast_neg (.fin r)).trans (congrArg FloatNum.neg hx)
    simpa [Format.arith, Arith.exact, FloatNum.neg] using hneg
  | inf neg => rfl
  | nan => rfl

/-- An integer is the `f64` first, or at once the number of the type. -/
theorem constantRound_round {v : ℤ}
    (h : p.format.cast (binary64.round v) = p.format.round v) :
    constantRound p (binary64.round v) = p.format.round v := by
  rw [constantRound_eq (cast_round _), h]

/-- A number is cut off to the same integer where it is in the range of the type. -/
theorem integer_eq (out : OutOfRange) {t : ℤ} (hp : p.isInteger = true) (ht : x.trunc = some t)
    (hfits : p.value t = t) :
    hostInteger out p.isUnsigned x = u64 t ∧ targetInteger out p x = t := by
  unfold hostInteger targetInteger
  rw [ht]
  refine ⟨if_pos ?_, if_pos hfits⟩
  cases hs : p.isSigned with
  | true =>
    rw [p.isUnsigned_eq hp, hs, Bool.not_true, if_neg Bool.false_ne_true]
    exact (value_mem hp hs hfits).mono (p.bits_le hp)
  | false =>
    have hval := unsigned_of_value hs hfits
    rw [p.isUnsigned_eq hp, hs, Bool.not_false, if_pos rfl, ← hval]
    refine ⟨Int.natCast_nonneg _, ?_⟩
    exact_mod_cast (unsigned_lt _ _).trans_le (Nat.pow_le_pow_right (by decide) (p.bits_le hp))

end Float

/-! ### Literals and values -/

/-- The literal agrees with the value. -/
def Agrees (p : Prim) : Lit → Value → Prop
  | .uint n, .int v => p.isInteger = true ∧ Agree p n v
  | .float x, .float y => p.isFloat = true ∧ p.format.cast x = y
  | _, _ => False

/-- The literal is the value itself. -/
def Same : Lit → Value → Prop
  | .uint n, .int v => n = u64 v
  | .float x, .float y => x = y
  | _, _ => False

section Agrees

variable {p q : Prim} {lit : Lit} {val : Value}

theorem Agrees.cases (h : Agrees p lit val) :
    (∃ n v, lit = .uint n ∧ val = .int v ∧ p.isInteger = true ∧ Agree p n v) ∨
      ∃ x, lit = .float x ∧ val = .float (p.format.cast x) ∧ p.isFloat = true := by
  cases lit with
  | uint n =>
    cases val with
    | int v => exact .inl ⟨n, v, rfl, rfl, h⟩
    | float y => exact h.elim
  | float x =>
    cases val with
    | int v => exact h.elim
    | float y => exact .inr ⟨x, rfl, by rw [h.2], h.1⟩

/-- The literal agrees with the value, and is the value where nothing overflowed. -/
def Tracks (p : Prim) (lit : Lit) (val : Value) (exact : Prop) : Prop :=
  Agrees p lit val ∧ (exact → Same lit val)

theorem tracks_bool (c : Bool) (e : Prop) : Tracks .bool (.uint c.toNat) (.int c.toNat) e :=
  ⟨⟨rfl, (agree_bool c).1⟩, fun _ => (agree_bool c).2⟩

/-- A number of the type. -/
theorem tracks_float {x : FloatNum} (hp : p.isFloat = true) (hx : p.format.cast x = x) (e : Prop) :
    Tracks p (.float x) (.float x) e :=
  ⟨⟨hp, hx⟩, fun _ => rfl⟩

/-- In 64 bits, agreement is equality. -/
theorem Agrees.same_of_bits (h : Agrees p lit val) (hp : p.isInteger = true) (h64 : p.bits = 64) :
    Same lit val := by
  obtain ⟨n, v, rfl, rfl, -, hagree⟩ | ⟨-, -, -, hf⟩ := h.cases
  · exact hagree.eq_of_bits h64
  · rw [Prim.isFloat_of_isInteger hp] at hf
    exact absurd hf Bool.false_ne_true

/-! ### Operators -/

variable {l r lit' : Lit} {a b val' : Value} {e f : Prop}

theorem tracks_unary {op : UnTok} (h : Tracks p lit val e) (hnot : op = .not → e)
    (hn : constantUnary op p lit = some lit') (hv : emitUnary op p val = some val') :
    Tracks p lit' val' (op = .not ∨ e ∧ (op = .sub → ∀ v, val = .int v → p.value (-v) = -v)) := by
  obtain ⟨hagree, hsame⟩ := h
  obtain ⟨n, v, rfl, rfl, hp, hl⟩ | ⟨x, rfl, rfl, hp⟩ := hagree.cases
  · simp only [constantUnary, Option.map_eq_some_iff] at hn
    obtain ⟨m, hm, rfl⟩ := hn
    simp only [emitUnary, Option.bind_eq_bind, Option.bind_eq_some_iff, Option.pure_def,
      Option.some.injEq] at hv
    obtain ⟨w, hw, rfl⟩ := hv
    obtain ⟨hres, hself⟩ := agree_unary hp hl (fun h => hsame (hnot h)) hw hm
    refine ⟨⟨hp, hres⟩, fun h => hself ?_⟩
    exact h.imp_right fun hneg => ⟨hsame hneg.1, fun hop => hneg.2 hop v rfl⟩
  · cases op with
    | sub =>
      obtain rfl := Option.some.inj hn
      obtain rfl := Option.some.inj hv
      rw [zero_sub_eq (cast_cast x), ← cast_neg]
      refine ⟨⟨hp, rfl⟩, ?_⟩
      rintro (h | ⟨he, -⟩)
      · cases h
      · have hx : x = p.format.cast x := hsame he
        change x.neg = p.format.cast x.neg
        rw [cast_neg, ← hx]
    | add =>
      obtain rfl := Option.some.inj hn
      obtain rfl := Option.some.inj hv
      refine ⟨hagree, ?_⟩
      rintro (h | ⟨he, -⟩)
      · cases h
      · exact hsame he
    | not | xor => cases hn

/-- The operators on floating-point numbers, of numbers of the type. -/
theorem tracks_floatBinary {op : BinTok} {x y : FloatNum} (hp : p.isFloat = true)
    (hx : p.format.cast x = x) (hy : p.format.cast y = y)
    (hn : constantFloat op p x y = some lit) {kind : BinOp} (hkind : op.toFloatBinop = some kind)
    (hv : machineFloat kind p.format x y = some val) : Tracks (resultType op p) lit val e := by
  cases op with
  | add | sub | mul =>
    obtain rfl := Option.some.inj hkind
    obtain rfl := Option.some.inj hv
    obtain rfl := Option.some.inj hn
    rw [constantRound_arith _ hx hy]
    exact tracks_float hp (cast_arith_self _ _ _) _
  | quo =>
    obtain rfl := Option.some.inj hkind
    obtain rfl := Option.some.inj hv
    unfold constantFloat at hn
    split_ifs at hn
    obtain rfl := Option.some.inj hn
    rw [constantRound_arith _ hx hy]
    exact tracks_float hp (cast_arith_self _ _ _) _
  | eq | ne | lt | le | gt | ge =>
    obtain rfl := Option.some.inj hkind
    obtain rfl := Option.some.inj hv
    obtain rfl := Option.some.inj hn
    exact tracks_bool _ _
  | _ => cases hn

theorem tracks_binary {op : BinTok} (hl : Tracks p l a e) (hr : Tracks q r b f)
    (hty : op.isShift = true ∨ p = q) (hleft : p.isFloat = true ∨ op.readsLeft = true → e)
    (hright : p.isFloat = true ∨ op.readsRight = true → f)
    (hn : constantBinary op p q l r = some lit) (hv : emitBinary op p q a b = some val) :
    Tracks (resultType op p) lit val (p.isFloat = true ∨ op.isComparison = true ∨ e ∧ f ∧
      ∀ v w, a = .int v → b = .int w → (op.exact v w).all (fun u => p.value u = u) = true) := by
  obtain ⟨hagreel, hsamel⟩ := hl
  obtain ⟨hagreer, hsamer⟩ := hr
  obtain ⟨m, v, rfl, rfl, hp, hv'⟩ | ⟨x, rfl, rfl, hp⟩ := hagreel.cases
  · obtain ⟨n, w, rfl, rfl, hq, hw'⟩ | ⟨y, rfl, rfl, hq⟩ := hagreer.cases
    · simp only [constantBinary, Option.map_eq_some_iff] at hn
      obtain ⟨k, hk, rfl⟩ := hn
      simp only [emitBinary, Option.bind_eq_bind, Option.bind_eq_some_iff, Option.pure_def,
        Option.some.injEq] at hv
      obtain ⟨kind, hkind, u, hu, rfl⟩ := hv
      obtain ⟨hres, hself⟩ := agree_binary hp hq hty hv' hw' (fun h => hsamel (hleft (.inr h)))
        (fun h => hsamer (hright (.inr h))) hkind hu hk
      refine ⟨⟨?_, hres⟩, ?_⟩
      · unfold resultType
        split_ifs
        · rfl
        · exact hp
      · rintro (hf | hcmp | ⟨he, hf, hfits⟩)
        · rw [Prim.isFloat_of_isInteger hp] at hf
          exact absurd hf Bool.false_ne_true
        · exact hself (.inl hcmp)
        · exact hself (.inr ⟨hsamel he, hsamer hf, hfits v w rfl rfl⟩)
    · cases hn
  · obtain ⟨n, w, rfl, rfl, hq, -⟩ | ⟨y, rfl, rfl, hq⟩ := hagreer.cases
    · cases hn
    · have hx : x = p.format.cast x := hsamel (hleft (.inl hp))
      have hy : y = q.format.cast y := hsamer (hright (.inl hp))
      simp only [emitBinary, Option.bind_eq_bind, Option.bind_eq_some_iff] at hv
      obtain ⟨kind, hkind, hv⟩ := hv
      rw [← hx, ← hy] at hv
      obtain rfl : p = q := hty.resolve_left fun hshift => by
        cases op <;> first | exact absurd hshift (by decide) | cases hkind
      exact tracks_floatBinary hp hx.symm hy.symm hn hkind hv

/-- A lazy operator looks at its left operand and gives one of them on. -/
theorem tracks_lazy {op : LazyTok} {m n : ℕ} {v : ℤ} (hl : Agree .bool m v) (hm : m = u64 v)
    (hr : (v ≠ 0 ↔ op = .and) → ∃ w : ℤ, val = .int w ∧ Agree .bool n w ∧ n = u64 w ∧
      (w = 0 ∨ w = 1))
    (hv : ¬(v ≠ 0 ↔ op = .and) → val = .int v ∧ (v = 0 ∨ v = 1))
    (hn : constantLazy op (.uint m) (.uint n) = some lit) : Tracks .bool lit val e := by
  have htruth {k : ℕ} {w : ℤ} (hk : Agree .bool k w) (hkw : k = u64 w) :
      decide (i64 k ≠ 0) = decide (w ≠ 0) := by
    refine decide_eq_decide.2 (not_congr ?_)
    rw [← u64_eq_zero_iff (by decide) hk.self, ← hkw]
    exact ⟨fun h => by rw [← u64_i64 hk.lt, h]; rfl, fun h => by rw [h]; rfl⟩
  -- a truth value is its own test
  have hself {w : ℤ} (h : w = 0 ∨ w = 1) : w = (decide (w ≠ 0)).toNat := by
    obtain rfl | rfl := h <;> rfl
  obtain rfl := Option.some.inj hn
  have hv0 := htruth hl hm
  by_cases hrun : v ≠ 0 ↔ op = .and
  · obtain ⟨w, rfl, hw, hnw, h01⟩ := hr hrun
    have hlit : (if op = .and then decide (i64 m ≠ 0) && decide (i64 n ≠ 0)
        else decide (i64 m ≠ 0) || decide (i64 n ≠ 0)) = decide (w ≠ 0) := by
      rw [hv0, htruth hw hnw]
      cases op with
      | and => simp [hrun.2 rfl]
      | or => simp [not_not.1 (mt hrun.1 nofun)]
    rw [hlit, hself h01]
    simpa using tracks_bool (decide (w ≠ 0)) e
  · obtain ⟨rfl, h01⟩ := hv hrun
    have hlit : (if op = .and then decide (i64 m ≠ 0) && decide (i64 n ≠ 0)
        else decide (i64 m ≠ 0) || decide (i64 n ≠ 0)) = decide (v ≠ 0) := by
      rw [hv0]
      cases op with
      | and => simp [show v = 0 from not_not.1 fun h => hrun ⟨fun _ => rfl, fun _ => h⟩]
      | or => simp [show v ≠ 0 from fun h => hrun ⟨fun hv => absurd h hv, nofun⟩]
    rw [hlit, hself h01]
    simpa using tracks_bool (decide (v ≠ 0)) e

/-! ### Conversions -/

variable (out : OutOfRange) {dst src : Prim} {v : ℤ} {m : ℕ} {x : FloatNum}

/-- The integer that a literal is, of the type's signedness. -/
theorem literal_eq (hp : p.isInteger = true) (hv : p.value v = v) :
    (if p.isUnsigned then ((u64 v : ℕ) : ℚ) else ((i64 (u64 v) : ℤ) : ℚ)) = v := by
  cases hs : p.isSigned with
  | true =>
    rw [p.isUnsigned_eq hp, hs, Bool.not_true, if_neg Bool.false_ne_true, i64_u64 hp hs hv]
  | false =>
    rw [p.isUnsigned_eq hp, hs, Bool.not_false, if_pos rfl, u64_of_unsigned hp hs hv]
    exact_mod_cast congrArg (Int.cast : ℤ → ℚ) (unsigned_of_value hs hv)

theorem ne_of_isFloat (hp : p.isFloat = true) (hq : q.isInteger = true) : p ≠ q := by
  rintro rfl
  rw [Prim.isFloat_of_isInteger hq] at hp
  exact absurd hp Bool.false_ne_true

/-- An integer that is converted to a floating-point type. -/
theorem conversion_to_float (hd : dst.isFloat = true) (hs : src.isInteger = true)
    (hv : src.value v = v)
    (hround : dst.format.cast (binary64.round v) = dst.format.round v) :
    typecheckConversion out dst src (.uint (u64 v)) = .float (dst.format.round v) ∧
      emitConversion out dst src (.int v) = some (.float (dst.format.round v)) := by
  constructor
  · dsimp only [typecheckConversion]
    rw [if_neg (ne_of_isFloat hd hs).symm, if_pos hd, literal_eq hs hv, constantRound_round hround]
  · have hint := emitInteger_eq hs hv (ne_of_isFloat hd (by decide : Prim.bool.isInteger = true))
    simp [emitConversion, hint, hd]

/-- A conversion to the type that a number has. -/
theorem conversion_same (hp : p.isFloat = true) : typecheckConversion out p p lit = lit ∧
    emitConversion out p p (.float x) = some (.float x) := by
  constructor
  · exact if_pos rfl
  · dsimp only [emitConversion]
    rw [if_neg (ne_of_isFloat hp (by decide : Prim.bool.isInteger = true)), if_pos rfl]

/-- A number that is converted to a floating-point type. -/
theorem conversion_floats (hd : dst.isFloat = true) (hs : src.isFloat = true) (hne : dst ≠ src)
    (hx : src.format.cast x = x) :
    typecheckConversion out dst src (.float x) = .float (dst.format.cast x) ∧
      emitConversion out dst src (.float x) = some (.float (dst.format.cast x)) := by
  have hdt : dst.dt ≠ src.dt := by
    obtain rfl | rfl := isFloat_cases hd <;> obtain rfl | rfl := isFloat_cases hs <;>
      first | decide | exact absurd rfl hne
  constructor
  · dsimp only [typecheckConversion]
    rw [if_neg hne.symm, if_pos hd, constantRound_eq (cast_binary64 hx)]
  · dsimp only [emitConversion]
    rw [if_neg (ne_of_isFloat hd (by decide : Prim.bool.isInteger = true)), if_neg hdt, if_pos hd]

/-- The test of a number. -/
theorem conversion_to_bool (hs : src.isFloat = true) :
    typecheckConversion out .bool src (.float x) = .uint (!x.beq (.fin 0)).toNat ∧
      emitConversion out .bool src (.float x) = some (.int (!x.beq (.fin 0)).toNat) := by
  constructor
  · dsimp only [typecheckConversion]
    rw [if_neg (ne_of_isFloat hs (by decide : Prim.bool.isInteger = true)),
      if_neg (show ¬Prim.bool.isFloat = true by decide), if_pos rfl]
  · rfl

/-- A number that is converted to an integer type that has its integer. -/
theorem conversion_to_integer {t : ℤ} (hd : dst.isInteger = true) (hb : dst ≠ .bool)
    (hs : src.isFloat = true) (ht : x.trunc = some t) (hfits : dst.value t = t) :
    typecheckConversion out dst src (.float x) = .uint (u64 t) ∧
      emitConversion out dst src (.float x) = some (.int t) := by
  obtain ⟨hhost, htarget⟩ := integer_eq out hd ht hfits
  have hdt : dst.dt ≠ src.dt := by
    obtain rfl | rfl := isFloat_cases hs <;> cases dst <;>
      first | decide | exact absurd hd (by decide)
  have hfloat := Prim.isFloat_of_isInteger hd
  constructor
  · dsimp only [typecheckConversion]
    rw [if_neg (ne_of_isFloat hs hd), hfloat, if_neg Bool.false_ne_true, if_neg hb, hhost]
  · dsimp only [emitConversion]
    rw [if_neg hb, if_neg hdt, hfloat, if_neg Bool.false_ne_true, htarget]

theorem tracks_integers (hd : dst.isInteger = true) (hs : src.isInteger = true)
    (h : Tracks src (.uint m) (.int v) f) (hwide : dst ≠ .bool ∧ dst.bits ≤ src.bits ∨ f)
    (hbool : dst = .bool → src = .bool → v = 0 ∨ v = 1)
    (hv : emitConversion out dst src (.int v) = some val) :
    Tracks dst (typecheckConversion out dst src (.uint m)) (val.inType dst)
      (dst.bits = 64 ∨ dst = .bool ∧ src ≠ .bool ∨ f ∧ dst.value v = v) := by
  simp only [emitConversion, Option.bind_eq_bind, Option.bind_eq_some_iff, Option.pure_def,
    Option.some.injEq, Prim.isFloat_of_isInteger hd, Bool.false_eq_true, if_false] at hv
  obtain ⟨w, hw, rfl⟩ := hv
  obtain ⟨n, hlit, hres, hself⟩ :=
    agree_conversion out hd hs h.1.2 (hwide.imp_right h.2) hbool hw
  rw [hlit]
  refine ⟨⟨hd, hres⟩, ?_⟩
  rintro (h64 | hb | ⟨hf, hfits⟩)
  · exact hres.eq_of_bits h64
  · exact hself (.inl hb)
  · exact hself (.inr ⟨h.2 hf, hfits⟩)

/-- Both conversions, from what they give. -/
theorem tracks_of_conversion (hconv : typecheckConversion out dst src lit = lit' ∧
      emitConversion out dst src val = some a)
    (hb : emitConversion out dst src val = some b) (h : Tracks dst lit' (a.inType dst) e) :
    Tracks dst (typecheckConversion out dst src lit) (b.inType dst) e := by
  obtain ⟨rfl, ha⟩ := hconv
  obtain rfl := Option.some.inj (ha.symm.trans hb)
  exact h

end Agrees

/-! ### Expressions -/

theorem guard_eq_some {c : Prop} [Decidable c] {u : Unit} (h : (guard c : Option Unit) = some u) :
    c := by
  by_contra hc
  rw [guard, if_neg hc] at h
  cases h

namespace Expr

variable {out : OutOfRange} {e l r : Expr}

theorem runInteger_eq {v : ℤ} (h : e.run out = some (.int v)) : e.runInteger out = some v := by
  simp [runInteger, h]

theorem runTrunc_eq {x : FloatNum} (h : e.run out = some (.float x)) :
    e.runTrunc out = x.trunc := by
  simp [runTrunc, h]

/-- Where the expression is sound, its literal agrees with its value. -/
def Tracked (out : OutOfRange) (e : Expr) : Prop :=
  ∀ {lit : Lit} {val : Value}, e.check out = some lit → e.run out = some val →
    e.sound out = true → Tracks e.type lit val (e.exact out = true)

theorem tracked_int (ty : Prim) (n : ℕ) : (int ty n).Tracked out := by
  intro lit val hn hv _
  simp only [check] at hn
  obtain rfl := Option.some.inj hv
  split_ifs at hn with h hint hfloat
  · obtain rfl := Option.some.inj hn
    have hf := Prim.isFloat_of_isInteger hint
    rw [hf, if_neg Bool.false_ne_true]
    have hagree : Agree ty n (ty.value n) := ⟨h.1, rfl⟩
    refine ⟨⟨hint, hagree⟩, fun hexact => ?_⟩
    simp only [exact, hf, if_neg Bool.false_ne_true, Bool.or_eq_true, decide_eq_true_eq] at hexact
    obtain h64 | hself := hexact
    · exact hagree.eq_of_bits h64
    · rw [hself]
      exact (u64_natCast h.1).symm
  · obtain rfl := Option.some.inj hn
    rw [hfloat, if_pos rfl]
    refine ⟨⟨hfloat, rfl⟩, fun hexact => ?_⟩
    simp only [exact, hfloat, if_true, decide_eq_true_eq] at hexact
    exact hexact.symm

theorem tracked_float (ty : Prim) (q : ℚ) : (float ty q).Tracked out := by
  intro lit val hn hv _
  simp only [check] at hn
  split_ifs at hn with hfloat
  obtain rfl := Option.some.inj hn
  obtain rfl := Option.some.inj hv
  refine ⟨⟨hfloat, rfl⟩, fun hexact => ?_⟩
  exact (of_decide_eq_true hexact).symm

theorem tracked_bool (c : Bool) : (bool c).Tracked out := by
  intro lit val hn hv _
  obtain rfl := Option.some.inj hn
  obtain rfl := Option.some.inj hv
  exact tracks_bool c _

theorem tracked_un {op : UnTok} (ih : e.Tracked out) : (un op e).Tracked out := by
  intro lit val hn hv hs
  simp only [check, Option.bind_eq_bind, Option.bind_eq_some_iff] at hn
  obtain ⟨l, hl, hn⟩ := hn
  simp only [run, Option.bind_eq_bind, Option.bind_eq_some_iff] at hv
  obtain ⟨a, ha, hv⟩ := hv
  simp only [sound, Bool.and_eq_true, Bool.or_eq_true, decide_eq_true_eq] at hs
  have htracks := ih hl ha hs.1
  have hres := tracks_unary htracks (fun hop => hs.2.resolve_left (not_not.2 hop)) hn hv
  refine ⟨hres.1, fun h => ?_⟩
  cases op with
  | not => exact hres.2 (.inl rfl)
  | xor | add => exact hres.2 (.inr ⟨h, nofun⟩)
  | sub =>
    obtain ⟨n, v, rfl, rfl, hp, -⟩ | ⟨x, rfl, rfl, hp⟩ := htracks.1.cases
    · simp only [exact, Prim.isFloat_of_isInteger hp, Bool.false_eq_true, if_false,
        runInteger_eq ha, Option.all_some, Bool.or_eq_true, Bool.and_eq_true,
        decide_eq_true_eq] at h
      obtain h64 | ⟨he, hfits⟩ := h
      · exact hres.1.same_of_bits hp h64
      · refine hres.2 (.inr ⟨he, fun _ w hw => ?_⟩)
        obtain rfl := Value.int.inj hw
        exact hfits
    · simp only [exact, hp, if_true] at h
      exact hres.2 (.inr ⟨h, fun _ w hw => by cases hw⟩)

theorem tracked_bin {op : BinTok} (ihl : l.Tracked out) (ihr : r.Tracked out) :
    (bin op l r).Tracked out := by
  intro lit val hn hv hs
  simp only [check, Option.bind_eq_bind, Option.bind_eq_some_iff] at hn
  obtain ⟨lhs, hl, rhs, hr, _, hguard, hn⟩ := hn
  simp only [run, Option.bind_eq_bind, Option.bind_eq_some_iff] at hv
  obtain ⟨a, ha, b, hb, hv⟩ := hv
  simp only [sound, Bool.and_eq_true, Bool.or_eq_true, Bool.not_eq_true'] at hs
  obtain ⟨⟨⟨hsl, hsr⟩, hleft⟩, hright⟩ := hs
  have hlit {c : Bool} {x : Prop} (h : c = false ∨ x) (hc : c = true) : x :=
    h.resolve_left (by rw [hc]; exact nofun)
  obtain ⟨hagree, hsame⟩ := tracks_binary (ihl hl ha hsl) (ihr hr hb hsr) (guard_eq_some hguard)
    (fun h => hlit hleft (by simpa using h)) (fun h => hlit hright (by simpa using h)) hn hv
  refine ⟨hagree, fun h => ?_⟩
  simp only [exact, Bool.or_eq_true, Bool.and_eq_true, decide_eq_true_eq] at h
  obtain ((hf | hcmp) | h64) | ⟨⟨hel, her⟩, hfits⟩ := h
  · exact hsame (.inl hf)
  · exact hsame (.inr (.inl hcmp))
  · obtain ⟨-, -, -, -, hp, -⟩ | ⟨-, -, -, hp⟩ := (ihl hl ha hsl).1.cases
    · cases hcmp : op.isComparison with
      | true => exact hsame (.inr (.inl hcmp))
      | false =>
        rw [resultType, hcmp, if_neg Bool.false_ne_true] at hagree
        exact hagree.same_of_bits hp h64
    · exact hsame (.inl hp)
  · refine hsame (.inr (.inr ⟨hel, her, fun v w hav hbw => ?_⟩))
    subst hav hbw
    rw [runInteger_eq ha, Option.all_some, runInteger_eq hb, Option.all_some] at hfits
    exact hfits

theorem tracked_lazy {op : LazyTok} (ihl : l.Tracked out) (ihr : r.Tracked out) :
    (lazy op l r).Tracked out := by
  intro lit val hn hv hs
  simp only [check, Option.bind_eq_bind, Option.bind_eq_some_iff] at hn
  obtain ⟨lhs, hl, rhs, hr, _, hguard, hn⟩ := hn
  simp only [run, Option.bind_eq_bind, Option.bind_eq_some_iff] at hv
  obtain ⟨a, ha, hv⟩ := hv
  simp only [sound, Bool.and_eq_true] at hs
  obtain ⟨⟨hsl, hel⟩, hs⟩ := hs
  obtain ⟨htl, htr⟩ := guard_eq_some hguard
  obtain ⟨hagree, hsame⟩ := ihl hl ha hsl
  rw [htl] at hagree
  obtain ⟨m, v, rfl, rfl, -, hm⟩ | ⟨-, -, -, hf⟩ := hagree.cases
  · cases rhs with
    | uint n =>
      simp only [runInteger_eq ha, Option.all_some] at hs
      refine tracks_lazy hm (hsame hel) (fun hrun => ?_) (fun hrun => ?_) hn
      · -- the right operand is evaluated
        dsimp only at hv
        rw [if_pos hrun] at hv hs
        simp only [Bool.and_eq_true] at hs
        obtain ⟨hagree', hsame'⟩ := ihr hr hv hs.1.1
        rw [htr] at hagree'
        obtain ⟨_, w, h, rfl, -, hw⟩ | ⟨x, h, -, -⟩ := hagree'.cases
        · obtain rfl := Lit.uint.inj h
          rw [runInteger_eq hv, Option.all_some] at hs
          exact ⟨w, rfl, hw, hsame' hs.1.2, of_decide_eq_true hs.2⟩
        · cases h
      · dsimp only at hv
        rw [if_neg hrun] at hv hs
        exact ⟨(Option.some.inj hv).symm, of_decide_eq_true hs⟩
    | float x => cases hn
  · exact absurd hf (by decide)

theorem tracked_conv {dst : Prim} (ih : e.Tracked out) : (conv dst e).Tracked out := by
  intro lit val hn hv hs
  simp only [check, Option.bind_eq_bind, Option.bind_eq_some_iff, Option.pure_def,
    Option.some.injEq] at hn
  obtain ⟨l, hl, _, hguard, rfl⟩ := hn
  simp only [run, Option.bind_eq_bind, Option.bind_eq_some_iff, Option.pure_def,
    Option.some.injEq] at hv
  obtain ⟨a, ha, b, hb, rfl⟩ := hv
  simp only [sound, Bool.and_eq_true] at hs
  obtain ⟨hse, hs⟩ := hs
  have htracks := ih hl ha hse
  change Tracks dst _ _ _
  obtain ⟨m, v, rfl, rfl, hsrc, hm⟩ | ⟨x, rfl, rfl, hsrc⟩ := htracks.1.cases
  · have hsf := Prim.isFloat_of_isInteger hsrc
    obtain hd | hd := guard_eq_some hguard
    · -- an integer to an integer type
      have hdf := Prim.isFloat_of_isInteger hd
      simp only [hdf, hsf, Bool.false_eq_true, if_false, Bool.and_eq_true, Bool.or_eq_true,
        decide_eq_true_eq, runInteger_eq ha, Option.all_some] at hs
      obtain ⟨hres, hself⟩ := tracks_integers out hd hsrc htracks hs.1
        (fun h h' => hs.2.resolve_left fun hn => hn.elim (· h) (· h')) hb
      refine ⟨hres, fun h => hself ?_⟩
      simpa [exact, hdf, hsf, runInteger_eq ha, or_assoc] using h
    · -- an integer to a floating-point type
      simp only [hd, hsf, if_true, Bool.false_eq_true, if_false, Bool.and_eq_true,
        runInteger_eq ha, Option.all_some] at hs
      obtain rfl : m = u64 v := htracks.2 hs.1
      exact tracks_of_conversion out
        (conversion_to_float out hd hsrc hm.self (of_decide_eq_true hs.2)) hb
        (tracks_float hd (cast_round _) _)
  · obtain hd | hd := guard_eq_some hguard
    · -- a floating-point number to an integer type
      have hdf := Prim.isFloat_of_isInteger hd
      simp only [hdf, hsrc, Bool.false_eq_true, if_false, if_true, Bool.and_eq_true,
        Bool.or_eq_true, decide_eq_true_eq, runTrunc_eq ha] at hs
      have hx : x = e.type.format.cast x := htracks.2 hs.1
      rw [← hx] at hb hs
      by_cases hbool : dst = .bool
      · subst hbool
        refine tracks_of_conversion out (conversion_to_bool out hsrc) hb ?_
        rw [Value.inType, (agree_bool _).1.self]
        exact tracks_bool _ _
      · obtain ⟨t, ht, hfits⟩ := (Option.any_eq_true _ _).1 (hs.2.resolve_left hbool)
        have hfits := of_decide_eq_true hfits
        refine tracks_of_conversion out (conversion_to_integer out hd hbool hsrc ht hfits) hb ?_
        rw [Value.inType, hfits]
        exact ⟨⟨hd, agree_u64 hd hfits⟩, fun _ => rfl⟩
    · -- a floating-point number to a floating-point type
      simp only [hd, hsrc, if_true, Bool.or_eq_true, decide_eq_true_eq] at hs
      by_cases hsame : dst = e.type
      · rw [hsame] at hb hd ⊢
        refine tracks_of_conversion out (conversion_same out hd) hb ⟨⟨hd, rfl⟩, fun h => ?_⟩
        simp only [exact, hd, if_true, ne_eq, not_true, decide_false, Bool.false_or] at h
        exact htracks.2 h
      · have hx : x = e.type.format.cast x := htracks.2 (hs.resolve_left hsame)
        rw [← hx] at hb
        exact tracks_of_conversion out (conversion_floats out hd hsrc hsame hx.symm) hb
          (tracks_float hd (cast_cast _) _)

theorem tracked (e : Expr) : e.Tracked out := by
  induction e with
  | int ty n => exact tracked_int ty n
  | float ty q => exact tracked_float ty q
  | bool c => exact tracked_bool c
  | un op e ih => exact tracked_un ih
  | lazy op l r ihl ihr => exact tracked_lazy ihl ihr
  | bin op l r ihl ihr => exact tracked_bin ihl ihr
  | conv dst e ih => exact tracked_conv ih

end Expr

/-- The conversions of amd64, which give the least integer for a number that is out of range. -/
def indefinite : OutOfRange where
  host _ _ := 2 ^ 63
  target _ dt _ := if dt = .i64 then -2 ^ 63 else -2 ^ 31

/-- `i32(3e9)`: the literal has the low bits of the integer. -/
example :
    let e : Expr := .conv .i32 (.float .f64 3000000000)
    e.check indefinite = some (.uint 3000000000) ∧ e.run indefinite = some (.int (-2147483648)) ∧
      e.type.value 3000000000 = -1294967296 := by
  decide +kernel

/-- `true && ~true`: the literal is a truth value, the code gives the complement on. -/
example :
    let e : Expr := .lazy .and (.bool true) (.un .xor (.bool true))
    e.check indefinite = some (.uint 1) ∧ e.run indefinite = some (.int 254) := by
  decide

end Constants

end OdinSon.Odinc
