import Mathlib.Data.Fintype.Card
import OdinSon.Bac.OffsetIter

/-!
# All uses of an address, once each

Iterating `offset_iter_next` to its end (`offsetIterAll`) from an address that is not itself a sum of
a constant: the sums above it are a tree, as each has one parent, and the iterator goes through the
tree in order.  `offsetIter_exact` says that it ends, that what it comes to are the uses with their
offsets, each once, and that `base_and_offset` finds the same from the side of the use.
-/

namespace OdinSon

open MachInt

namespace Proc

variable (prc : Proc)

/-- `for out in offset_iter_next(ctx, &iter)`, for at most `rounds` uses. -/
@[grind =] def offsetIterAll (fuel : ℕ) : ℕ → OffsetIter → Option (List (NodeOutput × ℤ))
  | 0, _ => none
  | rounds + 1, iter => do
    match ← prc.offsetIterNext fuel iter with
    | none => some []
    | some (out, iter) => (offsetIterAll fuel rounds iter).map ((out, iter.offset) :: ·)

/-- The loop comes to an end, with these uses. -/
def Finishes (iter : OffsetIter) (uses : List (NodeOutput × ℤ)) : Prop :=
  ∃ enough, ∀ fuel ≥ enough, ∀ rounds ≥ enough, prc.offsetIterAll fuel rounds iter = some uses

/-- What additions of constants make of the address `a`: after how many of them, and at what offset. -/
inductive DerivedAt (a : NodeId) : ℕ → NodeId → ℤ → Prop
  | self : DerivedAt a 0 a 0
  | add {d : ℕ} {c : NodeId} {o v : ℤ} {e : NodeOutput} : DerivedAt a d c o →
      e ∈ (prc.getNode c).outs → prc.constAdd e.id = some v →
      DerivedAt a (d + 1) e.id (wrap 64 (o + v))

/-- The uses that come from an entry of an address at `off`, with sums of at most `n` additions. -/
def entryUses (usesOf : NodeId → ℤ → List (NodeOutput × ℤ)) (off : ℤ) (e : NodeOutput) :
    List (NodeOutput × ℤ) :=
  match prc.constAdd e.id with
  | none => [(e, off)]
  | some v => usesOf e.id (wrap 64 (off + v))

/-- The uses of an address in the order of the iterator, through fewer than `n` additions. -/
def usesOf : ℕ → NodeId → ℤ → List (NodeOutput × ℤ)
  | 0, _, _ => []
  | n + 1, c, off => (prc.getNode c).outs.flatMap (prc.entryUses (usesOf n) off)

variable {prc}

/-! ### Rounds -/

theorem offsetIterNext_mono {fuel fuel' : ℕ} (hle : fuel ≤ fuel') {it : OffsetIter}
    {r : Option (NodeOutput × OffsetIter)} (h : prc.offsetIterNext fuel it = some r) :
    prc.offsetIterNext fuel' it = some r := by
  induction fuel generalizing it fuel' with
  | zero => cases h
  | succ fuel ih =>
    obtain ⟨fuel', rfl⟩ := Nat.exists_eq_succ_of_ne_zero (by omega : fuel' ≠ 0)
    rw [Nat.succ_eq_add_one] at hle ⊢
    unfold offsetIterNext at h ⊢
    dsimp only at h ⊢
    split at h
    · split at h
      · exact h
      · obtain ⟨k, hk, h⟩ := Option.bind_eq_some_iff.1 h
        exact Option.bind_eq_some_iff.2 ⟨k, hk, ih (by omega) h⟩
    · split at h
      · exact ih (by omega) h
      · exact h

theorem offsetIterAll_mono {fuel fuel' rounds rounds' : ℕ} (hle : fuel ≤ fuel')
    (hle' : rounds ≤ rounds') {it : OffsetIter} {uses : List (NodeOutput × ℤ)}
    (h : prc.offsetIterAll fuel rounds it = some uses) :
    prc.offsetIterAll fuel' rounds' it = some uses := by
  induction rounds generalizing it rounds' uses with
  | zero => cases h
  | succ rounds ih =>
    obtain ⟨rounds', rfl⟩ := Nat.exists_eq_succ_of_ne_zero (by omega : rounds' ≠ 0)
    obtain ⟨r, hr, h⟩ := Option.bind_eq_some_iff.1 h
    refine Option.bind_eq_some_iff.2 ⟨r, offsetIterNext_mono hle hr, ?_⟩
    cases r with
    | none => exact h
    | some next =>
      obtain ⟨rest, hrest, rfl⟩ := Option.map_eq_some_iff.1 h
      exact Option.map_eq_some_iff.2 ⟨rest, ih (by omega) hrest, rfl⟩

section Finishes

variable {it it' : OffsetIter} {out : NodeOutput} {uses : List (NodeOutput × ℤ)}

theorem Finishes.of_some {fuel rounds : ℕ} (h : prc.offsetIterAll fuel rounds it = some uses) :
    prc.Finishes it uses := by
  refine ⟨max fuel rounds, fun fuel' hfuel rounds' hrounds => ?_⟩
  exact offsetIterAll_mono (by omega) (by omega) h

theorem Finishes.unique {uses' : List (NodeOutput × ℤ)} (h : prc.Finishes it uses)
    (h' : prc.Finishes it uses') : uses = uses' := by
  obtain ⟨n, hn⟩ := h
  obtain ⟨n', hn'⟩ := h'
  have h₁ := hn (max n n') (le_max_left _ _) (max n n') (le_max_left _ _)
  have h₂ := hn' (max n n') (le_max_right _ _) (max n n') (le_max_right _ _)
  exact Option.some.inj (h₁.symm.trans h₂)

/-- A round that ends the loop. -/
theorem Finishes.stop (h : prc.offsetIterNext 1 it = some none) : prc.Finishes it [] := by
  refine @Finishes.of_some prc it [] 1 1 ?_
  rw [offsetIterAll, h]
  rfl

/-- A round that comes to a use. -/
theorem Finishes.yield (h : prc.offsetIterNext 1 it = some (some (out, it')))
    (hrest : prc.Finishes it' uses) : prc.Finishes it ((out, it'.offset) :: uses) := by
  obtain ⟨n, hn⟩ := hrest
  refine @Finishes.of_some prc it _ (n + 1) (n + 1) ?_
  rw [offsetIterAll, offsetIterNext_mono (by omega) h]
  exact congrArg (Option.map _) (hn (n + 1) (by omega) n le_rfl)

/-- A round that goes up or down. -/
theorem Finishes.move (h : ∀ fuel, prc.offsetIterNext (fuel + 1) it = prc.offsetIterNext fuel it')
    (hrest : prc.Finishes it' uses) : prc.Finishes it uses := by
  obtain ⟨n, hn⟩ := hrest
  refine @Finishes.of_some prc it _ (n + 1) (n + 1) ?_
  have hall := hn n le_rfl (n + 1) (by omega)
  obtain ⟨r, hr, hall⟩ := Option.bind_eq_some_iff.1 hall
  refine Option.bind_eq_some_iff.2 ⟨r, (h n).trans hr, ?_⟩
  cases r with
  | none => exact hall
  | some next =>
    obtain ⟨rest, hrest, rfl⟩ := Option.map_eq_some_iff.1 hall
    exact Option.map_eq_some_iff.2 ⟨rest, offsetIterAll_mono (by omega) le_rfl hrest, rfl⟩

end Finishes

theorem mem_entryUses_iff {n : ℕ} {off o : ℤ} {e out : NodeOutput}
    (hbelow : ∀ v, prc.constAdd e.id = some v → ((out, o) ∈ prc.usesOf n e.id (wrap 64 (off + v)) ↔
      prc.DerivedUse e.id (wrap 64 (off + v)) out o)) :
    (out, o) ∈ prc.entryUses (prc.usesOf n) off e ↔ prc.EntryUse e off out o := by
  rw [entryUses, EntryUse]
  cases hv : prc.constAdd e.id with
  | none => simp only [List.mem_singleton, Prod.mk.injEq, true_and, reduceCtorEq, false_and,
      exists_false, or_false]
  | some v =>
    simp only [reduceCtorEq, false_and, Option.some.injEq, exists_eq_left', false_or]
    exact hbelow v hv

/-! ### The tree of sums -/

theorem DerivedAt.addr {a c : NodeId} {d : ℕ} {o : ℤ} (h : prc.DerivedAt a d c o) :
    prc.DerivedAddr a 0 c o := by
  induction h with
  | self => exact .self
  | add _ he hv ih => exact .add ih he hv

section Root

variable (hD : prc.DefUse) (hB : prc.AddsBinary) {a : NodeId} (ha : prc.IsRoot a)

include hD hB ha

/-- A sum has one place in the tree: that of its input `0`, and one addition more. -/
theorem DerivedAt.cases_parent {c : NodeId} {d : ℕ} {o : ℤ} (h : prc.DerivedAt a d c o) :
    (d = 0 ∧ c = a ∧ o = 0) ∨ ∃ d' v o', d = d' + 1 ∧ prc.constAdd c = some v ∧
      prc.DerivedAt a d' ((prc.getNode c).inp 0) o' ∧ o = wrap 64 (o' + v) := by
  cases h with
  | self => exact .inl ⟨rfl, rfl, rfl⟩
  | @add d c' o' v e hc he hv =>
    obtain ⟨-, hinp⟩ := hc.addr.parent hD hB ha he hv
    exact .inr ⟨d, v, o', rfl, hv, hinp ▸ hc, rfl⟩

theorem DerivedAt.unique {c : NodeId} {d d' : ℕ} {o o' : ℤ} (h : prc.DerivedAt a d c o)
    (h' : prc.DerivedAt a d' c o') : d = d' ∧ o = o' := by
  induction d generalizing c d' o o' with
  | zero =>
    obtain ⟨-, rfl, rfl⟩ | ⟨d, v, o₁, hd, -⟩ := h.cases_parent hD hB ha
    · obtain ⟨rfl, -, rfl⟩ | ⟨d, v, o₁, -, hv, -⟩ := h'.cases_parent hD hB ha
      · exact ⟨rfl, rfl⟩
      · rw [ha.constAdd] at hv
        cases hv
    · omega
  | succ d ih =>
    obtain ⟨hd, -⟩ | ⟨d₁, v, o₁, hd, hv, hp, rfl⟩ := h.cases_parent hD hB ha
    · omega
    · obtain rfl : d = d₁ := by omega
      obtain ⟨rfl, rfl, rfl⟩ | ⟨d₂, v', o₂, rfl, hv', hp', rfl⟩ := h'.cases_parent hD hB ha
      · rw [ha.constAdd] at hv
        cases hv
      · rw [hv] at hv'
        cases hv'
        obtain ⟨rfl, rfl⟩ := ih hp hp'
        exact ⟨rfl, rfl⟩

/-- The address that a sum is made from, some additions earlier. -/
theorem DerivedAt.ancestor {c : NodeId} {d : ℕ} {o : ℤ} (h : prc.DerivedAt a d c o) {r : ℕ}
    (hr : r ≤ d) : ∃ o', prc.DerivedAt a (d - r) ((fun x => (prc.getNode x).inp 0)^[r] c) o' := by
  induction r with
  | zero => exact ⟨o, h⟩
  | succ r ih =>
    obtain ⟨o', h'⟩ := ih (by omega)
    rw [Function.iterate_succ_apply']
    obtain ⟨hd, -⟩ | ⟨d', v, o'', hd, -, hp, -⟩ := h'.cases_parent hD hB ha
    · omega
    · obtain rfl : d' = d - (r + 1) := by omega
      exact ⟨o'', hp⟩

/-- What is made of a sum has the sum as its ancestor. -/
theorem DerivedAddr.at {b c : NodeId} {d : ℕ} {off o : ℤ} (hb : prc.DerivedAt a d b off)
    (h : prc.DerivedAddr b off c o) :
    ∃ r, prc.DerivedAt a (d + r) c o ∧ (fun x => (prc.getNode x).inp 0)^[r] c = b := by
  induction h with
  | self => exact ⟨0, hb, rfl⟩
  | @add c o v e _ he hv ih =>
    obtain ⟨r, hr, hanc⟩ := ih
    refine ⟨r + 1, .add hr he hv, ?_⟩
    rw [Function.iterate_succ_apply, (hr.addr.parent hD hB ha he hv).2, hanc]

/-- There are no more additions behind each other than there are nodes. -/
theorem DerivedAt.lt {k : ℕ} (hk : ∀ id, k ≤ id → prc.live id = false) {c : NodeId} {d : ℕ} {o : ℤ}
    (h : prc.DerivedAt a d c o) : d < k := by
  have hlt (r : Fin (d + 1)) : (fun x => (prc.getNode x).inp 0)^[r] c < k := by
    obtain ⟨o', h'⟩ := h.ancestor hD hB ha (Nat.lt_succ_iff.1 r.isLt)
    by_contra hge
    have hlive := (h'.addr.live hD ha).2.1
    rw [hk _ (not_lt.1 hge)] at hlive
    cases hlive
  -- the ancestors are all different, as they are at different depths
  have hinj : Function.Injective fun r : Fin (d + 1) =>
      (⟨(fun x => (prc.getNode x).inp 0)^[r] c, hlt r⟩ : Fin k) := by
    intro r r' heq
    obtain ⟨o₁, h₁⟩ := h.ancestor hD hB ha (Nat.lt_succ_iff.1 r.isLt)
    obtain ⟨o₂, h₂⟩ := h.ancestor hD hB ha (Nat.lt_succ_iff.1 r'.isLt)
    rw [Fin.mk.inj heq] at h₁
    have hd := (h₁.unique hD hB ha h₂).1
    have := r.isLt
    have := r'.isLt
    exact Fin.ext (by omega)
  have hcard := Fintype.card_le_of_injective _ hinj
  rw [Fintype.card_fin, Fintype.card_fin] at hcard
  omega

/-! ### The walk -/

/-- From the entry `j` of an address on the iterator comes to the uses of the entries, and to the end of
the list, if below each sum it comes to the uses of the sum. -/
theorem DerivedAt.finishes_entries {n d : ℕ} {c : NodeId} {o : ℤ} (h : prc.DerivedAt a d c o)
    (hbelow : ∀ e v uses, e ∈ (prc.getNode c).outs → prc.constAdd e.id = some v →
      prc.Finishes ⟨e.id, wrap 64 (o + v), (prc.getNode e.id).outs.length⟩ uses →
      prc.Finishes ⟨e.id, wrap 64 (o + v), 0⟩ (prc.usesOf n e.id (wrap 64 (o + v)) ++ uses))
    {rest : List (NodeOutput × ℤ)}
    (hrest : prc.Finishes ⟨c, o, (prc.getNode c).outs.length⟩ rest) (m j : ℕ)
    (hm : j + m = (prc.getNode c).outs.length) :
    prc.Finishes ⟨c, o, j⟩
      (((prc.getNode c).outs.drop j).flatMap (prc.entryUses (prc.usesOf n) o) ++ rest) := by
  induction m generalizing j with
  | zero =>
    obtain rfl : j = (prc.getNode c).outs.length := hm
    rw [List.drop_length]
    exact hrest
  | succ m ih =>
    have hj : j < (prc.getNode c).outs.length := by omega
    have hget : (prc.getNode c).outs[j]? = some (prc.getNode c).outs[j] :=
      List.getElem?_eq_getElem hj
    have hmem : (prc.getNode c).outs[j] ∈ (prc.getNode c).outs := List.getElem_mem hj
    have hlater := ih (j + 1) (by omega)
    rw [List.drop_eq_getElem_cons hj, List.flatMap_cons, List.append_assoc]
    generalize (prc.getNode c).outs[j] = e at hget hmem
    cases hv : prc.constAdd e.id with
    | none =>
      rw [entryUses, hv]
      refine Finishes.yield ?_ hlater
      unfold offsetIterNext
      dsimp only
      rw [hget]
      dsimp only
      rw [hv]
    | some v =>
      obtain ⟨hid, hinp⟩ := h.addr.parent hD hB ha hmem hv
      obtain ⟨h0, hl, -⟩ := h.addr.live hD ha
      rw [entryUses, hv]
      refine Finishes.move (fun fuel => ?_)
        (hbelow e v _ hmem hv ?_)
      · rw [offsetIterNext]
        dsimp only
        rw [hget]
        dsimp only
        rw [hv]
      · -- at the end of the sum's list the iterator goes back up
        have hk : (prc.getNode c).outs.idxOf? ⟨e.id, 0⟩ = some j := by
          rw [← hid]
          exact idxOf?_of_nodup (hD.nodup c h0 hl) hget
        refine Finishes.move (fun fuel => ?_) hlater
        rw [offsetIterNext]
        dsimp only
        rw [List.getElem?_eq_none le_rfl]
        dsimp only
        rw [hv]
        dsimp only
        rw [hinp, hk, wrap_add_sub h.addr.inS]
        rfl

theorem DerivedAt.finishes {k : ℕ} (hk : ∀ id, k ≤ id → prc.live id = false) {n d : ℕ} {c : NodeId}
    {o : ℤ} (h : prc.DerivedAt a d c o) (hn : d + n + 1 = k) {rest : List (NodeOutput × ℤ)}
    (hrest : prc.Finishes ⟨c, o, (prc.getNode c).outs.length⟩ rest) :
    prc.Finishes ⟨c, o, 0⟩ (prc.usesOf (n + 1) c o ++ rest) := by
  induction n generalizing d c o rest with
  | zero =>
    refine h.finishes_entries hD hB ha (fun e v uses he hv _ => ?_) hrest _ 0 (zero_add _)
    have hlt := (h.add he hv).lt hD hB ha hk
    omega
  | succ n ih =>
    refine h.finishes_entries hD hB ha (fun e v uses he hv huses => ?_) hrest _ 0 (zero_add _)
    exact ih (h.add he hv) (by omega) huses

/-! ### What the uses are -/

theorem DerivedAt.mem_usesOf_iff {k : ℕ} (hk : ∀ id, k ≤ id → prc.live id = false) {n d : ℕ}
    {c : NodeId} {off : ℤ} (h : prc.DerivedAt a d c off) (hn : d + n + 1 = k) {out : NodeOutput}
    {o : ℤ} : (out, o) ∈ prc.usesOf (n + 1) c off ↔ prc.DerivedUse c off out o := by
  induction n generalizing d c off with
  | zero =>
    rw [usesOf, List.mem_flatMap, derivedUse_iff]
    refine exists_congr fun e => and_congr_right fun he =>
      mem_entryUses_iff fun v hv => ?_
    have hlt := (h.add he hv).lt hD hB ha hk
    omega
  | succ n ih =>
    rw [usesOf, List.mem_flatMap, derivedUse_iff]
    exact exists_congr fun e => and_congr_right fun he =>
      mem_entryUses_iff fun v hv => ih (h.add he hv) (by omega)

/-- Where a use from an entry is used: the address itself, or what is below the sum. -/
theorem DerivedAt.entryUse_at {d : ℕ} {c : NodeId} {off o : ℤ} (h : prc.DerivedAt a d c off)
    {e out : NodeOutput} (he : e ∈ (prc.getNode c).outs) (hu : prc.EntryUse e off out o) :
    (out = e ∧ prc.constAdd e.id = none) ∨ ∃ r x o', prc.DerivedAt a (d + 1 + r) x o' ∧
      (fun x => (prc.getNode x).inp 0)^[r] x = e.id ∧ e = ⟨e.id, 0⟩ ∧
      out ∈ (prc.getNode x).outs := by
  obtain ⟨hn, rfl, -⟩ | ⟨v, hv, x, hx, hout, -⟩ := hu
  · exact .inl ⟨rfl, hn⟩
  · obtain ⟨r, hr, hanc⟩ := hx.at hD hB ha (h.add he hv)
    exact .inr ⟨r, x, o, hr, hanc, (h.addr.parent hD hB ha he hv).1, hout⟩

omit hB in
/-- A use is listed by one address. -/
theorem DerivedAt.eq_of_mem_outs {d d' : ℕ} {c c' : NodeId} {o o' : ℤ} {out : NodeOutput}
    (h : prc.DerivedAt a d c o) (h' : prc.DerivedAt a d' c' o') (hout : out ∈ (prc.getNode c).outs)
    (hout' : out ∈ (prc.getNode c').outs) : c = c' := by
  obtain ⟨h0, hl, -⟩ := h.addr.live hD ha
  obtain ⟨h0', hl', -⟩ := h'.addr.live hD ha
  have hi := ((hD.mem_outs_iff c h0 hl out.id out.idx).1 hout).2
  have hi' := ((hD.mem_outs_iff c' h0' hl' out.id out.idx).1 hout').2
  exact Option.some.inj (hi.symm.trans hi')

/-- Two entries have no use in common. -/
theorem DerivedAt.entry_eq {d : ℕ} {c : NodeId} {off o₁ o₂ : ℤ} (h : prc.DerivedAt a d c off)
    {e₁ e₂ out : NodeOutput} (he₁ : e₁ ∈ (prc.getNode c).outs) (he₂ : e₂ ∈ (prc.getNode c).outs)
    (hu₁ : prc.EntryUse e₁ off out o₁) (hu₂ : prc.EntryUse e₂ off out o₂) : e₁ = e₂ := by
  have hdeeper {e e' : NodeOutput} (he : e ∈ (prc.getNode c).outs) {r : ℕ} {x : NodeId} {o' : ℤ}
      (hx : prc.DerivedAt a (d + 1 + r) x o') (hout : e ∈ (prc.getNode x).outs) : e = e' := by
    obtain rfl := h.eq_of_mem_outs hD ha hx he hout
    have := (h.unique hD hB ha hx).1
    omega
  obtain ⟨rfl, -⟩ | ⟨r₁, x₁, o₁', hx₁, hanc₁, hid₁, hout₁⟩ := h.entryUse_at hD hB ha he₁ hu₁
  · obtain ⟨rfl, -⟩ | ⟨r₂, x₂, o₂', hx₂, -, -, hout₂⟩ := h.entryUse_at hD hB ha he₂ hu₂
    · rfl
    · exact hdeeper he₁ hx₂ hout₂
  · obtain ⟨rfl, -⟩ | ⟨r₂, x₂, o₂', hx₂, hanc₂, hid₂, hout₂⟩ := h.entryUse_at hD hB ha he₂ hu₂
    · exact (hdeeper he₂ hx₁ hout₁).symm
    · -- the same number of additions above the same address
      obtain rfl := hx₁.eq_of_mem_outs hD ha hx₂ hout₁ hout₂
      obtain rfl : r₁ = r₂ := by
        have := (hx₁.unique hD hB ha hx₂).1
        omega
      rw [hid₁, hid₂, ← hanc₁, ← hanc₂]

theorem DerivedAt.entry_nodup {n d : ℕ} {c : NodeId} {off : ℤ} (h : prc.DerivedAt a d c off)
    (hmem : ∀ e out o, e ∈ (prc.getNode c).outs →
      (out, o) ∈ prc.entryUses (prc.usesOf n) off e → prc.EntryUse e off out o)
    (hbelow : ∀ e v, e ∈ (prc.getNode c).outs → prc.constAdd e.id = some v →
      ((prc.usesOf n e.id (wrap 64 (off + v))).map Prod.fst).Nodup) :
    ((prc.usesOf (n + 1) c off).map Prod.fst).Nodup := by
  obtain ⟨h0, hl, -⟩ := h.addr.live hD ha
  rw [usesOf, List.map_flatMap, List.nodup_flatMap]
  constructor
  · intro e he
    rw [entryUses]
    cases hv : prc.constAdd e.id with
    | none => exact List.nodup_singleton e
    | some v => exact hbelow e v he hv
  · refine (hD.nodup c h0 hl).imp_of_mem fun he₁ he₂ hne out hout₁ hout₂ => ?_
    obtain ⟨⟨out₁, o₁⟩, hm₁, rfl⟩ := List.mem_map.1 hout₁
    obtain ⟨⟨out₂, o₂⟩, hm₂, heq⟩ := List.mem_map.1 hout₂
    obtain rfl : out₂ = out₁ := heq
    exact hne (h.entry_eq hD hB ha he₁ he₂ (hmem _ _ _ he₁ hm₁) (hmem _ _ _ he₂ hm₂))

/-- No use comes twice. -/
theorem DerivedAt.usesOf_nodup {k : ℕ} (hk : ∀ id, k ≤ id → prc.live id = false) {n d : ℕ}
    {c : NodeId} {off : ℤ} (h : prc.DerivedAt a d c off) (hn : d + n + 1 = k) :
    ((prc.usesOf (n + 1) c off).map Prod.fst).Nodup := by
  induction n generalizing d c off with
  | zero =>
    have hnone (e : NodeOutput) (v : ℤ) (he : e ∈ (prc.getNode c).outs)
        (hv : prc.constAdd e.id = some v) : False := by
      have hlt := (h.add he hv).lt hD hB ha hk
      omega
    refine h.entry_nodup hD hB ha (fun e out o he hm => ?_) fun e v he hv => (hnone e v he hv).elim
    exact (mem_entryUses_iff fun v hv => (hnone e v he hv).elim).1 hm
  | succ n ih =>
    refine h.entry_nodup hD hB ha (fun e out o he hm => ?_) fun e v he hv =>
      ih (h.add he hv) (by omega)
    exact (mem_entryUses_iff fun v hv =>
      (h.add he hv).mem_usesOf_iff hD hB ha hk (by omega)).1 hm

/-! ### From the side of the use -/

/-- `base_and_offset` comes to the root, with what the additions add up to. -/
theorem DerivedAt.baseAndOffsetFrom {d : ℕ} {c : NodeId} {o : ℤ} (h : prc.DerivedAt a d c o)
    {off : ℤ} (hoff : InS 64 off) :
    prc.baseAndOffsetFrom (d + 1) c off = some (a, wrap 64 (off + o)) := by
  induction d generalizing c o off with
  | zero =>
    obtain ⟨-, rfl, rfl⟩ | ⟨d', v, o', hd, -⟩ := h.cases_parent hD hB ha
    · have hroot := ha.constAdd
      unfold constAdd at hroot
      unfold Proc.baseAndOffsetFrom
      dsimp only at hroot ⊢
      rw [add_zero, wrap_eq_self (by norm_num) hoff]
      split_ifs at hroot ⊢ with hadd
      · rw [hroot]
      · rfl
    · omega
  | succ d ih =>
    obtain ⟨hd, -⟩ | ⟨d', v, o', hd, hv, hp, rfl⟩ := h.cases_parent hD hB ha
    · omega
    · obtain rfl : d = d' := by omega
      have hsum : wrap 64 (wrap 64 (off + v) + o') = wrap 64 (off + wrap 64 (o' + v)) := by
        rw [wrap, wrap, wrap, wrap, Int.bmod_add_bmod, Int.add_bmod_bmod]
        congr 1
        ring
      have hadd := hv
      unfold constAdd at hadd
      unfold Proc.baseAndOffsetFrom
      dsimp only at hadd ⊢
      split_ifs at hadd with hcond
      rw [if_pos hcond, hadd, ← hsum]
      exact ih hp (wrap_mem (by norm_num) _)

end Root

/-- **The iterator from `a` is exact**: it comes to an end, its uses are those of `a` and of what
additions of constants make of `a`, each once with what the constants add up to, and the loop of
`base_and_offset` finds `a` and the same offset from what is used. -/
def WalksExactly (prc : Proc) (a : NodeId) : Prop :=
  ∃ uses, prc.Finishes ⟨a, 0, 0⟩ uses ∧ (uses.map Prod.fst).Nodup ∧
    (∀ out o, (out, o) ∈ uses ↔ prc.DerivedUse a 0 out o) ∧
    ∀ out o, (out, o) ∈ uses →
      ∃ fuel, prc.baseAndOffset fuel ((prc.getNode out.id).inp out.idx) = some (a, o)

theorem offsetIter_exact {k : ℕ} (hk : ∀ id, k ≤ id → prc.live id = false) (hD : prc.DefUse)
    (hB : prc.AddsBinary) {a : NodeId} (ha : prc.IsRoot a) : prc.WalksExactly a := by
  have hself : prc.DerivedAt a 0 a 0 := .self
  have hpos := hself.lt hD hB ha hk
  have hn : 0 + (k - 1) + 1 = k := by omega
  have hstop : prc.Finishes ⟨a, 0, (prc.getNode a).outs.length⟩ [] := by
    refine .stop ?_
    rw [offsetIterNext]
    dsimp only
    rw [List.getElem?_eq_none le_rfl]
    dsimp only
    rw [ha.constAdd]
  have hfinishes := hself.finishes hD hB ha hk hn hstop
  rw [List.append_nil] at hfinishes
  refine ⟨_, hfinishes, hself.usesOf_nodup hD hB ha hk hn, fun out o =>
    hself.mem_usesOf_iff hD hB ha hk hn, fun out o hmem => ?_⟩
  obtain ⟨c, hc, hout, -⟩ := (hself.mem_usesOf_iff hD hB ha hk hn).1 hmem
  obtain ⟨r, hr, -⟩ := hc.at hD hB ha hself
  obtain ⟨h0, hl, -⟩ := hc.live hD ha
  have hinp : (prc.getNode out.id).inp out.idx = c := by
    have hi := ((hD.mem_outs_iff c h0 hl out.id out.idx).1 hout).2
    unfold Node.inp
    rw [List.getD_eq_getElem?_getD, hi]
    rfl
  refine ⟨0 + r + 1, ?_⟩
  rw [hinp, baseAndOffset, hr.baseAndOffsetFrom hD hB ha ⟨by norm_num, by norm_num⟩, zero_add,
    wrap_eq_self (by norm_num) hc.inS]

end Proc

/-! ### Two loads -/

/-- A local with a load of it and a load at `8` from it: `4` is its address, `6` the sum. -/
def twoLoads : Proc where
  mem := fun id => [
    {},
    { itype := .entry, outs := [⟨2, 0⟩, ⟨7, 0⟩, ⟨8, 0⟩] },
    { itype := .mem, dt := .mem, isStore := true, inps := [1], outs := [⟨3, 0⟩, ⟨7, 1⟩, ⟨8, 1⟩] },
    { itype := .local, extra := [16, 0], inps := [2], outs := [⟨4, 0⟩] },
    { itype := .localAddr, dt := .i64, inps := [3], outs := [⟨6, 0⟩, ⟨8, 2⟩] },
    { itype := .cInt, dt := .i64, extra := [8, 0], outs := [⟨6, 1⟩] },
    { itype := .bin .add, dt := .i64, inps := [4, 5], outs := [⟨7, 2⟩] },
    { itype := .load, dt := .i64, inps := [1, 2, 6] },
    { itype := .load, dt := .i64, inps := [1, 2, 4] }].getD id { itype := .dead }
  pos := 9
  entry := 1
  end_ := 0

theorem twoLoads_dead {id : ℕ} (h : 9 ≤ id) : twoLoads.getNode id = { itype := .dead } :=
  Proc.getNode_of_length_le _ h (by decide) rfl rfl

theorem twoLoads_live (id : ℕ) (h : 9 ≤ id) : twoLoads.live id = false := by
  rw [Proc.live, twoLoads_dead h]
  rfl

theorem defUse_twoLoads : twoLoads.DefUse :=
  .of_bounded (k := 9) twoLoads_live (by decide) (by decide)

theorem addsBinary_twoLoads : twoLoads.AddsBinary :=
  Proc.forall_getNode (k := 9) (P := fun _ n => n.itype = .bin .add → n.inps.length = 2)
    (fun id h => twoLoads_dead h) (fun _ h => by cases h) (by decide)

/-- From the local's address. -/
theorem offsetIter_exact_twoLoads : twoLoads.WalksExactly 4 :=
  Proc.offsetIter_exact twoLoads_live defUse_twoLoads addsBinary_twoLoads
    ⟨by decide, rfl, rfl, rfl⟩

/-- From the sum the iterator goes on with what comes after the sum at the local's address. -/
theorem not_walksExactly_sum :
    ¬ ∀ (prc : Proc) (k : ℕ) (a : NodeId), (∀ id, k ≤ id → prc.live id = false) → prc.DefUse →
      prc.AddsBinary → a ≠ 0 → prc.live a = true → prc.WalksExactly a := by
  intro h
  obtain ⟨uses, hfinishes, -, hmem, -⟩ :=
    h twoLoads 9 6 twoLoads_live defUse_twoLoads addsBinary_twoLoads (by decide) rfl
  have hrun : twoLoads.offsetIterAll 3 3 ⟨6, 0, 0⟩ = some [(⟨7, 2⟩, 0), (⟨8, 2⟩, -8)] := by decide
  obtain rfl := hfinishes.unique (.of_some hrun)
  have huse := (hmem ⟨8, 2⟩ (-8)).1 (by decide)
  obtain ⟨e, he, hentry⟩ := Proc.derivedUse_iff.1 huse
  obtain rfl : e = ⟨7, 2⟩ := List.mem_singleton.1 he
  obtain ⟨-, heq, -⟩ | ⟨v, hv, -⟩ := hentry
  · cases heq
  · cases hv

end OdinSon
