import OdinSon.Regalloc.LinearScan

/-!
# The active intervals of a linear scan

What the array of active intervals goes through: an interval is added at the end, and the ones that
end at a point are removed while the search for them goes on from the end to the front
(`expireLoop_spec`).  Behind the entries that count there are those that were removed, which the
search may come across.  They ended before, so they are not taken for others.
-/

namespace OdinSon.Regalloc

theorem endHash_ne_zero (stop : ℕ) : endHash stop ≠ 0 := by
  intro h
  have := congrArg UInt8.toNat h
  rw [endHash, UInt8.toNat_ofNat'] at this
  simp at this
  omega

namespace Active

/-- The entries that count are intervals with their bytes, the others ended before `j`. -/
structure Ok (j : ℕ) (a : Active) : Prop where
  len_le : a.len ≤ a.items.length
  live : ∀ i < a.len, ∃ s, a.items[i]? = some ⟨endHash s.stop, some s⟩
  stale : ∀ i e, a.len ≤ i → a.items[i]? = some e →
    e.hash = 0 ∨ ∃ s, e.id = some s ∧ s.stop < j

variable {a a' : Active} {j k : ℕ} {slrg : Slrg}

theorem ok_nil (j : ℕ) : Ok j ⟨[], 0⟩ :=
  ⟨le_refl _, fun _ h => absurd h (Nat.not_lt_zero _), fun _ _ _ h => by simp at h⟩

theorem hash_eq {e : ActiveEntry} (h : a.items[k]? = some e) : a.hash k = e.hash := by
  rw [hash, h]
  rfl

theorem mem_slrgs : slrg ∈ a.slrgs ↔ ∃ i < a.len, ∃ e, a.items[i]? = some e ∧ e.id = some slrg := by
  rw [slrgs, List.mem_filterMap]
  constructor
  · rintro ⟨e, he, hid⟩
    obtain ⟨i, hi⟩ := List.mem_iff_getElem?.1 he
    rw [List.getElem?_take] at hi
    split at hi
    · exact ⟨i, ‹_›, e, hi, hid⟩
    · cases hi
  · rintro ⟨i, hi, e, he, hid⟩
    refine ⟨e, List.mem_iff_getElem?.2 ⟨i, ?_⟩, hid⟩
    rw [List.getElem?_take, if_pos hi, he]

/-! ### Adding -/

/-- The array before an entry is added, with room for it. -/
theorem Ok.grown (h : a.Ok j) :
    let items :=
      if a.items.length = a.len then a.items ++ List.replicate 16 ⟨0, none⟩ else a.items
    a.len < items.length ∧ items.take a.len = a.items.take a.len ∧
      ∀ i e, a.len ≤ i → items[i]? = some e → e.hash = 0 ∨ ∃ s, e.id = some s ∧ s.stop < j := by
  have hle := h.len_le
  dsimp only
  split
  · rename_i hfull
    refine ⟨by simp; omega, List.take_append_of_le_length hle, fun i e hi he => .inl ?_⟩
    rw [List.getElem?_append_right (by omega)] at he
    have hmem := List.mem_of_getElem? he
    rw [List.eq_of_mem_replicate hmem]
  · exact ⟨by omega, rfl, h.stale⟩

theorem Ok.push (h : a.Ok j) : (a.push slrg).Ok j := by
  obtain ⟨hlt, htake, hstale⟩ := h.grown
  rw [Active.push]
  generalize (if a.items.length = a.len then a.items ++ List.replicate 16 ⟨0, none⟩
    else a.items) = items at hlt htake hstale
  refine ⟨?_, fun i hi => ?_, fun i e hi he => ?_⟩
  · simp only [List.length_set]
    omega
  · by_cases hlast : i = a.len
    · exact ⟨slrg, by rw [hlast, List.getElem?_set_self hlt]⟩
    · obtain ⟨s, hs⟩ := h.live i (by simp only at hi; omega)
      refine ⟨s, ?_⟩
      have hi : i < a.len := by simp only at hi; omega
      have := congrArg (·[i]?) htake
      simp only [List.getElem?_take, if_pos hi] at this
      rw [List.getElem?_set_ne (Ne.symm hlast), this, hs]
  · simp only at hi
    rw [List.getElem?_set_ne (by omega)] at he
    exact hstale i e (by omega) he

theorem Ok.slrgs_push (h : a.Ok j) : (a.push slrg).slrgs = a.slrgs ++ [slrg] := by
  obtain ⟨hlt, htake, -⟩ := h.grown
  rw [Active.push]
  generalize (if a.items.length = a.len then a.items ++ List.replicate 16 ⟨0, none⟩
    else a.items) = items at hlt htake
  simp only [slrgs]
  rw [List.take_add_one, List.getElem?_set_self hlt, List.take_set,
    List.set_eq_of_length_le (by rw [List.length_take]; omega), htake, List.filterMap_append]
  rfl

/-! ### Removing -/

/-- What is removed is behind the entries that count afterwards. -/
theorem remove_getElem? (h : a.remove k = some a') :
    a'.len = a.len - 1 ∧ a'.items.length = a.items.length ∧
      (∀ i, i ≠ k → i ≠ a.len - 1 → a'.items[i]? = a.items[i]?) ∧
      a'.items[a.len - 1]? = a.items[k]? ∧
      (k ≠ a.len - 1 → a'.items[k]? = a.items[a.len - 1]?) := by
  rw [remove] at h
  simp only [Option.bind_eq_bind, Option.bind_eq_some_iff] at h
  obtain ⟨last, hlast, entry, hentry, h⟩ := h
  cases h
  have hlt : k < a.items.length := (List.getElem?_eq_some_iff.1 hentry).1
  have hlt' : a.len - 1 < a.items.length := (List.getElem?_eq_some_iff.1 hlast).1
  refine ⟨rfl, by simp, fun i hik hil => ?_, ?_, fun hne => ?_⟩
  · rw [List.getElem?_set_ne (Ne.symm hik), List.getElem?_set_ne (Ne.symm hil)]
  · by_cases hkl : k = a.len - 1
    · have he : entry = last := by
        rw [hkl, hlast] at hentry
        exact (Option.some.inj hentry).symm
      rw [← hkl, List.getElem?_set_self (by simpa using hlt), hentry, he]
    · rw [List.getElem?_set_ne hkl, List.getElem?_set_self hlt', hentry]
  · rw [List.getElem?_set_self (by simpa using hlt), hlast]

theorem remove_slrgs {e : ActiveEntry} (h : a.remove k = some a') (hk : k < a.len)
    (hle : a.len ≤ a.items.length) (he : a.items[k]? = some e) (hid : e.id = some slrg) :
    a.slrgs.Perm (slrg :: a'.slrgs) := by
  have hget : (a.items.take a.len)[k]? = some e := by rw [List.getElem?_take, if_pos hk, he]
  have hlen : k < (a.items.take a.len).length := (List.getElem?_eq_some_iff.1 hget).1
  have helem : (a.items.take a.len)[k] = e := (List.getElem?_eq_some_iff.1 hget).2
  have htake : a'.items.take a'.len = swapRemove (a.items.take a.len) k := by
    rw [remove] at h
    simp only [Option.bind_eq_bind, Option.bind_eq_some_iff] at h
    obtain ⟨last, hlast, entry, -, h⟩ := h
    cases h
    have hgetLast : (a.items.take a.len).getLast? = some last := by
      rw [List.getLast?_eq_getElem?, List.length_take, Nat.min_eq_left hle, List.getElem?_take,
        if_pos (by omega), hlast]
    rw [swapRemove, hgetLast]
    simp only [List.take_set, List.dropLast_eq_take, List.length_set, List.length_take,
      Nat.min_eq_left hle, List.take_take]
    have hset : (a.items.take (a.len - 1)).set (a.len - 1) entry = a.items.take (a.len - 1) :=
      List.set_eq_of_length_le (by rw [List.length_take]; omega)
    rw [hset, Nat.min_eq_left (Nat.sub_le _ _)]
  rw [slrgs, slrgs, htake]
  have hperm := (List.getElem_cons_eraseIdx_perm hlen).symm.trans
    ((swapRemove_perm hlen).symm.cons _)
  rw [helem] at hperm
  have := hperm.filterMap (·.id)
  rwa [List.filterMap_cons_some hid] at this

/-! ### The search -/

/-- The state of the search: the entries from `cur` on are done with. -/
structure Searched (j cur : ℕ) (a : Active) : Prop where
  len_le : a.len ≤ a.items.length
  live : ∀ i < a.len, ∃ s, a.items[i]? = some ⟨endHash s.stop, some s⟩
  seen : ∀ i e s, cur ≤ i → i < a.len → a.items[i]? = some e → e.id = some s → s.stop ≠ j
  stale : ∀ i e, i < cur → a.len ≤ i → a.items[i]? = some e →
    e.hash = 0 ∨ ∃ s, e.id = some s ∧ s.stop < j
  gone : ∀ i e, a.len ≤ i → a.items[i]? = some e →
    e.hash = 0 ∨ ∃ s, e.id = some s ∧ s.stop < j + 1

variable {cur : ℕ} {e : ActiveEntry}

theorem Ok.searched (h : a.Ok j) (hcur : a.len ≤ cur) : Searched j cur a := by
  refine ⟨h.len_le, h.live, fun i _ _ h1 h2 => absurd h2 (by omega),
    fun i e _ => h.stale i e, fun i e hi he => ?_⟩
  obtain h0 | ⟨s, hs, hlt⟩ := h.stale i e hi he
  · exact .inl h0
  · exact .inr ⟨s, hs, Nat.lt_succ_of_lt hlt⟩

/-- The places between two that were found do not end at `j`. -/
theorem Searched.stop_ne (h : Searched j cur a)
    (hbetween : ∀ i, k < i → i < cur → a.hash i ≠ endHash j) {i : ℕ} {s : Slrg} (hki : k < i)
    (hi : i < a.len) (he : a.items[i]? = some e) (hid : e.id = some s) : s.stop ≠ j := by
  by_cases hc : i < cur
  · intro hstop
    obtain ⟨s', hs'⟩ := h.live i hi
    obtain rfl := Option.some.inj (he.symm.trans hs')
    obtain rfl := Option.some.inj hid
    exact hbetween i hki hc (by rw [hash_eq he, hstop])
  · exact h.seen i e s (by omega) hi he hid

/-- An entry that is found but does not end at `j` stays. -/
theorem Searched.skip (h : Searched j cur a) (hk : k < cur)
    (hbetween : ∀ i, k < i → i < cur → a.hash i ≠ endHash j) (he : a.items[k]? = some e)
    (hid : e.id = some slrg) (hne : slrg.stop ≠ j) : Searched j k a := by
  refine ⟨h.len_le, h.live, fun i e' s hki hi he' hs => ?_,
    fun i e' hik => h.stale i e' (by omega), h.gone⟩
  obtain rfl | hlt := Nat.eq_or_lt_of_le hki
  · obtain rfl := Option.some.inj (he.symm.trans he')
    obtain rfl := Option.some.inj (hid.symm.trans hs)
    exact hne
  · exact h.stop_ne hbetween hlt hi he' hs

/-- One that ends at `j` counts, and is removed. -/
theorem Searched.lt_len (h : Searched j cur a) (hk : k < cur) (hneedle : a.hash k = endHash j)
    (he : a.items[k]? = some e) (hid : e.id = some slrg) (hstop : slrg.stop = j) : k < a.len := by
  by_contra hlt
  obtain h0 | ⟨s, hs, hlt'⟩ := h.stale k e hk (by omega) he
  · rw [hash_eq he, h0] at hneedle
    exact endHash_ne_zero j hneedle.symm
  · obtain rfl := Option.some.inj (hid.symm.trans hs)
    omega

theorem Searched.remove (h : Searched j cur a) (hk : k < a.len)
    (hbetween : ∀ i, k < i → i < cur → a.hash i ≠ endHash j) (he : a.items[k]? = some e)
    (hid : e.id = some slrg) (hstop : slrg.stop = j) (hr : a.remove k = some a') :
    Searched j k a' := by
  obtain ⟨hlen, hlength, hother, hlast, hmoved⟩ := remove_getElem? hr
  have hle := h.len_le
  -- an entry that counts is an old one, from a place at or above `k` if it is there now
  have hfrom (i : ℕ) (hi : i < a'.len) :
      ∃ i' < a.len, a'.items[i]? = a.items[i']? ∧ (k ≤ i → k < i') := by
    by_cases hik : i = k
    · refine ⟨a.len - 1, by omega, ?_, fun _ => by omega⟩
      rw [hik]
      exact hmoved (by omega)
    · exact ⟨i, by omega, hother i hik (by omega), fun _ => by omega⟩
  refine ⟨by omega, fun i hi => ?_, fun i e' s hki hi he' hs => ?_,
    fun i e' hik hi => absurd hi (by omega), fun i e' hi he' => ?_⟩
  · obtain ⟨i', hi', heq, -⟩ := hfrom i hi
    rw [heq]
    exact h.live i' hi'
  · obtain ⟨i', hi', heq, hlt⟩ := hfrom i hi
    exact h.stop_ne hbetween (hlt hki) hi' (heq ▸ he') hs
  · by_cases hil : i = a.len - 1
    · rw [hil, hlast, he] at he'
      obtain rfl := Option.some.inj he'
      exact .inr ⟨slrg, hid, by omega⟩
    · rw [hother i (by omega) hil] at he'
      exact h.gone i e' (by omega) he'

end Active

open Active

variable {ls : ScanLrgs} {j : ℕ}

/-- **The active intervals that end at `j` are removed**, and only these, and their registers are
free. -/
theorem expireLoop_spec {fuel rest mask cur : ℕ} {a a' : Active} {free free' : RegMask}
    (hat : RevAt a.hash (endHash j) rest mask cur) (hs : Searched j cur a)
    (h : ScanCtx.expireLoop ls j fuel rest mask a free = some (a', free')) :
    a'.Ok (j + 1) ∧ a'.slrgs.Perm (a.slrgs.filter (·.stop ≠ j)) ∧
      free'.kind = free.kind ∧ free'.bitLength = free.bitLength ∧
      ∀ r ∈ free'.regs, r ∈ free.regs ∨ ∃ s ∈ a.slrgs, s.stop = j ∧ ls.reg s.lrg = some r := by
  induction fuel generalizing rest mask cur a free with
  | zero => cases h
  | succ fuel ih =>
    rw [ScanCtx.expireLoop] at h
    split at h
    · rename_i hnone
      obtain ⟨rfl, rfl⟩ := Prod.mk.inj (Option.some.inj h)
      -- no hash is left that equals that of `j`, so none below ends there
      have hne := simdIterNextRev_none hat hnone
      have hstop (s : Slrg) (hmem : s ∈ a.slrgs) : s.stop ≠ j := by
        obtain ⟨i, hi, e, he, hid⟩ := mem_slrgs.1 hmem
        by_cases hc : i < cur
        · obtain ⟨s', hs'⟩ := hs.live i hi
          obtain rfl := Option.some.inj (he.symm.trans hs')
          obtain rfl := Option.some.inj hid
          intro hstop
          exact hne i hc (by rw [hash_eq he, hstop])
        · exact hs.seen i e s (by omega) hi he hid
      refine ⟨⟨hs.len_le, hs.live, hs.gone⟩, ?_, rfl, rfl, fun r hr => .inl hr⟩
      rw [List.filter_eq_self.2 fun s hmem => by simpa using hstop s hmem]
    · rename_i k rest' mask' hsome
      obtain ⟨hk, hneedle, hbetween, hat'⟩ := simdIterNextRev_some hat hsome
      simp only [Option.bind_eq_bind, Option.bind_eq_some_iff] at h
      obtain ⟨e, he, slrg, hid, h⟩ := h
      split at h
      · rename_i hstop
        simp only [Option.bind_eq_some_iff] at h
        obtain ⟨reg, hreg, freed, hfreed, b, hb, h⟩ := h
        have hlt := hs.lt_len hk hneedle he hid hstop
        -- the removal puts the last interval into place `k`, which the search has passed
        have hsame (i : ℕ) (hi : i < k) : b.hash i = a.hash i := by
          rw [Active.hash, Active.hash, (remove_getElem? hb).2.2.1 i (by omega) (by omega)]
        have hperm := remove_slrgs hb hlt hs.len_le he hid
        obtain ⟨hok, hp, hkind, hlen, hfree⟩ :=
          ih (hat'.congr hsame) (hs.remove hlt hbetween he hid hstop hb) h
        rw [RegMask.set] at hfreed
        split at hfreed
        · cases hfreed
          refine ⟨hok, hp.trans ?_, hkind, hlen, fun r hr => ?_⟩
          · have := hperm.filter (·.stop ≠ j)
            rw [List.filter_cons_of_neg (by simpa using hstop)] at this
            exact this.symm
          · obtain hr | ⟨s, hmem, hr⟩ := hfree r hr
            · obtain rfl | hr := Finset.mem_insert.1 hr
              · exact .inr ⟨slrg, hperm.mem_iff.2 (List.mem_cons_self ..), hstop, hreg⟩
              · exact .inl hr
            · exact .inr ⟨s, hperm.mem_iff.2 (List.mem_cons_of_mem _ hmem), hr⟩
        · cases hfreed
      · rename_i hstop
        -- equal hashes, but the interval ends elsewhere
        exact ih hat' (hs.skip hk hbetween he hid hstop) h

end OdinSon.Regalloc
