import OdinSon.Odinc.WasmObject

/-!
# The layout of the globals and the numbers of the functions

The two passes over the globals lay out those with memory one after another, the zero ones first
(`order`).  So each is at a multiple of its alignment, after the stack, and apart from the others
(`layout_spec`, `layout_apart`).

The two passes over the procedures number the imports and then those with code (`funcSpace`).
-/

namespace OdinSon.Odinc.WasmObject

/-! ### Numbered lists -/

section Numbered

variable {α : Type*} {l : List α}

theorem mem_numbered {x : α} {i : ℕ} : (x, i) ∈ numbered l ↔ 0 < i ∧ l[i]? = some x := by
  cases l with
  | nil => simp [numbered]
  | cons y l =>
    have htail : numbered (y :: l) = l.zipIdx 1 := rfl
    rw [htail, List.mem_zipIdx_iff_le_and_getElem?_sub]
    cases i with
    | zero => simp
    | succ i => simp

theorem nodup_numbered : ((numbered l).map Prod.snd).Nodup := by
  cases l with
  | nil => exact List.nodup_nil
  | cons y l =>
    have htail : numbered (y :: l) = l.zipIdx 1 := rfl
    rw [htail, List.zipIdx_map_snd]
    exact List.nodup_range'

theorem lt_length_of_mem_numbered {p : α × ℕ} (h : p ∈ numbered l) : p.2 < l.length := by
  obtain ⟨hlt, -⟩ := List.getElem?_eq_some_iff.1 (mem_numbered.1 h).2
  exact hlt

end Numbered

/-! ### Places -/

theorem dvd_alignForward (n align : ℕ) : align ∣ alignForward n align := dvd_mul_left _ _

theorem le_alignForward {n align : ℕ} (h : align ≠ 0) : n ≤ alignForward n align := by
  have hdiv := Nat.div_add_mod (n + (align - 1)) align
  have hmod := Nat.mod_lt (n + (align - 1)) (Nat.pos_of_ne_zero h)
  rw [mul_comm] at hdiv
  simp only [alignForward]
  omega

/-- A global with memory. -/
def Live (g : Global) : Prop := g.align ≠ 0

instance (g : Global) : Decidable (Live g) := inferInstanceAs (Decidable (_ ≠ _))

/-- The globals that a pass places. -/
def placed (doZeroed : Bool) (globals : List Global) : List (Global × ℕ) :=
  (numbered globals).filter fun g => decide (Live g.1) && (zeroed g.1 == doZeroed)

/-- The globals with memory, in the order in which they are placed. -/
def order (globals : List Global) : List (Global × ℕ) := placed true globals ++ placed false globals

theorem mem_placed {globals : List Global} {b : Bool} {g : Global × ℕ} :
    g ∈ placed b globals ↔ g ∈ numbered globals ∧ Live g.1 ∧ zeroed g.1 = b := by
  simp [placed]

theorem mem_order {globals : List Global} {g : Global × ℕ} :
    g ∈ order globals ↔ g ∈ numbered globals ∧ Live g.1 := by
  rw [order, List.mem_append, mem_placed, mem_placed]
  cases zeroed g.1 <;> simp

theorem nodup_order (globals : List Global) : ((order globals).map Prod.snd).Nodup := by
  have hsub (b : Bool) : List.Sublist ((placed b globals).map Prod.snd)
      ((numbered globals).map Prod.snd) := List.filter_sublist.map _
  rw [order, List.map_append, List.nodup_append]
  refine ⟨(hsub true).nodup nodup_numbered, (hsub false).nodup nodup_numbered, ?_⟩
  intro i hi j hj hij
  obtain ⟨⟨g, _⟩, hg, rfl⟩ := List.mem_map.1 hi
  obtain ⟨⟨k, _⟩, hk, rfl⟩ := List.mem_map.1 hj
  obtain rfl : _ = _ := hij
  obtain ⟨hg, -, hzero⟩ := mem_placed.1 hg
  obtain ⟨hk, -, hnonzero⟩ := mem_placed.1 hk
  obtain rfl := Option.some.inj ((mem_numbered.1 hg).2.symm.trans (mem_numbered.1 hk).2)
  exact Bool.false_ne_true (hnonzero.symm.trans hzero)

namespace Layout

theorem pass_eq (b : Bool) (l : Layout) (globals : List Global) :
    pass b l (numbered globals) = (placed b globals).foldl place l := by
  rw [placed, List.foldl_filter, pass]
  congr 1
  funext l g
  by_cases halign : g.1.align = 0
  · simp [halign, Live]
  · by_cases hzero : zeroed g.1 = b <;> simp [halign, hzero, Live]

/-- The addresses that the globals get from `size` on. -/
def addrs : ℕ → List (Global × ℕ) → List ℕ
  | _, [] => []
  | size, g :: gs =>
    let offset := alignForward size g.1.align
    offset :: addrs (offset + g.1.bytes.length) gs

variable {l : Layout} {gs : List (Global × ℕ)}

theorem length_addrs (size : ℕ) : (addrs size gs).length = gs.length := by
  induction gs generalizing size with
  | nil => rfl
  | cons g gs ih => exact congrArg (· + 1) (ih _)

theorem globals_foldl_place :
    (gs.foldl place l).globals = l.globals ++ (addrs l.size gs).map (⟨false, ·⟩) := by
  induction gs generalizing l with
  | nil => exact (List.append_nil _).symm
  | cons g gs ih =>
    refine ih.trans ?_
    simp only [place, addrs, List.map_cons, List.append_assoc, List.singleton_append]

theorem foldl_place_of_notMem {j : ℕ} (h : j ∉ gs.map Prod.snd) :
    (gs.foldl place l).idxes[j]? = l.idxes[j]? ∧ (gs.foldl place l).offsets[j]? = l.offsets[j]? := by
  induction gs generalizing l with
  | nil => exact ⟨rfl, rfl⟩
  | cons g gs ih =>
    rw [List.map_cons, List.mem_cons, not_or] at h
    obtain ⟨hidx, hoffset⟩ := ih (l := l.place g) h.2
    refine ⟨hidx.trans ?_, hoffset.trans ?_⟩ <;>
      exact List.getElem?_set_ne (Ne.symm h.1)

theorem size_le_foldl_place (h : ∀ g ∈ gs, Live g.1) : l.size ≤ (gs.foldl place l).size := by
  induction gs generalizing l with
  | nil => exact le_rfl
  | cons g gs ih =>
    have hle := le_alignForward (n := l.size) (h g (List.mem_cons_self ..))
    have hrest := ih (l := l.place g) fun g hg => h g (List.mem_cons_of_mem _ hg)
    exact (hle.trans (Nat.le_add_right _ _)).trans hrest

theorem addrs_append {hs : List (Global × ℕ)} :
    addrs l.size (gs ++ hs) = addrs l.size gs ++ addrs (gs.foldl place l).size hs := by
  induction gs generalizing l with
  | nil => rfl
  | cons g gs ih => exact congrArg (List.cons _) (ih (l := l.place g))

theorem addrs_end (hlive : ∀ g ∈ gs, Live g.1) {k a : ℕ} {g : Global × ℕ} (hk : gs[k]? = some g)
    (ha : (addrs l.size gs)[k]? = some a) : a + g.1.bytes.length ≤ (gs.foldl place l).size := by
  induction gs generalizing l k with
  | nil => cases hk
  | cons h gs ih =>
    have hlive' := fun g hg => hlive g (List.mem_cons_of_mem _ hg)
    cases k with
    | zero =>
      obtain rfl := Option.some.inj hk
      obtain rfl := Option.some.inj ha
      exact size_le_foldl_place (l := l.place h) hlive'
    | succ k => exact ih (l := l.place h) hlive' hk ha

/-- What the `k`th of the placed globals gets. -/
theorem foldl_place_getElem? (hlive : ∀ g ∈ gs, Live g.1) (hnodup : (gs.map Prod.snd).Nodup)
    (hidxes : ∀ g ∈ gs, g.2 < l.idxes.length) (hoffsets : ∀ g ∈ gs, g.2 < l.offsets.length)
    {k : ℕ} {g : Global × ℕ} (hk : gs[k]? = some g) :
    ∃ a, (addrs l.size gs)[k]? = some a ∧
      (gs.foldl place l).idxes[g.2]? = some (l.globals.length + k) ∧
      (gs.foldl place l).offsets[g.2]? = some a ∧
      g.1.align ∣ a ∧ l.size ≤ a := by
  induction gs generalizing l k with
  | nil => cases hk
  | cons h gs ih =>
    have hlive' := fun g hg => hlive g (List.mem_cons_of_mem _ hg)
    obtain ⟨hnotMem, hnodup'⟩ := List.nodup_cons.1 hnodup
    have hle := le_alignForward (n := l.size) (hlive h (List.mem_cons_self ..))
    cases k with
    | zero =>
      obtain rfl := Option.some.inj hk
      obtain ⟨hidx, hoffset⟩ := foldl_place_of_notMem (l := l.place h) hnotMem
      refine ⟨_, rfl, hidx.trans ?_, hoffset.trans ?_, dvd_alignForward _ _, hle⟩
      · exact List.getElem?_set_self (hidxes h (List.mem_cons_self ..))
      · exact List.getElem?_set_self (hoffsets h (List.mem_cons_self ..))
    | succ k =>
      have hidxes' : ∀ g ∈ gs, g.2 < (l.place h).idxes.length := by
        intro g hg
        exact (hidxes g (List.mem_cons_of_mem _ hg)).trans_eq List.length_set.symm
      have hoffsets' : ∀ g ∈ gs, g.2 < (l.place h).offsets.length := by
        intro g hg
        exact (hoffsets g (List.mem_cons_of_mem _ hg)).trans_eq List.length_set.symm
      obtain ⟨a, ha, hidx, hoffset, hdvd, hstart⟩ :=
        ih (l := l.place h) hlive' hnodup' hidxes' hoffsets' hk
      refine ⟨a, ha, hidx.trans ?_, hoffset, hdvd,
        (hle.trans (Nat.le_add_right _ _)).trans hstart⟩
      simp only [place, List.length_append, List.length_singleton, Option.some.injEq]
      omega

theorem le_addrs (hlive : ∀ g ∈ gs, Live g.1) {size k a : ℕ} (ha : (addrs size gs)[k]? = some a) :
    size ≤ a := by
  induction gs generalizing size k with
  | nil => cases ha
  | cons g gs ih =>
    have hle := le_alignForward (n := size) (hlive g (List.mem_cons_self ..))
    cases k with
    | zero => exact hle.trans_eq (Option.some.inj ha)
    | succ k =>
      have hrest := ih (fun g hg => hlive g (List.mem_cons_of_mem _ hg)) ha
      exact (hle.trans (Nat.le_add_right _ _)).trans hrest

/-- Of two placed globals, the later is after the earlier. -/
theorem addrs_apart (hlive : ∀ g ∈ gs, Live g.1) {size k k' a a' : ℕ} {g : Global × ℕ}
    (hk : gs[k]? = some g) (ha : (addrs size gs)[k]? = some a)
    (ha' : (addrs size gs)[k']? = some a') (hlt : k < k') : a + g.1.bytes.length ≤ a' := by
  induction gs generalizing size k k' with
  | nil => cases hk
  | cons h gs ih =>
    obtain ⟨k', rfl⟩ := Nat.exists_eq_add_one_of_ne_zero (Nat.ne_zero_of_lt hlt)
    have hlive' := fun g hg => hlive g (List.mem_cons_of_mem _ hg)
    cases k with
    | zero =>
      obtain rfl := Option.some.inj hk
      obtain rfl := Option.some.inj ha
      exact le_addrs hlive' ha'
    | succ k => exact ih hlive' hk ha ha' (Nat.lt_of_succ_lt_succ hlt)

end Layout

/-! ### The layout of the module -/

section Layout

variable {globals : List Global}

/-- The layout before the passes. -/
def emptyLayout (globals : List Global) : Layout :=
  ⟨stackSize, [⟨true, stackSize⟩], List.replicate globals.length 0,
    List.replicate globals.length 0⟩

theorem zeroLayout_eq : zeroLayout globals = (placed true globals).foldl .place (emptyLayout globals) :=
  Layout.pass_eq _ _ _

theorem layout_eq : layout globals = (order globals).foldl .place (emptyLayout globals) := by
  rw [layout, Layout.pass_eq, zeroLayout_eq, order, List.foldl_append]

/-- The address of the `k`th placed global. -/
def addrs (globals : List Global) : List ℕ := Layout.addrs stackSize (order globals)

theorem layout_globals :
    (layout globals).globals = ⟨true, stackSize⟩ :: (addrs globals).map (⟨false, ·⟩) := by
  rw [layout_eq, Layout.globals_foldl_place]
  rfl

theorem live_of_mem_order {g : Global × ℕ} (h : g ∈ order globals) : Live g.1 := (mem_order.1 h).2

theorem lt_length_of_mem_order {g : Global × ℕ} (h : g ∈ order globals) : g.2 < globals.length :=
  lt_length_of_mem_numbered (mem_order.1 h).1

/-- **Each global with memory has an address, which its index and its offset are for.** -/
theorem layout_spec {k : ℕ} {g : Global × ℕ} (hk : (order globals)[k]? = some g) :
    ∃ a, (addrs globals)[k]? = some a ∧
      (layout globals).idxes[g.2]? = some (k + 1) ∧ (layout globals).offsets[g.2]? = some a ∧
      g.1.align ∣ a ∧ stackSize ≤ a ∧ a + g.1.bytes.length ≤ (layout globals).size := by
  have hlen : ∀ g ∈ order globals, g.2 < (List.replicate globals.length 0).length := by
    intro g hg
    rw [List.length_replicate]
    exact lt_length_of_mem_order hg
  obtain ⟨a, ha, hidx, hoffset, hdvd, hstart⟩ :=
    Layout.foldl_place_getElem? (l := emptyLayout globals) (fun _ => live_of_mem_order)
      (nodup_order globals) hlen hlen hk
  have hend := Layout.addrs_end (l := emptyLayout globals) (fun _ => live_of_mem_order) hk ha
  rw [layout_eq]
  refine ⟨a, ha, hidx.trans ?_, hoffset, hdvd, hstart, hend⟩
  rw [add_comm]
  rfl

theorem layout_apart {k k' a a' : ℕ} {g : Global × ℕ} (hk : (order globals)[k]? = some g)
    (ha : (addrs globals)[k]? = some a) (ha' : (addrs globals)[k']? = some a') (hlt : k < k') :
    a + g.1.bytes.length ≤ a' :=
  Layout.addrs_apart (fun _ => live_of_mem_order) hk ha ha' hlt

/-- What is zero is before the data, all else is in it. -/
theorem layout_data {k a : ℕ} {g : Global × ℕ} (hk : (order globals)[k]? = some g)
    (ha : (addrs globals)[k]? = some a) :
    if zeroed g.1 then a + g.1.bytes.length ≤ (zeroLayout globals).size
    else (zeroLayout globals).size ≤ a := by
  have hlive (b : Bool) : ∀ g ∈ placed b globals, Live g.1 := fun g hg => (mem_placed.1 hg).2.1
  have haddrs : addrs globals = Layout.addrs stackSize (placed true globals) ++
      Layout.addrs (zeroLayout globals).size (placed false globals) := by
    rw [zeroLayout_eq]
    exact Layout.addrs_append (l := emptyLayout globals)
  rw [order] at hk
  rw [haddrs] at ha
  obtain hlt | hge := lt_or_ge k (placed true globals).length
  · rw [List.getElem?_append_left hlt] at hk
    rw [List.getElem?_append_left (by rwa [Layout.length_addrs])] at ha
    rw [if_pos (mem_placed.1 (List.mem_of_getElem? hk)).2.2, zeroLayout_eq]
    exact Layout.addrs_end (l := emptyLayout globals) (hlive true) hk ha
  · rw [List.getElem?_append_right hge] at hk
    rw [List.getElem?_append_right (by rwa [Layout.length_addrs])] at ha
    have hzero := (mem_placed.1 (List.mem_of_getElem? hk)).2.2
    rw [if_neg (by rw [hzero]; exact Bool.false_ne_true)]
    exact Layout.le_addrs (hlive false) ha

end Layout

/-! ### Functions -/

/-- Numbers from `base` on for the given places. -/
def assign : List ℕ → ℕ → List ℕ → List ℕ
  | idxes, _, [] => idxes
  | idxes, base, i :: is => assign (idxes.set i base) (base + 1) is

section Assign

variable {idxes is : List ℕ} {base i k : ℕ}

theorem assign_append {js : List ℕ} :
    assign idxes base (is ++ js) = assign (assign idxes base is) (base + is.length) js := by
  induction is generalizing idxes base with
  | nil => rfl
  | cons i is ih =>
    rw [List.cons_append, assign, ih, assign, List.length_cons, Nat.add_right_comm, Nat.add_assoc]

theorem assign_of_notMem (h : i ∉ is) : (assign idxes base is)[i]? = idxes[i]? := by
  induction is generalizing idxes base with
  | nil => rfl
  | cons j is ih =>
    rw [List.mem_cons, not_or] at h
    exact (ih h.2).trans (List.getElem?_set_ne (Ne.symm h.1))

theorem assign_getElem? (hnodup : is.Nodup) (hi : i < idxes.length) (hk : is[k]? = some i) :
    (assign idxes base is)[i]? = some (base + k) := by
  induction is generalizing idxes base k with
  | nil => cases hk
  | cons j is ih =>
    obtain ⟨hnotMem, hnodup⟩ := List.nodup_cons.1 hnodup
    cases k with
    | zero =>
      obtain rfl := Option.some.inj hk
      exact (assign_of_notMem hnotMem).trans (List.getElem?_set_self hi)
    | succ k =>
      refine (ih hnodup (by rwa [List.length_set]) hk).trans ?_
      rw [Nat.add_right_comm, Nat.add_assoc]

theorem mem_assign {n : ℕ} (h : n ∈ assign idxes base is) : n ∈ idxes ∨ n < base + is.length := by
  induction is generalizing idxes base with
  | nil => exact .inl h
  | cons j is ih =>
    rw [List.length_cons]
    obtain h | h := ih h
    · obtain h | h := List.mem_or_eq_of_mem_set h
      · exact .inl h
      · exact .inr (by omega)
    · exact .inr (by omega)

end Assign

section Functions

variable {procs : List Prc}

/-- The procedures that are imported. -/
def imported (procs : List Prc) : List (Prc × ℕ) :=
  (numbered procs).filter fun prc => decide (prc.1.body = none)

/-- The procedures that have code. -/
def defined (procs : List Prc) : List (Prc × ℕ) :=
  (numbered procs).filter fun prc => decide (prc.1.out.code ≠ [])

/-- The index space of the functions. -/
def funcSpace (procs : List Prc) : List (Prc × ℕ) := imported procs ++ defined procs

theorem mem_imported {prc : Prc × ℕ} :
    prc ∈ imported procs ↔ prc ∈ numbered procs ∧ prc.1.body = none := by
  simp [imported]

theorem mem_defined {prc : Prc × ℕ} :
    prc ∈ defined procs ↔ prc ∈ numbered procs ∧ prc.1.out.code ≠ [] := by
  simp [defined]

theorem mem_numbered_of_mem_funcSpace {prc : Prc × ℕ} (h : prc ∈ funcSpace procs) :
    prc ∈ numbered procs := by
  obtain h | h := List.mem_append.1 h
  · exact (mem_imported.1 h).1
  · exact (mem_defined.1 h).1

theorem nodup_funcSpace (procs : List Prc) : ((funcSpace procs).map Prod.snd).Nodup := by
  have hsub (p : Prc × ℕ → Bool) : List.Sublist (((numbered procs).filter p).map Prod.snd)
      ((numbered procs).map Prod.snd) := List.filter_sublist.map _
  rw [funcSpace, List.map_append, List.nodup_append]
  refine ⟨(hsub _).nodup nodup_numbered, (hsub _).nodup nodup_numbered, ?_⟩
  intro i hi j hj hij
  obtain ⟨⟨p, _⟩, hp, rfl⟩ := List.mem_map.1 hi
  obtain ⟨⟨q, _⟩, hq, rfl⟩ := List.mem_map.1 hj
  obtain rfl : _ = _ := hij
  obtain ⟨hp, hnone⟩ := mem_imported.1 hp
  obtain ⟨hq, hcode⟩ := mem_defined.1 hq
  obtain rfl := Option.some.inj ((mem_numbered.1 hp).2.symm.trans (mem_numbered.1 hq).2)
  exact hcode (by rw [Prc.out, hnone]; rfl)

/-- The numbers of the functions that pass `p`. -/
def idsOf (p : Prc → Bool) (prcs : List (Prc × ℕ)) : List ℕ :=
  (prcs.filter fun prc => p prc.1).map Prod.snd

theorem idsOf_cons (p : Prc → Bool) (prc : Prc × ℕ) (prcs : List (Prc × ℕ)) :
    idsOf p (prc :: prcs) = if p prc.1 then prc.2 :: idsOf p prcs else idsOf p prcs := by
  rw [idsOf, List.filter_cons]
  split_ifs <;> rfl

theorem foldl_addImport (prcs : List (Prc × ℕ)) (n : Numbering) :
    prcs.foldl .addImport n =
      { n with
        imports := n.imports + (idsOf (fun prc => decide (prc.body = none)) prcs).length
        idxes := assign n.idxes n.imports (idsOf (fun prc => decide (prc.body = none)) prcs) } := by
  induction prcs generalizing n with
  | nil => rfl
  | cons prc prcs ih =>
    rw [List.foldl_cons, ih, idsOf_cons]
    by_cases h : prc.1.body = none
    · rw [Numbering.addImport, if_pos h, if_pos (decide_eq_true h), List.length_cons, assign,
        Nat.add_comm (List.length _) 1, ← Nat.add_assoc]
    · rw [Numbering.addImport, if_neg h, if_neg (ne_true_of_eq_false (decide_eq_false h))]

theorem foldl_addFunction (prcs : List (Prc × ℕ)) (n : Numbering) :
    prcs.foldl .addFunction n =
      { n with
        functions := n.functions + (idsOf (fun prc => decide (prc.out.code ≠ [])) prcs).length
        idxes := assign n.idxes (n.imports + n.functions)
          (idsOf (fun prc => decide (prc.out.code ≠ [])) prcs) } := by
  induction prcs generalizing n with
  | nil => rfl
  | cons prc prcs ih =>
    rw [List.foldl_cons, ih, idsOf_cons]
    by_cases h : prc.1.out.code ≠ []
    · rw [Numbering.addFunction, if_pos h, if_pos (decide_eq_true h), List.length_cons, assign,
        Nat.add_comm (List.length _) 1, ← Nat.add_assoc, ← Nat.add_assoc]
    · rw [Numbering.addFunction, if_neg h, if_neg (ne_true_of_eq_false (decide_eq_false h))]

theorem funcIdxes_eq :
    funcIdxes procs = assign (List.replicate procs.length 0) 0 ((funcSpace procs).map Prod.snd) := by
  rw [funcIdxes, foldl_addImport, foldl_addFunction, funcSpace, List.map_append, assign_append]
  simp only [imported, defined, idsOf, Nat.zero_add, Nat.add_zero, List.length_map]

/-- **The number of a function is its place in the index space.** -/
theorem funcIdxes_spec {f : ℕ} {prc : Prc × ℕ} (h : (funcSpace procs)[f]? = some prc) :
    (funcIdxes procs)[prc.2]? = some f := by
  have hlt := lt_length_of_mem_numbered (mem_numbered_of_mem_funcSpace (List.mem_of_getElem? h))
  rw [funcIdxes_eq, assign_getElem? (nodup_funcSpace procs) (k := f), Nat.zero_add]
  · rwa [List.length_replicate]
  · rw [List.getElem?_map, h, Option.map_some]

theorem le_length_of_mem_funcIdxes {f : ℕ} (h : f ∈ funcIdxes procs) :
    f ≤ (funcSpace procs).length := by
  rw [funcIdxes_eq] at h
  obtain h | h := mem_assign h
  · rw [(List.mem_replicate.1 h).2]
    exact Nat.zero_le _
  · rw [Nat.zero_add, List.length_map] at h
    exact h.le

end Functions

end OdinSon.Odinc.WasmObject
