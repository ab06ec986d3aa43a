import OdinSon.Odinc.Inlining
import Mathlib.Algebra.Order.BigOperators.Group.Finset

/-!
# What inlining keeps

A stencil is dropped when the count of its call sites gets to zero.  The count is right as long as no call
is copied: it is never less than the number of calls there are (`Inv.counted`), and what is dropped is
not called (`Inv.kept`).  It does not see other references, nor the calls in a body that is inlined at
one of several places.  So every step has to keep clear of these (`InlineStep.Fine`), and then the procedures that
are referred to keep their stencils (`inlineAndOptimize_keeps`).
-/

namespace OdinSon.Odinc.Inlining

/-! ### Call sites -/

def callsTo (stencil : Option Body) (q : ℕ) : ℕ :=
  match stencil with
  | none => 0
  | some b => b.calls.count q

/-- The calls of a procedure, in all stencils. -/
def callSites (n : ℕ) (procs : Procs) (q : ℕ) : ℕ := ∑ i ∈ Finset.range n, callsTo (procs i) q

/-- A procedure is referred to: it is exported, the entry or in an initializer, or a stencil calls it or
takes its address. -/
def Refers (roots : List ℕ) (n : ℕ) (procs : Procs) (q : ℕ) : Prop :=
  q ∈ roots ∨ ∃ i < n, ∃ b, procs i = some b ∧ (q ∈ b.calls ∨ q ∈ b.addrs)

/-- The procedures with a body that are referred to have their stencils. -/
def Kept (roots : List ℕ) (n : ℕ) (before after : Procs) : Prop :=
  ∀ q, before q ≠ none → Refers roots n after q → after q ≠ none

section Sites

variable {n m q : ℕ} {procs : Procs}

theorem callSites_update (procs : Procs) (hm : m < n) (x : Option Body) :
    callSites n (Function.update procs m x) q + callsTo (procs m) q =
      callSites n procs q + callsTo x q := by
  have hmem := Finset.mem_range.2 hm
  have hrest : ∑ i ∈ (Finset.range n).erase m, callsTo (Function.update procs m x i) q =
      ∑ i ∈ (Finset.range n).erase m, callsTo (procs i) q := by
    refine Finset.sum_congr rfl fun i hi => ?_
    rw [Function.update_of_ne (Finset.ne_of_mem_erase hi)]
  rw [callSites, callSites, ← Finset.add_sum_erase _ _ hmem, ← Finset.add_sum_erase _ _ hmem, hrest,
    Function.update_self]
  omega

theorem callsTo_le (hm : m < n) : callsTo (procs m) q ≤ callSites n procs q :=
  Finset.single_le_sum_of_canonicallyOrdered (f := fun i => callsTo (procs i) q)
    (Finset.mem_range.2 hm)

theorem callSites_pos {b : Body} (hm : m < n) (hb : procs m = some b) (hq : q ∈ b.calls) :
    0 < callSites n procs q := by
  refine lt_of_lt_of_le ?_ (callsTo_le hm)
  rw [hb]
  exact List.count_pos_iff.2 hq

/-- The counts at the start. -/
theorem length_calleeToCaller : (calleeToCaller n procs q).length = callSites n procs q := by
  have hlen (i : ℕ) : (((callerToCallee procs i).filter (· = q)).map fun _ => i).length =
      callsTo (procs i) q := by
    rw [List.length_map, callerToCallee]
    cases procs i with
    | none => rfl
    | some b => exact List.countP_eq_length_filter.symm
  rw [calleeToCaller, List.length_flatMap]
  simp only [hlen]
  rfl

end Sites

/-! ### One step -/

/-- A call that is inlined. -/
structure InlineStep where
  /-- The stencils before. -/
  procs : Procs
  /-- The number of call sites of the callee. -/
  sites : ℕ
  /-- The callee. -/
  q : ℕ
  /-- Its body. -/
  callee : Body

/-- The step keeps clear of what the count does not see: the stencil that is dropped is not referred to in
another way, and the body that is copied from a place where it stays calls no procedure that has a
stencil. -/
def InlineStep.Fine (roots : List ℕ) (n : ℕ) (t : InlineStep) : Prop :=
  (t.sites = 1 → t.q ∉ roots ∧ ∀ i < n, ∀ b ∈ t.procs i, t.q ∉ b.addrs) ∧
    (t.sites ≠ 1 → ∀ r ∈ t.callee.calls, t.procs r = none)

instance (roots : List ℕ) (n : ℕ) (t : InlineStep) : Decidable (t.Fine roots n) :=
  inferInstanceAs (Decidable ((_ → _ ∧ _) ∧ (_ → _)))

/-- The counts cover the calls, and nothing that is referred to was dropped. -/
structure Inv (roots : List ℕ) (n : ℕ) (before procs : Procs) (sites : ℕ → ℕ) : Prop where
  inside : ∀ q, procs q ≠ none → q < n
  counted : ∀ q, procs q ≠ none → callSites n procs q ≤ sites q
  kept : Kept roots n before procs

section Step

variable {P : Passes} {roots : List ℕ} {n m j q : ℕ} {before procs : Procs} {sites : ℕ → ℕ}
  {body callee : Body}

theorem getElem_of_drop {l rest : List ℕ} {j q : ℕ} (h : l.drop j = q :: rest) :
    ∃ hj : j < l.length, l[j] = q := by
  have hj : j < l.length := by
    by_contra hc
    rw [List.drop_eq_nil_of_le (not_lt.1 hc)] at h
    cases h
  refine ⟨hj, ?_⟩
  rw [List.drop_eq_getElem_cons hj] at h
  exact (List.cons.inj h).1

/-- The call is gone, and those of the copy are there. -/
theorem count_inline (callee : Body) {rest : List ℕ} (h : body.calls.drop j = q :: rest) (r : ℕ) :
    (body.inline P j callee).calls.count r + (if r = q then 1 else 0) =
      body.calls.count r + (P.clone callee).calls.count r := by
  obtain ⟨hj, hq⟩ := getElem_of_drop h
  have hj' : j < (body.calls ++ (P.clone callee).calls).length := by
    rw [List.length_append]
    exact hj.trans_le (Nat.le_add_right _ _)
  have hget : (body.calls ++ (P.clone callee).calls)[j] = q := by
    rw [List.getElem_append_left hj, hq]
  have hperm := (List.getElem_cons_eraseIdx_perm hj').count_eq r
  rw [hget, List.count_cons] at hperm
  simp only [beq_iff_eq] at hperm
  rw [Body.inline, (swapRemove_perm hj').count_eq, ← List.count_append, ← hperm,
    if_congr (eq_comm (a := r)) rfl rfl]

theorem mem_inline {rest : List ℕ} (h : body.calls.drop j = q :: rest) {r : ℕ}
    (hr : r ∈ (body.inline P j callee).calls) : r ∈ body.calls ∨ r ∈ callee.calls := by
  have hcount := count_inline (P := P) callee h r
  have hpos := List.count_pos_iff.2 hr
  by_cases hb : r ∈ body.calls
  · exact .inl hb
  · refine .inr ((P.clone_calls callee).subset ?_)
    rw [List.count_eq_zero_of_not_mem hb] at hcount
    exact List.count_pos_iff.1 (by omega)

/-- The stencils after a step, the caller's being worked on. -/
def stepped (P : Passes) (procs : Procs) (sites : ℕ → ℕ) (m j q : ℕ) (body callee : Body) : Procs :=
  Function.update (if sites q - 1 = 0 then Function.update procs q none else procs) m
    (some (body.inline P j callee))

theorem stepped_of_ne {i : ℕ} {b : Body} (hi : i ≠ m)
    (h : stepped P procs sites m j q body callee i = some b) : procs i = some b := by
  rw [stepped, Function.update_of_ne hi] at h
  split_ifs at h
  · by_cases hq : i = q
    · rw [hq, Function.update_self] at h
      cases h
    · rwa [Function.update_of_ne hq] at h
  · exact h

variable {rest : List ℕ}

/-- The calls after a step: one less of the callee, and those of the copy, unless it was the last. -/
theorem callSites_stepped (sites : ℕ → ℕ) (hm : procs m = some body) (hq : procs q = some callee)
    (hne : q ≠ m) (hmn : m < n) (hqn : q < n) (h : body.calls.drop j = q :: rest) (r : ℕ) :
    callSites n (stepped P procs sites m j q body callee) r + (if r = q then 1 else 0) +
        (if sites q - 1 = 0 then callee.calls.count r else 0) =
      callSites n procs r + (P.clone callee).calls.count r := by
  have hinline := count_inline (P := P) callee h r
  have hupdate := callSites_update (q := r)
    (if sites q - 1 = 0 then Function.update procs q none else procs) hmn
    (some (body.inline P j callee))
  have hcaller : (if sites q - 1 = 0 then Function.update procs q none else procs) m = some body := by
    split_ifs
    · rw [Function.update_of_ne hne.symm, hm]
    · exact hm
  have hdrop : callSites n (if sites q - 1 = 0 then Function.update procs q none else procs) r +
      (if sites q - 1 = 0 then callee.calls.count r else 0) = callSites n procs r := by
    split_ifs
    · have := callSites_update (q := r) procs hqn none
      rw [hq] at this
      exact this
    · rfl
  rw [hcaller] at hupdate
  simp only [callsTo] at hupdate
  rw [stepped]
  omega

/-- What is referred to after a step was referred to before. -/
theorem refers_of_stepped (hm : procs m = some body) (hq : procs q = some callee) (hmn : m < n)
    (hqn : q < n) (h : body.calls.drop j = q :: rest) {r : ℕ}
    (hr : Refers roots n (stepped P procs sites m j q body callee) r) : Refers roots n procs r := by
  obtain hroot | ⟨i, hi, b, hb, hmem⟩ := hr
  · exact .inl hroot
  by_cases him : i = m
  · subst him
    rw [stepped, Function.update_self] at hb
    obtain rfl := Option.some.inj hb
    obtain hcall | haddr := hmem
    · obtain hbody | hcallee := mem_inline h hcall
      · exact .inr ⟨i, hmn, body, hm, .inl hbody⟩
      · exact .inr ⟨q, hqn, callee, hq, .inl hcallee⟩
    · obtain hbody | hcallee := List.mem_append.1 haddr
      · exact .inr ⟨i, hmn, body, hm, .inr hbody⟩
      · exact .inr ⟨q, hqn, callee, hq, .inr (P.clone_addrs callee hcallee)⟩
  · exact .inr ⟨i, hi, b, stepped_of_ne him hb, hmem⟩

/-- **A step that keeps clear keeps the invariant.** -/
theorem Inv.step (hinv : Inv roots n before procs sites) (hm : procs m = some body)
    (hq : procs q = some callee) (hne : q ≠ m) (h : body.calls.drop j = q :: rest)
    (hfine : InlineStep.Fine roots n ⟨procs, sites q, q, callee⟩) :
    Inv roots n before (stepped P procs sites m j q body callee)
      (Function.update sites q (sites q - 1)) := by
  have hsome {i : ℕ} {b : Body} (hb : procs i = some b) : procs i ≠ none := by
    rw [hb]
    exact Option.some_ne_none b
  have hmn := hinv.inside m (hsome hm)
  have hqn := hinv.inside q (hsome hq)
  have hcall : q ∈ body.calls := List.mem_of_mem_drop (h ▸ List.mem_cons_self)
  have hpos := (callSites_pos hmn hm hcall).trans_le (hinv.counted q (hsome hq))
  have hsites := callSites_stepped (P := P) sites hm hq hne hmn hqn h
  have hclone (r : ℕ) := (P.clone_calls callee).count_le r
  -- what has a stencil after the step had one before
  have hold {r : ℕ} (hr : stepped P procs sites m j q body callee r ≠ none) : procs r ≠ none := by
    obtain ⟨b, hb⟩ := Option.ne_none_iff_exists'.1 hr
    by_cases hrm : r = m
    · rw [hrm]
      exact hsome hm
    · exact hsome (stepped_of_ne hrm hb)
  refine ⟨fun r hr => hinv.inside r (hold hr), fun r hr => ?_, fun r hbefore hrefers => ?_⟩
  · have hcounted := hinv.counted r (hold hr)
    have hr' := hsites r
    have hle : callSites n (stepped P procs sites m j q body callee) r + (if r = q then 1 else 0) ≤
        sites r := by
      by_cases hone : sites q = 1
      · rw [if_pos (by omega : sites q - 1 = 0)] at hr'
        have := hclone r
        omega
      · rw [if_neg (by omega : ¬sites q - 1 = 0)] at hr'
        have hnot : r ∉ callee.calls := fun hc => hold hr (hfine.2 hone r hc)
        have := hclone r
        rw [List.count_eq_zero_of_not_mem hnot] at this
        omega
    by_cases hrq : r = q
    · rw [hrq, Function.update_self]
      rw [hrq, if_pos rfl] at hle
      omega
    · rw [Function.update_of_ne hrq]
      rw [if_neg hrq] at hle
      omega
  · intro hnone
    have hbase := hinv.kept r hbefore (refers_of_stepped hm hq hmn hqn h hrefers)
    have hrm : r ≠ m := by
      rintro rfl
      rw [stepped, Function.update_self] at hnone
      cases hnone
    rw [stepped, Function.update_of_ne hrm] at hnone
    -- only the callee can have lost its stencil, and then this was its last call
    split_ifs at hnone with hlast
    · by_cases hrq : r = q
      · have hone : sites q = 1 := by omega
        obtain ⟨hroot, haddr⟩ := hfine.1 hone
        subst hrq
        obtain hr | ⟨i, hi, b, hb, hcalls | haddrs⟩ := hrefers
        · exact hroot hr
        · have hcs := callSites_pos hi hb hcalls
          have hr' := hsites r
          rw [if_pos rfl, if_pos hlast] at hr'
          have hcounted := hinv.counted r hbase
          have := hclone r
          omega
        · by_cases him : i = m
          · subst him
            rw [stepped, Function.update_self] at hb
            obtain rfl := Option.some.inj hb
            obtain hbody | hcallee := List.mem_append.1 haddrs
            · exact haddr i hmn body hm hbody
            · exact haddr r hqn callee hq (P.clone_addrs callee hcallee)
          · exact haddr i hi b (stepped_of_ne him hb) haddrs
      · rw [Function.update_of_ne hrq] at hnone
        exact hbase hnone
    · exact hbase hnone

/-- The optimizer makes no references. -/
theorem Inv.opt (hinv : Inv roots n before procs sites) (hm : procs m = some body) :
    Inv roots n before (Function.update procs m (some (P.opt body))) sites := by
  have hmsome : procs m ≠ none := by
    rw [hm]
    exact Option.some_ne_none body
  have hmn := hinv.inside m hmsome
  have hold {r : ℕ} (hr : Function.update procs m (some (P.opt body)) r ≠ none) : procs r ≠ none := by
    by_cases hrm : r = m
    · rwa [hrm]
    · rwa [Function.update_of_ne hrm] at hr
  refine ⟨fun r hr => hinv.inside r (hold hr), fun r hr => ?_, fun r hbefore hrefers => ?_⟩
  · refine le_trans ?_ (hinv.counted r (hold hr))
    have hupdate := callSites_update (q := r) procs hmn (some (P.opt body))
    rw [hm] at hupdate
    simp only [callsTo] at hupdate
    have := (P.opt_calls body).count_le r
    omega
  · have hrefers' : Refers roots n procs r := by
      obtain hroot | ⟨i, hi, b, hb, hmem⟩ := hrefers
      · exact .inl hroot
      by_cases him : i = m
      · subst him
        rw [Function.update_self] at hb
        obtain rfl := Option.some.inj hb
        exact .inr ⟨i, hi, body, hm,
          hmem.imp (fun h => (P.opt_calls body).subset h) (fun h => P.opt_addrs body h)⟩
      · rw [Function.update_of_ne him] at hb
        exact .inr ⟨i, hi, b, hb, hmem⟩
    have hkept := hinv.kept r hbefore hrefers'
    by_cases hrm : r = m
    · rw [hrm, Function.update_self]
      exact Option.some_ne_none _
    · rwa [Function.update_of_ne hrm]

end Step

/-! ### Runs -/

section Runs

variable (P : Passes) (sccId : ℕ → ℕ)

/-- The stencils while a caller is worked on. -/
def State.mounted (s : State) (m : ℕ) (body : Body) : Procs := Function.update s.procs m (some body)

/-- The steps at the calls of a caller. -/
def callSteps (m callerWct : ℕ) : ℕ → State × Body → List InlineStep
  | 0, _ => []
  | j + 1, (s, body) =>
    match body.calls.drop j with
    | [] => callSteps m callerWct j (s, body)
    | q :: _ =>
      match inlined sccId m callerWct s q with
      | none => callSteps m callerWct j (s, body)
      | some callee => ⟨s.mounted m body, s.sites q, q, callee⟩ ::
          callSteps m callerWct j (s.release q, body.inline P j callee)

def callerSteps (s : State) (m : ℕ) : List InlineStep :=
  match s.procs m with
  | none => []
  | some body => callSteps P sccId m (weightCata body.weight) body.calls.length (s, body)

def callersSteps : State → List ℕ → List InlineStep
  | _, [] => []
  | s, m :: order => callerSteps P sccId s m ++ callersSteps (visitCaller P sccId s m) order

/-- The steps of `inline_and_optimize`. -/
def inlineSteps (stencils : List (Option Body)) : List InlineStep :=
  callersSteps P (visitOrder stencils).1 (State.initial stencils) (visitOrder stencils).2

variable {P sccId} {roots : List ℕ} {n : ℕ} {before : Procs}

theorem mounted_release {s : State} {m q j : ℕ} {body callee : Body} (hne : q ≠ m) :
    (s.release q).mounted m (body.inline P j callee) =
      stepped P (s.mounted m body) s.sites m j q body callee := by
  have hcomm : Function.update (Function.update s.procs m (some body)) q none =
      Function.update (Function.update s.procs q none) m (some body) :=
    Function.update_comm hne.symm _ _ _
  unfold State.mounted State.release stepped
  split_ifs
  · rw [hcomm, Function.update_idem]
  · rw [Function.update_idem]

theorem inlined_spec {s : State} {m callerWct q : ℕ} {callee : Body}
    (h : inlined sccId m callerWct s q = some callee) : s.procs q = some callee ∧ q ≠ m := by
  simp only [inlined, Option.bind_eq_bind, Option.bind_eq_some_iff, Option.pure_def,
    Option.some.injEq] at h
  obtain ⟨b, hb, _, hscc, _, -, _, -, rfl⟩ := h
  refine ⟨hb, ?_⟩
  rintro rfl
  rw [guard, if_neg (not_not.2 rfl)] at hscc
  cases hscc

/-- The calls of one caller. -/
theorem visitCalls_inv {m callerWct : ℕ} (j : ℕ) {s : State} {body : Body}
    (hinv : Inv roots n before (s.mounted m body) s.sites)
    (hfine : ∀ t ∈ callSteps P sccId m callerWct j (s, body), t.Fine roots n) :
    let r := visitCalls P sccId m callerWct j (s, body)
    Inv roots n before (r.1.mounted m r.2) r.1.sites := by
  induction j generalizing s body with
  | zero => exact hinv
  | succ j ih =>
    simp only [callSteps, visitCalls] at hfine ⊢
    cases hdrop : body.calls.drop j with
    | nil =>
      simp only [hdrop] at hfine ⊢
      exact ih hinv hfine
    | cons q rest =>
      simp only [hdrop] at hfine ⊢
      cases hinl : inlined sccId m callerWct s q with
      | none =>
        simp only [hinl] at hfine ⊢
        exact ih hinv hfine
      | some callee =>
        simp only [hinl, List.forall_mem_cons] at hfine ⊢
        obtain ⟨hq, hne⟩ := inlined_spec hinl
        have hm : s.mounted m body m = some body := Function.update_self ..
        have hq' : s.mounted m body q = some callee := (Function.update_of_ne hne ..).trans hq
        refine ih ?_ hfine.2
        rw [mounted_release hne]
        exact hinv.step hm hq' hne hdrop hfine.1

theorem visitCaller_inv {s : State} {m : ℕ} (hinv : Inv roots n before s.procs s.sites)
    (hfine : ∀ t ∈ callerSteps P sccId s m, t.Fine roots n) :
    Inv roots n before (visitCaller P sccId s m).procs (visitCaller P sccId s m).sites := by
  unfold visitCaller callerSteps at *
  cases hm : s.procs m with
  | none => exact hinv
  | some body =>
    simp only [hm] at hfine ⊢
    have hsame : s.mounted m body = s.procs := by
      rw [State.mounted, ← hm, Function.update_eq_self]
    have hcalls := visitCalls_inv body.calls.length (hsame ▸ hinv) hfine
    have hopt := hcalls.opt (P := P) (Function.update_self ..)
    rwa [State.mounted, Function.update_idem] at hopt

theorem visitCallers_inv {s : State} {order : List ℕ} (hinv : Inv roots n before s.procs s.sites)
    (hfine : ∀ t ∈ callersSteps P sccId s order, t.Fine roots n) :
    Inv roots n before (visitCallers P sccId s order).procs (visitCallers P sccId s order).sites := by
  induction order generalizing s with
  | nil => exact hinv
  | cons m order ih =>
    rw [callersSteps, List.forall_mem_append] at hfine
    exact ih (visitCaller_inv hinv hfine.1) hfine.2

theorem inv_initial (roots : List ℕ) (stencils : List (Option Body)) :
    Inv roots stencils.length (State.initial stencils).procs (State.initial stencils).procs
      (State.initial stencils).sites := by
  refine ⟨fun q hq => ?_, fun q _ => length_calleeToCaller.ge, fun q hq _ => hq⟩
  by_contra hc
  refine hq ?_
  change stencils.getD q none = none
  rw [List.getD_eq_getElem?_getD, List.getElem?_eq_none (not_lt.1 hc)]
  rfl

end Runs

/-- **Referenced procedures keep their stencils**, in every run whose steps keep clear. -/
theorem inlineAndOptimize_keeps (P : Passes) (roots : List ℕ) (stencils : List (Option Body))
    (hfine : ∀ t ∈ inlineSteps P stencils, t.Fine roots stencils.length) :
    Kept roots stencils.length (State.initial stencils).procs (inlineAndOptimize P stencils) :=
  (visitCallers_inv (inv_initial roots stencils) hfine).kept

/-- A copy and an optimizer that change nothing. -/
def passesId : Passes where
  clone := id
  opt := id
  clone_calls _ := List.Subperm.refl _
  clone_addrs _ := List.Subset.refl _
  opt_calls _ := List.Subperm.refl _
  opt_addrs _ := List.Subset.refl _

/-- A leaf that is called at two places is copied to both, and dropped. -/
theorem inlineAndOptimize_keeps_leaf :
    Kept [0] 3 (State.initial [some ⟨[1, 2], [], 40⟩, some ⟨[2], [], 5⟩, some ⟨[], [], 3⟩]).procs
      (inlineAndOptimize passesId
        [some ⟨[1, 2], [], 40⟩, some ⟨[2], [], 5⟩, some ⟨[], [], 3⟩]) :=
  inlineAndOptimize_keeps passesId [0] [some ⟨[1, 2], [], 40⟩, some ⟨[2], [], 5⟩, some ⟨[], [], 3⟩]
    (by decide)

/-- A procedure that is called once, and whose address is taken, is dropped. -/
theorem inlineAndOptimize_drops :
    ¬Kept [0] 2 (State.initial [some ⟨[1], [1], 5⟩, some ⟨[], [], 3⟩]).procs
      (inlineAndOptimize passesId [some ⟨[1], [1], 5⟩, some ⟨[], [], 3⟩]) := by
  intro h
  refine h 1 (by decide) (.inr ⟨0, by decide, ⟨[], [1], 8⟩, by decide, .inr (by decide)⟩) (by decide)

end OdinSon.Odinc.Inlining
