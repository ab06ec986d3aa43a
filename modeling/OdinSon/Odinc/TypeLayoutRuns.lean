import OdinSon.Odinc.TypeLayoutSound

/-!
# Runs of the type checker

What is emitted between two states: as long as the steps are ready, nothing that was there changes, but
for the struct that is being laid out, and the invariant is kept.  Run after run it gives that every
struct and every union is laid out by its completed fields.
-/

namespace OdinSon.Odinc

namespace TypeLayout

open Lib

variable {st st' st₁ st₂ st₃ : State} {env : Env} {known tys tys' : List RTy} {ty last : RTy} {id : ℕ}
  {s : Struct}

/-- What an emission begins with: the invariant, and type parameters that stand for types that are
there. -/
def Good (env : Env) (st : State) : Prop := Inv env.opened st ∧ ∀ p ∈ env.polys, st.Has p.2

/-- From the first state to the second types were emitted.  If the steps on the way were ready, and what
was known was there, the types are there now and the invariant was kept. -/
structure Next (env : Env) (known : List RTy) (st st' : State) (tys : List RTy) : Prop where
  log : st.log <:+ st'.log
  good : st'.Ready → Good env st → (∀ ty ∈ known, st.Has ty) →
    Inv env.opened st' ∧ st.Keeps [] st' ∧ ∀ ty ∈ tys, st'.Has ty

theorem State.Ready.of_suffix (h : st'.Ready) (hlog : st.log <:+ st'.log) : st.Ready :=
  fun step hstep => h step (hlog.mem hstep)

theorem Good.keeps (h : Good env st) (hinv : Inv env.opened st') (hk : st.Keeps [] st') :
    Good env st' := ⟨hinv, fun p hp => (h.2 p hp).keeps hk⟩

theorem Next.refl (env : Env) (known : List RTy) (st : State) : Next env known st st known :=
  ⟨List.suffix_rfl, fun _ hgood hknown => ⟨hgood.1, .refl [] st, hknown⟩⟩

theorem Next.trans (h : Next env known st₁ st₂ tys) (h' : Next env (tys ++ known) st₂ st₃ tys') :
    Next env known st₁ st₃ (tys ++ tys') := by
  refine ⟨h.log.trans h'.log, fun hr hgood hknown => ?_⟩
  obtain ⟨hinv, hk, htys⟩ := h.good (hr.of_suffix h'.log) hgood hknown
  have hthere : ∀ ty ∈ tys ++ known, st₂.Has ty := by
    intro ty hty
    rcases List.mem_append.1 hty with hty | hty
    · exact htys ty hty
    · exact (hknown ty hty).keeps hk
  obtain ⟨hinv', hk', htys'⟩ := h'.good hr (hgood.keeps hinv hk) hthere
  refine ⟨hinv', hk.trans hk', fun ty hty => ?_⟩
  rcases List.mem_append.1 hty with hty | hty
  · exact (htys ty hty).keeps hk'
  · exact htys' ty hty

theorem Next.mono {known' : List RTy} (h : Next env known st st' tys) (hk : ∀ ty ∈ known, ty ∈ known')
    (ht : ∀ ty ∈ tys', ty ∈ tys) : Next env known' st st' tys' := by
  refine ⟨h.log, fun hr hgood hknown => ?_⟩
  obtain ⟨hinv, hkeeps, htys⟩ := h.good hr hgood fun ty hty => hknown ty (hk ty hty)
  exact ⟨hinv, hkeeps, fun ty hty => htys ty (ht ty hty)⟩

/-- A type is made of what was emitted. -/
theorem Next.of_has {ty' : RTy} (h : Next env known st st' [ty]) (hty : ∀ st : State, st.Has ty → st.Has ty') :
    Next env known st st' [ty'] := by
  refine ⟨h.log, fun hr hgood hknown => ?_⟩
  obtain ⟨hinv, hkeeps, htys⟩ := h.good hr hgood hknown
  exact ⟨hinv, hkeeps, fun t ht => List.mem_singleton.1 ht ▸ hty st' (htys ty List.mem_cons_self)⟩

/-! ### Lists of types -/

section Lists

variable {f : Expr → State → Option (RTy × State)}

theorem emitShared_next (hf : ∀ e st ty st', f e st = some (ty, st') → Next env [] st st' [ty])
    {ast : Option Expr} (h : (ast.map fun e => f e st).getD (some (last, st)) = some (ty, st')) :
    Next env [last] st st' [ty] := by
  cases ast with
  | none =>
    obtain ⟨rfl, rfl⟩ := Prod.mk.inj (Option.some.inj h)
    exact .refl env [last] st
  | some e => exact (hf e st ty st' h).mono (by simp) fun _ ht => ht

theorem emitList_next (hf : ∀ e st ty st', f e st = some (ty, st') → Next env [] st st' [ty])
    {asts : List (Option Expr)} (h : emitList f asts last st = some (tys, st')) :
    Next env [last] st st' tys := by
  induction asts generalizing last st tys with
  | nil =>
    obtain ⟨rfl, rfl⟩ := Prod.mk.inj (Option.some.inj h)
    exact (Next.refl env [last] st).mono (fun _ h => h) (by simp)
  | cons ast asts ih =>
    simp only [emitList, Option.bind_eq_bind, Option.bind_eq_some_iff] at h
    obtain ⟨⟨ty, st₁⟩, hty, ⟨tys₁, st₂⟩, htys, h⟩ := h
    obtain ⟨rfl, rfl⟩ := Prod.mk.inj (Option.some.inj h)
    exact (emitShared_next hf hty).trans ((ih htys).mono (by simp) fun _ ht => ht)

theorem emitFields_log (hf : ∀ e st ty st', f e st = some (ty, st') → Next env [] st st' [ty])
    {opened : List ℕ} {asts : List (Option Expr)}
    (h : emitFields f opened id asts last st = some st') : st.log <:+ st'.log := by
  induction asts generalizing last st with
  | nil => exact Option.some.inj h ▸ List.suffix_rfl
  | cons ast asts ih =>
    simp only [emitFields, Option.bind_eq_bind, Option.bind_eq_some_iff] at h
    obtain ⟨⟨ty, st₁⟩, hty, st₂, hadd, h⟩ := h
    exact ((emitShared_next hf hty).log.trans (State.addField_log hadd)).trans (ih h)

/-- **The fields of a struct**, added in turn. -/
theorem emitFields_placed (hf : ∀ e st ty st', f e st = some (ty, st') → Next env [] st st' [ty])
    {asts : List (Option Expr)} (h : emitFields f env.opened id asts last st = some st')
    (hr : st'.Ready) (hgood : Good env st) (hlast : st.Has last) (hid : id ∈ env.opened)
    (hs : st.structs[id]? = some s) (hplaced : s.Placed env.opened st fun l => l) :
    Inv env.opened st' ∧ st.Keeps [id] st' ∧ ∃ s', st'.structs[id]? = some s' ∧ s'.params = s.params ∧
      s'.Placed env.opened st' fun l => l := by
  induction asts generalizing last st s with
  | nil =>
    obtain rfl := Option.some.inj h
    exact ⟨hgood.1, .refl [id] st, s, hs, rfl, hplaced⟩
  | cons ast asts ih =>
    simp only [emitFields, Option.bind_eq_bind, Option.bind_eq_some_iff] at h
    obtain ⟨⟨ty, st₁⟩, hty, st₂, hadd, h⟩ := h
    have hnext := emitShared_next hf hty
    have hr₂ : st₂.Ready := hr.of_suffix (emitFields_log hf h)
    have hr₁ : st₁.Ready := hr₂.of_suffix (State.addField_log hadd)
    obtain ⟨hinv₁, hk₁, hthere⟩ := hnext.good hr₁ hgood (by simpa using hlast)
    have hty₁ : st₁.Has ty := hthere ty List.mem_cons_self
    -- what the type of the field brought with it has left the struct alone
    have hs₁ : st₁.structs[id]? = some s := hk₁.structs id s hs List.not_mem_nil
    have hplaced₁ : s.Placed env.opened st₁ fun l => l :=
      hplaced.mono hk₁ (fun f _ => f.ty.closed_nil) fun f hf => (hplaced.known f hf).2
    obtain ⟨hinv₂, hk₂, s₂, hs₂, hparams₂, hplaced₂⟩ := hinv₁.addField hid hs₁ hplaced₁ hty₁ hadd hr₂
    have hgood₂ : Good env st₂ :=
      ⟨hinv₂, fun p hp => ((hgood.2 p hp).keeps hk₁).keeps hk₂⟩
    obtain ⟨hinv₃, hk₃, s₃, hs₃, hparams₃, hplaced₃⟩ :=
      ih h hgood₂ (hty₁.keeps hk₂) hs₂ hplaced₂
    refine ⟨hinv₃, ?_, s₃, hs₃, hparams₃.trans hparams₂, hplaced₃⟩
    exact ((hk₁.weaken).trans hk₂).trans hk₃

/-- **The variants of a union**, read in turn. -/
theorem emitVariants_next (hf : ∀ e st ty st', f e st = some (ty, st') → Next env [] st st' [ty])
    {es : List Expr} {maxSize maxAlign : ℤ}
    (h : emitVariants f env.opened es tys maxSize maxAlign st = some (ty, st')) :
    st.log <:+ st'.log ∧ (st'.Ready → Good env st →
      maxSize = st.maxSize tys → maxAlign = st.maxAlign tys →
      (∀ ty ∈ tys, st.Has ty ∧ ty.Closed env.opened) →
      Inv env.opened st' ∧ st.Keeps [] st' ∧ st'.Has ty) := by
  induction es generalizing tys maxSize maxAlign st with
  | nil =>
    refine ⟨State.closeUnion_log h, fun hr hgood hsize halign hknown => ?_⟩
    subst hsize halign
    exact hgood.1.closeUnion hknown h hr
  | cons e es ih =>
    simp only [emitVariants, Option.bind_eq_bind, Option.bind_eq_some_iff] at h
    obtain ⟨⟨ty₁, st₁⟩, hty, h⟩ := h
    have hnext := hf e st ty₁ st₁ hty
    obtain ⟨hlog, hrest⟩ := ih h
    have hcons : st₁.log <:+ (st₁.logged (.member env.opened ty₁ (st₁.size ty₁))).log :=
      List.suffix_cons ..
    refine ⟨(hnext.log.trans hcons).trans hlog, fun hr hgood hsize halign hknown => ?_⟩
    have hr₂ := hr.of_suffix hlog
    obtain ⟨hinv₁, hk₁, hthere⟩ := hnext.good (hr₂.of_suffix hcons) hgood (by simp)
    have hty₁ : st₁.Has ty₁ := hthere ty₁ List.mem_cons_self
    have hclosed : ty₁.Closed env.opened := (hr₂ _ List.mem_cons_self).1
    have hmax := hk₁.max_eq fun ty hty => ⟨(hknown ty hty).1, ty.closed_nil⟩
    set st₂ := st₁.logged (.member env.opened ty₁ (st₁.size ty₁)) with hst₂
    have hk₂ : st₁.Keeps [] st₂ := .of_eq rfl rfl
    have hthere₁ : ∀ ty ∈ tys ++ [ty₁], st₁.Has ty ∧ ty.Closed env.opened := by
      intro ty hmem
      rcases List.mem_append.1 hmem with hmem | hmem
      · exact ⟨(hknown ty hmem).1.keeps hk₁, (hknown ty hmem).2⟩
      · exact List.mem_singleton.1 hmem ▸ ⟨hty₁, hclosed⟩
    have hmax₂ := hk₂.max_eq fun ty hty => ⟨(hthere₁ ty hty).1, ty.closed_nil⟩
    have hgood₂ : Good env st₂ := (hgood.keeps hinv₁ hk₁).keeps (hinv₁.logged _) hk₂
    have hsize₂ : max maxSize (st₂.size ty₁) = st₂.maxSize (tys ++ [ty₁]) := by
      rw [hmax₂.1, hsize, ← hmax.1, (hk₂.size_align hty₁ ty₁.closed_nil).1]
      simp [State.maxSize]
    have halign₂ : max maxAlign (st₂.align ty₁) = st₂.maxAlign (tys ++ [ty₁]) := by
      rw [hmax₂.2, halign, ← hmax.2, (hk₂.size_align hty₁ ty₁.closed_nil).2]
      simp [State.maxAlign]
    obtain ⟨hinv₃, hk₃, hty₃⟩ := hrest hr hgood₂ hsize₂ halign₂ fun ty hmem =>
      ⟨(hthere₁ ty hmem).1.keeps hk₂, (hthere₁ ty hmem).2⟩
    exact ⟨hinv₃, (hk₁.trans hk₂).trans hk₃, hty₃⟩

end Lists

/-! ### Structs -/

theorem mem_of_lookup {α β : Type} [BEq α] [LawfulBEq α] {l : List (α × β)} {a : α} {b : β}
    (h : l.lookup a = some b) : (a, b) ∈ l := by
  obtain ⟨l₁, l₂, rfl, -⟩ := List.lookup_eq_some_iff.1 h
  simp

section Structs

variable {f : Env → Expr → State → Option (RTy × State)}

theorem layOut_log (hf : ∀ env e st ty st', f env e st = some (ty, st') → Next env [] st st' [ty])
    (h : layOut f env id st = some (ty, st')) : st.log <:+ st'.log := by
  simp only [layOut, Option.bind_eq_bind, Option.bind_eq_some_iff] at h
  obtain ⟨s, -, st₂, hfields, hclose⟩ := h
  exact (emitFields_log (hf { env with opened := id :: env.opened }) hfields).trans
    (State.closeStruct_log hclose)

/-- **Laying a struct out**, when it has not been before. -/
theorem layOut_settled (hf : ∀ env e st ty st', f env e st = some (ty, st') → Next env [] st st' [ty])
    (h : layOut f env id st = some (ty, st')) (hr : st'.Ready) (hinv : Inv (id :: env.opened) st)
    (hpolys : ∀ p ∈ env.polys, st.Has p.2) (hs : st.structs[id]? = some s) (hparams : s.params = [])
    (hsize : s.size = 0) :
    Inv env.opened st' ∧ st.Keeps [id] st' ∧ st'.Has ty := by
  simp only [layOut, Option.bind_eq_bind, Option.bind_eq_some_iff] at h
  obtain ⟨s₀, hs₀, st₂, hfields, hclose⟩ := h
  obtain rfl := Option.some.inj (hs₀.symm.trans hs)
  set s₁ : Struct := { s₀ with fields := [], align := 1 } with hs₁
  have hlt := (List.getElem?_eq_some_iff.1 hs).1
  have hk₁ : st.Keeps [id] (st.setStruct id s₁) := State.keeps_setStruct
  have hgood : Good { env with opened := id :: env.opened } (st.setStruct id s₁) :=
    ⟨hinv.setStruct List.mem_cons_self s₁, fun p hp => (hpolys p hp).keeps hk₁⟩
  have hempty : s₁.Placed (id :: env.opened) (st.setStruct id s₁) fun l => l := by
    refine ⟨?_, by simp [hs₁], by simp [hs₁]⟩
    simp [hs₁, Struct.layout, Layout.place, hsize]
  obtain ⟨hinv₂, hk₂, s₂, hs₂, hparams₂, hplaced₂⟩ := emitFields_placed (hf _) hfields
    (hr.of_suffix (State.closeStruct_log hclose)) hgood trivial List.mem_cons_self
    (by simp [State.setStruct, hlt]) hempty
  obtain ⟨hinv₃, hk₃, hty⟩ :=
    hinv₂.closeStruct hs₂ hplaced₂ (hparams₂.trans hparams) hclose hr
  exact ⟨hinv₃, (hk₁.trans hk₂).trans hk₃, hty⟩

theorem instantiate_log (hf : ∀ env e st ty st', f env e st = some (ty, st') → Next env [] st st' [ty])
    {base : ℕ} {args : List RTy} (h : instantiate f env base args st = some (ty, st')) :
    st.log <:+ st'.log := by
  unfold instantiate at h
  split_ifs at h with hargs
  · exact (layOut_log hf h :)
  · split at h
    · obtain ⟨-, rfl⟩ := Prod.mk.inj (Option.some.inj h)
      exact List.suffix_rfl
    · simp only [Option.bind_eq_bind, Option.bind_eq_some_iff] at h
      obtain ⟨b, -, h⟩ := h
      exact (layOut_log hf h :)

/-- **A struct given arguments** is found, or laid out anew. -/
theorem instantiate_next (hf : ∀ env e st ty st', f env e st = some (ty, st') → Next env [] st st' [ty])
    {base : ℕ} {args : List RTy} (hargs : args ≠ [])
    (h : instantiate f env base args st = some (ty, st')) : Next env args st st' [ty] := by
  refine ⟨instantiate_log hf h, fun hr hgood hknown => ?_⟩
  rw [instantiate, if_neg hargs] at h
  split at h
  case h_1 id hfound =>
    obtain ⟨rfl, rfl⟩ := Prod.mk.inj (Option.some.inj h)
    have hlt := hgood.1.insts _ _ (mem_of_lookup hfound)
    exact ⟨hgood.1, .refl [] st, by simpa [State.Has, RTy.core] using hlt⟩
  case h_2 =>
    simp only [Option.bind_eq_bind, Option.bind_eq_some_iff] at h
    obtain ⟨b, -, h⟩ := h
    set s : Struct := ⟨[], b.asts, [], 0, 0⟩ with hs
    set st₁ : State :=
      { st.push s with insts := ((base, args), st.structs.length) :: st.insts } with hst₁
    have hpush : (st.push s).Keeps [] st₁ := .of_eq rfl rfl
    have hk₁ : st.Keeps [] st₁ := State.keeps_push.trans hpush
    have hinv₁ : Inv (st.structs.length :: env.opened) st₁ :=
      (hgood.1.push s).noteInst (by simp [State.push]) _
    have hpolys : ∀ p ∈ env.polys ++ b.params.zip args, st₁.Has p.2 := by
      intro p hp
      rcases List.mem_append.1 hp with hp | hp
      · exact (hgood.2 p hp).keeps hk₁
      · exact (hknown p.2 (List.of_mem_zip hp).2).keeps hk₁
    have hs₁ : st₁.structs[st.structs.length]? = some s := by simp [hst₁, State.push]
    obtain ⟨hinv₂, hk₂, hty⟩ := layOut_settled hf h hr hinv₁ hpolys hs₁ rfl rfl
    exact ⟨hinv₂, hk₁.of_new hk₂ le_rfl, by simpa using hty⟩

end Structs

/-! ### Emitting -/

theorem findDecl_next {prog : Program} {f : Option ℕ → Expr → State → Option (RTy × State)}
    (hf : ∀ key e st ty st', f key e st = some (ty, st') → Next env [] st st' [ty]) {n : ℕ}
    (h : findDecl prog f n st = some (ty, st')) : Next env [] st st' [ty] := by
  unfold findDecl at h
  split at h
  case h_1 t hfound =>
    obtain ⟨ty, rfl, heq⟩ := Option.map_eq_some_iff.1 h
    obtain ⟨rfl, rfl⟩ := Prod.mk.inj heq
    refine ⟨List.suffix_rfl, fun _ hgood _ => ⟨hgood.1, .refl [] st, fun t ht => ?_⟩⟩
    rw [List.mem_singleton.1 ht]
    exact hgood.1.decls n ty (mem_of_lookup hfound)
  case h_2 =>
    simp only [Option.bind_eq_bind, Option.bind_eq_some_iff] at h
    obtain ⟨e, -, ⟨ty₁, st₁⟩, hemit, h⟩ := h
    obtain ⟨rfl, rfl⟩ := Prod.mk.inj (Option.some.inj h)
    have hnext := hf _ _ _ _ _ hemit
    refine ⟨hnext.log, fun hr hgood _ => ?_⟩
    have hk₀ : st.Keeps [] (st.setDecl n none) := .of_eq rfl rfl
    have hgood₀ := hgood.keeps (hgood.1.setDecl (t := none) (by simp) n) hk₀
    obtain ⟨hinv₁, hk₁, hthere⟩ := hnext.good hr hgood₀ (by simp)
    have hty : st₁.Has ty₁ := hthere ty₁ List.mem_cons_self
    have hk₂ : st₁.Keeps [] (st₁.setDecl n (some ty₁)) := .of_eq rfl rfl
    refine ⟨hinv₁.setDecl (fun t ht => Option.some.inj ht ▸ hty) n, (hk₀.trans hk₁).trans hk₂, ?_⟩
    intro t ht
    rw [List.mem_singleton.1 ht]
    exact hty.keeps hk₂

theorem evalLen_next {f : Expr → State → Option (RTy × State)}
    (hf : ∀ e st ty st', f e st = some (ty, st') → Next env [] st st' [ty])
    {asked : List (Option Expr)} {len : List (ℤ × ℤ) → ℤ} {n : ℤ}
    (h : evalLen f asked len st = some (n, st')) : Next env [] st st' [] := by
  simp only [evalLen, Option.bind_eq_bind, Option.bind_eq_some_iff] at h
  obtain ⟨⟨tys, st₁⟩, htys, h⟩ := h
  obtain ⟨-, rfl⟩ := Prod.mk.inj (Option.some.inj h)
  have hnext := emitList_next hf htys
  refine ⟨hnext.log, fun hr hgood _ => ?_⟩
  obtain ⟨hinv, hk, -⟩ := hnext.good hr hgood (by simp [State.Has, RTy.core])
  exact ⟨hinv, hk, by simp⟩

/-- The types of a list that no name precedes. -/
theorem emitAll_next {f : Expr → State → Option (RTy × State)}
    (hf : ∀ e st ty st', f e st = some (ty, st') → Next env [] st st' [ty])
    {asts : List (Option Expr)} (h : emitList f asts (.prim .void) st = some (tys, st')) :
    Next env [] st st' tys := by
  have hnext := emitList_next hf h
  exact ⟨hnext.log, fun hr hgood _ => hnext.good hr hgood (by simp [State.Has, RTy.core])⟩

theorem internProc_next {sig : List RTy × List RTy} (h : st.internProc sig = (ty, st')) :
    Next env [] st st' [ty] := by
  unfold State.internProc at h
  split at h
  · obtain ⟨rfl, rfl⟩ := Prod.mk.inj h
    exact ⟨List.suffix_rfl, fun _ hgood _ => ⟨hgood.1, .refl [] st, by simp [State.Has, RTy.core]⟩⟩
  · obtain ⟨rfl, rfl⟩ := Prod.mk.inj h
    refine ⟨List.suffix_rfl, fun _ hgood _ => ?_⟩
    exact ⟨hgood.1.of_eq rfl rfl (fun _ _ hn => .inl hn) fun _ _ hk => .inl hk, .of_eq rfl rfl,
      by simp [State.Has, RTy.core]⟩

/-- A struct that is written out. -/
theorem struct_next {f : Env → Expr → State → Option (RTy × State)}
    (hf : ∀ env e st ty st', f env e st = some (ty, st') → Next env [] st st' [ty])
    {params : List ℕ} {fields : List (Option Expr)} {key : Option ℕ}
    (h : (let id := st.structs.length
      let st := st.push ⟨params, fields, [], 0, 0⟩
      let st := (key.map fun n => st.setDecl n (some (.struct id))).getD st
      if params = [] then instantiate f env id [] st else some (.struct id, st)) = some (ty, st')) :
    Next env [] st st' [ty] := by
  set s : Struct := ⟨params, fields, [], 0, 0⟩ with hs
  set st₁ := (key.map fun n => (st.push s).setDecl n (some (.struct st.structs.length))).getD
    (st.push s) with hst₁
  have hstructs : st₁.structs = (st.push s).structs := by cases key <;> rfl
  have hunions : st₁.unions = (st.push s).unions := by cases key <;> rfl
  have hlog : st₁.log = st.log := by cases key <;> rfl
  have hs₁ : st₁.structs[st.structs.length]? = some s := by simp [hstructs, State.push]
  have hk₁ : st.Keeps [] st₁ := State.keeps_push.trans (.of_eq hstructs hunions)
  have hinv₁ (hgood : Good env st) : Inv (st.structs.length :: env.opened) st₁ := by
    have hpush := hgood.1.push s
    cases key with
    | none => exact hpush
    | some n =>
      refine hpush.setDecl (fun ty hty => ?_) n
      simp [← Option.some.inj hty, State.Has, RTy.core, State.push]
  change (if params = [] then instantiate f env st.structs.length [] st₁
    else some (.struct st.structs.length, st₁)) = some (ty, st') at h
  split_ifs at h with hparams
  · refine ⟨hlog ▸ instantiate_log hf h, fun hr hgood _ => ?_⟩
    rw [instantiate, if_pos rfl] at h
    have hlt : st.structs.length < st₁.structs.length := (List.getElem?_eq_some_iff.1 hs₁).1
    set st₂ : State :=
      { st₁ with insts := ((st.structs.length, []), st.structs.length) :: st₁.insts } with hst₂
    have hk₂ : st₁.Keeps [] st₂ := .of_eq rfl rfl
    obtain ⟨hinv₃, hk₃, hty⟩ := layOut_settled hf h hr ((hinv₁ hgood).noteInst hlt _)
      (fun p hp => ((hgood.2 p hp).keeps hk₁).keeps hk₂) hs₁ hparams rfl
    exact ⟨hinv₃, (hk₁.trans hk₂).of_new hk₃ le_rfl, by simpa using hty⟩
  · obtain ⟨rfl, rfl⟩ := Prod.mk.inj (Option.some.inj h)
    refine ⟨by rw [hlog], fun hr hgood _ => ⟨?_, hk₁, ?_⟩⟩
    · exact (hinv₁ hgood).settle hs₁ ⟨fun hnil => absurd hnil hparams, fun _ => rfl⟩
    · simp [State.Has, RTy.core, hstructs, State.push]

/-- **Emitting a type**, with induction on the fuel. -/
theorem emit_next (prog : Program) (fuel : ℕ) : ∀ env key e st ty st',
    emit prog fuel env key e st = some (ty, st') → Next env [] st st' [ty] := by
  induction fuel with
  | zero => intro env key e st ty st' h; simp [emit] at h
  | succ fuel ih =>
    intro env key e st ty st' h
    have hf := fun env e st ty st' => ih env none e st ty st'
    cases e with
    | prim p =>
      obtain ⟨rfl, rfl⟩ := Prod.mk.inj (Option.some.inj h)
      exact ⟨List.suffix_rfl, fun _ hgood _ => ⟨hgood.1, .refl [] st, by simp [State.Has, RTy.core]⟩⟩
    | name n =>
      simp only [emit] at h
      split at h
      case h_1 t hfound =>
        obtain ⟨rfl, rfl⟩ := Prod.mk.inj (Option.some.inj h)
        refine ⟨List.suffix_rfl, fun _ hgood _ => ⟨hgood.1, .refl [] st, fun ty hty => ?_⟩⟩
        rw [List.mem_singleton.1 hty]
        exact hgood.2 (n, t) (mem_of_lookup hfound)
      case h_2 => exact findDecl_next (ih env) h
    | pointer elem | multiPointer elem | slice elem =>
      obtain ⟨⟨ty₁, st₁⟩, helem, heq⟩ := Option.map_eq_some_iff.1 h
      obtain ⟨rfl, rfl⟩ := Prod.mk.inj heq
      exact (hf env elem st ty₁ st₁ helem).of_has fun st _ => by simp [State.Has, RTy.core]
    | array elem asked len =>
      simp only [emit, Option.bind_eq_bind, Option.bind_eq_some_iff] at h
      obtain ⟨⟨ty₁, st₁⟩, helem, ⟨n, st₂⟩, hlen, h⟩ := h
      split_ifs at h
      obtain ⟨rfl, rfl⟩ := Prod.mk.inj (Option.some.inj h)
      have hnext := (hf env elem st ty₁ st₁ helem).trans
        ((evalLen_next (hf env) hlen).mono (by simp) fun _ ht => ht)
      exact hnext.of_has fun st hty => hty
    | simd elem asked len =>
      simp only [emit, Option.bind_eq_bind, Option.bind_eq_some_iff] at h
      obtain ⟨⟨ty₁, st₁⟩, helem, ⟨n, st₂⟩, hlen, h⟩ := h
      split_ifs at h
      obtain ⟨rfl, rfl⟩ := Prod.mk.inj (Option.some.inj h)
      have hnext := (hf env elem st ty₁ st₁ helem).trans
        ((evalLen_next (hf env) hlen).mono (by simp) fun _ ht => ht)
      exact hnext.of_has fun st hty => hty
    | proc params rets =>
      simp only [emit, Option.bind_eq_bind, Option.bind_eq_some_iff] at h
      obtain ⟨⟨tys₁, st₁⟩, hparams, ⟨tys₂, st₂⟩, hrets, h⟩ := h
      have hnext := (emitAll_next (hf env) hparams).trans
        ((emitAll_next (hf env) hrets).mono (by simp) fun _ ht => ht)
      have hall := hnext.trans ((internProc_next (Option.some.inj h)).mono (by simp) fun _ ht => ht)
      exact hall.mono (fun _ hk => hk) (by simp)
    | struct params fields => exact struct_next hf h
    | enum backing =>
      simp only [emit, Option.bind_eq_bind, Option.bind_eq_some_iff] at h
      obtain ⟨⟨ty₁, st₁⟩, hbacking, h⟩ := h
      obtain ⟨rfl, rfl⟩ := Prod.mk.inj (Option.some.inj h)
      have hnext := emitShared_next (hf env) hbacking
      refine ⟨hnext.log, fun hr hgood _ => ?_⟩
      obtain ⟨hinv, hk, hthere⟩ := hnext.good hr hgood (by simp [State.Has, RTy.core])
      refine ⟨hinv.of_eq rfl rfl (fun _ _ hn => .inl hn) fun _ _ hi => .inl hi,
        hk.trans (.of_eq rfl rfl), ?_⟩
      exact fun ty hty => List.mem_singleton.1 hty ▸ (hthere ty₁ List.mem_cons_self :)
    | union variants =>
      obtain ⟨hlog, hrest⟩ := emitVariants_next (hf env) h
      refine ⟨hlog, fun hr hgood _ => ?_⟩
      obtain ⟨hinv, hk, hty⟩ := hrest hr hgood rfl rfl (by simp)
      exact ⟨hinv, hk, by simpa using hty⟩
    | call callee args =>
      simp only [emit, Option.bind_eq_bind, Option.bind_eq_some_iff] at h
      obtain ⟨⟨ty₁, st₁⟩, hcallee, h⟩ := h
      have hnext := hf env callee st ty₁ st₁ hcallee
      split at h
      case h_2 => contradiction
      case h_1 base =>
        simp only [Option.bind_eq_some_iff] at h
        obtain ⟨s, -, h⟩ := h
        split_ifs at h with hlength
        simp only [Option.bind_eq_some_iff] at h
        obtain ⟨⟨tys, st₂⟩, hargs, h⟩ := h
        have hlist := emitAll_next (hf env) hargs
        have hboth := hnext.trans (hlist.mono (by simp) fun _ ht => ht)
        by_cases hnil : tys = []
        · -- a struct that is laid out again ends the run that is ready
          simp only [hnil, if_true] at h
          have hlog := instantiate_log hf h
          refine ⟨(hboth.log.trans (List.suffix_cons ..)).trans hlog, fun hr _ _ => ?_⟩
          exact absurd (hr _ (hlog.mem List.mem_cons_self)) (by simp [Step.Ready])
        · simp only [hnil, if_false] at h
          have hinst : Next env tys _ st' [ty] := instantiate_next hf hnil h
          exact (hboth.trans (hinst.mono (by simp_all) fun _ ht => ht)).mono (fun _ hk => hk) (by simp)

/-! ### Runs -/

variable {prog : Program}

theorem inv_start : Inv [] .start :=
  ⟨by simp, by simp [State.start], by simp [State.start], by simp [State.start], by simp [State.start]⟩

theorem Run.inv (h : Run prog tys st) (hr : st.Ready) : Inv [] st ∧ ∀ ty ∈ tys, st.Has ty := by
  induction h with
  | start => exact ⟨inv_start, by simp⟩
  | emit run known step ih =>
    have hnext := emit_next prog _ _ _ _ _ _ _ step
    obtain ⟨hinv, hthere⟩ := ih (hr.of_suffix hnext.log)
    obtain ⟨hinv', hk, hty⟩ := hnext.good hr ⟨hinv, fun p hp => hthere p.2 (known p hp)⟩ (by simp)
    refine ⟨hinv', fun t ht => ?_⟩
    rcases List.mem_cons.1 ht with rfl | hold
    · exact hty t List.mem_cons_self
    · exact (hthere t hold).keeps hk

/-- A struct is laid out when it is placed by the sizes of its fields. -/
theorem Struct.Placed.laidOut {opened : List ℕ} (h : s.Placed opened st Layout.close) :
    s.LaidOut st := by
  have hsound := h.sound_close
  have hmem {f : Field} (hf : f ∈ s.fields) : (f.offset, st.member f.ty) ∈ (s.layout st).fields :=
    List.mem_map_of_mem hf
  have hdvd := Layout.close_dvd (Layout.place (s.fields.map fun f => st.member f.ty))
  rw [← h.layout_eq] at hdvd
  exact ⟨fun f hf => hsound.aligned _ (hmem hf), fun f hf => hsound.inside _ (hmem hf),
    List.pairwise_map.1 hsound.apart, fun f hf => hsound.dvd_align _ (hmem hf), hdvd, h.layout_eq⟩

theorem Inv.laidOut (h : Inv [] st) : st.LaidOut := by
  refine ⟨fun s hs hparams => ?_, fun u hu => (h.unions u hu).laidOut⟩
  obtain ⟨id, hid⟩ := List.mem_iff_getElem?.1 hs
  exact ((h.structs id s hid List.not_mem_nil).1 hparams).laidOut

/-- **The layout of types.**  When each step of a run was ready, every struct and union that there is
has its fields aligned, apart and inside it, where their completed types put them. -/
theorem Run.laidOut_of_ready (h : Run prog tys st) (hr : st.Ready) : st.LaidOut := (h.inv hr).1.laidOut

/-- The declarations that `typecheck_program` goes through are a run. -/
theorem run_typecheckProgram {fuel : ℕ} (h : typecheckProgram prog fuel = some st) :
    ∃ tys, Run prog tys st := by
  have hloop : ∀ (ds : Program) (tys : List RTy) (st₁ : State), Run prog tys st₁ →
      ds.foldlM (fun st d => (emit prog fuel ⟨[], []⟩ none (.name d.1) st).map Prod.snd) st₁ = some st →
      ∃ tys, Run prog tys st := by
    intro ds
    induction ds with
    | nil =>
      intro tys st₁ hrun heq
      exact ⟨tys, Option.some.inj heq ▸ hrun⟩
    | cons d ds ih =>
      intro tys st₁ hrun heq
      rw [List.foldlM_cons, Option.bind_eq_bind, Option.bind_eq_some_iff] at heq
      obtain ⟨st₂, hstep, hrest⟩ := heq
      obtain ⟨⟨ty, st₃⟩, hemit, rfl⟩ := Option.map_eq_some_iff.1 hstep
      exact ih (ty :: tys) _ (hrun.emit (by simp) hemit) hrest
  exact hloop prog [] .start .start h

/-! ### A struct that holds one that points to it -/

/-- `Node :: struct { owner: ^List, value: int }`. -/
def nodeStruct : Expr := .struct [] [some (.pointer (.name 1)), some (.prim .int)]

/-- `List :: struct { first: Node, count: int }`. -/
def listStruct : Expr := .struct [] [some (.name 0), some (.prim .int)]

/-- The state that the two declarations are left in, `List` first. -/
def listFirst : State := (typecheckProgram [(1, listStruct), (0, nodeStruct)] 8).getD .start

/-- And `Node` first. -/
def nodeFirst : State := (typecheckProgram [(0, nodeStruct), (1, listStruct)] 8).getD .start

/-- With `List` first, the node is done before it is added to the list. -/
theorem laidOut_of_ready_listFirst :
    typecheckProgram [(1, listStruct), (0, nodeStruct)] 8 = some listFirst ∧
      listFirst.structs.length = 2 ∧ listFirst.LaidOut := by
  have heq : typecheckProgram [(1, listStruct), (0, nodeStruct)] 8 = some listFirst := rfl
  obtain ⟨tys, hrun⟩ := run_typecheckProgram heq
  exact ⟨heq, rfl, hrun.laidOut_of_ready (by decide)⟩

/-- With `Node` first, the list is laid out while the node is empty: its count lies where the node
lies. -/
theorem exists_run_not_laidOut :
    typecheckProgram [(0, nodeStruct), (1, listStruct)] 8 = some nodeFirst ∧
      (∃ tys, Run [(0, nodeStruct), (1, listStruct)] tys nodeFirst) ∧ ¬ nodeFirst.LaidOut := by
  have heq : typecheckProgram [(0, nodeStruct), (1, listStruct)] 8 = some nodeFirst := rfl
  refine ⟨heq, run_typecheckProgram heq, fun h => ?_⟩
  have hlist := h.structs (nodeFirst.structs.get ⟨1, by decide⟩) (List.get_mem ..) (by decide)
  exact absurd hlist.apart (by decide)

end TypeLayout

end OdinSon.Odinc
