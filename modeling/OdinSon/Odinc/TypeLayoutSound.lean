import OdinSon.Odinc.TypeLayout

/-!
# Which layouts of types are right

A struct that contains another one by value reads the size and the alignment of that one when its field
is added.  A step of the layout is `Ready` when nothing it reads is still being laid out and when its
sums fit an `int`.  A checker all of whose steps were ready has laid out everything as its completed types
demand (`Run.laidOut_of_ready`).
-/

namespace OdinSon.Odinc

namespace TypeLayout

open Lib

variable {st st' : State} {opened opened' except : List ℕ} {ty : RTy} {id : ℕ} {s : Struct} {u : Union}

/-! ### What is asked of a layout -/

namespace State

/-- What a value of the type takes. -/
def member (st : State) (ty : RTy) : Member := ⟨st.size ty, st.align ty⟩

def maxSize (st : State) (tys : List RTy) : ℤ := (tys.map st.size).foldl max 0

def maxAlign (st : State) (tys : List RTy) : ℤ := (tys.map st.align).foldl max 1

end State

/-- The layout that the struct has, with the sizes and alignments that its fields have now. -/
def Struct.layout (st : State) (s : Struct) : Layout :=
  ⟨s.fields.map fun f => (f.offset, st.member f.ty), s.size, s.align⟩

/-- The layout of a struct, in a state where its fields are of types that are done: they are aligned,
inside it and apart, and everything is where these types put it. -/
structure Struct.LaidOut (st : State) (s : Struct) : Prop where
  aligned : ∀ f ∈ s.fields, st.align f.ty ∣ f.offset
  inside : ∀ f ∈ s.fields, 0 ≤ f.offset ∧ f.offset + st.size f.ty ≤ s.size
  apart : s.fields.Pairwise fun f g => f.offset + st.size f.ty ≤ g.offset
  dvd_align : ∀ f ∈ s.fields, st.align f.ty ∣ s.align
  align_dvd : s.align ∣ s.size
  completed : s.layout st = (Layout.place (s.fields.map fun f => st.member f.ty)).close

/-- The layout of a union: the variants share the space below the tag, which is an `I64`. -/
structure Union.LaidOut (st : State) (u : Union) : Prop where
  aligned : 8 ∣ u.tagOffset
  apart : ∀ ty ∈ u.variants, st.size ty ≤ u.tagOffset
  inside : u.tagOffset + 8 ≤ u.size
  align_le : ∀ ty ∈ u.variants, st.align ty ≤ u.align
  align_dvd : u.align ∣ u.size
  completed : u.tagOffset = alignUp (st.maxSize u.variants) 8 ∧
    u.align = max (st.maxAlign u.variants) 8 ∧ u.size = alignUp (u.tagOffset + 8) u.align

/-- Every struct and every union is laid out, but for the structs that wait for their arguments. -/
structure State.LaidOut (st : State) : Prop where
  structs : ∀ s ∈ st.structs, s.params = [] → s.LaidOut st
  unions : ∀ u ∈ st.unions, u.LaidOut st

/-- The type does not contain any of the structs by value. -/
def RTy.Closed (opened : List ℕ) (ty : RTy) : Prop := ∀ id ∈ opened, ty.core ≠ .struct id

/-- What the step adds is done, and the sums fit. -/
def Step.Ready : Step → Prop
  | .member opened ty top => ty.Closed opened ∧ top < 2 ^ 63
  | .close top => top < 2 ^ 63
  | .again _ => False

instance (opened : List ℕ) (ty : RTy) : Decidable (ty.Closed opened) :=
  inferInstanceAs (Decidable (∀ id ∈ opened, ty.core ≠ .struct id))

instance : DecidablePred Step.Ready
  | .member opened ty top => inferInstanceAs (Decidable (ty.Closed opened ∧ top < 2 ^ 63))
  | .close top => inferInstanceAs (Decidable (top < 2 ^ 63))
  | .again _ => inferInstanceAs (Decidable False)

/-- All the steps so far were ready. -/
def State.Ready (st : State) : Prop := ∀ step ∈ st.log, step.Ready

instance (st : State) : Decidable st.Ready := inferInstanceAs (Decidable (∀ step ∈ st.log, step.Ready))

/-! ### Types whose layout stays -/

/-- The struct or union that the type is made of is there. -/
@[grind =] def State.Has (st : State) (ty : RTy) : Prop :=
  match ty.core with
  | .struct id => id < st.structs.length
  | .union id => id < st.unions.length
  | _ => True

/-- What was there is still there, but for some structs that may have changed. -/
structure State.Keeps (except : List ℕ) (st st' : State) : Prop where
  length_le : st.structs.length ≤ st'.structs.length
  structs : ∀ (id : ℕ) (s : Struct), st.structs[id]? = some s → id ∉ except → st'.structs[id]? = some s
  unions : ∀ (id : ℕ) (u : Union), st.unions[id]? = some u → st'.unions[id]? = some u

namespace State

theorem Keeps.refl (except : List ℕ) (st : State) : st.Keeps except st :=
  ⟨le_rfl, fun _ _ h _ => h, fun _ _ h => h⟩

theorem Keeps.trans {st₁ st₂ st₃ : State} (h : st₁.Keeps except st₂) (h' : st₂.Keeps except st₃) :
    st₁.Keeps except st₃ where
  length_le := h.length_le.trans h'.length_le
  structs id s hs hid := h'.structs id s (h.structs id s hs hid) hid
  unions id u hu := h'.unions id u (h.unions id u hu)

theorem Keeps.unions_length (h : st.Keeps except st') : st.unions.length ≤ st'.unions.length := by
  by_contra hlt
  obtain ⟨u, hu⟩ : ∃ u, st.unions[st'.unions.length]? = some u :=
    ⟨_, List.getElem?_eq_getElem (by omega)⟩
  have := (List.getElem?_eq_some_iff.1 (h.unions _ u hu)).1
  omega

theorem Keeps.weaken (h : st.Keeps [] st') : st.Keeps except st' :=
  ⟨h.length_le, fun id s hs _ => h.structs id s hs List.not_mem_nil, h.unions⟩

/-- A struct that was not there before may be left out of the exceptions. -/
theorem Keeps.of_new {st₁ st₂ st₃ : State} (h : st₁.Keeps [] st₂) (h' : st₂.Keeps [id] st₃)
    (hid : st₁.structs.length ≤ id) : st₁.Keeps [] st₃ where
  length_le := h.length_le.trans h'.length_le
  structs i s hs hi := by
    refine h'.structs i s (h.structs i s hs hi) fun hmem => ?_
    have := (List.getElem?_eq_some_iff.1 hs).1
    rw [List.mem_singleton.1 hmem] at this
    omega
  unions i u hu := h'.unions i u (h.unions i u hu)

theorem Has.keeps (h : st.Has ty) (hk : st.Keeps except st') : st'.Has ty := by
  unfold Has at *
  split at h
  · exact h.trans_le hk.length_le
  · exact h.trans_le hk.unions_length
  · trivial

end State

theorem RTy.Closed.mono (h : ty.Closed opened) (hsub : ∀ id ∈ opened', id ∈ opened) :
    ty.Closed opened' := fun id hid => h id (hsub id hid)

theorem RTy.closed_nil (ty : RTy) : ty.Closed [] := fun _ h => absurd h List.not_mem_nil

/-- The sizes of what is kept stay. -/
theorem State.Keeps.size_align (hk : st.Keeps except st') (h : st.Has ty) (hc : ty.Closed except) :
    st'.size ty = st.size ty ∧ st'.align ty = st.align ty := by
  induction ty with
  | struct id =>
    have hid : id ∉ except := fun hmem => hc id hmem rfl
    have hs := List.getElem?_eq_getElem (l := st.structs) (i := id) h
    rw [size, size, align, align, hs, hk.structs _ _ hs hid]
    exact ⟨rfl, rfl⟩
  | union id =>
    have hu := List.getElem?_eq_getElem (l := st.unions) (i := id) h
    rw [size, size, align, align, hu, hk.unions _ _ hu]
    exact ⟨rfl, rfl⟩
  | array elem len ih => exact ⟨by rw [size, size, (ih h hc).1], by rw [align, align, (ih h hc).2]⟩
  | simd elem len ih => exact ⟨by rw [size, size, (ih h hc).1], by rw [align, align, (ih h hc).1]⟩
  | enum id backing ih => exact ⟨by rw [size, size, (ih h hc).1], by rw [align, align, (ih h hc).2]⟩
  | _ => exact ⟨rfl, rfl⟩

theorem State.Keeps.member_eq (hk : st.Keeps except st') (h : st.Has ty) (hc : ty.Closed except) :
    st'.member ty = st.member ty := by
  rw [member, member, (hk.size_align h hc).1, (hk.size_align h hc).2]

theorem State.Keeps.max_eq {tys : List RTy} (hk : st.Keeps except st')
    (h : ∀ ty ∈ tys, st.Has ty ∧ ty.Closed except) :
    st'.maxSize tys = st.maxSize tys ∧ st'.maxAlign tys = st.maxAlign tys := by
  have hsize : tys.map st'.size = tys.map st.size :=
    List.map_congr_left fun ty hty => (hk.size_align (h ty hty).1 (h ty hty).2).1
  have halign : tys.map st'.align = tys.map st.align :=
    List.map_congr_left fun ty hty => (hk.size_align (h ty hty).1 (h ty hty).2).2
  exact ⟨by rw [maxSize, maxSize, hsize], by rw [maxAlign, maxAlign, halign]⟩

/-! ### The invariant -/

/-- The fields are placed by the sizes of their types, none of which is being laid out.  What remains to
be done to the layout that they give is the parameter. -/
structure Struct.Placed (opened : List ℕ) (st : State) (done : Layout → Layout) (s : Struct) : Prop where
  layout_eq : s.layout st = done (Layout.place (s.fields.map fun f => st.member f.ty))
  known : ∀ f ∈ s.fields, st.Has f.ty ∧ f.ty.Closed opened
  members : ∀ f ∈ s.fields, 0 ≤ st.size f.ty ∧ IsPow2 (st.align f.ty)

/-- A struct that is not being laid out. -/
def Struct.Settled (opened : List ℕ) (st : State) (s : Struct) : Prop :=
  (s.params = [] → s.Placed opened st Layout.close) ∧ (s.params ≠ [] → s.size = 0)

structure Union.Placed (opened : List ℕ) (st : State) (u : Union) : Prop where
  tagOffset_eq : u.tagOffset = alignUp (st.maxSize u.variants) 8
  align_eq : u.align = max (st.maxAlign u.variants) 8
  size_eq : u.size = alignUp (u.tagOffset + 8) u.align
  known : ∀ ty ∈ u.variants, st.Has ty ∧ ty.Closed opened

/-- The invariant of the checker, while the structs of the list are being laid out. -/
structure Inv (opened : List ℕ) (st : State) : Prop where
  opened_lt : ∀ id ∈ opened, id < st.structs.length
  structs : ∀ (id : ℕ) (s : Struct), st.structs[id]? = some s → id ∉ opened → s.Settled opened st
  unions : ∀ u ∈ st.unions, u.Placed opened st
  decls : ∀ n ty, (n, some ty) ∈ st.decls → st.Has ty
  insts : ∀ key id, (key, id) ∈ st.insts → id < st.structs.length

variable {done : Layout → Layout}

theorem Struct.Placed.mono (h : s.Placed opened st done) (hk : st.Keeps except st')
    (hexcept : ∀ f ∈ s.fields, f.ty.Closed except)
    (hopened : ∀ f ∈ s.fields, f.ty.Closed opened') : s.Placed opened' st' done := by
  have hmember (f : Field) (hf : f ∈ s.fields) : st'.member f.ty = st.member f.ty :=
    hk.member_eq (h.known f hf).1 (hexcept f hf)
  refine ⟨?_, fun f hf => ⟨(h.known f hf).1.keeps hk, hopened f hf⟩, fun f hf => ?_⟩
  · have hlayout : s.layout st' = s.layout st := by
      simp only [layout, Layout.mk.injEq, and_true]
      exact List.map_congr_left fun f hf => by rw [hmember f hf]
    rw [hlayout, h.layout_eq, List.map_congr_left hmember]
  · obtain ⟨hsize, halign⟩ := hk.size_align (h.known f hf).1 (hexcept f hf)
    rw [hsize, halign]
    exact h.members f hf

theorem Union.Placed.mono (h : u.Placed opened st) (hk : st.Keeps except st')
    (hexcept : ∀ ty ∈ u.variants, ty.Closed except)
    (hopened : ∀ ty ∈ u.variants, ty.Closed opened') : u.Placed opened' st' := by
  obtain ⟨hsize, halign⟩ := hk.max_eq fun ty hty => ⟨(h.known ty hty).1, hexcept ty hty⟩
  refine ⟨?_, ?_, h.size_eq, fun ty hty => ⟨(h.known ty hty).1.keeps hk, hopened ty hty⟩⟩
  · rw [h.tagOffset_eq, hsize]
  · rw [h.align_eq, halign]

/-- What a change to the state leaves to show: new structs that are not being laid out are settled, new
unions are placed, and the names that were given stand for types that are there. -/
theorem Inv.update (h : Inv opened st) (hk : st.Keeps except st')
    (hopened : ∀ id ∈ opened', id < st'.structs.length ∧ (id ∈ opened ∨ st.structs.length ≤ id))
    (hexcept : ∀ id ∈ except, id ∈ opened ∨ st.structs.length ≤ id)
    (hstructs : ∀ (id : ℕ) (s : Struct), st'.structs[id]? = some s → id ∉ opened' →
      (st.structs[id]? = some s ∧ id ∉ opened) ∨ s.Settled opened' st')
    (hunions : ∀ u ∈ st'.unions, u ∈ st.unions ∨ u.Placed opened' st')
    (hdecls : ∀ n ty, (n, some ty) ∈ st'.decls → (n, some ty) ∈ st.decls ∨ st'.Has ty)
    (hinsts : ∀ key id, (key, id) ∈ st'.insts → (key, id) ∈ st.insts ∨ id < st'.structs.length) :
    Inv opened' st' := by
  -- a type that is there and closed does not contain what was or will be opened
  have hclosed {ids : List ℕ} (hids : ∀ id ∈ ids, id ∈ opened ∨ st.structs.length ≤ id) {ty : RTy}
      (hty : st.Has ty ∧ ty.Closed opened) : ty.Closed ids := by
    intro id hid hcore
    rcases hids id hid with hmem | hle
    · exact hty.2 id hmem hcore
    · have := hty.1
      simp only [State.Has, hcore] at this
      omega
  have hin := fun id hid => (hopened id hid).2
  refine ⟨fun id hid => (hopened id hid).1, fun id s hs hid => ?_, fun u hu => ?_, fun n ty hn => ?_,
    fun key id hkey => ?_⟩
  · rcases hstructs id s hs hid with ⟨hold, hnot⟩ | hnew
    · obtain ⟨hplaced, hgeneric⟩ := h.structs id s hold hnot
      refine ⟨fun hparams => ?_, hgeneric⟩
      have hp := hplaced hparams
      exact hp.mono hk (fun f hf => hclosed hexcept (hp.known f hf))
        fun f hf => hclosed hin (hp.known f hf)
    · exact hnew
  · rcases hunions u hu with hold | hnew
    · have hp := h.unions u hold
      exact hp.mono hk (fun ty hty => hclosed hexcept (hp.known ty hty))
        fun ty hty => hclosed hin (hp.known ty hty)
    · exact hnew
  · exact (hdecls n ty hn).elim (fun hold => (h.decls n ty hold).keeps hk) (fun h => h)
  · exact (hinsts key id hkey).elim (fun hold => (h.insts key id hold).trans_le hk.length_le) (fun h => h)

/-! ### What single changes do to it -/

theorem State.Keeps.of_eq (hs : st'.structs = st.structs) (hu : st'.unions = st.unions) :
    st.Keeps except st' :=
  ⟨by rw [hs], fun _ _ h _ => by rw [hs]; exact h, fun _ _ h => by rw [hu]; exact h⟩

theorem State.keeps_push : st.Keeps except (st.push s) where
  length_le := by simp [push]
  structs id s hs _ := by
    rw [push, List.getElem?_append_left (List.getElem?_eq_some_iff.1 hs).1]
    exact hs
  unions _ _ h := h

theorem State.keeps_setStruct : st.Keeps [id] (st.setStruct id s) where
  length_le := by simp [setStruct]
  structs i s hs hi := by
    rw [List.mem_singleton] at hi
    rw [setStruct, List.getElem?_set_ne (Ne.symm hi)]
    exact hs
  unions _ _ h := h

/-- Structs and unions are as they were. -/
theorem Inv.of_eq (h : Inv opened st) (hs : st'.structs = st.structs) (hu : st'.unions = st.unions)
    (hdecls : ∀ n ty, (n, some ty) ∈ st'.decls → (n, some ty) ∈ st.decls ∨ st.Has ty)
    (hinsts : ∀ key id, (key, id) ∈ st'.insts → (key, id) ∈ st.insts ∨ id < st.structs.length) :
    Inv opened st' := by
  have hk : st.Keeps [] st' := .of_eq hs hu
  refine h.update hk (fun id hid => ⟨by rw [hs]; exact h.opened_lt id hid, .inl hid⟩) (by simp)
    (fun id s hid hnot => .inl ⟨by rw [← hs]; exact hid, hnot⟩) (fun u hmem => .inl (by rwa [← hu]))
    (fun n ty hmem => (hdecls n ty hmem).imp_right fun hty => hty.keeps hk) fun key id hmem => ?_
  rw [hs]
  exact hinsts key id hmem

theorem Inv.logged (h : Inv opened st) (step : Step) : Inv opened (st.logged step) :=
  h.of_eq rfl rfl (fun _ _ hmem => .inl hmem) fun _ _ hmem => .inl hmem

theorem Inv.setDecl (h : Inv opened st) {t : Option RTy} (ht : ∀ ty, t = some ty → st.Has ty) (n : ℕ) :
    Inv opened (st.setDecl n t) := by
  refine h.of_eq rfl rfl (fun m ty hmem => ?_) fun _ _ hmem => .inl hmem
  rcases List.mem_cons.1 hmem with heq | hold
  · exact .inr (ht ty (Prod.mk.inj heq).2.symm)
  · exact .inl hold

/-- An instance is noted. -/
theorem Inv.noteInst (h : Inv opened st) (hid : id < st.structs.length) (key : ℕ × List RTy) :
    Inv opened { st with insts := (key, id) :: st.insts } := by
  refine h.of_eq rfl rfl (fun _ _ hn => .inl hn) fun key' i hmem => ?_
  rcases List.mem_cons.1 hmem with heq | hold
  · rw [(Prod.mk.inj heq).2]
    exact .inr hid
  · exact .inl hold

/-- A struct is added, to be laid out. -/
theorem Inv.push (h : Inv opened st) (s : Struct) :
    Inv (st.structs.length :: opened) (st.push s) := by
  have hk : st.Keeps [] (st.push s) := State.keeps_push
  refine h.update hk (fun id hid => ?_) (by simp) (fun id s' hs hnot => ?_)
    (fun u hu => .inl hu) (fun n ty hn => .inl hn) (fun key id hkey => .inl hkey)
  · rcases List.mem_cons.1 hid with rfl | hold
    · exact ⟨by simp [State.push], .inr le_rfl⟩
    · have := h.opened_lt id hold
      exact ⟨by simp only [State.push, List.length_append]; omega, .inl hold⟩
  · rw [List.mem_cons, not_or] at hnot
    have hlt := (List.getElem?_eq_some_iff.1 hs).1
    rw [State.push, List.length_append, List.length_singleton] at hlt
    rw [State.push, List.getElem?_append_left (by omega)] at hs
    exact .inl ⟨hs, hnot.2⟩

/-- A struct that is being laid out changes. -/
theorem Inv.setStruct (h : Inv opened st) (hid : id ∈ opened) (s : Struct) :
    Inv opened (st.setStruct id s) := by
  refine h.update State.keeps_setStruct (fun i hi => ?_) (fun i hi => ?_) (fun i s' hs hnot => ?_)
    (fun u hu => .inl hu) (fun n ty hn => .inl hn) (fun key i hkey => .inl hkey)
  · exact ⟨by simpa [State.setStruct] using h.opened_lt i hi, .inl hi⟩
  · rw [List.mem_singleton.1 hi]
    exact .inl hid
  · have hne : id ≠ i := fun heq => hnot (heq ▸ hid)
    rw [State.setStruct, List.getElem?_set_ne hne] at hs
    exact .inl ⟨hs, hnot⟩

/-- A struct is done, or waits for its arguments. -/
theorem Inv.settle (h : Inv (id :: opened) st) (hs : st.structs[id]? = some s)
    (hsettled : s.Settled (id :: opened) st) : Inv opened st := by
  have hsub (i : ℕ) (hi : i ∈ opened) : i ∈ id :: opened := List.mem_cons_of_mem _ hi
  refine h.update (.refl [] st) (fun i hi => ⟨h.opened_lt i (hsub i hi), .inl (hsub i hi)⟩)
    (by simp) (fun i s' hs' hnot => ?_) (fun u hu => .inl hu) (fun n ty hn => .inl hn)
    (fun key i hkey => .inl hkey)
  by_cases heq : i = id
  · subst heq
    obtain rfl : s = s' := Option.some.inj (hs.symm.trans hs')
    refine .inr ⟨fun hparams => ?_, hsettled.2⟩
    have hp := hsettled.1 hparams
    exact hp.mono (.refl [] st) (fun f _ => f.ty.closed_nil)
      fun f hf => (hp.known f hf).2.mono hsub
  · exact .inl ⟨hs', by simp [heq, hnot]⟩

/-! ### Sums that fit -/

theorem cutMul_nonneg (a b : ℤ) : 0 ≤ cutMul a b :=
  le_min (Int.emod_nonneg _ (by norm_num)) (by norm_num)

theorem wrap_of_nonneg {x : ℤ} (hx : 0 ≤ x) (hlt : x < 2 ^ 63) : MachInt.wrap 64 x = x :=
  MachInt.wrap_eq_self (by norm_num) ⟨by norm_num; omega, by norm_num; omega⟩

theorem alignForward_eq {x a r : ℤ} (h : alignForward x a = some r) (hx : 0 ≤ x)
    (hlt : alignUp x a < 2 ^ 63) : r = alignUp x a ∧ IsPow2 a := by
  rw [alignForward] at h
  split_ifs at h with ha
  obtain ⟨hpos, hand⟩ := ha
  have hle := le_alignUp (x := x) hpos
  have hmod : x % 2 ^ 64 = x := Int.emod_eq_of_lt hx (by omega)
  simp only [hmod] at h
  rw [← alignUp_eq_ite hpos, wrap_of_nonneg (hx.trans hle) hlt] at h
  exact ⟨(Option.some.inj h).symm, isPow2_of_and hpos hand⟩

theorem Struct.Placed.sound (h : s.Placed opened st fun l => l) : (s.layout st).Sound := by
  rw [h.layout_eq]
  refine Layout.sound_place fun m hm => ?_
  obtain ⟨f, hf, rfl⟩ := List.mem_map.1 hm
  exact h.members f hf

theorem Struct.Placed.sound_close (h : s.Placed opened st Layout.close) : (s.layout st).Sound := by
  rw [h.layout_eq]
  refine (Layout.sound_place fun m hm => ?_).close
  obtain ⟨f, hf, rfl⟩ := List.mem_map.1 hm
  exact h.members f hf

theorem le_foldl_max (xs : List ℤ) (a : ℤ) : a ≤ xs.foldl max a ∧ ∀ x ∈ xs, x ≤ xs.foldl max a := by
  induction xs generalizing a with
  | nil => exact ⟨le_rfl, fun x hx => absurd hx List.not_mem_nil⟩
  | cons x xs ih =>
    obtain ⟨hacc, hmem⟩ := ih (max a x)
    refine ⟨(le_max_left ..).trans hacc, fun y hy => ?_⟩
    rcases List.mem_cons.1 hy with rfl | hy
    · exact (le_max_right ..).trans hacc
    · exact hmem y hy

theorem State.maxSize_nonneg (st : State) (tys : List RTy) : 0 ≤ st.maxSize tys :=
  (le_foldl_max _ _).1

theorem Union.Placed.align_pos (h : u.Placed opened st) : 0 < u.align := by
  rw [h.align_eq]
  exact lt_max_of_lt_right (by norm_num)

/-- A union is laid out when its sizes are those of its variants. -/
theorem Union.Placed.laidOut (h : u.Placed opened st) : u.LaidOut st := by
  have hsize := le_foldl_max (u.variants.map st.size) 0
  have halign := le_foldl_max (u.variants.map st.align) 1
  refine ⟨h.tagOffset_eq ▸ dvd_alignUp, fun ty hty => ?_, h.size_eq ▸ le_alignUp h.align_pos,
    fun ty hty => ?_, h.size_eq ▸ dvd_alignUp, h.tagOffset_eq, h.align_eq, h.size_eq⟩
  · rw [h.tagOffset_eq]
    exact (hsize.2 _ (List.mem_map_of_mem hty)).trans (le_alignUp (by norm_num))
  · rw [h.align_eq]
    exact (halign.2 _ (List.mem_map_of_mem hty)).trans (le_max_left ..)

theorem Inv.size_nonneg (h : Inv opened st) (hty : st.Has ty) (hc : ty.Closed opened) :
    0 ≤ st.size ty := by
  induction ty with
  | struct id =>
    have hid : id ∉ opened := fun hmem => hc id hmem rfl
    have hs := List.getElem?_eq_getElem (l := st.structs) (i := id) hty
    obtain ⟨hplaced, hgeneric⟩ := h.structs id _ hs hid
    rw [State.size, hs, Option.map_some, Option.getD_some]
    by_cases hparams : st.structs[id].params = []
    · exact (hplaced hparams).sound_close.size_nonneg
    · exact (hgeneric hparams).ge
  | union id =>
    have hu := List.getElem?_eq_getElem (l := st.unions) (i := id) hty
    have hp := h.unions _ (List.mem_of_getElem? hu)
    rw [State.size, hu, Option.map_some, Option.getD_some]
    have hl := hp.laidOut
    have htag : 0 ≤ st.unions[id].tagOffset := by
      rw [hp.tagOffset_eq]
      exact (st.maxSize_nonneg _).trans (le_alignUp (by norm_num))
    have := hl.inside
    omega
  | array elem len => exact cutMul_nonneg _ _
  | simd elem len => exact cutMul_nonneg _ _
  | enum id backing ih => exact ih hty hc
  | prim p => exact Int.natCast_nonneg _
  | _ => simp [State.size]

/-! ### The ends of structs and unions -/

theorem State.addField_log (h : st.addField opened id ty = some st') : st.log <:+ st'.log := by
  simp only [State.addField, Option.bind_eq_bind, Option.bind_eq_some_iff] at h
  obtain ⟨s, -, offset, -, h⟩ := h
  obtain rfl := (Option.some.inj h).symm
  exact List.suffix_cons ..

/-- **Adding a field**: when its type is done and the sum fits, the struct stays placed. -/
theorem Inv.addField (h : Inv opened st) (hid : id ∈ opened) (hs : st.structs[id]? = some s)
    (hplaced : s.Placed opened st fun l => l) (hty : st.Has ty)
    (hadd : st.addField opened id ty = some st') (hr : st'.Ready) :
    Inv opened st' ∧ st.Keeps [id] st' ∧ ∃ s', st'.structs[id]? = some s' ∧ s'.params = s.params ∧
      s'.Placed opened st' fun l => l := by
  simp only [State.addField, hs, Option.bind_eq_bind, Option.bind_some, Option.bind_eq_some_iff] at hadd
  obtain ⟨offset, hoffset, hadd⟩ := hadd
  obtain rfl := (Option.some.inj hadd).symm
  obtain ⟨hclosed, htop⟩ : ty.Closed opened ∧ alignUp s.size (st.align ty) + st.size ty < 2 ^ 63 :=
    hr _ List.mem_cons_self
  have hsound := hplaced.sound
  have hsize : 0 ≤ st.size ty := h.size_nonneg hty hclosed
  have hfits : alignUp s.size (st.align ty) < 2 ^ 63 := by omega
  obtain ⟨rfl, hpow⟩ := alignForward_eq hoffset hsound.size_nonneg hfits
  have hstart : s.size ≤ alignUp s.size (st.align ty) := le_alignUp hpow.pos
  have hnonneg : 0 ≤ s.size := hsound.size_nonneg
  rw [wrap_of_nonneg (by omega) htop]
  set s₁ : Struct := { s with
    fields := s.fields ++ [⟨ty, alignUp s.size (st.align ty)⟩]
    size := alignUp s.size (st.align ty) + st.size ty } with hs₁
  have hone : ty.Closed [id] := hclosed.mono fun i hi => by rwa [List.mem_singleton.1 hi]
  -- the alignment is that of the type, though the struct has changed
  have halign : (st.setStruct id s₁).align ty = st.align ty :=
    ((State.keeps_setStruct).size_align hty hone).2
  rw [halign]
  set s₂ : Struct := { s₁ with align := max s₁.align (st.align ty) } with hs₂
  have hkeeps : st.Keeps [id] (((st.setStruct id s₁).setStruct id s₂).logged
      (.member opened ty (alignUp s.size (st.align ty) + st.size ty))) :=
    (State.keeps_setStruct.trans State.keeps_setStruct).trans (.of_eq rfl rfl)
  refine ⟨((h.setStruct hid s₁).setStruct hid s₂).logged _, hkeeps, s₂, ?_, rfl, ?_⟩
  · have hlt := (List.getElem?_eq_some_iff.1 hs).1
    simp [State.logged, State.setStruct, hlt]
  · have hplaced₂ : s₂.Placed opened st fun l => l := by
      refine ⟨?_, fun f hf => ?_, fun f hf => ?_⟩
      · have hadd : s₂.layout st = (s.layout st).add (st.member ty) := by
          simp [hs₂, hs₁, Struct.layout, Layout.add, State.member]
        rw [hadd, hplaced.layout_eq, ← Layout.place_append]
        simp [hs₂, hs₁]
      · rcases List.mem_append.1 hf with hf | hf
        · exact hplaced.known f hf
        · rw [List.mem_singleton.1 hf]
          exact ⟨hty, hclosed⟩
      · rcases List.mem_append.1 hf with hf | hf
        · exact hplaced.members f hf
        · rw [List.mem_singleton.1 hf]
          exact ⟨hsize, hpow⟩
    refine hplaced₂.mono hkeeps (fun f hf => ?_) fun f hf => (hplaced₂.known f hf).2
    exact (hplaced₂.known f hf).2.mono fun i hi => by rwa [List.mem_singleton.1 hi]

theorem State.closeStruct_log (h : st.closeStruct id = some (ty, st')) : st.log <:+ st'.log := by
  simp only [State.closeStruct, Option.bind_eq_bind, Option.bind_eq_some_iff] at h
  obtain ⟨s, -, size, -, h⟩ := h
  obtain ⟨-, rfl⟩ := Prod.mk.inj (Option.some.inj h)
  exact List.suffix_cons ..

/-- **Closing a struct** that is placed settles it. -/
theorem Inv.closeStruct (h : Inv (id :: opened) st) (hs : st.structs[id]? = some s)
    (hplaced : s.Placed (id :: opened) st fun l => l) (hparams : s.params = [])
    (hclose : st.closeStruct id = some (ty, st')) (hr : st'.Ready) :
    Inv opened st' ∧ st.Keeps [id] st' ∧ st'.Has ty := by
  simp only [State.closeStruct, hs, Option.bind_eq_bind, Option.bind_some, Option.bind_eq_some_iff]
    at hclose
  obtain ⟨size, hsize, hclose⟩ := hclose
  obtain ⟨rfl, rfl⟩ := Prod.mk.inj (Option.some.inj hclose)
  have htop : alignUp s.size s.align < 2 ^ 63 := hr _ List.mem_cons_self
  have hsound := hplaced.sound
  obtain ⟨rfl, -⟩ := alignForward_eq hsize hsound.size_nonneg htop
  have hlt := (List.getElem?_eq_some_iff.1 hs).1
  set s' : Struct := { s with size := alignUp s.size s.align } with hs'
  have hkeeps : st.Keeps [id] ((st.setStruct id s').logged (.close (alignUp s.size s.align))) :=
    State.keeps_setStruct.trans (.of_eq rfl rfl)
  have hinv := (h.setStruct List.mem_cons_self s').logged (.close (alignUp s.size s.align))
  refine ⟨hinv.settle (s := s') (by simp [State.logged, State.setStruct, hlt]) ⟨fun _ => ?_, fun hne => ?_⟩,
    hkeeps, by simpa [State.Has, RTy.core, State.logged, State.setStruct] using hlt⟩
  · have hclosed : s'.Placed (id :: opened) st Layout.close := by
      refine ⟨?_, hplaced.known, hplaced.members⟩
      have heq : s'.layout st = (s.layout st).close := rfl
      rw [heq, hplaced.layout_eq]
    refine hclosed.mono hkeeps (fun f hf => ?_) fun f hf => (hplaced.known f hf).2
    exact (hplaced.known f hf).2.mono fun i hi => by simp_all
  · exact absurd hparams hne

theorem State.closeUnion_log {tys : List RTy} {maxSize maxAlign : ℤ}
    (h : st.closeUnion tys maxSize maxAlign = some (ty, st')) : st.log <:+ st'.log := by
  simp only [State.closeUnion, Option.bind_eq_bind, Option.bind_eq_some_iff] at h
  obtain ⟨tagOffset, -, size, -, h⟩ := h
  obtain ⟨-, rfl⟩ := Prod.mk.inj (Option.some.inj h)
  exact List.suffix_cons ..

/-- **Closing a union** whose variants are done places it. -/
theorem Inv.closeUnion {tys : List RTy} (h : Inv opened st)
    (hknown : ∀ ty ∈ tys, st.Has ty ∧ ty.Closed opened)
    (hclose : st.closeUnion tys (st.maxSize tys) (st.maxAlign tys) = some (ty, st')) (hr : st'.Ready) :
    Inv opened st' ∧ st.Keeps [] st' ∧ st'.Has ty := by
  simp only [State.closeUnion, Option.bind_eq_bind, Option.bind_eq_some_iff] at hclose
  obtain ⟨tagOffset, htag, size, hsize, hclose⟩ := hclose
  obtain ⟨rfl, rfl⟩ := Prod.mk.inj (Option.some.inj hclose)
  have htop : alignUp (alignUp (st.maxSize tys) 8 + 8) (max (st.maxAlign tys) 8) < 2 ^ 63 :=
    hr _ List.mem_cons_self
  have hnonneg := st.maxSize_nonneg tys
  have htagle : st.maxSize tys ≤ alignUp (st.maxSize tys) 8 := le_alignUp (by norm_num)
  have hpos : 0 < max (st.maxAlign tys) 8 := lt_max_of_lt_right (by norm_num)
  have hsizele := le_alignUp (x := alignUp (st.maxSize tys) 8 + 8) hpos
  obtain ⟨rfl, -⟩ := alignForward_eq htag hnonneg (by omega)
  rw [wrap_of_nonneg (by omega) (by omega)] at hsize
  obtain ⟨rfl, -⟩ := alignForward_eq hsize (by omega) htop
  set tagOffset := alignUp (st.maxSize tys) 8 with htagOffset
  set align := max (st.maxAlign tys) 8 with halign
  set size := alignUp (tagOffset + 8) align with hsize
  set st₁ := st.logged (.close size) with hst₁
  set u : Union := { variants := tys, tagOffset, size, align } with hu
  have hkeeps : st.Keeps [] { st₁ with unions := st₁.unions ++ [u] } := by
    refine ⟨le_rfl, fun _ _ hs _ => hs, fun i u' hu' => ?_⟩
    simp only [hst₁, State.logged]
    rw [List.getElem?_append_left (List.getElem?_eq_some_iff.1 hu').1]
    exact hu'
  have hplaced : u.Placed opened st := ⟨htagOffset, halign, hsize, hknown⟩
  refine ⟨h.update hkeeps (fun i hi => ⟨h.opened_lt i hi, .inl hi⟩) (by simp)
    (fun i s hs hnot => .inl ⟨hs, hnot⟩) (fun u' hu' => ?_) (fun n ty hn => .inl hn)
    fun key i hkey => .inl hkey, hkeeps, by simp [State.Has, RTy.core]⟩
  rcases List.mem_append.1 hu' with hold | hnew
  · exact .inl hold
  · rw [List.mem_singleton.1 hnew]
    exact .inr (hplaced.mono hkeeps (fun ty _ => ty.closed_nil) fun ty hty => (hknown ty hty).2)

end TypeLayout

end OdinSon.Odinc
