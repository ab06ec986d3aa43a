import OdinSon.Bac.EditRuns
import Mathlib.Data.List.Pairwise
import Mathlib.Data.List.Perm.Basic

/-!
# The interner while a graph is edited

The interner has an entry for each live node of an interned kind, with the hash of what the node is
now, and no two of its nodes are equal.  In the middle of an edit some nodes are out of it
(`Table`, with the nodes that may be missing as a parameter): `subsume` takes the users of its target
out before it gives them their new input, and puts them back at the end.

`set_input` does it in another order.  It writes the new input and drops the use of the former one
before it takes the node out of the interner.  When that use was the last one, nodes go while the
node has an entry with the hash of what it was.  If the node itself is one of them, its entry is
not found and stays; and if one of them is equal to what the node has become, the entry of the node
may be found in its place (`SetInputSafe` excludes both).
-/

namespace OdinSon

open OdinSon.Graph

theorem nodeHash_key (n : Node) : nodeHash n.key = nodeHash n := rfl

/-- The entries are those of the nodes of interned kinds, of which `key` says what they are.  The
nodes in `P` may be missing. -/
structure Table (key : NodeId → Node) (entries : List SSEntry) (P : NodeId → Prop) : Prop where
  entry : ∀ e ∈ entries, (key e.id).itype.isInterned = true ∧ e.hash = nodeHash (key e.id)
  apart : entries.Pairwise fun e e' => key e.id ≠ key e'.id
  all : ∀ n, (key n).itype.isInterned = true → ¬P n → ∃ e ∈ entries, e.id = n

namespace Table

variable {key : NodeId → Node} {entries : List SSEntry} {P Q : NodeId → Prop} {id : NodeId}

theorem mono (h : Table key entries P)
    (hPQ : ∀ n, (key n).itype.isInterned = true → P n → Q n) : Table key entries Q :=
  ⟨h.entry, h.apart, fun n hn hQ => h.all n hn fun hP => hQ (hPQ n hn hP)⟩

/-- Entries of equal nodes are one. -/
theorem eq_of_key (h : Table key entries P) {e e' : SSEntry} (he : e ∈ entries)
    (he' : e' ∈ entries) (hk : key e.id = key e'.id) : e = e' := by
  by_contra hne
  have hsymm : Std.Symm fun e e' : SSEntry => key e.id ≠ key e'.id := ⟨fun _ _ h => h.symm⟩
  exact h.apart.forall he he' hne hk

/-- A node that is not pure has no entry. -/
theorem no_entry (h : Table key entries P)
    (hid : (key id).itype.isInterned = false) : ∀ e ∈ entries, e.id ≠ id := by
  rintro e he rfl
  rw [(h.entry e he).1] at hid
  cases hid

/-- A node that has no entry may become anything. -/
theorem update (h : Table key entries P) (hno : ∀ e ∈ entries, e.id ≠ id) (k : Node)
    (hQ : ∀ n, n ≠ id → P n → Q n) (hid : k.itype.isInterned = true → Q id) :
    Table (Function.update key id k) entries Q := by
  have hkey (e : SSEntry) (he : e ∈ entries) : Function.update key id k e.id = key e.id :=
    Function.update_of_ne (hno e he) ..
  refine ⟨fun e he => ?_, ?_, fun n hn hnQ => ?_⟩
  · rw [hkey e he]
    exact h.entry e he
  · refine h.apart.imp_of_mem fun {e e'} he he' hne => ?_
    rwa [hkey e he, hkey e' he']
  · by_cases hni : n = id
    · subst hni
      rw [Function.update_self] at hn
      exact absurd (hid hn) hnQ
    · rw [Function.update_of_ne hni] at hn
      exact h.all n hn fun hP => hnQ (hQ n hni hP)

/-- The entry of a node goes. -/
theorem remove (h : Table key entries P) {e : SSEntry} {rest : List SSEntry} (he : e.id = id)
    (hp : entries.Perm (e :: rest)) :
    Table key rest (fun n => P n ∨ n = id) ∧ ∀ e' ∈ rest, e'.id ≠ id := by
  have hapart : (e :: rest).Pairwise fun e e' => key e.id ≠ key e'.id :=
    (hp.pairwise_iff fun h => h.symm).1 h.apart
  rw [List.pairwise_cons] at hapart
  refine ⟨⟨fun e' he' => h.entry e' (hp.mem_iff.2 (List.mem_cons_of_mem _ he')), hapart.2,
    fun n hn hP => ?_⟩, fun e' he' hid => hapart.1 e' he' (by rw [he, hid])⟩
  rw [not_or] at hP
  obtain ⟨e', he', hid⟩ := h.all n hn hP.1
  obtain rfl | he' := List.mem_cons.1 (hp.mem_iff.1 he')
  · exact absurd (hid.symm.trans he) hP.2
  · exact ⟨e', he', hid⟩

/-- A node gets an entry. -/
theorem insert (h : Table key entries P) (hi : (key id).itype.isInterned = true)
    (hno : ∀ e ∈ entries, key e.id ≠ key id) :
    Table key (entries ++ [⟨nodeHash (key id), id⟩]) fun n => P n ∧ n ≠ id := by
  refine ⟨fun e he => ?_, ?_, fun n hn hP => ?_⟩
  · rw [List.mem_append, List.mem_singleton] at he
    obtain he | rfl := he
    · exact h.entry e he
    · exact ⟨hi, rfl⟩
  · rw [List.pairwise_append]
    refine ⟨h.apart, List.pairwise_singleton _ _, fun e he e' he' => ?_⟩
    rw [List.mem_singleton.1 he']
    exact hno e he
  · by_cases hni : n = id
    · exact ⟨_, List.mem_append_right _ (List.mem_singleton_self _), hni.symm⟩
    · obtain ⟨e, he, hid⟩ := h.all n hn fun hPn => hP ⟨hPn, hni⟩
      exact ⟨e, List.mem_append_left _ he, hid⟩

end Table

namespace Graph

/-- What the nodes are. -/
def keys (g : Graph) : NodeId → Node := fun n => (g.getNode n).key

variable {g g' : Graph} {P Q : NodeId → Prop} {id m w t x nid : NodeId} {key : NodeId → Node}
  {fuel : ℕ}

theorem keys_eq (h : g'.mem = g.mem) : g'.keys = g.keys := by
  funext n
  rw [keys, keys, getNode_congr h]

/-! ### In and out of the interner -/

/-- **`unintern`** takes the entry of the node out, if what it finds by the hash and is equal is
that node. -/
theorem unintern_table (h : Table key g.interner P) (hid : key id = g.keys id)
    (hfound : (g.getNode id).itype.isInterned = true → ∀ e ∈ g.interner,
      e.hash = nodeHash (g.getNode id) → g.nodeEq e.id id = true → key e.id = key id)
    (hu : g.unintern id = some g') :
    Table key g'.interner (fun n => P n ∨ n = id) ∧ ∀ e ∈ g'.interner, e.id ≠ id := by
  have hkey : key id = (g.getNode id).key := hid
  -- an entry of the node itself would be found
  have hown (e : SSEntry) (he : e ∈ g.interner) (heid : e.id = id) :
      (g.getNode id).itype.isInterned = true ∧ e.hash = nodeHash (g.getNode id) := by
    have := h.entry e he
    rw [heid, hkey] at this
    exact this
  unfold unintern hasInternedFlag at hu
  by_cases hd : (g.getNode id).itype = .dead
  · simp [hd] at hu
  simp only [hd, if_false, Option.bind_eq_bind, Option.bind_some] at hu
  split at hu
  · rename_i hi
    cases hu
    refine ⟨h.mono fun n _ hP => .inl hP, fun e he heid => ?_⟩
    simp only [(hown e he heid).1, Bool.not_true, Bool.false_eq_true] at hi
  rename_i hi
  have hi : (g.getNode id).itype.isInterned = true := by simpa using hi
  split at hu
  · rename_i idx hfind
    obtain ⟨hlt, heq, -⟩ := List.findIdx?_eq_some_iff_getElem.1 hfind
    simp only [Bool.and_eq_true, decide_eq_true_eq] at heq
    have hmem := List.getElem_mem hlt
    have hkeq := hfound hi _ hmem heq.1 heq.2
    rw [List.getD_eq_getElem?_getD, List.getElem?_eq_getElem hlt, Option.getD_some] at hu
    split at hu
    · rename_i hne
      cases hu
      refine ⟨h.mono fun n _ hP => .inl hP, fun e he heid => hne ?_⟩
      have hee := h.eq_of_key he hmem (by rw [heid, hkeq])
      rw [← hee, heid]
    · rename_i hne
      cases hu
      refine h.remove (not_not.1 hne) ?_
      exact (List.getElem_cons_eraseIdx_perm hlt).symm.trans ((swapRemove_perm hlt).symm.cons _)
  · rename_i hfind
    cases hu
    refine ⟨h.mono fun n _ hP => .inl hP, fun e he heid => ?_⟩
    have hnone := List.findIdx?_eq_none_iff.1 hfind e he
    simp [(hown e he heid).2, nodeEq, heid] at hnone

/-- The nodes are what the table says. -/
theorem unintern_table_self (h : Table g.keys g.interner P) (hu : g.unintern id = some g') :
    Table g'.keys g'.interner (fun n => P n ∨ n = id) ∧ ∀ e ∈ g'.interner, e.id ≠ id := by
  rw [keys_eq (unintern_spec hu).2.1]
  refine unintern_table h rfl (fun _ e _ _ heq => ?_) hu
  simp only [nodeEq, Bool.or_eq_true, decide_eq_true_eq] at heq
  obtain rfl | heq := heq
  · rfl
  · exact heq

/-- **`intern`** finds the node that is equal, or puts the node in. -/
theorem intern_table (h : Table g.keys g.interner P) (hi : g.intern id = some (g', nid)) :
    Table g'.keys g'.interner P ∧ (nid = id → Table g'.keys g'.interner fun n => P n ∧ n ≠ id) ∧
      ((g.getNode id).itype.isInterned = true → ∃ e ∈ g'.interner, e.id = nid) := by
  obtain ⟨-, hmem, -⟩ := intern_spec hi
  rw [keys_eq hmem]
  unfold intern hasInternedFlag at hi
  by_cases hd : (g.getNode id).itype = .dead
  · simp [hd] at hi
  simp only [hd, if_false, Option.bind_eq_bind, Option.bind_some] at hi
  split at hi
  · rename_i hkind
    cases hi
    have hkind : (g.getNode id).itype.isInterned = false := by simpa using hkind
    refine ⟨h, fun _ => h.mono fun n hn hP => ⟨hP, fun hni => ?_⟩, fun hc => ?_⟩
    · have hn : (g.getNode n).itype.isInterned = true := hn
      rw [hni, hkind] at hn
      cases hn
    · rw [hkind] at hc
      cases hc
  rename_i hkind
  have hkind : (g.getNode id).itype.isInterned = true := by simpa using hkind
  split at hi
  · rename_i idx hfind
    cases hi
    obtain ⟨hlt, -, -⟩ := List.findIdx?_eq_some_iff_getElem.1 hfind
    rw [List.getD_eq_getElem?_getD, List.getElem?_eq_getElem hlt, Option.getD_some]
    have hmem := List.getElem_mem hlt
    refine ⟨h, fun hnid => ⟨h.entry, h.apart, fun n hn hP => ?_⟩, fun _ => ⟨_, hmem, rfl⟩⟩
    by_cases hni : n = id
    · exact ⟨_, hmem, hnid.trans hni.symm⟩
    · exact h.all n hn fun hPn => hP ⟨hPn, hni⟩
  · rename_i hfind
    cases hi
    have hno (e : SSEntry) (he : e ∈ g.interner) : g.keys e.id ≠ g.keys id := by
      intro hk
      have hnone := List.findIdx?_eq_none_iff.1 hfind e he
      have hhash : e.hash = nodeHash (g.getNode id) := by
        rw [(h.entry e he).2, hk]
        rfl
      have hkey : (g.getNode e.id).key = (g.getNode id).key := hk
      simp [hhash, nodeEq, hkey] at hnone
    have hins := h.insert hkind hno
    refine ⟨hins.mono fun n _ hP => hP.1, fun _ => hins,
      fun _ => ⟨_, List.mem_append_right _ (List.mem_singleton_self _), rfl⟩⟩

/-! ### Edits that leave the table alone -/

/-- Neither what the nodes are nor the entries change. -/
structure SameTable (g g' : Graph) : Prop where
  keys : g'.keys = g.keys
  interner : g'.interner = g.interner

theorem SameTable.table (hs : g.SameTable g') (h : Table g.keys g.interner P) :
    Table g'.keys g'.interner P := by
  rw [hs.keys, hs.interner]
  exact h

theorem sameTable_setOuts (g : Graph) (id : NodeId) (l : List NodeOutput) :
    g.SameTable (g.setOuts id l) := ⟨funext fun x => key_setOuts g id l x, rfl⟩

theorem SameTable.trans {g₁ g₂ g₃ : Graph} (h₁ : g₁.SameTable g₂) (h₂ : g₂.SameTable g₃) :
    g₁.SameTable g₃ := ⟨h₂.keys.trans h₁.keys, h₂.interner.trans h₁.interner⟩

theorem sameTable_ensureAvailableOutputCap {n : ℕ} (h : g.ensureAvailableOutputCap id n = some g') :
    g.SameTable g' := by
  refine ⟨keys_eq (ensureAvailableOutputCap_spec h).1, ?_⟩
  unfold ensureAvailableOutputCap at h
  simp only at h
  split at h
  · split at h
    · cases h
      rfl
    · cases h
  · cases h
    rfl

theorem sameTable_addOutput {i : ℕ} (h : g.addOutput m id i = some g') : g.SameTable g' := by
  unfold addOutput at h
  by_cases hm : m = 0
  · simp only [hm, if_true] at h
    cases h
    exact ⟨rfl, rfl⟩
  · simp only [hm, if_false, Option.bind_eq_bind, Option.bind_eq_some_iff,
      Option.guard_eq_some'] at h
    obtain ⟨_, -, g₁, hcap, _, -, _, -, hset⟩ := h
    cases hset
    exact (sameTable_ensureAvailableOutputCap hcap).trans (sameTable_setOuts ..)

theorem sameTable_addOutputs {i : ℕ} {inps : List NodeId} (h : addOutputs id i inps g = some g') :
    g.SameTable g' := by
  induction inps generalizing g i with
  | nil =>
    cases h
    exact ⟨rfl, rfl⟩
  | cons inp inps ih =>
    rw [addOutputs, Option.bind_eq_bind, Option.bind_eq_some_iff] at h
    obtain ⟨g₁, h₁, h⟩ := h
    exact (sameTable_addOutput h₁).trans (ih h)

/-- The nodes after a write. -/
theorem keys_setNode (g : Graph) (hid : id ≠ 0) (n : Node) :
    (g.setNode id n).keys = Function.update g.keys id n.key := by
  funext x
  rw [keys, getNode_setNode, Function.update_apply]
  by_cases hx : x = id
  · rw [if_pos ⟨hx, hid⟩, if_pos hx]
  · rw [if_neg fun hc => hx hc.1, if_neg hx]
    rfl

theorem isInterned_keys (g : Graph) (x : NodeId) :
    (g.keys x).itype.isInterned = (g.getNode x).itype.isInterned := rfl

/-! ### Deletion -/

/-- The nodes that go when `m` has lost its last use: `m`, and each input of one that goes if all its
uses are of nodes that go. -/
inductive Falls (h : Graph) (m : NodeId) : NodeId → Prop
  | root : m ≠ 0 → (h.getNode m).outs = [] → Falls h m m
  | input {x y : NodeId} : Falls h m x → y ∈ (h.getNode x).inps → y ≠ 0 →
    (∀ out ∈ (h.getNode y).outs, Falls h m out.id) → Falls h m y

theorem Falls.ne_zero {h : Graph} (hf : Falls h m x) : x ≠ 0 := by
  cases hf with
  | root h0 => exact h0
  | input _ _ h0 => exact h0

/-- The deletion of `m` has come from `h` to `g`.  The entry of the node `o` is that of a node with the
key `k`. -/
structure Falling (h : Graph) (m o : NodeId) (k : Node) (P : NodeId → Prop) (g : Graph) : Prop where
  shrinks : h.Shrinks g
  outs : ∀ y, ∀ out ∈ (h.getNode y).outs, out ∈ (g.getNode y).outs ∨ Falls h m out.id
  dead : ∀ y, (g.getNode y).itype = .dead → (h.getNode y).itype = .dead ∨ Falls h m y
  table : Table (Function.update g.keys o k) g.interner P

/-- What the nodes that go may not be. -/
structure FallSafe (h : Graph) (m o : NodeId) (k : Node) : Prop where
  self : ¬Falls h m o
  equal : ∀ x, Falls h m x → (h.getNode x).itype.isInterned = true → h.keys o = h.keys x →
    nodeHash k ≠ nodeHash (h.getNode x)

section Falling

variable {h : Graph} {o : NodeId} {k : Node} (hsafe : FallSafe h m o k)

theorem Falling.setOuts {inp : NodeId} {out : NodeOutput} {idx : ℕ} (hg : Falling h m o k P g)
    (hidx : (g.getNode inp).outs.idxOf? out = some idx) (hf : Falls h m out.id) :
    Falling h m o k P (g.setOuts inp (swapRemove (g.getNode inp).outs idx)) := by
  obtain ⟨hlt, hout, -⟩ := List.idxOf?_eq_some_iff.1 hidx
  have hperm := swapRemove_perm hlt
  refine ⟨hg.shrinks.trans ⟨fun y => .inr ⟨key_setOuts .., ?_⟩, rfl⟩, fun y o' ho' => ?_,
    fun y hy => ?_, ?_⟩
  · rw [outs_setOuts]
    split
    · rename_i hx
      rw [hx.1]
      exact fun o ho => List.eraseIdx_subset (hperm.mem_iff.1 ho)
    · exact List.Subset.refl _
  · obtain ho' | ho' := hg.outs y o' ho'
    · rw [outs_setOuts]
      split
      · rename_i hx
        rw [hx.1] at ho'
        by_cases heq : o' = out
        · exact .inr (heq ▸ hf)
        · exact .inl (mem_swapRemove_of_ne hidx ho' heq)
      · exact .inl ho'
    · exact .inr ho'
  · rw [itype_of_key (key_setOuts ..)] at hy
    exact hg.dead y hy
  · have hs := sameTable_setOuts g inp (swapRemove (g.getNode inp).outs idx)
    rw [hs.keys, hs.interner]
    exact hg.table

theorem Falling.key_eq (hg : Falling h m o k P g) (hx : (g.getNode x).itype ≠ .dead) :
    (g.getNode x).key = (h.getNode x).key := by
  obtain hd | ⟨hk, -⟩ := hg.shrinks.node x
  · rw [hd] at hx
    exact absurd rfl hx
  · exact hk

include hsafe in
/-- The entry of a node that goes is found. -/
theorem Falling.unintern (hg : Falling h m o k P g) (hf : Falls h m x)
    (hu : g.unintern x = some g') :
    Table (Function.update g'.keys o k) g'.interner (fun n => P n ∨ n = x) ∧
      ∀ e ∈ g'.interner, e.id ≠ x := by
  have hxo : x ≠ o := fun he => hsafe.self (he ▸ hf)
  obtain ⟨hlive, hmem, -⟩ := unintern_spec hu
  rw [keys_eq hmem]
  refine unintern_table hg.table (Function.update_of_ne hxo ..) (fun hi e he hhash heq => ?_) hu
  simp only [nodeEq, Bool.or_eq_true, decide_eq_true_eq] at heq
  rw [Function.update_of_ne hxo]
  by_cases heo : e.id = o
  · obtain heq | heq := heq
    · exact absurd (heq.symm.trans heo) hxo
    · -- the entry has the hash of what its node was
      exfalso
      have hentry := (hg.table.entry e he).2
      rw [heo, Function.update_self] at hentry
      have hlive' : (g.getNode e.id).itype ≠ .dead := by rwa [itype_of_key heq]
      have hkeys : h.keys o = h.keys x := by
        have := (hg.key_eq hlive').symm.trans (heq.trans (hg.key_eq hlive))
        rwa [heo] at this
      have hix : (h.getNode x).itype.isInterned = true := by
        rwa [← itype_of_key (hg.key_eq hlive)]
      refine hsafe.equal x hf hix hkeys ?_
      rw [← hentry, hhash, ← nodeHash_key, hg.key_eq hlive, nodeHash_key]
  · rw [Function.update_of_ne heo]
    obtain heq | heq := heq
    · rw [heq]
    · exact heq

theorem Falling.removeInputs {del : Graph → NodeId → Option Graph}
    (hdel : ∀ g x g', Falling h m o k P g → (x ≠ 0 → (g.getNode x).outs = [] → Falls h m x) →
      del g x = some g' → Falling h m o k P g')
    {inps : List NodeId} {i : ℕ} (hg : Falling h m o k P g) (hf : Falls h m x)
    (hinps : ∀ inp ∈ inps, inp ∈ (h.getNode x).inps)
    (hr : removeInputs del x i inps g = some g') : Falling h m o k P g' := by
  induction inps generalizing g i with
  | nil =>
    cases hr
    exact hg
  | cons inp inps ih =>
    rw [Graph.removeInputs, Option.bind_eq_bind, Option.bind_eq_some_iff] at hr
    obtain ⟨g₁, h₁, hr⟩ := hr
    refine ih ?_ (fun y hy => hinps y (List.mem_cons_of_mem _ hy)) hr
    unfold removeOutput at h₁
    by_cases h0 : inp = 0
    · simp only [h0, if_true] at h₁
      cases h₁
      exact hg
    · simp only [h0, if_false, Option.bind_eq_bind, Option.bind_eq_some_iff] at h₁
      obtain ⟨idx, hidx, h₁⟩ := h₁
      have hset := hg.setOuts hidx hf
      refine hdel _ _ _ hset (fun _ hnil => ?_) h₁
      refine .input hf (hinps inp (List.mem_cons_self ..)) h0 fun out hout => ?_
      obtain hmem | hfall := hset.outs inp out hout
      · rw [hnil] at hmem
        exact absurd hmem List.not_mem_nil
      · exact hfall

include hsafe in
/-- **Only nodes that fall go**, and their entries with them. -/
theorem Falling.deleteNode (hg : Falling h m o k P g)
    (hx : x ≠ 0 → (g.getNode x).outs = [] → Falls h m x) (hd : deleteNode fuel g x = some g') :
    Falling h m o k P g' := by
  induction fuel generalizing g x g' with
  | zero => cases hd
  | succ fuel ih =>
    have hshrinks := (deleteNode_spec hd).shrinks
    rw [Graph.deleteNode] at hd
    by_cases hc : (g.getNode x).outs ≠ [] ∨ x = 0 ∨ (g.getNode x).itype = .dead
    · rw [if_pos hc] at hd
      cases hd
      exact hg
    rw [if_neg hc] at hd
    simp only [not_or, not_not] at hc
    obtain ⟨hnil, hx0, hlive⟩ := hc
    simp only [Option.bind_eq_bind, Option.bind_eq_some_iff, Option.guard_eq_some'] at hd
    obtain ⟨_, -, g₁, h₁, g₂, h₂, hkill⟩ := hd
    cases hkill
    have hf := hx hx0 hnil
    have hxo : x ≠ o := fun he => hsafe.self (he ▸ hf)
    have hg₁ := hg.removeInputs (fun _ _ _ hg hx hd => ih hg hx hd) hf
      (fun y hy => by rwa [← inps_of_key (hg.key_eq hlive)]) h₁
    obtain ⟨htable, hno⟩ := hg₁.unintern hsafe hf h₂
    obtain ⟨-, hmem, -⟩ := unintern_spec h₂
    have hne {y : NodeId} (hy : y ≠ x) :
        (g₂.setNode x { itype := .dead }).getNode y = g₁.getNode y :=
      (getNode_setNode_ne _ hy).trans (getNode_congr hmem y)
    refine ⟨hg.shrinks.trans hshrinks, fun y out hout => ?_, fun y hy => ?_, ?_⟩
    · by_cases hyx : y = x
      · subst hyx
        obtain hmem | hfall := hg.outs y out hout
        · rw [hnil] at hmem
          exact absurd hmem List.not_mem_nil
        · exact .inr hfall
      · rw [hne hyx]
        exact hg₁.outs y out hout
    · by_cases hyx : y = x
      · exact .inr (hyx ▸ hf)
      · rw [hne hyx] at hy
        exact hg₁.dead y hy
    · rw [keys_setNode _ hx0, Function.update_comm hxo]
      refine htable.update hno _ (fun n hn hor => hor.resolve_right hn) fun hc => ?_
      exact absurd hc (by decide)

end Falling

/-- **A deletion keeps the table.** -/
theorem deleteNode_table (h : Table g.keys g.interner P) (hd : deleteNode fuel g x = some g') :
    Table g'.keys g'.interner P := by
  -- the nil node is never in the way
  have hzero (g : Graph) : Function.update g.keys 0 ({} : Node).key = g.keys := by
    rw [Function.update_eq_self_iff]
    rfl
  have hsafe : FallSafe g x 0 ({} : Node).key := by
    refine ⟨fun hf => hf.ne_zero rfl, fun y _ hi hk _ => ?_⟩
    have hk : (g.getNode 0).key = (g.getNode y).key := hk
    rw [← itype_of_key hk, Proc.getNode_zero] at hi
    exact absurd hi (by decide)
  have hstart : Falling g x 0 ({} : Node).key P g :=
    ⟨.refl g, fun _ _ h => .inl h, fun _ h => .inl h, by rwa [hzero]⟩
  have := (hstart.deleteNode hsafe (fun h0 hnil => .root h0 hnil) hd).table
  rwa [hzero] at this

/-! ### Merging -/

/-- A use is dropped only when its user goes. -/
def Keeps (g g' : Graph) (P : NodeId → Prop) : Prop :=
  ∀ m, ∀ o ∈ (g.getNode m).outs, o ∈ (g'.getNode m).outs ∨ P o.id ∨ g'.getNode o.id = .dead

theorem Keeps.trans {g₁ g₂ g₃ : Graph} (h₁ : g₁.Keeps g₂ P) (h₂ : g₂.Keeps g₃ P)
    (hs : g₂.Shrinks g₃) : g₁.Keeps g₃ P := by
  intro m o ho
  obtain ho | hP | hd := h₁ m o ho
  · exact h₂ m o ho
  · exact .inr (.inl hP)
  · exact .inr (.inr (hs.dead hd))

theorem removeInputs_keeps {del : Graph → NodeId → Option Graph}
    (hshrinks : ∀ g id g', del g id = some g' → g.Removes g' (· ≠ id) fun _ _ => 0)
    (hdel : ∀ g id g', del g id = some g' → g.Keeps g' fun _ => False)
    {inps : List NodeId} {i : ℕ} (h : removeInputs del id i inps g = some g') :
    g.Keeps g' (· = id) := by
  induction inps generalizing g i with
  | nil =>
    cases h
    exact fun _ _ ho => .inl ho
  | cons inp inps ih =>
    rw [removeInputs, Option.bind_eq_bind, Option.bind_eq_some_iff] at h
    obtain ⟨g₁, h₁, h⟩ := h
    refine Keeps.trans ?_ (ih h) (removeInputs_spec hshrinks h).shrinks
    unfold removeOutput at h₁
    by_cases h0 : inp = 0
    · simp only [h0, if_true] at h₁
      cases h₁
      exact fun _ _ ho => .inl ho
    · simp only [h0, if_false, Option.bind_eq_bind, Option.bind_eq_some_iff] at h₁
      obtain ⟨idx, hidx, h₁⟩ := h₁
      intro m o ho
      by_cases hid : o.id = id
      · exact .inr (.inl hid)
      have hmem : o ∈ ((g.setOuts inp (swapRemove (g.getNode inp).outs idx)).getNode m).outs := by
        rw [outs_setOuts]
        split
        · rename_i hm
          rw [hm.1] at ho
          refine mem_swapRemove_of_ne hidx ho ?_
          rintro rfl
          exact hid rfl
        · exact ho
      obtain ho | hf | hd := hdel _ _ _ h₁ m o hmem
      · exact .inl ho
      · exact hf.elim
      · exact .inr (.inr hd)

theorem deleteNode_keeps (h : deleteNode fuel g x = some g') : g.Keeps g' fun _ => False := by
  induction fuel generalizing g x g' with
  | zero => cases h
  | succ fuel ih =>
    rw [deleteNode] at h
    by_cases hc : (g.getNode x).outs ≠ [] ∨ x = 0 ∨ (g.getNode x).itype = .dead
    · rw [if_pos hc] at h
      cases h
      exact fun _ _ ho => .inl ho
    rw [if_neg hc] at h
    simp only [not_or, not_not] at hc
    obtain ⟨hnil, hx0, -⟩ := hc
    simp only [Option.bind_eq_bind, Option.bind_eq_some_iff, Option.guard_eq_some'] at h
    obtain ⟨_, -, g₁, h₁, g₂, h₂, hkill⟩ := h
    cases hkill
    obtain ⟨-, hmem, -⟩ := unintern_spec h₂
    have hkilled : (g₂.setNode x { itype := .dead }).getNode x = .dead := getNode_setNode_self _ hx0
    have hne {y : NodeId} (hy : y ≠ x) :
        (g₂.setNode x { itype := .dead }).getNode y = g₁.getNode y :=
      (getNode_setNode_ne _ hy).trans (getNode_congr hmem y)
    intro m o ho
    have hmx : m ≠ x := by
      rintro rfl
      rw [hnil] at ho
      exact List.not_mem_nil ho
    by_cases hox : o.id = x
    · exact .inr (.inr (hox ▸ hkilled))
    rw [hne hmx, hne hox]
    obtain ho | ho | hd := removeInputs_keeps (fun _ _ _ => deleteNode_spec) (fun _ _ _ => ih) h₁ m
      o ho
    · exact .inl ho
    · exact absurd ho hox
    · exact .inr (.inr hd)

/-- The users that get a new input are out of the interner. -/
theorem redirect_table {outs : List NodeOutput} (h : Table g.keys g.interner P)
    (hr : redirect w outs g = some g') :
    Table g'.keys g'.interner fun n => P n ∨ ∃ o ∈ outs, o ≠ .pin ∧ o.id = n := by
  induction outs generalizing g P with
  | nil =>
    cases hr
    exact h.mono fun n _ hP => .inl hP
  | cons out outs ih =>
    rw [redirect] at hr
    by_cases hpin : out = .pin ∧ w ≠ 0
    · rw [if_pos hpin] at hr
      refine (ih h hr).mono fun n _ hP => hP.imp_right ?_
      rintro ⟨o, ho, hn⟩
      exact ⟨o, List.mem_cons_of_mem _ ho, hn⟩
    · rw [if_neg hpin] at hr
      simp only [Option.bind_eq_bind, Option.bind_eq_some_iff, Option.guard_eq_some'] at hr
      obtain ⟨g₁, h₁, _, hlt, hr⟩ := hr
      have hid := ne_zero_of_lt hlt
      obtain ⟨htable, hno⟩ := unintern_table_self h h₁
      have hset := htable.update (Q := fun n => P n ∨ n = out.id) hno
        ({ g₁.getNode out.id with inps := (g₁.getNode out.id).inps.set out.idx w } : Node).key
        (fun n _ hP => hP) fun _ => .inr rfl
      rw [← keys_setNode _ hid] at hset
      refine (ih hset hr).mono fun n _ hP => ?_
      obtain (hP | rfl) | ⟨o, ho, hn⟩ := hP
      · exact .inl hP
      · refine .inr ⟨out, List.mem_cons_self, fun hp => hid ?_, rfl⟩
        rw [hp]
        rfl
      · exact .inr ⟨o, List.mem_cons_of_mem _ ho, hn⟩

/-- `sub` keeps the table, whatever is missing. -/
def KeepsTable (sub : Graph → NodeId → NodeId → Option Graph) : Prop :=
  ∀ g w t g' P, sub g w t = some g' → Table g.keys g.interner P → Table g'.keys g'.interner P

/-- A node that is deleted is not missing. -/
theorem table_of_dead (h : Table g.keys g.interner P) (hd : (g.getNode id).itype = .dead) :
    Table g.keys g.interner fun n => P n ∧ n ≠ id := by
  refine h.mono fun n hn hP => ⟨hP, ?_⟩
  rintro rfl
  rw [isInterned_keys, hd] at hn
  cases hn

section Sub

variable {sub : Graph → NodeId → NodeId → Option Graph} (hsub : KeepsTable sub) (hkills : Kills sub)

include hsub hkills

/-- A node is back in the interner, or has gone. -/
theorem giveWay_table {g₁ g₂ : Graph} (h : Table g.keys g.interner P)
    (hi : g.intern id = some (g₁, nid)) (hw : g₁.giveWay sub nid id = some g₂) :
    Table g₂.keys g₂.interner fun n => P n ∧ n ≠ id := by
  obtain ⟨htable, hself, -⟩ := intern_table h hi
  unfold giveWay at hw
  split at hw
  · rename_i hnid
    cases hw
    exact hself hnid
  · rename_i hne
    obtain ⟨-, -, -, hor⟩ := intern_spec hi
    obtain ⟨hint, hkey⟩ := hor.resolve_left hne
    have hn0 : nid ≠ 0 := by
      rintro rfl
      rw [← itype_of_key hkey] at hint
      exact absurd hint (by rw [Proc.getNode_zero]; decide)
    refine table_of_dead (hsub _ _ _ _ _ hw htable) ?_
    rw [(hkills _ _ _ _ hw).2 hn0]
    rfl

theorem reintern_table {outs : List NodeOutput} (h : Table g.keys g.interner P)
    (hr : reintern sub outs g = some g') :
    Table g'.keys g'.interner fun n => P n ∧ ∀ o ∈ outs, n ≠ o.id := by
  induction outs generalizing g P with
  | nil =>
    cases hr
    exact h.mono fun n _ hP => ⟨hP, fun _ ho => absurd ho List.not_mem_nil⟩
  | cons out outs ih =>
    have hcons (htable : Table g'.keys g'.interner fun n => (P n ∧ n ≠ out.id) ∧
        ∀ o ∈ outs, n ≠ o.id) :
        Table g'.keys g'.interner fun n => P n ∧ ∀ o ∈ out :: outs, n ≠ o.id := by
      refine htable.mono fun n _ hn => ⟨hn.1.1, fun o ho => ?_⟩
      obtain rfl | ho := List.mem_cons.1 ho
      · exact hn.1.2
      · exact hn.2 o ho
    rw [reintern] at hr
    split at hr
    · rename_i hd
      exact hcons (ih (table_of_dead h hd) hr)
    · simp only [Option.bind_eq_bind, Option.bind_eq_some_iff, Prod.exists] at hr
      obtain ⟨g₁, nid, hi, g₂, hw, hr⟩ := hr
      exact hcons (ih (giveWay_table hsub hkills h hi hw) hr)

theorem reinternRound_table {outs outs' : List NodeOutput} {c : Bool}
    (h : Table g.keys g.interner P) (hr : reinternRound sub outs g = some (g', outs', c)) :
    Table g'.keys g'.interner fun n => P n ∧ ∀ o ∈ outs, n ≠ o.id := by
  induction outs generalizing g P outs' c with
  | nil =>
    cases hr
    exact h.mono fun n _ hP => ⟨hP, fun _ ho => absurd ho List.not_mem_nil⟩
  | cons out outs ih =>
    simp only [reinternRound, Option.bind_eq_bind, Option.bind_eq_some_iff, Prod.exists] at hr
    obtain ⟨g₁, nid, hi, g₂, hw, g₃, outs₃, c₃, hr, hg⟩ := hr
    cases hg
    refine (ih (giveWay_table hsub hkills h hi hw) hr).mono fun n _ hn => ⟨hn.1.1, fun o ho => ?_⟩
    obtain rfl | ho := List.mem_cons.1 ho
    · exact hn.1.2
    · exact hn.2 o ho

/-- The first round puts them back, the others leave them there. -/
theorem reinternRounds_table {outs : List NodeOutput} {n : ℕ} (h : Table g.keys g.interner P)
    (hr : reinternRounds sub n outs g = some g') :
    Table g'.keys g'.interner fun n => P n ∧ ∀ o ∈ outs, n ≠ o.id := by
  induction n generalizing g P outs with
  | zero => cases hr
  | succ n ih =>
    simp only [reinternRounds, Option.bind_eq_bind, Option.bind_eq_some_iff, Prod.exists] at hr
    obtain ⟨g₁, outs₁, c, hround, hr⟩ := hr
    have htable := reinternRound_table hsub hkills h hround
    split at hr
    · exact (ih htable hr).mono fun n _ hn => hn.1
    · cases hr
      exact htable

end Sub

theorem removeOutput_table {out : NodeOutput} (h : Table g.keys g.interner P)
    (hr : g.removeOutput (deleteNode fuel) m out = some g') : Table g'.keys g'.interner P := by
  unfold removeOutput at hr
  by_cases h0 : m = 0
  · simp only [h0, if_true] at hr
    cases hr
    exact h
  · simp only [h0, if_false, Option.bind_eq_bind, Option.bind_eq_some_iff] at hr
    obtain ⟨idx, -, hr⟩ := hr
    exact deleteNode_table ((sameTable_setOuts ..).table h) hr

/-- **`subsume` keeps the table**: each user of the target is back in the interner at the end, or has
gone. -/
theorem subsume_table (fuel : ℕ) : KeepsTable (subsume fuel) := by
  induction fuel with
  | zero =>
    intro g w t g' P hg
    cases hg
  | succ fuel ih =>
    intro g w t g' P hg h
    rw [subsume] at hg
    by_cases hw : w = 0
    · subst hw
      simp only [if_true, Option.bind_eq_bind, Option.bind_eq_some_iff, Option.guard_eq_some'] at hg
      obtain ⟨_, -, _, -, _, -, g₁, hred, g₂, hround, hdel⟩ := hg
      have h₂ := reinternRounds_table ih (subsume_kills fuel) (redirect_table h hred) hround
      refine deleteNode_table ((sameTable_setOuts ..).table (h₂.mono fun n _ hn => ?_)) hdel
      obtain ⟨hP | ⟨o, ho, -, hid⟩, hno⟩ := hn
      · exact hP
      · exact absurd hid.symm (hno o ho)
    · simp only [hw, if_false, Option.bind_eq_bind, Option.bind_eq_some_iff,
        Option.guard_eq_some'] at hg
      obtain ⟨_, ht, _, -, _, -, _, hwt, g₁, hcap, _, -, g₂, hred, g₃, hpin, g₄, hdel, g₅, hre,
        hunpin⟩ := hg
      have hmem := (ensureAvailableOutputCap_spec hcap).1
      rw [← getNode_congr hmem] at hred hre
      have h₁ := (sameTable_ensureAvailableOutputCap hcap).table h
      have h₂ := redirect_table
        ((sameTable_setOuts ..).table ((sameTable_setOuts ..).table h₁)) hred
      have h₄ := deleteNode_table ((sameTable_addOutput hpin).table h₂) hdel
      have h₅ := reintern_table ih (subsume_kills fuel) h₄ hre
      refine removeOutput_table (h₅.mono fun n hn hP => ?_) hunpin
      obtain ⟨hP | ⟨o, ho, hne, rfl⟩, hno⟩ := hP
      · exact hP
      -- a user that is not put back went with the target
      have ho₂ : o ∈ (g₂.getNode w).outs := by
        rw [(redirect_spec hred).outs_eq]
        exact (outs_moveOuts ht hw w).symm ▸ (if_neg hwt).symm ▸ (if_pos rfl).symm ▸
          List.mem_append_right _ ho
      have ho₃ : o ∈ (g₃.getNode w).outs := by
        obtain heq | ⟨-, heq⟩ := (pin_spec hpin).2.2 w
        · rwa [heq]
        · rw [heq]
          exact List.mem_append_left _ ho₂
      obtain ho₄ | hf | hd := deleteNode_keeps hdel w o ho₃
      · refine absurd rfl (hno o ?_)
        simp only [List.mem_reverse, List.mem_flatMap, List.mem_filter, decide_eq_true_eq]
        exact ⟨o, ⟨ho, hne⟩, ho₄, rfl⟩
      · exact hf.elim
      · have hd₅ := (subsume_kills fuel).reintern hre |>.dead _ hd
        rw [isInterned_keys, hd₅] at hn
        cases hn

/-! ### Writing an input -/

variable {idx : ℕ} {value : NodeId} {sub : Bool}

theorem Falls.congr {h h' : Graph} (hmem : h'.mem = h.mem) (hf : Falls h m x) : Falls h' m x := by
  induction hf with
  | root h0 hnil => exact .root h0 (by rwa [getNode_congr hmem])
  | input _ hy h0 _ ih₁ ih₂ =>
    refine .input ih₁ (by rwa [getNode_congr hmem]) h0 ?_
    rwa [getNode_congr hmem]

theorem FallSafe.congr {h h' : Graph} {o : NodeId} {k : Node} (hmem : h'.mem = h.mem)
    (hs : FallSafe h m o k) : FallSafe h' m o k := by
  refine ⟨fun hf => hs.self (hf.congr hmem.symm), fun x hf => ?_⟩
  rw [keys_eq hmem, getNode_congr hmem]
  exact hs.equal x (hf.congr hmem.symm)

/-- `value` has the place `idx` of `id` among its uses. -/
def withOutput (g : Graph) (id : NodeId) (idx : ℕ) (value : NodeId) : Graph :=
  if value = 0 then g else g.setOuts value ((g.getNode value).outs ++ [⟨id, idx⟩])

/-- The graph at the point where `set_input` lets the former input `prev` go: the node has its new
input already. -/
def lettingGo (g : Graph) (id : NodeId) (idx : ℕ) (value prev : NodeId) : Graph :=
  let g := g.withOutput id idx value
  let g := g.setInps id ((g.getNode id).inps.set idx value)
  g.setOuts prev (swapRemove (g.getNode prev).outs ((g.getNode prev).outs.idxOf ⟨id, idx⟩))

/-- **When `set_input` may be used on a pure node**: what goes with the former input is neither the
node itself, nor a pure node equal to what the node becomes whose hash is that of what it was. -/
def SetInputSafe (g : Graph) (id : NodeId) (idx : ℕ) (value : NodeId) : Prop :=
  let prev := (g.getNode id).inp idx
  (g.getNode id).itype.isInterned = true → prev ≠ value →
    FallSafe (g.lettingGo id idx value prev) prev id (g.getNode id).key

theorem addOutput_mem {i : ℕ} (h : g.addOutput m id i = some g') :
    g'.mem = (g.withOutput id i m).mem := by
  unfold withOutput
  obtain ⟨rfl, rfl⟩ | ⟨hm, -, -, hmem⟩ := addOutput_spec h
  · rw [if_pos rfl]
  · rw [if_neg hm, hmem]

theorem setInps_mem {l : List NodeId} (h : g'.mem = g.mem) :
    (g'.setInps id l).mem = (g.setInps id l).mem := by
  simp only [setInps, setNode, getNode_congr h, h]

theorem setOuts_mem {l : List NodeOutput} (h : g'.mem = g.mem) :
    (g'.setOuts id l).mem = (g.setOuts id l).mem := by
  simp only [setOuts, setNode, getNode_congr h, h]

theorem set_inp {n : Node} (h : idx < n.inps.length) : n.inps.set idx (n.inp idx) = n.inps := by
  rw [Node.inp, List.getD_eq_getElem?_getD, List.getElem?_eq_getElem h, Option.getD_some,
    List.set_getElem_self]

/-- **The former input goes.**  The table has the node as it was. -/
theorem lettingGo_table {g₁ g₂ g₃ : Graph} (h : Table g.keys g.interner P) (hid : id ≠ 0)
    (hlive : (g.getNode id).itype ≠ .dead) (hsafe : g.SetInputSafe id idx value)
    (hne : (g.getNode id).inp idx ≠ value) (hadd : g.addOutput value id idx = some g₁)
    (hset : g₂ = g₁.setInps id ((g₁.getNode id).inps.set idx value))
    (hrem : g₂.removeOutput (deleteNode fuel) ((g.getNode id).inp idx) ⟨id, idx⟩ = some g₃) :
    ((g₃.getNode id).itype = .dead → Table g₃.keys g₃.interner P) ∧
      Table (Function.update g₃.keys id (g.getNode id).key) g₃.interner P := by
  have hs₁ := sameTable_addOutput hadd
  have hkeys₂ : g₂.keys = Function.update g.keys id
      ({ g₁.getNode id with inps := (g₁.getNode id).inps.set idx value } : Node).key := by
    rw [hset, setInps, keys_setNode _ hid, hs₁.keys]
  have hint₂ : g₂.interner = g.interner := by
    rw [hset, ← hs₁.interner]
    rfl
  -- only the key of `id` has changed, so putting it back gives the old keys
  have hold : Function.update g₂.keys id (g.getNode id).key = g.keys := by
    rw [hkeys₂, Function.update_idem]
    exact Function.update_eq_self _ _
  have hmem₂ : g₂.mem = ((g.withOutput id idx value).setInps id
      (((g.withOutput id idx value).getNode id).inps.set idx value)).mem := by
    have hmem₁ := addOutput_mem hadd
    rw [hset, setInps_mem hmem₁, getNode_congr hmem₁]
  have htype : (g₂.keys id).itype = (g.getNode id).itype := by
    rw [hkeys₂, Function.update_self]
    have hk : (g₁.getNode id).key = (g.getNode id).key := congrFun hs₁.keys id
    have ht := itype_of_key hk
    exact ht
  by_cases hi : (g.getNode id).itype.isInterned = true
  · -- a pure node is not among those that go
    have hsafe := hsafe hi hne
    unfold removeOutput at hrem
    by_cases h0 : (g.getNode id).inp idx = 0
    · simp only [h0, if_true] at hrem
      cases hrem
      refine ⟨fun hd => absurd (htype.symm.trans hd) hlive, ?_⟩
      rwa [hold, hint₂]
    · simp only [h0, if_false, Option.bind_eq_bind, Option.bind_eq_some_iff] at hrem
      obtain ⟨i, hidx, hdel⟩ := hrem
      have hidxOf : ((g₂.getNode ((g.getNode id).inp idx)).outs.idxOf ⟨id, idx⟩) = i := by
        rw [List.idxOf_eq_getD_idxOf?, hidx, Option.getD_some]
      have hmem : (g₂.setOuts ((g.getNode id).inp idx)
          (swapRemove (g₂.getNode ((g.getNode id).inp idx)).outs i)).mem =
          (g.lettingGo id idx value ((g.getNode id).inp idx)).mem := by
        rw [← hidxOf, setOuts_mem hmem₂, getNode_congr hmem₂]
        rfl
      have hsafe := hsafe.congr hmem
      have hs := sameTable_setOuts g₂ ((g.getNode id).inp idx)
        (swapRemove (g₂.getNode ((g.getNode id).inp idx)).outs i)
      have hstart : Falling _ ((g.getNode id).inp idx) id (g.getNode id).key P
          (g₂.setOuts ((g.getNode id).inp idx)
            (swapRemove (g₂.getNode ((g.getNode id).inp idx)).outs i)) :=
        ⟨.refl _, fun _ _ h => .inl h, fun _ h => .inl h, by rwa [hs.keys, hs.interner, hold, hint₂]⟩
      have hend := hstart.deleteNode hsafe (fun h0 hnil => .root h0 hnil) hdel
      refine ⟨fun hd => ?_, hend.table⟩
      obtain hd | hf := hend.dead id hd
      · rw [itype_of_key (congrFun hs.keys id)] at hd
        exact absurd (htype.symm.trans hd) hlive
      · exact absurd hf hsafe.self
  · -- a node that is not interned has no entry, and its key does not matter
    have hi : (g.getNode id).itype.isInterned = false := by simpa using hi
    have h₂ : Table g₂.keys g₂.interner P := by
      have hk : (Function.update g₂.keys id (g.getNode id).key id).itype.isInterned = false := by
        rw [Function.update_self]
        exact hi
      have hup : Table (Function.update g₂.keys id (g.getNode id).key) g₂.interner P := by
        rwa [hold, hint₂]
      have := hup.update (Q := P) (hup.no_entry hk) (g₂.keys id) (fun _ _ hP => hP) fun hc => by
        rw [htype, hi] at hc
        cases hc
      rwa [Function.update_idem, Function.update_eq_self] at this
    have h₃ := removeOutput_table h₂ hrem
    refine ⟨fun _ => h₃, h₃.update (h₃.no_entry ?_) _ (fun _ _ hP => hP) fun hc => ?_⟩
    · obtain hd | ⟨hk, -⟩ := (removeOutput_spec (fun _ _ _ => deleteNode_spec) hrem).shrinks.node id
      · rw [isInterned_keys, hd]
        rfl
      · rw [isInterned_keys, itype_of_key hk]
        exact (congrArg NodeType.isInterned htype).trans hi
    · exact absurd (hi.symm.trans hc) (by decide)

/-- **`set_input` keeps the table.** -/
theorem setInput_table (h : Table g.keys g.interner P) (hsafe : g.SetInputSafe id idx value)
    (hg : g.setInput fuel id idx value sub = some (g', nid)) : Table g'.keys g'.interner P := by
  unfold setInput at hg
  simp only [Option.bind_eq_bind, Option.bind_eq_some_iff, Option.guard_eq_some'] at hg
  obtain ⟨_, hlive, _, hlt, hg⟩ := hg
  have hid := ne_zero_of_lt hlt
  split at hg
  · cases hg
    exact h
  rename_i hne
  simp only [Option.bind_eq_some_iff] at hg
  obtain ⟨g₁, hadd, g₃, hrem, hg⟩ := hg
  obtain ⟨hdead, htable⟩ := lettingGo_table h hid hlive hsafe hne hadd rfl hrem
  split at hg
  · rename_i hd
    cases hg
    exact hdead hd
  rename_i hlive₃
  simp only [Option.bind_eq_some_iff] at hg
  obtain ⟨g₅, hun, ⟨g₇, nid'⟩, hint, hg⟩ := hg
  -- with its former input the node is what the table has
  have hkey₁ : (g₁.getNode id).key = (g.getNode id).key :=
    congrFun (sameTable_addOutput hadd).keys id
  have hkey₃ := (((removeOutput_spec (fun _ _ _ => deleteNode_spec) hrem).shrinks.node
    id).resolve_left fun hd => hlive₃ (by rw [hd]; rfl)).1
  have hinps₃ : (g₃.getNode id).inps = (g.getNode id).inps.set idx value := by
    rw [inps_of_key hkey₃, inps_setInps, if_pos ⟨rfl, hid⟩, inps_of_key hkey₁]
  have hshape₃ : (g₃.getNode id).shape = (g.getNode id).shape := by
    rw [shape_of_key hkey₃, shape_setInps, shape_of_key hkey₁]
  have hback : ({ g₃.getNode id with
      inps := (g₃.getNode id).inps.set idx ((g.getNode id).inp idx) } : Node).key =
      (g.getNode id).key := by
    refine Node.eq_of_shape hshape₃ ?_ rfl
    simp only [Node.key, hinps₃, List.set_set, set_inp hlt]
  rw [← hback, ← keys_setNode _ hid] at htable
  obtain ⟨htable₅, hno⟩ := unintern_table_self htable hun
  have htable₆ := htable₅.update (Q := fun n => P n ∨ n = id) hno
    ({ g₅.getNode id with inps := (g₅.getNode id).inps.set idx value } : Node).key
    (fun n _ hP => hP) fun _ => .inr rfl
  rw [← keys_setNode _ hid] at htable₆
  have hdone {g : Graph} (htable : Table g.keys g.interner fun n => (P n ∨ n = id) ∧ n ≠ id) :
      Table g.keys g.interner P := htable.mono fun n _ hn => hn.1.resolve_right hn.2
  cases sub with
  | true =>
    simp only [if_true, Option.bind_eq_some_iff] at hg
    obtain ⟨g₈, hway, hg⟩ := hg
    cases hg
    exact hdone (giveWay_table (subsume_table fuel) (subsume_kills fuel) htable₆ hint hway)
  | false =>
    simp only [Bool.false_eq_true, if_false, Option.bind_eq_some_iff, Option.guard_eq_some'] at hg
    obtain ⟨_, hnid, hg⟩ := hg
    cases hg
    exact hdone ((intern_table htable₆ hint).2.1 hnid)

/-! ### Adding a node -/

variable {itype : NodeType} {dt : Datatype} {lane : LaneType} {extra : List ℕ} {inps : List NodeId}
  {cap : ℕ}

/-- The node that `add_raw` writes. -/
def rawNode (itype : NodeType) (dt : Datatype) (lane : LaneType) (extra : List ℕ)
    (inps : List NodeId) : Node where
  itype := itype
  dt := dt
  isStore := itype.hasStoreFlag
  isLoad := itype.hasLoadFlag
  lane := lane
  extra := extra
  inps := inps

/-- The graph when `add_raw` asks the interner. -/
def writeRaw (g : Graph) (itype : NodeType) (dt : Datatype) (lane : LaneType) (extra : List ℕ)
    (inps : List NodeId) (cap : ℕ) : Graph :=
  { (g.alloc (g.nodeWords extra + (inps.length + cap))).setNode g.pos
      (rawNode itype dt lane extra inps) with
    inputCap := Function.update g.inputCap g.pos (inps.length + cap)
    outputCap := Function.update g.outputCap g.pos 0 }

/-- What holds between two edits: the table is complete, and the arena is free behind `pos`. -/
structure Consed (g : Graph) : Prop where
  table : Table g.keys g.interner fun _ => False
  pos : 0 < g.pos
  fresh : ∀ x, g.pos ≤ x → g.getNode x = .dead

theorem Consed.later (h : g.Consed) (hl : g.Later g')
    (htable : Table g'.keys g'.interner fun _ => False) : g'.Consed :=
  ⟨htable, h.pos.trans_le hl.pos, fun x hx => hl.dead x (h.fresh x (hl.pos.trans hx))⟩

theorem Consed.no_entry (h : g.Consed) : ∀ e ∈ g.interner, e.id ≠ g.pos := by
  refine h.table.no_entry ?_
  rw [isInterned_keys, h.fresh _ le_rfl]
  rfl

/-- The new node is the only one that may be missing. -/
theorem Consed.writeRaw (h : g.Consed) :
    Table (g.writeRaw itype dt lane extra inps cap).keys
      (g.writeRaw itype dt lane extra inps cap).interner (· = g.pos) := by
  have hkeys : (g.writeRaw itype dt lane extra inps cap).keys =
      Function.update g.keys g.pos (rawNode itype dt lane extra inps).key := by
    rw [← keys_setNode _ h.pos.ne']
    exact keys_eq rfl
  rw [hkeys]
  exact h.table.update h.no_entry _ (fun _ _ hf => hf.elim) fun _ => rfl

theorem addOutputs_later {i : ℕ} (h : addOutputs id i inps g = some g') : g.Later g' := by
  induction inps generalizing g i with
  | nil =>
    cases h
    exact .refl _
  | cons inp inps ih =>
    rw [addOutputs, Option.bind_eq_bind, Option.bind_eq_some_iff] at h
    obtain ⟨g₁, h₁, h⟩ := h
    exact (addOutput_later h₁).trans (ih h)

theorem Consed.addRaw (h : g.Consed) (hg : g.addRaw itype dt lane extra inps cap = some (g', id)) :
    g'.Consed := by
  unfold Graph.addRaw at hg
  simp only [Option.bind_eq_bind, Option.bind_eq_some_iff, Option.guard_eq_some', Prod.exists] at hg
  obtain ⟨_, -, _, -, _, -, g₁, inode, hint, hg⟩ := hg
  split at hg
  · cases hg
    exact h
  · rename_i hself
    simp only [Option.bind_eq_some_iff] at hg
    obtain ⟨g₂, hadd, hg⟩ := hg
    cases hg
    have htable := (intern_table h.writeRaw hint).2.1 (not_not.1 hself)
    have hlater := (later_intern hint).trans (addOutputs_later hadd)
    have hpos : g.pos < g'.pos := by
      refine lt_of_lt_of_le ?_ hlater.pos
      simp only [setNode, alloc, nodeWords]
      omega
    refine ⟨(sameTable_addOutputs hadd).table (htable.mono fun n _ hn => hn.2 hn.1),
      h.pos.trans hpos, fun x hx => hlater.dead x ?_⟩
    have hx' : g.pos < x := hpos.trans_le hx
    exact (getNode_setNode_ne _ hx'.ne').trans (h.fresh x hx'.le)

/-- An entry that is equal to the node is found. -/
theorem intern_eq (h : Table g.keys g.interner P) (hi : (g.getNode id).itype.isInterned = true)
    {e : SSEntry} (he : e ∈ g.interner) (hk : g.keys e.id = g.keys id) :
    g.intern id = some (g, e.id) := by
  have hkey : (g.getNode e.id).key = (g.getNode id).key := hk
  have hhash : e.hash = nodeHash (g.getNode id) := by
    rw [(h.entry e he).2, hk]
    rfl
  have hsome : (g.internerFind id).isSome = true := by
    rw [internerFind, List.findIdx?_isSome, List.any_eq_true]
    exact ⟨e, he, by simp [hhash, nodeEq, hkey]⟩
  obtain ⟨idx, hidx⟩ := Option.isSome_iff_exists.1 hsome
  obtain ⟨hlt, heq, -⟩ := List.findIdx?_eq_some_iff_getElem.1 hidx
  simp only [nodeEq, Bool.and_eq_true, Bool.or_eq_true, decide_eq_true_eq] at heq
  have hfound : g.keys g.interner[idx].id = g.keys e.id := by
    rw [hk]
    obtain heq | heq := heq.2
    · rw [heq]
    · exact heq
  have hent := h.eq_of_key (List.getElem_mem hlt) he hfound
  unfold intern hasInternedFlag
  rw [if_neg (isInterned_ne hi).1, hi, hidx]
  simp [List.getElem?_eq_getElem hlt, hent]

/-- **A node that is there already is found.** -/
theorem Consed.addRaw_eq (h : g.Consed) {n : NodeId}
    (hn : (g.getNode n).itype.isInterned = true)
    (hkey : (rawNode itype dt lane extra inps).key = (g.getNode n).key)
    (hcap : inps.length + cap < 2 ^ 16) (hpos : g.pos < 2 ^ 22) :
    g.addRaw itype dt lane extra inps cap = some (g, n) := by
  obtain ⟨e, he, rfl⟩ := h.table.all n hn not_false
  have hne := h.no_entry e he
  have hitype : itype = (g.getNode e.id).itype := itype_of_key hkey
  have hself : (g.writeRaw itype dt lane extra inps cap).getNode g.pos =
      rawNode itype dt lane extra inps := getNode_setNode_self _ h.pos.ne'
  have hold : (g.writeRaw itype dt lane extra inps cap).getNode e.id = g.getNode e.id :=
    getNode_setNode_ne _ hne
  have hint : (g.writeRaw itype dt lane extra inps cap).intern g.pos =
      some (g.writeRaw itype dt lane extra inps cap, e.id) := by
    refine intern_eq h.writeRaw ?_ he ?_
    · rw [hself]
      exact hitype ▸ hn
    · rw [keys, keys, hself, hold, hkey]
  have hlive : itype ≠ .dead := hitype ▸ (isInterned_ne hn).1
  refine Option.bind_eq_some_iff.2 ⟨(), (Option.guard_eq_some' ()).2 hlive, ?_⟩
  refine Option.bind_eq_some_iff.2 ⟨(), (Option.guard_eq_some' ()).2 hcap, ?_⟩
  refine Option.bind_eq_some_iff.2 ⟨(), (Option.guard_eq_some' ()).2 hpos, ?_⟩
  refine Option.bind_eq_some_iff.2 ⟨_, hint, ?_⟩
  exact if_pos hne

/-! ### Runs -/

/-- **The interner is exact**: it has the live pure nodes, with the hashes of what they are, and no
two of them are equal.  So a node equal to one of them is never made a second time. -/
structure Exact (g : Graph) : Prop where
  mem_iff : ∀ n, (∃ e ∈ g.interner, e.id = n) ↔
    g.live n = true ∧ (g.getNode n).itype.isInterned = true
  hash : ∀ e ∈ g.interner, e.hash = nodeHash (g.getNode e.id)
  apart : g.interner.Pairwise fun e e' => g.nodeEq e.id e'.id = false
  add : ∀ itype dt lane extra inps cap n, g.live n = true →
    (g.getNode n).itype.isInterned = true →
    (rawNode itype dt lane extra inps).key = (g.getNode n).key →
    inps.length + cap < 2 ^ 16 → g.pos < 2 ^ 22 →
    g.addRaw itype dt lane extra inps cap = some (g, n)

theorem Consed.exact (h : g.Consed) : g.Exact where
  mem_iff n := by
    constructor
    · rintro ⟨e, he, rfl⟩
      have hi : (g.getNode e.id).itype.isInterned = true := (h.table.entry e he).1
      refine ⟨?_, hi⟩
      simpa [Proc.live] using (isInterned_ne hi).1
    · rintro ⟨-, hi⟩
      exact h.table.all n hi not_false
  hash e he := (h.table.entry e he).2
  apart := by
    refine h.table.apart.imp fun {e e'} hne => ?_
    have hid : e.id ≠ e'.id := fun hid => hne (by rw [hid])
    have hkey : (g.getNode e.id).key ≠ (g.getNode e'.id).key := hne
    simp [nodeEq, hid, hkey]
  add itype dt lane extra inps cap n _ hi hkey hcap hpos := h.addRaw_eq hi hkey hcap hpos

theorem consed_empty (hasDbg : Bool) : (empty hasDbg).Consed := by
  have hdead (x : NodeId) (hx : x ≠ 0) : (empty hasDbg).getNode x = .dead :=
    Proc.getNode_of_ne _ hx
  refine ⟨⟨fun e he => absurd he List.not_mem_nil, .nil, fun n hn => ?_⟩, Nat.one_pos,
    fun x hx => hdead x (Nat.one_le_iff_ne_zero.1 hx)⟩
  rw [isInterned_keys] at hn
  by_cases h0 : n = 0
  · rw [h0, Proc.getNode_zero] at hn
    cases hn
  · rw [hdead n h0] at hn
    cases hn

theorem setInput_later (hg : g.setInput fuel id idx value sub = some (g', nid)) : g.Later g' := by
  unfold setInput at hg
  simp only [Option.bind_eq_bind, Option.bind_eq_some_iff, Option.guard_eq_some'] at hg
  obtain ⟨_, hlive, _, -, hg⟩ := hg
  split at hg
  · cases hg
    exact .refl _
  simp only [Option.bind_eq_some_iff] at hg
  obtain ⟨g₁, hadd, g₃, hrem, hg⟩ := hg
  have hlive₁ : (g₁.getNode id).itype ≠ .dead := by
    have hkey : (g₁.getNode id).key = (g.getNode id).key :=
      congrFun (sameTable_addOutput hadd).keys id
    rwa [itype_of_key hkey]
  have hl₃ := (addOutput_later hadd).trans ((setInps_later hlive₁ _).trans
    (removeOutput_spec (fun _ _ _ => deleteNode_spec) hrem).shrinks.later)
  split at hg
  · cases hg
    exact hl₃
  rename_i hlive₃
  simp only [Option.bind_eq_some_iff] at hg
  obtain ⟨g₅, hun, ⟨g₇, nid'⟩, hint, hg⟩ := hg
  obtain ⟨hlive₅, hmem₅, hpos₅⟩ := unintern_spec hun
  rw [← getNode_congr hmem₅] at hlive₅
  have hl₇ := hl₃.trans ((setInps_later hlive₃ _).trans ((Later.of_mem hpos₅.ge hmem₅).trans
    ((setInps_later hlive₅ _).trans (later_intern hint))))
  cases sub with
  | true =>
    simp only [if_true, Option.bind_eq_some_iff] at hg
    obtain ⟨g₈, hway, hg⟩ := hg
    cases hg
    exact hl₇.trans ((subsume_kills fuel).giveWay hway)
  | false =>
    simp only [Bool.false_eq_true, if_false, Option.bind_eq_some_iff] at hg
    obtain ⟨_, -, hg⟩ := hg
    cases hg
    exact hl₇

end Graph

/-- The edits that add, change, merge and delete nodes, and when they keep the interner exact. -/
def Edit.InternSafe (g : Graph) : Edit → Prop
  | .addRaw .. => True
  | .setInput id idx value _ => g.SetInputSafe id idx value
  | .subsume .. => True
  | .deleteNode _ => True
  | _ => False

namespace Graph

variable {g g' : Graph} {fuel : ℕ}

theorem Consed.edit (h : g.Consed) {e : Edit} (hs : e.InternSafe g)
    (hg : g.edit fuel e = some g') : g'.Consed := by
  cases e with
  | addRaw itype dt lane extra inps cap =>
    obtain ⟨⟨g₁, id⟩, h₁, rfl⟩ := Option.map_eq_some_iff.1 hg
    exact h.addRaw h₁
  | setInput id idx value sub =>
    obtain ⟨⟨g₁, id⟩, h₁, rfl⟩ := Option.map_eq_some_iff.1 hg
    exact h.later (setInput_later h₁) (setInput_table h.table hs h₁)
  | subsume w t =>
    exact h.later (subsume_kills fuel g w t g' hg).1 (subsume_table fuel g w t g' _ hg h.table)
  | deleteNode id =>
    exact h.later (deleteNode_spec hg).shrinks.later (deleteNode_table h.table hg)
  | connect => exact hs.elim
  | orderedRemove => exact hs.elim
  | swapInputs => exact hs.elim
  | truncateInputs => exact hs.elim
  | clone => exact hs.elim

/-- The graphs that these edits reach from the empty one. -/
inductive InternReachable : Graph → Prop
  | empty (hasDbg : Bool) : InternReachable (empty hasDbg)
  | edit {g g' : Graph} (fuel : ℕ) (e : Edit) : InternReachable g → e.InternSafe g →
    g.edit fuel e = some g' → InternReachable g'

theorem InternReachable.consed (h : g.InternReachable) : g.Consed := by
  induction h with
  | empty hasDbg => exact consed_empty hasDbg
  | edit fuel e _ hs hg ih => exact ih.edit hs hg

/-- **The interner of every reachable graph is exact.** -/
theorem InternReachable.interner_exact (h : g.InternReachable) : g.Exact := h.consed.exact

theorem InternReachable.edits {es : List Edit} (hs : ∀ e ∈ es, ∀ g, e.InternSafe g)
    (h : g.InternReachable) (hg : Graph.edits fuel es g = some g') : g'.InternReachable := by
  induction es generalizing g with
  | nil =>
    cases hg
    exact h
  | cons e es ih =>
    simp only [Graph.edits, Option.bind_eq_bind, Option.bind_eq_some_iff] at hg
    obtain ⟨g₁, he, hg⟩ := hg
    exact ih (fun e he => hs e (List.mem_cons_of_mem _ he))
      (.edit fuel e h (hs e List.mem_cons_self g) he) hg

/-- A node without inputs goes alone. -/
theorem Falls.eq_of_inps {h : Graph} {m x : NodeId} (hf : Falls h m x)
    (hnil : (h.getNode m).inps = []) : x = m := by
  induction hf with
  | root => rfl
  | input _ hy _ _ ih =>
    rw [ih, hnil] at hy
    exact absurd hy List.not_mem_nil

/-- Two constants, and the `Neg` of each: the constants are nodes `8` and `36`, their `Neg`s nodes
`44` and `53`. -/
def negatedConstants : List Edit :=
  [.addRaw .entry .void .i8 [0] [] 0, .addRaw .cInt .i64 .i8 [7, 0] [] 0,
    .addRaw .cInt .i64 .i8 [9, 0] [] 0, .addRaw .neg .i64 .i8 [] [8] 0,
    .addRaw .neg .i64 .i8 [] [36] 0, .addRaw .return_ .void .i8 [0] [1, 44] 0]

/-- The first `Neg` gets the second constant.  The first one goes, and the node gives way to the
second `Neg`. -/
theorem interner_exact_negatedConstants :
    ∃ g, edits 4 (negatedConstants ++ [.setInput 44 0 36 true]) (empty false) = some g ∧
      g.live 44 = false ∧ g.Exact := by
  have hrun : (edits 4 negatedConstants (empty false)).map (fun g => (g.getNode 44,
      ((g.lettingGo 44 0 36 8).getNode 8).inps, ((g.lettingGo 44 0 36 8).getNode 8).itype,
      ((g.lettingGo 44 0 36 8).getNode 44).itype,
      (g.edit 4 (.setInput 44 0 36 true)).map fun g => g.live 44)) =
      some (⟨.neg, .i64, false, false, 0, .i8, [], [8], [⟨62, 1⟩]⟩, [], .cInt, .neg,
        some false) := by
    decide
  obtain ⟨g, hg, hvals⟩ := Option.map_eq_some_iff.1 hrun
  simp only [Prod.mk.injEq] at hvals
  obtain ⟨hnode, hinps, h8, h44, hlast⟩ := hvals
  obtain ⟨g', hg', hdead⟩ := Option.map_eq_some_iff.1 hlast
  have hreach : g.InternReachable := by
    refine InternReachable.edits (fun e he g => ?_) (.empty false) hg
    simp only [negatedConstants, List.mem_cons, List.not_mem_nil, or_false] at he
    rcases he with rfl | rfl | rfl | rfl | rfl | rfl <;> exact trivial
  have hprev : (g.getNode 44).inp 0 = 8 := by
    rw [hnode]
    rfl
  have hsafe : (Edit.setInput 44 0 36 true).InternSafe g := by
    refine fun _ _ => ⟨fun hf => ?_, fun x hf _ hk => ?_⟩
    · rw [hprev] at hf
      exact absurd (hf.eq_of_inps hinps) (by decide)
    · rw [hprev] at hf hk
      obtain rfl := hf.eq_of_inps hinps
      have htype := congrArg Node.itype hk
      exact absurd (h44.symm.trans (htype.trans h8)) (by decide)
  refine ⟨g', ?_, hdead, InternReachable.interner_exact (.edit 4 _ hreach hsafe hg')⟩
  rw [edits_append, hg, Option.bind_some]
  exact Option.bind_eq_some_iff.2 ⟨g', hg', rfl⟩

/-! ### The input that takes the node with it -/

/-- A counter in a loop that nothing else uses: the `Phi` is node `48`, what it is from the second
turn on node `61`. -/
def unusedCounter : List Edit :=
  [.addRaw .entry .void .i8 [0] [] 0, .addRaw .loop .void .i8 [0] [1] 0,
    .addRaw .cInt .i64 .i8 [1, 0] [] 0, .addRaw .phi .i64 .i8 [] [8, 18, 18] 0,
    .addRaw (.bin .add) .i64 .i8 [] [48, 18] 0, .setInput 48 2 61 true]

/-- The sum is the last user of the `Phi`, so both go.  The `Phi` has its new input then, and is not
found by the hash of the one it had: its entry stays. -/
theorem interner_not_exact :
    ∃ g, edits 4 (unusedCounter ++ [.setInput 48 2 18 true]) (empty false) = some g ∧
      ¬ g.Exact := by
  have hrun : (edits 4 (unusedCounter ++ [.setInput 48 2 18 true]) (empty false)).map
      (fun g => (g.interner.map (·.id), g.live 48)) = some ([48], false) := by
    decide
  obtain ⟨g, hg, hvals⟩ := Option.map_eq_some_iff.1 hrun
  simp only [Prod.mk.injEq] at hvals
  obtain ⟨hids, h48⟩ := hvals
  refine ⟨g, hg, fun hexact => ?_⟩
  have hmem : (48 : NodeId) ∈ g.interner.map (·.id) := by
    rw [hids]
    exact List.mem_singleton_self _
  obtain ⟨hlive, -⟩ := (hexact.mem_iff 48).1 (List.mem_map.1 hmem)
  rw [h48] at hlive
  cases hlive

end Graph

end OdinSon
