import OdinSon.Bac.Compact
import OdinSon.Bac.EditLinks

/-!
# Where compacting puts the nodes

While the new nodes fit behind the old ones in what is committed, the arena hands out one block after
another, and the nodes stand where their sizes put them (`moveNodes_eq`).  As soon as they do not fit,
the arena believes for some time that what it hands out is committed, and later commits words that
lie as far behind the end of the committed ones as the old nodes are long.  Either way a word between
is written that nobody has committed (`alloc_shift`).
-/

namespace OdinSon

open Relocation

namespace Arena

variable {a : Arena} {k pos size al : ℕ}

/-- How many words behind the pointer may be written. -/
def usable (a : Arena) : ℕ := min a.commited a.reserved

/-- The words that may be written are those that the arena has counted. -/
def Plain (a : Arena) : Prop := ∀ x, a.mapped x = true ↔ a.ptr ≤ x ∧ x < a.ptr + a.usable

/-- The arena, with its pointer `k` words further. -/
def shift (a : Arena) (k : ℕ) : Arena := { a with ptr := a.ptr + k }

theorem writable_iff {base : ℕ} :
    a.writable base size = true ↔ ∀ i < size, a.mapped (a.ptr + base + i) = true := by
  simp only [writable, List.all_eq_true, List.mem_range]

@[simp] theorem alignForward_one (x : ℕ) : alignForward x 1 = x := by
  simp [alignForward]

theorem Plain.writable (ha : a.Plain) {base : ℕ} (h : base + size ≤ a.usable) :
    a.writable base size = true := by
  rw [writable_iff]
  intro i hi
  exact (ha _).2 ⟨by omega, by omega⟩

theorem Plain.writable_shift (ha : a.Plain) {base : ℕ} (h : k + base + size ≤ a.usable) :
    (a.shift k).writable base size = true := by
  have hw := ha.writable h
  rw [writable_iff] at hw ⊢
  intro i hi
  rw [shift, Nat.add_assoc a.ptr k base]
  exact hw i hi

theorem commit_eq {a' : Arena} (h : a.commit size = some a') :
    ∃ chunk, a' = { a with
      commited := a.commited + chunk
      mapped := fun x => a.mapped x ||
        decide (a.ptr + a.commited ≤ x ∧ x < a.ptr + a.commited + chunk) } := by
  simp only [commit, Option.bind_eq_bind, Option.bind_eq_some_iff, Option.guard_eq_some'] at h
  obtain ⟨-, -, h⟩ := h
  exact ⟨_, (Option.some.inj h).symm⟩

/-- **An allocation behind `k` words succeeds if it ends before the usable words do.** -/
theorem alloc_shift (ha : a.Plain) (hk : 4 < k) (hpos : k + pos ≤ a.usable + 1)
    (hal : alignForward pos al ≤ pos + 3) (hsize : size ≠ 0 ∨ al = 1 ∧ k + pos ≤ a.usable) :
    (a.shift k).alloc pos size al =
      if k + alignForward pos al + size ≤ a.usable then some (a.shift k, alignForward pos al)
      else none := by
  have hu : a.usable = min a.commited a.reserved := rfl
  split
  next hfit =>
    have hc : ¬ (a.shift k).commited < alignForward pos al + size := by
      simp only [shift]
      omega
    have hr : alignForward pos al + size ≤ (a.shift k).reserved := by
      simp only [shift]
      omega
    simp only [alloc, Option.bind_eq_bind, Option.bind_eq_some_iff, Option.guard_eq_some']
    exact ⟨(), hr, _, if_neg hc, (), not_lt.1 hc, (), ha.writable_shift hfit, rfl⟩
  next hfit =>
    rw [Option.eq_none_iff_forall_ne_some]
    rintro ⟨b, base⟩ h
    simp only [alloc, Option.bind_eq_bind, Option.bind_eq_some_iff,
      Option.guard_eq_some'] at h
    obtain ⟨-, hres, a', ha', -, -, -, hw, -⟩ := h
    rw [writable_iff] at hw
    have hres' : alignForward pos al + size ≤ a.reserved := hres
    rw [ensure] at ha'
    split at ha'
    next hlt =>
      -- what is committed now starts behind a gap of `k` words, and the block reaches into it
      have hlt' : a.commited < alignForward pos al + size := hlt
      obtain ⟨chunk, rfl⟩ := commit_eq ha'
      have hbad := hw (a.commited - (k + alignForward pos al)) (by omega)
      rcases Bool.or_eq_true_iff.1 hbad with hbad | hbad
      · have := (ha _).1 hbad
        simp only [shift] at this
        omega
      · have := of_decide_eq_true hbad
        simp only [shift] at this
        omega
    next hge =>
      obtain rfl := Option.some.inj ha'
      have hge' : ¬ a.commited < alignForward pos al + size := hge
      have hne : size ≠ 0 := by
        rintro rfl
        obtain ⟨rfl, hle⟩ := hsize.resolve_left (fun h => h rfl)
        rw [alignForward_one] at hfit
        omega
      have hbad := (ha _).1 (hw (size - 1) (by omega))
      simp only [shift] at hbad
      omega

/-- Nothing has been committed yet, and whole pages are reserved. -/
structure Fresh (a : Arena) : Prop where
  commited : a.commited = 0
  pages : pageWords ∣ a.reserved
  mapped : ∀ x, a.mapped x = false

theorem Fresh.alloc_iff (ha : a.Fresh) : (∃ r, a.alloc 0 size 1 = some r) ↔ size ≤ a.reserved := by
  simp only [alloc, Option.bind_eq_bind, Option.bind_eq_some_iff, Option.guard_eq_some',
    alignForward_one, Nat.zero_add]
  constructor
  · rintro ⟨-, -, hsize, -⟩
    exact hsize
  · intro hsize
    by_cases h0 : size = 0
    · refine ⟨(a, 0), (), hsize, a, ?_, (), ?_, (), ?_, rfl⟩
      · rw [h0, ensure, if_neg (Nat.not_lt_zero _)]
      · rw [h0]
        exact Nat.zero_le _
      · rw [h0]
        rfl
    · obtain ⟨k, hk⟩ := ha.pages
      -- the chunk is no longer than what is reserved, as that is a number of pages
      obtain ⟨chunk, hle, hchunk, hcommit⟩ : ∃ chunk, size ≤ chunk ∧ chunk ≤ a.reserved ∧
          a.commit size = some { a with
            commited := a.commited + chunk
            mapped := fun x => a.mapped x ||
              decide (a.ptr + a.commited ≤ x ∧ x < a.ptr + a.commited + chunk) } := by
        have hwords : max (min commitChunk (a.reserved - a.commited)) size ≤ a.reserved := by omega
        have hal : size ≤ alignForward (max (min commitChunk (a.reserved - a.commited)) size)
            pageWords ∧ alignForward (max (min commitChunk (a.reserved - a.commited)) size)
            pageWords ≤ a.reserved := by
          unfold alignForward pageWords at *
          omega
        refine ⟨_, hal.1, hal.2, ?_⟩
        rw [commit, ha.commited]
        exact Option.bind_eq_some_iff.2 ⟨(), if_pos (by rw [Nat.zero_add]; exact ha.commited ▸ hal.2),
          rfl⟩
      have hc := ha.commited
      refine ⟨_, (), hsize, _, (if_pos (by omega)).trans hcommit, (), ?_, (), ?_, rfl⟩
      · exact hle.trans (Nat.le_add_left ..)
      · rw [writable_iff]
        intro i hi
        have hin : a.ptr + a.commited ≤ a.ptr + 0 + i ∧ a.ptr + 0 + i < a.ptr + a.commited + chunk :=
          ⟨by omega, by omega⟩
        exact Bool.or_eq_true_iff.2 (.inr (decide_eq_true hin))

end Arena

namespace Graph

variable {a : Arena} {prev g : Graph} {n x : NodeId} {ns : List NodeId} {k size : ℕ}

/-- The words of a node and of the arrays it owns, without room to grow. -/
def ownWords (g : Graph) (n : NodeId) : ℕ :=
  g.nodeWords (g.getNode n).extra + (g.getNode n).inps.length + (g.getNode n).outs.length

theorem ownWords_pos (g : Graph) (n : NodeId) : 0 < g.ownWords n := by
  unfold ownWords nodeWords
  omega

theorem allocIn_shift (ha : a.Plain) (hk : 4 < k) (hpos : k + g.pos ≤ a.usable + 1)
    (hsize : size ≠ 0 ∨ k + g.pos ≤ a.usable) {r : Arena × Graph × NodeId} : g.allocIn (a.shift k) size 1 = some r ↔
      k + (g.pos + size) ≤ a.usable ∧ (a.shift k, { g with pos := g.pos + size }, g.pos) = r := by
  rw [allocIn, Arena.alloc_shift ha hk hpos (by simp) (hsize.imp_right fun h => ⟨rfl, h⟩),
    Arena.alignForward_one, Nat.add_assoc]
  split
  next h => simp [h]
  next h => simp [h]

/-- The graph after a node of `prev` has been moved. -/
def placeNode (prev : Graph) (n : NodeId) (g : Graph) : Graph :=
  { { g with pos := g.pos + prev.ownWords n }.setNode g.pos (prev.getNode n) with
    inputCap := Function.update g.inputCap g.pos (prev.getNode n).inps.length
    outputCap := Function.update g.outputCap g.pos (prev.getNode n).outs.length }

/-- The graph after all nodes have been moved. -/
def placeNodes (prev : Graph) : List NodeId → Graph → Graph
  | [], g => g
  | n :: ns, g => placeNodes prev ns (prev.placeNode n g)

theorem moveNode_shift (ha : a.Plain) (hk : 4 < k) (hpos : k + g.pos ≤ a.usable + 1) (hn : n ≠ 0)
    {r : Arena × Graph × NodeId} :
      prev.moveNode n (a.shift k) g = some r ↔
      k + (g.pos + prev.ownWords n) ≤ a.usable ∧ (a.shift k, prev.placeNode n g, g.pos) = r := by
  have hwords : prev.ownWords n = prev.nodeWords (prev.getNode n).extra +
    (prev.getNode n).inps.length + (prev.getNode n).outs.length := rfl
  have hbody : prev.nodeWords (prev.getNode n).extra ≠ 0 := by
    unfold nodeWords
    omega
  simp only [moveNode, Option.bind_eq_bind, Option.bind_eq_some_iff, Option.guard_eq_some']
  constructor
  · rintro ⟨-, -, r₁, e₁, r₂, e₂, r₃, e₃, hr⟩
    obtain ⟨h₁, rfl⟩ := (allocIn_shift ha hk hpos (.inl hbody)).1 e₁
    obtain ⟨h₂, rfl⟩ := (allocIn_shift ha hk (Nat.le_succ_of_le h₁) (.inr h₁)).1 e₂
    obtain ⟨h₃, rfl⟩ := (allocIn_shift ha hk (Nat.le_succ_of_le h₂) (.inr h₂)).1 e₃
    obtain rfl := Option.some.inj hr
    simp only at h₃
    refine ⟨by omega, ?_⟩
    rw [placeNode, hwords, ← Nat.add_assoc, ← Nat.add_assoc]
  · rintro ⟨h, rfl⟩
    have h₁ : k + (g.pos + prev.nodeWords (prev.getNode n).extra) ≤ a.usable := by omega
    have h₂ : k + (g.pos + prev.nodeWords (prev.getNode n).extra + (prev.getNode n).inps.length) ≤
      a.usable := by omega
    have h₃ : k + (g.pos + prev.nodeWords (prev.getNode n).extra + (prev.getNode n).inps.length +
      (prev.getNode n).outs.length) ≤ a.usable := by omega
    refine ⟨(), hn, _, (allocIn_shift ha hk hpos (.inl hbody)).2 ⟨h₁, rfl⟩, _,
      (allocIn_shift ha hk (Nat.le_succ_of_le h₁) (.inr h₁)).2 ⟨h₂, rfl⟩, _,
      (allocIn_shift ha hk (Nat.le_succ_of_le h₂) (.inr h₂)).2 ⟨h₃, rfl⟩, ?_⟩
    rw [placeNode, hwords, ← Nat.add_assoc, ← Nat.add_assoc]
    rfl

/-- **The first loop of `compact`** comes to an end if the nodes fit behind the old ones. -/
theorem moveNodes_shift (ha : a.Plain) (hk : 4 < k) (hpos : k + g.pos ≤ a.usable + 1)
    (hne : ns ≠ [] ∨ k + g.pos ≤ a.usable) (hns : 0 ∉ ns) {r : Arena × Graph × List NodeId} : prev.moveNodes ns (a.shift k) g = some r ↔
      k + endPlace prev.ownWords g.pos ns ≤ a.usable ∧
        (a.shift k, placeNodes prev ns g, places prev.ownWords g.pos ns) = r := by
  induction ns generalizing g r with
  | nil =>
    rw [moveNodes, endPlace_nil, Option.some.injEq]
    exact (and_iff_right (hne.resolve_left fun h => h rfl)).symm
  | cons n ns ih =>
    obtain ⟨hn, hns⟩ := List.ne_and_not_mem_of_not_mem_cons hns
    simp only [moveNodes, Option.bind_eq_bind, Option.bind_eq_some_iff]
    rw [endPlace_cons]
    constructor
    · rintro ⟨r₁, e₁, r₂, e₂, hr⟩
      obtain ⟨h₁, rfl⟩ := (moveNode_shift ha hk hpos hn.symm).1 e₁
      obtain ⟨h₂, rfl⟩ := (ih (Nat.le_succ_of_le h₁) (.inr h₁) hns).1 e₂
      exact ⟨h₂, Option.some.inj hr⟩
    · rintro ⟨h, rfl⟩
      have h₁ : k + (g.pos + prev.ownWords n) ≤ a.usable := by
        have hle : g.pos + prev.ownWords n ≤ endPlace prev.ownWords (g.pos + prev.ownWords n) ns :=
          le_endPlace
        omega
      exact ⟨_, (moveNode_shift ha hk hpos hn.symm).2 ⟨h₁, rfl⟩, _,
        (ih (Nat.le_succ_of_le h₁) (.inr h₁) hns).2 ⟨h, rfl⟩, rfl⟩

/-- Where the interner ends whose hashes and nodes are laid out from `pos` on. -/
def internerEnd (pos cap : ℕ) : ℕ := if cap = 0 then pos else alignForward pos 4 + cap / 4 + cap

theorem le_alignForward_four (x : ℕ) : x ≤ alignForward x 4 ∧ alignForward x 4 ≤ x + 3 := by
  unfold alignForward
  omega

theorem growInterner_shift {cap : ℕ} (ha : a.Plain) (hk : 4 < k) (hpos : k + g.pos ≤ a.usable)
    (hcap : 4 ∣ cap) (hg : g.internerCap = 0) {r : Arena × Graph} :
    g.growInterner (a.shift k) cap = some r ↔ k + internerEnd g.pos cap ≤ a.usable ∧
      (a.shift k, { g with pos := internerEnd g.pos cap, internerCap := cap }) = r := by
  unfold growInterner internerEnd
  split
  next h0 =>
    subst h0
    rw [Option.some.injEq, ← hg]
    exact (and_iff_right hpos).symm
  next h0 =>
    have hal := le_alignForward_four g.pos
    have hne : cap / 4 ≠ 0 := by omega
    have hhash : (a.shift k).alloc g.pos (cap / 4) 4 = _ :=
      Arena.alloc_shift ha hk (Nat.le_succ_of_le hpos) hal.2 (.inl hne)
    simp only [Option.bind_eq_bind, Option.bind_eq_some_iff]
    constructor
    · rintro ⟨r₁, e₁, r₂, e₂, hr⟩
      rw [allocIn, hhash] at e₁
      split at e₁
      next h₁ =>
        obtain rfl := Option.some.inj e₁
        have h₁' : k + (alignForward g.pos 4 + cap / 4) ≤ a.usable := by omega
        obtain ⟨h₂, rfl⟩ := (allocIn_shift ha hk (Nat.le_succ_of_le h₁') (.inr h₁')).1 e₂
        exact ⟨h₂, Option.some.inj hr⟩
      next => cases e₁
    · rintro ⟨h, rfl⟩
      have h₁ : k + (alignForward g.pos 4 + cap / 4) ≤ a.usable := by omega
      refine ⟨(a.shift k, { g with pos := alignForward g.pos 4 + cap / 4 }, alignForward g.pos 4),
        ?_, _, (allocIn_shift ha hk (Nat.le_succ_of_le h₁) (.inr h₁)).2 ⟨h, rfl⟩, rfl⟩
      rw [allocIn, hhash, if_pos (by omega)]
      rfl

/-! ### What the nodes are there -/

theorem placeNodes_pos : (placeNodes prev ns g).pos = endPlace prev.ownWords g.pos ns := by
  induction ns generalizing g with
  | nil => rfl
  | cons n ns ih =>
    rw [placeNodes, ih, endPlace_cons]
    rfl

theorem placeNodes_interner : (placeNodes prev ns g).interner = g.interner := by
  induction ns generalizing g with
  | nil => rfl
  | cons n ns ih => exact ih

theorem placeNodes_internerCap : (placeNodes prev ns g).internerCap = g.internerCap := by
  induction ns generalizing g with
  | nil => rfl
  | cons n ns ih => exact ih

/-- Where no node goes, everything stays. -/
theorem getNode_placeNodes_of_not_mem (hpos : 0 < g.pos)
    (h : x ∉ places prev.ownWords g.pos ns) : (placeNodes prev ns g).getNode x = g.getNode x := by
  induction ns generalizing g with
  | nil => rfl
  | cons n ns ih =>
    obtain ⟨hx, hns⟩ := List.ne_and_not_mem_of_not_mem_cons h
    rw [placeNodes, ih (Nat.lt_add_right _ hpos) hns]
    exact getNode_setNode_ne _ hx

/-- A node that has been moved is what it was. -/
theorem getNode_placeNodes (hpos : 0 < g.pos) {i : ℕ} {q : NodeId} (hi : ns[i]? = some n)
    (hq : (places prev.ownWords g.pos ns)[i]? = some q) :
    (placeNodes prev ns g).getNode q = prev.getNode n := by
  induction ns generalizing g i with
  | nil => cases hi
  | cons m ns ih =>
    cases i with
    | zero =>
      obtain rfl := Option.some.inj hi
      obtain rfl := Option.some.inj hq
      have hnot : g.pos ∉ places prev.ownWords (prev.placeNode m g).pos ns := fun h => by
        have := le_of_mem_places h
        have hsize := prev.ownWords_pos m
        simp only [placeNode, setNode] at this
        omega
      rw [placeNodes, getNode_placeNodes_of_not_mem (Nat.lt_add_right _ hpos) hnot]
      exact getNode_setNode_self _ hpos.ne'
    | succ i => exact ih (Nat.lt_add_right _ hpos) hi hq

end Graph

end OdinSon
