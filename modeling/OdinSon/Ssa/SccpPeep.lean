import OdinSon.Ssa.SccpExec
import Mathlib.Logic.Relation

/-!
# What the peephole does with the lattices

`peep` (`bac/ssa/peep.odin`) starts with the lattice of its node: dead control goes, and a node with
only one value left becomes a constant.  `apply_peeps` does this to one node after another, with the
lattices as `compute_latices` has left them.

`Peeped` says what has become of a graph after any number of such steps: a map `ρ` sends every
node to the one that stands for it.  A run of the graph is a run of what it has become, with the
same values (`Peeped.exec`).
-/

namespace OdinSon

open MachInt OdinSon.Lattice

/-- `DEAD_EXCEPTIONS`. -/
def NodeType.deadException (t : NodeType) : Bool :=
  t = .nil || t = .entry || t = .region || t = .loop

/-- What takes the place of a node. -/
inductive Replacement where
  | nil
  | cInt (dt : Datatype) (value : ℤ)

/-- The part of `peep` that looks at the lattice. -/
def peepLattice (prc : Proc) (L : Lattices) (id : NodeId) : Option Replacement :=
  let node := prc.getNode id
  let lat := L id
  if prc.isCfg id ∧ node.itype.deadException = false ∧ (node.inp 0 = 0 ∨ lat.dead = true) then
    some .nil
  else if lat.type = .int ∧ lat.min = lat.max ∧ node.itype ≠ .cInt then
    some (.cInt node.dt lat.min)
  else none

/-- The node is the constant `value` of datatype `dt`. -/
structure Node.IsCInt (node : Node) (dt : Datatype) (value : ℤ) : Prop where
  itype : node.itype = .cInt
  dt : node.dt = dt
  value : node.cIntValue = value

/-- The node that `add_c_int` makes. -/
def cIntNode (dt : Datatype) (value : ℤ) : Node where
  itype := .cInt
  dt := dt
  extra := [u64 value % 2 ^ 32, u64 value / 2 ^ 32]

/-- A new node at the end of the arena. -/
def Proc.push (prc : Proc) (node : Node) : Proc :=
  { prc with mem := Function.update prc.mem prc.pos node, pos := prc.pos + 1 }

/-- `subsume`: every use of `target` becomes one of `with_`, and `target` is deleted. -/
def Proc.replaceUses (prc : Proc) (with_ target : NodeId) : Proc :=
  { prc with mem := fun id =>
      if id = target then { itype := .dead }
      else { prc.mem id with
        inps := (prc.mem id).inps.map fun i => if i = target then with_ else i } }

/-- One step of `apply_peeps` by the lattices, at one of the nodes that have one. -/
inductive PeepStep (nodes : List NodeId) (L : Lattices) : Proc → Proc → Prop
  | nil {prc n} : n ∈ nodes → prc.live n = true → peepLattice prc L n = some .nil →
      PeepStep nodes L prc (prc.replaceUses 0 n)
  /-- The constant has been interned before. -/
  | old {prc n k dt value} : n ∈ nodes → prc.live n = true →
      peepLattice prc L n = some (.cInt dt value) → (prc.getNode k).IsCInt dt value →
      PeepStep nodes L prc (prc.replaceUses k n)
  | new {prc n dt value} : n ∈ nodes → prc.live n = true →
      peepLattice prc L n = some (.cInt dt value) →
      PeepStep nodes L prc ((prc.push (cIntNode dt value)).replaceUses prc.pos n)

/-- The graph that some nodes have been replaced in: `ρ` is where they have gone. -/
structure Peeped (orig : Proc) (L : Lattices) (ρ : NodeId → NodeId) (prc : Proc) : Prop where
  entry : prc.entry = orig.entry
  pos_le : orig.pos ≤ prc.pos
  dead_of_le : ∀ id, prc.pos ≤ id → prc.live id = false
  zero : ρ 0 = 0
  kept : ∀ m ∈ collectNodes orig, ρ m = m → (prc.getNode m).head = (orig.getNode m).head ∧
    (prc.getNode m).inps = (orig.getNode m).inps.map ρ
  gone : ∀ m ∈ collectNodes orig, ρ m ≠ m → prc.live m = false ∧
    (ρ m = 0 ∧ orig.isCfg m = true ∧ (L m).dead = true ∨
      (prc.getNode (ρ m)).IsCInt (orig.getNode m).dt (L m).min ∧ (L m).type = .int ∧
        (L m).min = (L m).max)

theorem head_eq_iff {a b : Node} (h : a.head = b.head) :
    a.itype = b.itype ∧ a.dt = b.dt ∧ a.lane = b.lane ∧ a.cIntValue = b.cIntValue := by
  simp only [Node.head, Node.mk.injEq] at h
  obtain ⟨h1, h2, -, -, -, h3, h4, -⟩ := h
  exact ⟨h1, h2, h3, by rw [Node.cIntValue, Node.cIntValue, h4]⟩

theorem inp_map {node node' : Node} {ρ : NodeId → NodeId} (h : node'.inps = node.inps.map ρ)
    (h0 : ρ 0 = 0) (i : ℕ) : node'.inp i = ρ (node.inp i) := by
  rw [Node.inp, Node.inp, h, ← h0, List.getD_map, h0]

namespace Peeped

variable {F M : Type} {S : Semantics F M} {orig prc : Proc} {L : Lattices} {ρ : NodeId → NodeId}

/-- What control provides in the new graph. -/
def restrict (ρ : NodeId → NodeId) (σ : Env F M) : Env F M := fun p => if ρ p = p then σ p else none

section

variable (hP : Peeped orig L ρ prc) (hL : ∀ id, Fits (orig.getNode id) (L id))

include hP hL

/-- Control stands for control. -/
theorem isCfg_eq {m : NodeId} (hm : m ∈ collectNodes orig) : prc.isCfg (ρ m) = orig.isCfg m := by
  by_cases hk : ρ m = m
  · rw [hk, Proc.isCfg, Proc.isCfg, (head_eq_iff (hP.kept m hm hk).1).1]
  · rcases (hP.gone m hm hk).2 with ⟨h0, hcfg, -⟩ | ⟨hc, ht, -⟩
    · rw [h0, hcfg]
      rfl
    · rw [Proc.isCfg, hc.itype]
      by_contra hne
      have := (hL m).cfg (Bool.not_eq_false _ ▸ Ne.symm hne)
      simp [ht] at this

omit hL in
/-- A node at which control arrives is still there. -/
theorem kept_of_alive {m : NodeId} (hm : m ∈ collectNodes orig) (h : L m = .ofCtrl false) :
    ρ m = m := by
  by_contra hk
  rcases (hP.gone m hm hk).2 with ⟨-, -, hd⟩ | ⟨-, ht, -⟩
  · simp [h, ofCtrl] at hd
  · simp [h, ofCtrl] at ht

end

end Peeped

/-! ### Evaluating what a graph has become -/

section Sim

variable {F M : Type} {S : Semantics F M} {orig prc : Proc}

theorem eval_isCfg {σ : Env F M} {m : NodeId} (h : orig.isCfg m = true) (fuel : ℕ) :
    eval S orig σ fuel m = none := by
  cases fuel with
  | zero => rfl
  | succ fuel =>
    unfold Proc.isCfg at h
    cases ht : (orig.getNode m).itype <;>
      simp [ht, NodeType.isCfg] at h <;>
      simp [eval, nodeVal, Proc.isSource, NodeType.isProjection, NodeType.isCfg, ht]

theorem mapM_eq_some_of_imp {α β : Type*} {f g : α → Option β} {l : List α} {bs : List β}
    (h : ∀ a ∈ l, ∀ b, f a = some b → g a = some b) (hl : l.mapM f = some bs) :
    l.mapM g = some bs := by
  induction l generalizing bs with
  | nil => exact hl
  | cons a l ih =>
    simp only [List.mapM_cons, Option.pure_def, Option.bind_eq_bind, Option.bind_eq_some_iff] at hl ⊢
    obtain ⟨b, hb, bs', hbs, hl⟩ := hl
    exact ⟨b, h a List.mem_cons_self b hb, bs',
      ih (fun a' ha' => h a' (List.mem_cons_of_mem _ ha')) hbs, hl⟩

section NodeVal

variable {ρ : NodeId → NodeId} {node node' : Node} {value value' : NodeId → Option (Val F M)}
  (hhead : node'.head = node.head) (hinps : node'.inps = node.inps.map ρ) (h0 : ρ 0 = 0)
  (hval : ∀ i ∈ 0 :: node.inps, ∀ w, value i = some w → value' (ρ i) = some w)
  (hcfg : ∀ i ∈ node.inps, prc.isCfg (ρ i) = orig.isCfg i)
  (hdt : ∀ i ∈ 0 :: node.inps, ∀ w, value i = some w →
    (prc.getNode (ρ i)).dt = (orig.getNode i).dt)

theorem inp_mem_cons (node : Node) (i : ℕ) : node.inp i ∈ 0 :: node.inps := by
  by_cases h : node.inp i = 0
  · exact h ▸ List.mem_cons_self
  · exact List.mem_cons_of_mem _ (mem_inps_of_inp rfl h)

include hhead hinps hval hcfg in
theorem applyVal_sim {v : Val F M} (h : applyVal S orig node value = some v) :
    applyVal S prc node' value' = some v := by
  simp only [applyVal, Option.bind_eq_bind, Option.bind_eq_some_iff] at h ⊢
  obtain ⟨args, hargs, w, hw, h⟩ := h
  refine ⟨args, ?_, w, hhead ▸ hw, (head_eq_iff hhead).2.1 ▸ h⟩
  rw [hinps, List.mapM_map]
  refine mapM_eq_some_of_imp (fun i hi a ha => ?_) hargs
  rw [Function.comp_apply, hcfg i hi]
  split_ifs at ha ⊢ with hc
  · exact ha
  · obtain ⟨x, hx, rfl⟩ := Option.map_eq_some_iff.1 ha
    rw [hval i (List.mem_cons_of_mem _ hi) x hx]
    rfl

include hhead hinps h0 hval hcfg hdt in
/-- A node computes the same from inputs that stand for its own. -/
theorem nodeVal_sim {v : Val F M} (h : nodeVal S orig node value = some v) :
    nodeVal S prc node' value' = some v := by
  obtain ⟨hit, hd, hlane, hci⟩ := head_eq_iff hhead
  have hinp (i : ℕ) : node'.inp i = ρ (node.inp i) := inp_map hinps h0 i
  have hv (i : ℕ) (w : Val F M) (hw : value (node.inp i) = some w) :
      value' (node'.inp i) = some w := by
    rw [hinp]
    exact hval _ (inp_mem_cons node i) w hw
  unfold nodeVal at h ⊢
  rw [hit]
  split at h
  · simpa only [Semantics.constVal, hd, hci] using h
  · next op hop =>
    rw [hd]
    split_ifs at h ⊢
    · exact applyVal_sim hhead hinps hval hcfg h
    · simp only [Option.bind_eq_bind, Option.bind_eq_some_iff] at h ⊢
      obtain ⟨a, ha, b, hb, h⟩ := h
      refine ⟨a, hv 0 a ha, b, hv 1 b hb, ?_⟩
      have hty : prc.operationDatatype node' = orig.operationDatatype node := by
        simp only [Proc.operationDatatype, hit, hop, hd, hlane, hinp,
          hdt _ (inp_mem_cons node 0) a ha]
      rwa [hty]
  · simp only [Option.bind_eq_bind, Option.bind_eq_some_iff] at h ⊢
    obtain ⟨c, hc, h⟩ := h
    refine ⟨c, hv 2 c hc, ?_⟩
    unfold selectVal at h ⊢
    split at h
    · exact hv _ v h
    · split at h
      · next hvec h0 h1 =>
        rw [hd, hvec, hv 0 _ h0, hv 1 _ h1]
        exact applyVal_sim hhead hinps hval hcfg h
      · cases h
  · split_ifs at h with hc
    rw [if_neg hc]
    exact applyVal_sim hhead hinps hval hcfg h

end NodeVal

end Sim

namespace Peeped

variable {F M : Type} {S : Semantics F M} {orig prc : Proc} {L : Lattices} {ρ : NodeId → NodeId}

section Eval

variable (hP : Peeped orig L ρ prc) (hK : orig.WellLinked)
  (hL : ∀ id, Fits (orig.getNode id) (L id)) {σ : Env F M}

include hP hL

/-- A replaced node that has a value stands for it. -/
theorem eval_gone {m : NodeId} {fuel : ℕ} {v : Val F M} (hm : m ∈ collectNodes orig)
    (hk : ρ m ≠ m) (hv : S.Describes (L m) v) (h : eval S orig σ fuel m = some v) :
    eval S prc (restrict ρ σ) fuel (ρ m) = some v ∧
      (prc.getNode (ρ m)).dt = (orig.getNode m).dt := by
  rcases (hP.gone m hm hk).2 with ⟨-, hcfg, -⟩ | ⟨hc, ht, hmin⟩
  · rw [eval_isCfg hcfg] at h
    cases h
  refine ⟨?_, hc.dt⟩
  obtain ⟨hi, hs⟩ := (hL m).int ht
  obtain ⟨fuel, rfl⟩ : ∃ k, fuel = k + 1 := by
    cases fuel with
    | zero => simp [eval] at h
    | succ k => exact ⟨k, rfl⟩
  cases v with
  | int x =>
    obtain ⟨-, hlo, hhi⟩ := hv.resolve_left (by simp [ht])
    have hx : x = (L m).min := by omega
    have hin : InS (orig.getNode m).dt.bits x := by
      rw [← dtToLattice_contains_iff hi]
      exact ⟨hs.1.trans hlo, hhi.trans hs.2⟩
    have hsrc : prc.isSource (prc.getNode (ρ m)) = false := by
      simp [Proc.isSource, NodeType.isProjection, hc.itype]
    have hconst : S.constVal (prc.getNode (ρ m)) = some (.int x) := by
      simp only [Semantics.constVal, hc.dt, hc.value, Datatype.not_isFloat hi, hi, ← hx,
        sext_self hi hin, Bool.false_eq_true, ↓reduceIte]
    simp only [eval, hsrc, nodeVal, hc.itype, hconst, Bool.false_eq_true, ↓reduceIte]
  | _ => simp [Semantics.Describes, ht] at hv

include hK in
/-- **Every value is found again** where the map sends its node. -/
theorem eval_sim (hsound : ∀ k n v, n ∈ collectNodes orig → eval S orig σ k n = some v →
      S.Describes (L n) v) {fuel : ℕ} {m : NodeId} {v : Val F M} (hm : m ∈ collectNodes orig)
    (h : eval S orig σ fuel m = some v) :
    eval S prc (restrict ρ σ) fuel (ρ m) = some v ∧
      (prc.getNode (ρ m)).dt = (orig.getNode m).dt := by
  induction fuel generalizing m v with
  | zero => simp [eval] at h
  | succ fuel ih =>
    by_cases hk : ρ m = m
    swap
    · exact hP.eval_gone hL hm hk (hsound _ m v hm h) h
    obtain ⟨hhead, hinps⟩ := hP.kept m hm hk
    have hR (i : NodeId) (hi : i ∈ 0 :: (orig.getNode m).inps) : i ∈ collectNodes orig := by
      rcases List.mem_cons.1 hi with rfl | hi
      · exact zero_mem_collectNodes
      · exact neighbours_mem_collectNodes hK hm (List.mem_append_left _ hi)
    have hcfg (i : NodeId) (hi : i ∈ 0 :: (orig.getNode m).inps) :
        prc.isCfg (ρ i) = orig.isCfg i := hP.isCfg_eq hL (hR i hi)
    rw [hk]
    refine ⟨?_, (head_eq_iff hhead).2.1⟩
    have hsrc : prc.isSource (prc.getNode m) = orig.isSource (orig.getNode m) := by
      simp only [Proc.isSource, (head_eq_iff hhead).1, inp_map hinps hP.zero,
        hcfg _ (inp_mem_cons _ 0)]
    unfold eval at h ⊢
    rw [hsrc]
    split_ifs at h ⊢
    · rw [restrict, if_pos hk]
      exact h
    · exact nodeVal_sim hhead hinps hP.zero (fun i hi w hw => (ih (hR i hi) hw).1)
        (fun i hi => hcfg i (List.mem_cons_of_mem _ hi)) (fun i hi w hw => (ih (hR i hi) hw).2) h

end Eval

section Run

variable (hP : Peeped orig L ρ prc) (hK : orig.WellLinked)
  (hL : ∀ id, Fits (orig.getNode id) (L id))

theorem restrict_eq_some {p : NodeId} {v : Val F M} {σ : Env F M}
    (hp : restrict ρ σ p = some v) : ρ p = p ∧ σ p = some v := by
  unfold restrict at hp
  split_ifs at hp with hk
  exact ⟨hk, hp⟩

include hP in
/-- Nothing else has been replaced by a control node. -/
theorem eq_of_map_eq {x d : NodeId} (hx : x ∈ collectNodes orig) (hd0 : d ≠ 0)
    (hcfg : prc.isCfg d = true) (h : ρ x = d) : x = d := by
  by_contra hne
  rcases (hP.gone x hx (h ▸ Ne.symm hne)).2 with ⟨h0, -⟩ | ⟨hc, -⟩
  · exact hd0 (h ▸ h0)
  · rw [h] at hc
    simp [Proc.isCfg, hc.itype, NodeType.isCfg] at hcfg

include hP hL in
theorem edge_sim {c d : NodeId} {j : ℕ} (hc : ρ c = c) (hdR : d ∈ collectNodes orig)
    (hd : ρ d = d) (h : orig.Edge c d j) : prc.Edge c d j := by
  obtain ⟨hhead, hinps⟩ := hP.kept d hdR hd
  have hit := (head_eq_iff hhead).1
  refine ⟨h.ne_zero, ?_, hit ▸ h.ne_nil, hit ▸ h.ne_entry, ?_, hit ▸ h.idx⟩
  · rw [← h.isCfg, ← hP.isCfg_eq hL hdR, hd]
  · rw [hinps, List.getElem?_map, h.inp, Option.map_some, hc]

variable {σ : Env F M} (hsound : ∀ k n v, n ∈ collectNodes orig → eval S orig σ k n = some v →
  S.Describes (L n) v)

include hP hK hL hsound

theorem eval_inp_sim {m : NodeId} (hm : m ∈ collectNodes orig) (hk : ρ m = m) {i fuel : ℕ}
    {v : Val F M} (h : eval S orig σ fuel ((orig.getNode m).inp i) = some v) :
    eval S prc (restrict ρ σ) fuel ((prc.getNode m).inp i) = some v := by
  rw [inp_map (hP.kept m hm hk).2 hP.zero]
  exact (hP.eval_sim hK hL hsound (inp_mem_collectNodes hK hm i) h).1

theorem taken_sim {c d : NodeId} (hcR : c ∈ collectNodes orig) (hc : ρ c = c)
    (hdR : d ∈ collectNodes orig) (hd : ρ d = d) (h : Taken S orig σ c d) :
    Taken S prc (restrict ρ σ) c d := by
  have hit := (head_eq_iff (hP.kept d hdR hd).1).1
  constructor
  · intro ht
    obtain ⟨fuel, x, hx, hne⟩ := h.1 (hit ▸ ht)
    exact ⟨fuel, x, hP.eval_inp_sim hK hL hsound hcR hc hx, hne⟩
  · intro ht
    obtain ⟨fuel, x, hx, he⟩ := h.2 (hit ▸ ht)
    exact ⟨fuel, x, hP.eval_inp_sim hK hL hsound hcR hc hx, he⟩

theorem provides_sim {d p : NodeId} {j : ℕ} {v : Val F M} (hd0 : d ≠ 0)
    (hdR : d ∈ collectNodes orig) (hd : ρ d = d) (hcfg : orig.isCfg d = true)
    (hpR : p ∈ collectNodes orig) (hp : ρ p = p) (h : Provides S orig σ d j p v) :
    Provides S prc (restrict ρ σ) d j p v := by
  obtain ⟨hhead, hinps⟩ := hP.kept p hpR hp
  obtain ⟨hit, hdt, -⟩ := head_eq_iff hhead
  have hcfg' : prc.isCfg d = true := by
    rw [← hcfg, ← hP.isCfg_eq hL hdR, hd]
  have hinp : (prc.getNode p).inp 0 = d ↔ (orig.getNode p).inp 0 = d := by
    rw [inp_map hinps hP.zero]
    constructor
    · exact hP.eq_of_map_eq (inp_mem_collectNodes hK hpR 0) hd0 hcfg'
    · intro h
      rw [h, hd]
  unfold Provides at h ⊢
  simp only [hit, hdt, hinp]
  dsimp only at h
  split_ifs at h ⊢
  · obtain ⟨hty, fuel, hev⟩ := h
    exact ⟨hty, fuel, hP.eval_inp_sim hK hL hsound hpR hp hev⟩
  · exact h
  · rw [restrict, if_pos hp]
    exact h

theorem observes_sim {c : NodeId} {vs : List (Val F M)} (hcR : c ∈ collectNodes orig)
    (hc : ρ c = c) (h : Observes S orig σ c vs) : Observes S prc (restrict ρ σ) c vs := by
  unfold Observes at h ⊢
  rw [(hP.kept c hcR hc).2, ← List.map_tail, List.forall₂_map_left_iff]
  have hR : ∀ i ∈ (orig.getNode c).inps.tail, i ∈ collectNodes orig := fun i hi =>
    neighbours_mem_collectNodes hK hcR (List.mem_append_left _ (List.mem_of_mem_tail hi))
  refine ((List.forall₂_and_left _ _).2 ⟨hR, h⟩).imp ?_
  rintro i v ⟨hi, fuel, hv⟩
  exact ⟨fuel, (hP.eval_sim hK hL hsound hi hv).1⟩

end Run

/-- A run of a graph is a run of what it has become. -/
theorem exec (hP : Peeped orig L ρ prc) (hK : orig.WellLinked)
    (hL : ∀ id, Fits (orig.getNode id) (L id))
    (hok : ∀ tr (σ : Env F M), Exec S orig tr σ → ExecOk S orig L tr σ)
    (hsound : ∀ tr (σ : Env F M), Exec S orig tr σ → ∀ k n v, n ∈ collectNodes orig →
      eval S orig σ k n = some v → S.Describes (L n) v)
    {tr : List NodeId} {σ : Env F M} (h : Exec S orig tr σ) :
    Exec S prc tr (restrict ρ σ) := by
  have hkept {tr : List NodeId} {σ : Env F M} (h : Exec S orig tr σ) {c : NodeId} (hc : c ∈ tr) :
      c ∈ collectNodes orig ∧ ρ c = c := by
    obtain ⟨hcR, hal⟩ := (hok tr σ h).alive c hc
    exact ⟨hcR, hP.kept_of_alive hcR hal⟩
  induction h with
  | @start σ hσ =>
    have hex := Exec.start (S := S) hσ
    rw [← hP.entry]
    refine .start fun p v hp => ?_
    obtain ⟨hk, hp⟩ := restrict_eq_some hp
    obtain ⟨hproj, hinp, hty⟩ := hσ p v hp
    obtain ⟨hhead, hinps⟩ := hP.kept p ((hok _ _ hex).env p v hp).1 hk
    obtain ⟨hit, hdt, -⟩ := head_eq_iff hhead
    refine ⟨hit ▸ hproj, ?_, hdt ▸ hty⟩
    rw [inp_map hinps hP.zero, hinp, hP.entry]
    exact (hkept hex List.mem_cons_self).2
  | @step c d j tr σ σ' hex hedge htk hσ' ih =>
    have hex' := Exec.step hex hedge htk hσ'
    obtain ⟨hcR, hc⟩ := hkept hex List.mem_cons_self
    obtain ⟨hdR, hd⟩ := hkept hex' List.mem_cons_self
    refine .step ih (hP.edge_sim hL hc hdR hd hedge)
      (hP.taken_sim hK hL (hsound _ _ hex) hcR hc hdR hd htk) fun p v hp => ?_
    obtain ⟨hk, hp⟩ := restrict_eq_some hp
    exact hP.provides_sim hK hL (hsound _ _ hex) (ne_zero_of_ne_nil hedge.ne_nil) hdR hd hedge.isCfg
      ((hok _ _ hex').env p v hp).1 hk (hσ' p v hp)

/-! ### The steps -/

theorem getNode_replaceUses (prc : Proc) {k n id : NodeId} (h : id ≠ n) :
    (prc.replaceUses k n).getNode id = { prc.getNode id with
      inps := (prc.getNode id).inps.map fun i => if i = n then k else i } := by
  by_cases h0 : id = 0
  · subst h0
    rfl
  · rw [Proc.getNode_of_ne _ h0, Proc.getNode_of_ne _ h0]
    exact if_neg h

theorem inp_replaceUses (prc : Proc) {k n id : NodeId} (h0 : n ≠ 0) (h : id ≠ n) (i : ℕ) :
    ((prc.replaceUses k n).getNode id).inp i =
      if (prc.getNode id).inp i = n then k else (prc.getNode id).inp i := by
  rw [getNode_replaceUses prc h]
  have hd : (0 : NodeId) = if (0 : NodeId) = n then k else 0 := (if_neg (Ne.symm h0)).symm
  show List.getD _ i 0 = _
  nth_rewrite 1 [hd]
  exact List.getD_map _ _ fun i => if i = n then k else i

theorem getNode_replaceUses_self (prc : Proc) {k n : NodeId} (h0 : n ≠ 0) :
    (prc.replaceUses k n).getNode n = { itype := .dead } := by
  rw [Proc.getNode_of_ne _ h0]
  exact if_pos rfl

theorem live_replaceUses {prc : Proc} {k n id : NodeId} (h : prc.live id = false) :
    (prc.replaceUses k n).live id = false := by
  have h0 : id ≠ 0 := by
    rintro rfl
    cases h
  by_cases hid : id = n
  · rw [hid, Proc.live, getNode_replaceUses_self prc (hid ▸ h0)]
    rfl
  · rw [Proc.live, getNode_replaceUses prc hid]
    exact h

theorem refl (orig : Proc) (L : Lattices) (hK : orig.WellLinked) : Peeped orig L id orig where
  entry := rfl
  pos_le := le_rfl
  dead_of_le := hK.dead_of_le
  zero := rfl
  kept := fun m _ _ => ⟨rfl, by rw [List.map_id]⟩
  gone := fun m _ h => absurd rfl h

/-- Replacing one more node. -/
theorem replaceUses (hP : Peeped orig L ρ prc) {n k : NodeId} (hn : n ∈ collectNodes orig)
    (h0 : n ≠ 0) (hc : (prc.getNode n).itype ≠ .cInt)
    (hk : k = 0 ∧ orig.isCfg n = true ∧ (L n).dead = true ∨
      (prc.getNode k).IsCInt (orig.getNode n).dt (L n).min ∧ (L n).type = .int ∧
        (L n).min = (L n).max) :
    Peeped orig L (fun m => if ρ m = n then k else ρ m) (prc.replaceUses k n) := by
  have hkn : k ≠ n := by
    rcases hk with ⟨rfl, -⟩ | ⟨hk, -⟩
    · exact h0.symm
    · rintro rfl
      exact hc hk.itype
  have hcint {id : NodeId} {dt : Datatype} {x : ℤ} (hid : id ≠ n)
      (h : (prc.getNode id).IsCInt dt x) : ((prc.replaceUses k n).getNode id).IsCInt dt x := by
    rw [getNode_replaceUses prc hid]
    exact ⟨h.itype, h.dt, h.value⟩
  have hρn {m : NodeId} (hm : m ∈ collectNodes orig) (h : ρ m = n) : m = n := by
    by_contra hne
    rcases (hP.gone m hm (h ▸ Ne.symm hne)).2 with ⟨hz, -⟩ | ⟨hz, -⟩
    · exact h0 (h ▸ hz)
    · exact hc (h ▸ hz.itype)
  constructor
  case entry => exact hP.entry
  case pos_le => exact hP.pos_le
  case dead_of_le => exact fun id hid => live_replaceUses (hP.dead_of_le id hid)
  case zero => rw [hP.zero, if_neg h0.symm]
  case kept =>
    intro m hm hρ
    split_ifs at hρ with hmn
    · exact absurd (hρ.trans (hρn hm hmn)) hkn
    · obtain ⟨hhead, hinps⟩ := hP.kept m hm hρ
      rw [getNode_replaceUses prc (by rintro rfl; exact hmn hρ)]
      refine ⟨hhead, ?_⟩
      rw [hinps, List.map_map]
      rfl
  case gone =>
    intro m hm hρ
    split_ifs at hρ ⊢ with hmn
    · obtain rfl := hρn hm hmn
      refine ⟨?_, hk.imp_right (And.imp_left (hcint hkn))⟩
      rw [Proc.live, getNode_replaceUses_self prc h0]
      rfl
    · obtain ⟨hdead, hr⟩ := hP.gone m hm hρ
      exact ⟨live_replaceUses hdead, hr.imp_right (And.imp_left (hcint hmn))⟩

theorem getNode_push (prc : Proc) (node : Node) {id : NodeId} (h : id ≠ prc.pos) :
    (prc.push node).getNode id = prc.getNode id := by
  by_cases h0 : id = 0
  · subst h0
    rfl
  · rw [Proc.getNode_of_ne _ h0, Proc.getNode_of_ne _ h0]
    exact Function.update_of_ne h _ _

theorem pos_ne_zero (hP : Peeped orig L ρ prc) : prc.pos ≠ 0 := by
  intro hpos
  have := hP.dead_of_le 0 hpos.le
  cases this

/-- Adding a node first. -/
theorem push (hP : Peeped orig L ρ prc) (hK : orig.WellLinked) (node : Node) :
    Peeped orig L ρ (prc.push node) := by
  have hlt {id : NodeId} (h : prc.live id = true) : id ≠ prc.pos := by
    rintro rfl
    rw [hP.dead_of_le _ le_rfl] at h
    cases h
  have hmem {m : NodeId} (hm : m ∈ collectNodes orig) : m ≠ prc.pos := by
    rintro rfl
    have := hK.dead_of_le _ hP.pos_le
    rw [live_of_mem_collectNodes hm] at this
    cases this
  constructor
  case entry => exact hP.entry
  case pos_le => exact hP.pos_le.trans (Nat.le_succ _)
  case dead_of_le =>
    intro id hid
    have hid : prc.pos + 1 ≤ id := hid
    rw [Proc.live, getNode_push prc node (Nat.ne_of_gt hid)]
    exact hP.dead_of_le id (Nat.le_of_lt hid)
  case zero => exact hP.zero
  case kept =>
    intro m hm hρ
    rw [getNode_push prc node (hmem hm)]
    exact hP.kept m hm hρ
  case gone =>
    intro m hm hρ
    obtain ⟨hdead, hr⟩ := hP.gone m hm hρ
    refine ⟨?_, hr.imp_right (And.imp_left fun hk => ?_)⟩
    · rw [Proc.live, getNode_push prc node (hmem hm)]
      exact hdead
    · rw [getNode_push prc node (hlt (by simp [Proc.live, hk.itype]))]
      exact hk

section Step

variable (hP : Peeped orig L ρ prc) (hK : orig.WellLinked)
  (hL : ∀ id, Fits (orig.getNode id) (L id))
  (hfix : ∀ n ∈ collectNodes orig, sccpCompute orig L n = L n) {n : NodeId}
  (hn : n ∈ collectNodes orig) (hlive : prc.live n = true)

include hP hn hlive

/-- A node that lives has not been replaced. -/
theorem kept_of_live : ρ n = n := by
  by_contra hk
  rw [(hP.gone n hn hk).1] at hlive
  cases hlive

include hK hfix in
/-- Control that is removed is dead: it was so, or its own control has been removed. -/
theorem dead_of_peep (h : peepLattice prc L n = some .nil) :
    n ≠ 0 ∧ orig.isCfg n = true ∧ (L n).dead = true := by
  have hk := hP.kept_of_live hn hlive
  obtain ⟨hhead, hinps⟩ := hP.kept n hn hk
  have hit := (head_eq_iff hhead).1
  unfold peepLattice at h
  dsimp only at h
  split_ifs at h with hc
  swap
  · cases h
  obtain ⟨hcfg, hex, hdead⟩ := hc
  have hcfg' : orig.isCfg n = true := by
    rw [Proc.isCfg, ← hit]
    exact hcfg
  rw [hit] at hex
  simp only [NodeType.deadException, Bool.or_eq_false_iff, decide_eq_false_iff_not] at hex
  have h0 : n ≠ 0 := by
    rintro rfl
    exact hex.1.1.1 rfl
  refine ⟨h0, hcfg', ?_⟩
  rcases hdead with hdead | hdead
  · rw [inp_map hinps hP.zero] at hdead
    have hinpR := inp_mem_collectNodes hK hn 0
    have hd : (L ((orig.getNode n).inp 0)).dead = true := by
      by_cases hz : (orig.getNode n).inp 0 = 0
      · rw [hz, ← hfix 0 zero_mem_collectNodes]
        rfl
      · rcases (hP.gone _ hinpR (by rw [hdead]; exact Ne.symm hz)).2 with ⟨-, -, hd⟩ | ⟨hc, -⟩
        · exact hd
        · rw [hdead] at hc
          cases hc.itype
    have hf : forwards (orig.getNode n).itype = true := by
      unfold Proc.isCfg at hcfg'
      cases ht : (orig.getNode n).itype <;> simp_all [forwards, NodeType.isCfg]
    have e : sccpCompute orig L n = L ((orig.getNode n).inp 0) := by
      simp [sccpCompute, hf, hd]
    rw [← hfix n hn, e, hd]
  · exact hdead

/-- A node that becomes a constant had one value left. -/
theorem const_of_peep {dt : Datatype} {x : ℤ} (h : peepLattice prc L n = some (.cInt dt x)) :
    (prc.getNode n).itype ≠ .cInt ∧ dt = (orig.getNode n).dt ∧ x = (L n).min ∧
      (L n).type = .int ∧ (L n).min = (L n).max := by
  have hhead := (hP.kept n hn (hP.kept_of_live hn hlive)).1
  unfold peepLattice at h
  dsimp only at h
  split_ifs at h with hc hi
  · cases h
  cases h
  exact ⟨hi.2.2, (head_eq_iff hhead).2.1, rfl, hi.1, hi.2.1⟩

end Step

theorem isCInt_cIntNode {dt : Datatype} {x : ℤ} (hx : InS 64 x) :
    (cIntNode dt x).IsCInt dt x := by
  refine ⟨rfl, rfl, ?_⟩
  have e : u64 x % 2 ^ 32 + 2 ^ 32 * (u64 x / 2 ^ 32) = u64 x := Nat.mod_add_div _ _
  simp only [Node.cIntValue, cIntNode, List.getD_cons_zero, List.getD_cons_succ, e]
  rw [i64, u64, wrap_unsigned, wrap_eq_self (by norm_num) hx]

/-- **A step keeps every node findable.** -/
theorem step (hP : Peeped orig L ρ prc) (hK : orig.WellLinked)
    (hL : ∀ id, Fits (orig.getNode id) (L id))
    (hfix : ∀ n ∈ collectNodes orig, sccpCompute orig L n = L n) {prc' : Proc}
    (h : PeepStep (collectNodes orig) L prc prc') : ∃ ρ', Peeped orig L ρ' prc' := by
  have hne {n : NodeId} (ht : (L n).type = .int) : n ≠ 0 := by
    rintro rfl
    rw [← hfix 0 zero_mem_collectNodes] at ht
    cases ht
  cases h with
  | @nil n hn hlive h =>
    obtain ⟨h0, hcfg, hd⟩ := hP.dead_of_peep hK hfix hn hlive h
    refine ⟨_, hP.replaceUses hn h0 (fun hc => ?_) (.inl ⟨rfl, hcfg, hd⟩)⟩
    have hhead := (hP.kept n hn (hP.kept_of_live hn hlive)).1
    rw [Proc.isCfg, ← (head_eq_iff hhead).1, hc] at hcfg
    cases hcfg
  | @old n k dt x hn hlive h hk =>
    obtain ⟨hc, rfl, rfl, ht, hm⟩ := hP.const_of_peep hn hlive h
    exact ⟨_, hP.replaceUses hn (hne ht) hc (.inr ⟨hk, ht, hm⟩)⟩
  | @new n dt x hn hlive h =>
    obtain ⟨hc, rfl, rfl, ht, hm⟩ := hP.const_of_peep hn hlive h
    have hnpos : n ≠ prc.pos := by
      rintro rfl
      rw [hP.dead_of_le _ le_rfl] at hlive
      cases hlive
    have hnew : (prc.push (cIntNode (orig.getNode n).dt (L n).min)).getNode prc.pos =
        cIntNode (orig.getNode n).dt (L n).min := by
      rw [Proc.getNode_of_ne _ hP.pos_ne_zero]
      exact Function.update_self _ _ _
    refine ⟨_, (hP.push hK _).replaceUses hn (hne ht) ?_ (.inr ⟨?_, ht, hm⟩)⟩
    · rwa [getNode_push prc _ hnpos]
    · rw [hnew]
      exact isCInt_cIntNode (hL n).canon.bounds.1

end Peeped

/-! ### Main result -/

/-- What `compute_latices` returns is a fixpoint. -/
theorem computeLatices_ok {prc : Proc} (hT : prc.WellTyped) (hK : prc.WellLinked) {fuel : ℕ}
    {L : Lattices} (h : computeLatices prc fuel = .ok L) :
    (∀ id, Fits (prc.getNode id) (L id)) ∧ ∀ n ∈ collectNodes prc, sccpCompute prc L n = L n := by
  obtain ⟨s, hs, hq, hL⟩ := (inv_sccpInit hT).loop hT hK (Nat.lt_succ_self _)
  obtain rfl : L = s.lattices := by
    have h1 := sccpLoop_mono h (le_max_left fuel ((sccpInit prc).measure prc).succ)
    have h2 := sccpLoop_mono hL (le_max_right fuel _)
    exact SccpResult.ok.inj (h1.symm.trans h2)
  exact ⟨hs.fits, fun n hn => hs.done n hn (by simp [hq])⟩

/-- **The result of `compute_latices` is sound for every run**: every value that a run comes to is in
the lattice of its node, no dead control is ever reached, and replacing nodes by their lattices
leaves every run as it is, with the same values at every call and return. -/
theorem computeLatices_exec_sound {F M : Type} {S : Semantics F M} (hS : S.Ieee) {prc : Proc}
    (hT : prc.WellTyped) (hK : prc.WellLinked) (hR : prc.Runnable) {fuel : ℕ} {L : Lattices}
    (hok : computeLatices prc fuel = .ok L) :
    (∀ tr σ, Exec S prc tr σ → (∀ c ∈ tr, (L c).dead = false) ∧
      ∀ n ∈ collectNodes prc, ∀ k v, eval S prc σ k n = some v → S.Describes (L n) v) ∧
    ∀ prc', Relation.ReflTransGen (PeepStep (collectNodes prc) L) prc prc' →
      ∀ tr σ, Exec S prc tr σ → ∃ σ', Exec S prc' tr σ' ∧
        ∀ c ∈ tr, ∀ vs, Observes S prc σ c vs → Observes S prc' σ' c vs := by
  obtain ⟨hL, hfix⟩ := computeLatices_ok hT hK hok
  have hexec (tr : List NodeId) (σ : Env F M) (h : Exec S prc tr σ) : ExecOk S prc L tr σ :=
    exec_sound hS hT hK hR hL hfix h
  have hval (tr : List NodeId) (σ : Env F M) (h : Exec S prc tr σ) (k : ℕ) (n : NodeId)
      (v : Val F M) (hn : n ∈ collectNodes prc) (hv : eval S prc σ k n = some v) :
      S.Describes (L n) v :=
    eval_sound hS hT hK hR hL hfix (fun p v hp => ((hexec tr σ h).env p v hp).2) hn hv
  refine ⟨fun tr σ h => ⟨fun c hc => ?_, fun n hn k v => hval tr σ h k n v hn⟩, ?_⟩
  · rw [((hexec tr σ h).alive c hc).2]
    rfl
  · intro prc' hrun
    obtain ⟨ρ, hP⟩ : ∃ ρ, Peeped prc L ρ prc' := by
      induction hrun with
      | refl => exact ⟨id, .refl prc L hK⟩
      | tail _ hstep ih =>
        obtain ⟨ρ, hP⟩ := ih
        exact hP.step hK hL hfix hstep
    intro tr σ h
    refine ⟨_, hP.exec hK hL hexec hval h, fun c hc vs => ?_⟩
    obtain ⟨hcR, hal⟩ := (hexec tr σ h).alive c hc
    exact hP.observes_sim hK hL (hval tr σ h) hcR (hP.kept_of_alive hcR hal)

/-- Floats by their `f64` bits, and whether these are to be rounded to `f32`. -/
def bitFloats : Semantics (ℕ × Bool) Unit where
  const := fun bits dt => (bits, dt = .f32)
  isNan := fun x => 0x7FF0000000000000 < x.1 % 2 ^ 63
  isPinf := fun x => x.1 < 2 ^ 63 && (if x.2 then
    0x47EFFFFFF0000000 ≤ x.1 % 2 ^ 63 ∧ x.1 % 2 ^ 63 ≤ 0x7FF0000000000000 else
    x.1 % 2 ^ 63 = 0x7FF0000000000000)
  isNinf := fun x => 2 ^ 63 ≤ x.1 && (if x.2 then
    0x47EFFFFFF0000000 ≤ x.1 % 2 ^ 63 ∧ x.1 % 2 ^ 63 ≤ 0x7FF0000000000000 else
    x.1 % 2 ^ 63 = 0x7FF0000000000000)
  isZero := fun x => if x.2 then x.1 % 2 ^ 63 ≤ 0x3690000000000000 else x.1 % 2 ^ 63 = 0
  arith := fun _ _ _ _ => none
  compare := fun _ _ _ => none
  apply := fun _ _ => none

theorem ieee_bitFloats : bitFloats.Ieee where
  const_nan := fun bits dt => rfl
  const_zero := fun bits => rfl
  const_zero_f32 := fun bits => rfl
  const_inf := by
    intro bits h
    simp [bitFloats]
    omega
  const_inf_f32 := by
    intro bits h
    simp [bitFloats]
    omega
  const_pinf := by
    intro bits dt h
    have hlt : ¬ bits < 2 ^ 63 := not_lt.2 h
    simp only [bitFloats, hlt, decide_false, Bool.false_and]
  const_ninf := by
    intro bits dt h
    have hlt : ¬ 2 ^ 63 ≤ bits := not_le.2 h
    simp only [bitFloats, hlt, decide_false, Bool.false_and]
  nan_special := by
    rintro ⟨bits, f⟩ h
    simp only [bitFloats, decide_eq_true_eq] at h ⊢
    cases f <;> simp <;> omega
  arith_nan := by simp [bitFloats]
  add_nan := by simp [bitFloats]
  sub_nan := by simp [bitFloats]
  mul_nan := by simp [bitFloats]
  div_nan := by simp [bitFloats]
  compare_nan := by simp [bitFloats]
  compare_self := by simp [bitFloats]

theorem runnable_countUp : countUp.Runnable where
  entry := rfl
  mem_dt := by
    intro (id : ℕ) h
    rcases lt_or_ge id 9 with hid | hid
    · interval_cases id <;> cases h
    · simp [countUp_dead hid] at h
  loop_dom := by
    intro c (d : ℕ) j ht hj hedge tr hpath
    have hd : d = 3 := by
      rcases lt_or_ge d 9 with hid | hid
      · interval_cases d <;> first | rfl | cases ht
      · simp [countUp_dead hid] at ht
    subst hd
    obtain rfl : c = 5 := by
      have hinp := hedge.inp
      match j, hj with
      | 1, _ => exact (Option.some.inj hinp).symm
      | j + 2, _ => cases hinp
    cases hpath with
    | step hpath hedge =>
      have hinp := hedge.inp
      obtain rfl : _ = 3 := by
        rcases hedge.idx with rfl | h | h
        · exact (Option.some.inj hinp).symm
        · cases h
        · cases h
      simp

theorem computeLatices_exec_sound_countUp :
    ∃ fuel L, computeLatices countUp fuel = .ok L ∧
      (∀ tr σ, Exec bitFloats countUp tr σ → (∀ c ∈ tr, (L c).dead = false) ∧
        ∀ n ∈ collectNodes countUp, ∀ k v, eval bitFloats countUp σ k n = some v →
          bitFloats.Describes (L n) v) ∧
      ∀ prc', Relation.ReflTransGen (PeepStep (collectNodes countUp) L) countUp prc' →
        ∀ tr σ, Exec bitFloats countUp tr σ → ∃ σ', Exec bitFloats prc' tr σ' ∧
          ∀ c ∈ tr, ∀ vs, Observes bitFloats countUp σ c vs → Observes bitFloats prc' σ' c vs := by
  obtain ⟨s, -, -, hL⟩ := (inv_sccpInit wellTyped_countUp).loop wellTyped_countUp
    wellLinked_countUp (Nat.lt_succ_self _)
  exact ⟨_, _, hL, computeLatices_exec_sound ieee_bitFloats wellTyped_countUp wellLinked_countUp
    runnable_countUp hL⟩

end OdinSon
