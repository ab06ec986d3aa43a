import Mathlib.Data.List.Forall2
import Mathlib.Tactic.Common

/-!
# Procedures that end without a return

The type checker (`odinc/typecheck/typecheck.odin`) rejects a procedure with results if the end of its
body is `reachable`.  A statement is checked with the flag as it is before it and gives the flag
after it; a `break` that is reachable marks the loop or switch that it leaves as `broken`.

`Exec` is what a statement can do when it runs, for any values of the conditions: end, leave an
enclosing loop or switch, go on with one, or return.  A type switch looks at the tag of its operand,
`0` for `nil` and `i + 1` for the `i`-th variant.

`Exec.not_normal` says that a body that is accepted does not end, unless a type switch whose clauses
are as many as the variants has none for its operand.
-/

namespace OdinSon.Odinc

/-- The tokens of a `Branch_Stmt` that are supported. -/
inductive BranchKind where
  | break_ | continue_
  deriving DecidableEq, Repr

mutual

/-- The statements.  Of those that only compute nothing is kept, the initializer and the increment of a
loop among them. -/
inductive Stmt where
  | simple
  | block (stmts : Stmts)
  | ifThen (body : Stmt)
  | ifElse (body elseStmt : Stmt)
  | switch (label : String) (clauses : Clauses)
  | typeSwitch (label : String) (variants : List ℕ) (clauses : Clauses)
  | forStmt (label : String) (cond : Bool) (body : Stmt)
  | rangeStmt (label : String) (body : Stmt)
  | branch (kind : BranchKind) (label : String)
  | return_

inductive Stmts where
  | nil
  | cons (stmt : Stmt) (rest : Stmts)

/-- The clauses of a switch.  The list is empty for the default; otherwise it has the types, or the
values, of the case. -/
inductive Clauses where
  | nil
  | cons (list : List ℕ) (body : Stmts) (rest : Clauses)

end

/-- What `break` and `continue` can name: a loop, or a switch (`block`). -/
structure Target where
  /-- Its label. -/
  label : String
  /-- It is a switch. -/
  block : Bool
  deriving DecidableEq, Repr

/-- `Loop_State`, as the checker uses it. -/
structure LoopState extends Target where
  /-- There was a `break` that leaves it. -/
  broken : Bool
  deriving DecidableEq, Repr

/-- `find_loop`: how many of the enclosing ones are skipped.  `continue` skips switches. -/
def findLoop (label : String) (skipBlocks : Bool) : List Target → Option ℕ
  | [] => none
  | loop :: loops =>
    if skipBlocks && loop.block then (findLoop label skipBlocks loops).map (· + 1)
    else if loop.label = label || label = "" then some 0
    else (findLoop label skipBlocks loops).map (· + 1)

/-- `loop.broken = true`. -/
@[grind =] def setBroken (k : ℕ) (loops : List LoopState) : List LoopState :=
  loops.modify k fun loop => { loop with broken := true }

def isBroken (k : ℕ) (loops : List LoopState) : Bool := (loops[k]?.map (·.broken)).getD false

namespace Clauses

def hasDefault : Clauses → Bool
  | nil => false
  | cons list _ rest => list.isEmpty || rest.hasDefault

/-- `covered`: the clauses of a type switch that name a variant. -/
def covered (variants : List ℕ) : Clauses → ℕ
  | nil => 0
  | cons list _ rest => (list.head?.any variants.contains).toNat + rest.covered variants

/-- Every clause of a type switch names a variant. -/
def named (variants : List ℕ) : Clauses → Bool
  | nil => true
  | cons list _ rest => list.head?.all variants.contains && rest.named variants

end Clauses

/-! ### The checker -/

mutual

/-- `typecheck` of a statement: the enclosing loops and `reachable` after it; `none` if there is an
error. -/
def Stmt.typecheck : Stmt → List LoopState → Bool → Option (List LoopState × Bool)
  | .simple, loops, reachable => some (loops, reachable)
  | .block stmts, loops, reachable => stmts.typecheck loops reachable
  | .ifThen body, loops, reachable => do
    let (loops, _) ← body.typecheck loops reachable
    return (loops, reachable)
  | .ifElse body elseStmt, loops, reachable => do
    let (loops, thenReachable) ← body.typecheck loops reachable
    let (loops, elseReachable) ← elseStmt.typecheck loops reachable
    return (loops, if !elseReachable && !thenReachable then false else reachable)
  | .switch label clauses, loops, reachable => do
    let (loops, clauseReachable) ← clauses.typecheck (⟨⟨label, true⟩, false⟩ :: loops) reachable
    let ends := clauses.hasDefault && !clauseReachable && !isBroken 0 loops
    return (loops.tail, if ends then false else reachable)
  | .typeSwitch label variants clauses, loops, reachable => do
    guard (clauses.named variants)
    let (loops, clauseReachable) ← clauses.typecheck (⟨⟨label, true⟩, false⟩ :: loops) reachable
    let exhaustive := clauses.hasDefault || clauses.covered variants == variants.length
    let ends := exhaustive && !clauseReachable && !isBroken 0 loops
    return (loops.tail, if ends then false else reachable)
  | .forStmt label cond body, loops, reachable => do
    let (loops, _) ← body.typecheck (⟨⟨label, false⟩, cond⟩ :: loops) reachable
    return (loops.tail, if !isBroken 0 loops then false else reachable)
  | .rangeStmt label body, loops, reachable => do
    let (loops, _) ← body.typecheck (⟨⟨label, false⟩, true⟩ :: loops) reachable
    return (loops.tail, if !isBroken 0 loops then false else reachable)
  | .branch kind label, loops, reachable => do
    let k ← findLoop label (kind = .continue_) (loops.map (·.toTarget))
    return (if kind = .break_ ∧ reachable = true then setBroken k loops else loops, false)
  | .return_, loops, _ => some (loops, false)

/-- The statements of a block, or of a clause. -/
def Stmts.typecheck : Stmts → List LoopState → Bool → Option (List LoopState × Bool)
  | .nil, loops, reachable => some (loops, reachable)
  | .cons stmt rest, loops, reachable => do
    let (loops, reachable) ← stmt.typecheck loops reachable
    rest.typecheck loops reachable

/-- The clauses of a switch: whether the end of one of them is reachable. -/
def Clauses.typecheck : Clauses → List LoopState → Bool → Option (List LoopState × Bool)
  | .nil, loops, _ => some (loops, false)
  | .cons _ body rest, loops, reachable => do
    let (loops, bodyReachable) ← body.typecheck loops reachable
    let (loops, restReachable) ← rest.typecheck loops reachable
    return (loops, bodyReachable || restReachable)

end

/-- A procedure with results is accepted. -/
def Accepted (body : Stmt) : Prop := ∃ loops, body.typecheck [] true = some (loops, false)

/-! ### What statements do -/

/-- How a statement ends; a `break` or `continue` for the `k`-th enclosing loop or switch. -/
inductive Outcome where
  | normal
  | break_ (k : ℕ)
  | continue_ (k : ℕ)
  | return_
  deriving DecidableEq, Repr

/-- Seen from outside the innermost loop or switch. -/
def Outcome.leave : Outcome → Outcome
  | .break_ (k + 1) => .break_ k
  | .continue_ (k + 1) => .continue_ k
  | .return_ => .return_
  | _ => .normal

/-- The loop goes on. -/
def Outcome.goesOn (o : Outcome) : Bool := o = .normal || o = .continue_ 0

namespace Clauses

/-- The bodies of the clauses with cases. -/
def cases : Clauses → List Stmts
  | nil => []
  | cons list body rest => if list.isEmpty then rest.cases else body :: rest.cases

/-- The default clause that is emitted, the last one. -/
@[grind =] def default : Clauses → Option Stmts
  | nil => none
  | cons list body rest => rest.default.or (if list.isEmpty then some body else none)

/-- The first clause of a type switch for the tag, by the first type of its case. -/
def find (variants : List ℕ) (tag : ℕ) : Clauses → Option Stmts
  | nil => none
  | cons list body rest =>
    if list.head?.any fun ty => variants.idxOf ty + 1 = tag then some body
    else rest.find variants tag

/-- What a type switch runs. -/
def select (variants : List ℕ) (tag : ℕ) (clauses : Clauses) : Option Stmts :=
  (clauses.find variants tag).or clauses.default

end Clauses

/-- Which tags the operand of a type switch may have. -/
abbrev Tags := List ℕ → Clauses → ℕ → Prop

/-- A statement can end so, inside of these loops and switches.  A clause runs as a block. -/
inductive Exec (tags : Tags) : List Target → Stmt → Outcome → Prop
  | simple {st} : Exec tags st .simple .normal
  | blockNil {st} : Exec tags st (.block .nil) .normal
  | blockCons {st stmt rest o} : Exec tags st stmt .normal → Exec tags st (.block rest) o →
    Exec tags st (.block (.cons stmt rest)) o
  | blockStop {st stmt rest o} : Exec tags st stmt o → o ≠ .normal →
    Exec tags st (.block (.cons stmt rest)) o
  | thenTaken {st body o} : Exec tags st body o → Exec tags st (.ifThen body) o
  | thenSkipped {st body} : Exec tags st (.ifThen body) .normal
  | ifTrue {st body elseStmt o} : Exec tags st body o → Exec tags st (.ifElse body elseStmt) o
  | ifFalse {st body elseStmt o} : Exec tags st elseStmt o → Exec tags st (.ifElse body elseStmt) o
  | switch {st label clauses body o} : body ∈ clauses.cases ∨ clauses.default = some body →
    Exec tags (⟨label, true⟩ :: st) (.block body) o → Exec tags st (.switch label clauses) o.leave
  | switchNone {st label clauses} : clauses.default = none →
    Exec tags st (.switch label clauses) .normal
  | typeSwitch {st label variants clauses tag body o} : tags variants clauses tag →
    clauses.select variants tag = some body → Exec tags (⟨label, true⟩ :: st) (.block body) o →
    Exec tags st (.typeSwitch label variants clauses) o.leave
  | typeSwitchNone {st label variants clauses tag} : tags variants clauses tag →
    clauses.select variants tag = none → Exec tags st (.typeSwitch label variants clauses) .normal
  | forDone {st label body} : Exec tags st (.forStmt label true body) .normal
  | forNext {st label cond body o o'} : Exec tags (⟨label, false⟩ :: st) body o → o.goesOn = true →
    Exec tags st (.forStmt label cond body) o' → Exec tags st (.forStmt label cond body) o'
  | forLeft {st label cond body o} : Exec tags (⟨label, false⟩ :: st) body o → o.goesOn = false →
    Exec tags st (.forStmt label cond body) o.leave
  | rangeDone {st label body} : Exec tags st (.rangeStmt label body) .normal
  | rangeNext {st label body o o'} : Exec tags (⟨label, false⟩ :: st) body o → o.goesOn = true →
    Exec tags st (.rangeStmt label body) o' → Exec tags st (.rangeStmt label body) o'
  | rangeLeft {st label body o} : Exec tags (⟨label, false⟩ :: st) body o → o.goesOn = false →
    Exec tags st (.rangeStmt label body) o.leave
  | break_ {st label k} : findLoop label false st = some k →
    Exec tags st (.branch .break_ label) (.break_ k)
  | continue_ {st label k} : findLoop label true st = some k →
    Exec tags st (.branch .continue_ label) (.continue_ k)
  | return_ {st} : Exec tags st .return_ .return_

/-- Any operand: `nil`, or a variant of the union. -/
def anyTag : Tags := fun variants _ tag => tag ≤ variants.length

/-- A type switch that counts as exhaustive has a clause for its operand. -/
def matchedTag : Tags := fun variants clauses tag =>
  tag ≤ variants.length ∧
    (clauses.covered variants = variants.length → (clauses.select variants tag).isSome = true)

/-! ### Loops stay broken -/

/-- The same loops, and those that are broken stay so. -/
def Later : List LoopState → List LoopState → Prop :=
  List.Forall₂ fun a b => b.toTarget = a.toTarget ∧ (a.broken = true → b.broken = true)

section Later

variable {loops loops₁ loops₂ loops' : List LoopState} {reachable reachable' : Bool}

theorem Later.refl (loops : List LoopState) : Later loops loops := by
  induction loops with
  | nil => exact .nil
  | cons loop loops ih => exact .cons ⟨rfl, id⟩ ih

theorem Later.trans (h₁ : Later loops loops₁) (h₂ : Later loops₁ loops₂) : Later loops loops₂ := by
  induction h₁ generalizing loops₂ with
  | nil => exact h₂
  | cons hab _ ih =>
    cases h₂ with
    | cons hbc hrest => exact .cons ⟨hbc.1.trans hab.1, fun ha => hbc.2 (hab.2 ha)⟩ (ih hrest)

theorem Later.targets (h : Later loops loops') :
    loops'.map (·.toTarget) = loops.map (·.toTarget) := by
  induction h with
  | nil => rfl
  | cons hab _ ih => rw [List.map_cons, List.map_cons, hab.1, ih]

theorem Later.tail (h : Later loops loops') : Later loops.tail loops'.tail := by
  cases h with
  | nil => exact .nil
  | cons _ hrest => exact hrest

theorem Later.isBroken (h : Later loops loops') {k : ℕ} (hk : isBroken k loops = true) :
    isBroken k loops' = true := by
  induction h generalizing k with
  | nil => exact hk
  | cons hab _ ih =>
    cases k with
    | zero => exact hab.2 hk
    | succ k => exact ih hk

theorem isBroken_tail (k : ℕ) (loops : List LoopState) :
    isBroken k loops.tail = isBroken (k + 1) loops := by
  cases loops with
  | nil => rfl
  | cons loop loops => rfl

theorem later_setBroken (k : ℕ) (loops : List LoopState) : Later loops (setBroken k loops) := by
  induction loops generalizing k with
  | nil =>
    rw [setBroken, List.modify_nil]
    exact .nil
  | cons loop loops ih =>
    cases k with
    | zero => exact .cons ⟨rfl, fun _ => rfl⟩ (Later.refl loops)
    | succ k => exact .cons ⟨rfl, id⟩ (ih k)

theorem isBroken_setBroken {k : ℕ} (hk : k < loops.length) : isBroken k (setBroken k loops) = true := by
  rw [isBroken, setBroken, List.getElem?_modify_eq, List.getElem?_eq_getElem hk]
  rfl

end Later

/-- The loop that is found is one of those around; `continue` does not find a switch. -/
theorem findLoop_spec {label : String} {skipBlocks : Bool} {st : List Target} {k : ℕ}
    (h : findLoop label skipBlocks st = some k) :
    ∃ loop, st[k]? = some loop ∧ (skipBlocks = true → loop.block = false) := by
  induction st generalizing k with
  | nil => cases h
  | cons loop st ih =>
    have hrest (h : (findLoop label skipBlocks st).map (· + 1) = some k) :
        ∃ l, (loop :: st)[k]? = some l ∧ (skipBlocks = true → l.block = false) := by
      obtain ⟨k', hk', rfl⟩ := Option.map_eq_some_iff.1 h
      exact ih hk'
    unfold findLoop at h
    split_ifs at h with hblock
    · exact hrest h
    · cases h
      refine ⟨loop, rfl, fun hskip => ?_⟩
      rwa [hskip, Bool.true_and, Bool.not_eq_true] at hblock
    · exact hrest h

mutual

theorem Stmt.later (s : Stmt) {loops loops' : List LoopState} {reachable reachable' : Bool}
    (h : s.typecheck loops reachable = some (loops', reachable')) : Later loops loops' := by
  cases s with
  | simple =>
    cases h
    exact .refl _
  | block stmts => exact stmts.later h
  | ifThen body =>
    obtain ⟨⟨loops₁, _⟩, h₁, h⟩ := Option.bind_eq_some_iff.1 h
    cases h
    exact body.later h₁
  | ifElse body elseStmt =>
    obtain ⟨⟨loops₁, _⟩, h₁, h⟩ := Option.bind_eq_some_iff.1 h
    obtain ⟨⟨loops₂, _⟩, h₂, h⟩ := Option.bind_eq_some_iff.1 h
    cases h
    exact (body.later h₁).trans (elseStmt.later h₂)
  | switch label clauses =>
    obtain ⟨⟨loops₁, _⟩, h₁, h⟩ := Option.bind_eq_some_iff.1 h
    cases h
    exact (clauses.later h₁).tail
  | typeSwitch label variants clauses =>
    obtain ⟨_, -, h⟩ := Option.bind_eq_some_iff.1 h
    obtain ⟨⟨loops₁, _⟩, h₁, h⟩ := Option.bind_eq_some_iff.1 h
    cases h
    exact (clauses.later h₁).tail
  | forStmt label cond body =>
    obtain ⟨⟨loops₁, _⟩, h₁, h⟩ := Option.bind_eq_some_iff.1 h
    cases h
    exact (body.later h₁).tail
  | rangeStmt label body =>
    obtain ⟨⟨loops₁, _⟩, h₁, h⟩ := Option.bind_eq_some_iff.1 h
    cases h
    exact (body.later h₁).tail
  | branch kind label =>
    obtain ⟨k, -, h⟩ := Option.bind_eq_some_iff.1 h
    obtain ⟨rfl, -⟩ := Prod.mk.inj (Option.some.inj h)
    split
    · exact later_setBroken ..
    · exact .refl _
  | return_ =>
    cases h
    exact .refl _

theorem Stmts.later (stmts : Stmts) {loops loops' : List LoopState} {reachable reachable' : Bool}
    (h : stmts.typecheck loops reachable = some (loops', reachable')) : Later loops loops' := by
  cases stmts with
  | nil =>
    cases h
    exact .refl _
  | cons stmt rest =>
    obtain ⟨⟨loops₁, _⟩, h₁, h₂⟩ := Option.bind_eq_some_iff.1 h
    exact (stmt.later h₁).trans (rest.later h₂)

theorem Clauses.later (clauses : Clauses) {loops loops' : List LoopState}
    {reachable reachable' : Bool}
    (h : clauses.typecheck loops reachable = some (loops', reachable')) : Later loops loops' := by
  cases clauses with
  | nil =>
    cases h
    exact .refl _
  | cons list body rest =>
    obtain ⟨⟨loops₁, _⟩, h₁, h⟩ := Option.bind_eq_some_iff.1 h
    obtain ⟨⟨loops₂, _⟩, h₂, h⟩ := Option.bind_eq_some_iff.1 h
    cases h
    exact (body.later h₁).trans (rest.later h₂)

end

/-! ### The clause that runs -/

namespace Clauses

@[grind =] def bodies : Clauses → List Stmts
  | nil => []
  | cons _ body rest => body :: rest.bodies

theorem mem_bodies_of_cases {clauses : Clauses} {body : Stmts} (h : body ∈ clauses.cases) :
    body ∈ clauses.bodies := by
  induction clauses using bodies.induct with
  | case1 => exact h
  | case2 list b rest ih =>
    unfold cases at h
    rw [bodies, List.mem_cons]
    split_ifs at h
    · exact .inr (ih h)
    · exact (List.mem_cons.1 h).imp_right ih

theorem mem_bodies_of_default {clauses : Clauses} {body : Stmts} (h : clauses.default = some body) :
    body ∈ clauses.bodies := by
  induction clauses using bodies.induct with
  | case1 => cases h
  | case2 list b rest ih =>
    rw [default, Option.or_eq_some_iff] at h
    rw [bodies, List.mem_cons]
    obtain h | ⟨-, h⟩ := h
    · exact .inr (ih h)
    · split_ifs at h
      exact .inl (Option.some.inj h).symm

theorem mem_bodies_of_select {clauses : Clauses} {variants : List ℕ} {tag : ℕ} {body : Stmts}
    (h : clauses.select variants tag = some body) : body ∈ clauses.bodies := by
  rw [select, Option.or_eq_some_iff] at h
  obtain h | ⟨-, h⟩ := h
  · induction clauses using bodies.induct with
    | case1 => cases h
    | case2 list b rest ih =>
      unfold find at h
      rw [bodies, List.mem_cons]
      split at h
      · exact .inl (Option.some.inj h).symm
      · exact .inr (ih h)
  · exact mem_bodies_of_default h

theorem isSome_default (clauses : Clauses) : clauses.default.isSome = clauses.hasDefault := by
  induction clauses using bodies.induct with
  | case1 => rfl
  | case2 list b rest ih =>
    rw [default, hasDefault, Option.isSome_or, ih, Bool.or_comm]
    cases list.isEmpty <;> rfl

theorem isSome_select_of_hasDefault {clauses : Clauses} (h : clauses.hasDefault = true)
    (variants : List ℕ) (tag : ℕ) : (clauses.select variants tag).isSome = true := by
  rw [select, Option.isSome_or, isSome_default, h, Bool.or_true]

/-- What the check of a switch says of one of its clauses. -/
theorem body_typecheck {clauses : Clauses} {body : Stmts} {loops loops' : List LoopState}
    {reachable reachable' : Bool} (hbody : body ∈ clauses.bodies)
    (h : clauses.typecheck loops reachable = some (loops', reachable')) :
    ∃ loops₁ loops₂ bodyReachable, body.typecheck loops₁ reachable = some (loops₂, bodyReachable) ∧
      Later loops loops₁ ∧ Later loops₂ loops' ∧ (bodyReachable = true → reachable' = true) := by
  induction clauses using bodies.induct generalizing loops loops' reachable' with
  | case1 => exact absurd hbody List.not_mem_nil
  | case2 list b rest ih =>
    obtain ⟨⟨loops₁, r₁⟩, h₁, h⟩ := Option.bind_eq_some_iff.1 h
    obtain ⟨⟨loops₂, r₂⟩, h₂, h⟩ := Option.bind_eq_some_iff.1 h
    cases h
    obtain rfl | hbody := List.mem_cons.1 hbody
    · exact ⟨loops, loops₁, r₁, h₁, .refl _, rest.later h₂, fun hr => by rw [hr, Bool.true_or]⟩
    · obtain ⟨l₁, l₂, r, hb, hl₁, hl₂, hr⟩ := ih hbody h₂
      exact ⟨l₁, l₂, r, hb, (b.later h₁).trans hl₁, hl₂, fun hc => by rw [hr hc, Bool.or_true]⟩

end Clauses

/-! ### What is not reachable is not reached -/

/-- The check covers this end: the end of a reachable statement is marked reachable, what it breaks is
broken, and it goes on with a loop only. -/
structure Outcome.Covered (o : Outcome) (loops : List LoopState) (reachable : Bool) : Prop where
  normal : o = .normal → reachable = true
  break_ : ∀ k, o = .break_ k → isBroken k loops = true
  continue_ : ∀ k, o = .continue_ k → ∃ loop, (loops.map (·.toTarget))[k]? = some loop ∧
    loop.block = false

namespace Outcome.Covered

variable {o : Outcome} {loops loops' : List LoopState} {reachable reachable' : Bool}

theorem later (h : o.Covered loops reachable) (hl : Later loops loops')
    (hr : reachable = true → reachable' = true) : o.Covered loops' reachable' :=
  ⟨fun ho => hr (h.normal ho), fun k hk => hl.isBroken (h.break_ k hk),
    fun k hk => hl.targets.symm ▸ h.continue_ k hk⟩

/-- Nothing that has ended before is covered otherwise. -/
theorem of_ne_normal (h : o.Covered loops reachable) (ho : o ≠ .normal) :
    o.Covered loops reachable' :=
  ⟨fun hc => absurd hc ho, h.break_, h.continue_⟩

theorem of_normal (hr : reachable = true) : Outcome.normal.Covered loops reachable :=
  ⟨fun _ => hr, fun _ hk => (by cases hk), fun _ hk => (by cases hk)⟩

/-- Out of a loop or switch: its end is reachable if the end of its body is, or a break leaves it. -/
theorem leave (h : o.Covered loops reachable) (hcont : o ≠ .continue_ 0)
    (hr : reachable = true ∨ isBroken 0 loops = true → reachable' = true) :
    o.leave.Covered loops.tail reachable' := by
  cases o with
  | normal => exact of_normal (hr (.inl (h.normal rfl)))
  | break_ k =>
    cases k with
    | zero => exact of_normal (hr (.inr (h.break_ 0 rfl)))
    | succ k =>
      refine ⟨fun hc => (by cases hc), fun k' hk => ?_, fun k' hk => (by cases hk)⟩
      obtain rfl : k = k' := Outcome.break_.inj hk
      rw [isBroken_tail]
      exact h.break_ _ rfl
  | continue_ k =>
    cases k with
    | zero => exact absurd rfl hcont
    | succ k =>
      refine ⟨fun hc => (by cases hc), fun k' hk => (by cases hk), fun k' hk => ?_⟩
      obtain rfl : k = k' := Outcome.continue_.inj hk
      obtain ⟨loop, hloop, hblock⟩ := h.continue_ _ rfl
      refine ⟨loop, ?_, hblock⟩
      rwa [List.map_tail, List.getElem?_tail]
  | return_ => exact ⟨fun hc => (by cases hc), fun _ hk => (by cases hk), fun _ hk => (by cases hk)⟩

/-- A switch is nothing to go on with. -/
theorem ne_continue_zero {label : String} {broken : Bool} {rest : List LoopState}
    (h : o.Covered loops reachable) (hl : Later (⟨⟨label, true⟩, broken⟩ :: rest) loops) :
    o ≠ .continue_ 0 := by
  intro hc
  obtain ⟨loop, hloop, hblock⟩ := h.continue_ 0 hc
  rw [hl.targets] at hloop
  cases hloop
  cases hblock

end Outcome.Covered

/-- A switch over a clause that the check covers. -/
theorem covered_clause {clauses : Clauses} {body : Stmts} {label : String} {o : Outcome}
    {loops loops' : List LoopState} {clauseReachable reachable' : Bool}
    (hbody : body ∈ clauses.bodies)
    (h : clauses.typecheck (⟨⟨label, true⟩, false⟩ :: loops) true = some (loops', clauseReachable))
    (ih : ∀ {loops₁ loops₂ : List LoopState} {r : Bool},
      loops₁.map (·.toTarget) = ⟨label, true⟩ :: loops.map (·.toTarget) →
        (Stmt.block body).typecheck loops₁ true = some (loops₂, r) → o.Covered loops₂ r)
    (hr : clauseReachable = true ∨ isBroken 0 loops' = true → reachable' = true) :
    o.leave.Covered loops'.tail reachable' := by
  obtain ⟨loops₁, loops₂, r, hb, hl₁, hl₂, hreach⟩ := Clauses.body_typecheck hbody h
  have hcov := ih hl₁.targets hb
  have hcont := hcov.ne_continue_zero (hl₁.trans (body.later hb))
  exact (hcov.later hl₂ hreach).leave hcont hr

/-- The end of a switch is reachable where a clause ends or is left. -/
theorem ite_ends {ends clauseReachable broken : Bool} {exhaustive : Bool}
    (hends : ends = (exhaustive && !clauseReachable && !broken))
    (h : clauseReachable = true ∨ broken = true) : (if ends then false else true) = true := by
  obtain rfl | rfl := h
  · rw [hends]
    simp
  · rw [hends]
    simp

/-- A loop that is left. -/
theorem covered_left {o : Outcome} {loops : List LoopState} {reachable : Bool}
    (h : o.Covered loops reachable) (hgoes : o.goesOn = false) :
    o.leave.Covered loops.tail (if !isBroken 0 loops then false else true) := by
  have hne (o' : Outcome) (ho' : o'.goesOn = true) : o ≠ o' := by
    rintro rfl
    rw [ho'] at hgoes
    cases hgoes
  have hcov : o.Covered loops false := h.of_ne_normal (hne _ rfl)
  refine hcov.leave (hne _ rfl) fun hr => ?_
  rw [hr.resolve_left Bool.false_ne_true]
  rfl

/-- **The checker covers every end of a reachable statement**, by induction on the run. -/
theorem Exec.covered {tags : Tags}
    (htags : ∀ variants clauses tag, tags variants clauses tag →
      clauses.covered variants = variants.length → (clauses.select variants tag).isSome = true)
    {st : List Target} {s : Stmt} {o : Outcome} (he : Exec tags st s o)
    {loops loops' : List LoopState} {reachable' : Bool} (hst : loops.map (·.toTarget) = st)
    (h : s.typecheck loops true = some (loops', reachable')) : o.Covered loops' reachable' := by
  induction he generalizing loops loops' reachable' with
  | simple =>
    cases h
    exact .of_normal rfl
  | blockNil =>
    cases h
    exact .of_normal rfl
  | @blockCons _ stmt rest _ _ _ ih₁ ih₂ =>
    obtain ⟨⟨loops₁, r₁⟩, h₁, h₂⟩ := Option.bind_eq_some_iff.1 h
    -- the first statement ends, so the next is reachable
    obtain rfl : r₁ = true := (ih₁ hst h₁).normal rfl
    exact ih₂ ((stmt.later h₁).targets.trans hst) h₂
  | @blockStop _ stmt rest o _ hne ih =>
    obtain ⟨⟨loops₁, r₁⟩, h₁, h₂⟩ := Option.bind_eq_some_iff.1 h
    have hcov : o.Covered loops₁ false := (ih hst h₁).of_ne_normal hne
    exact hcov.later (rest.later h₂) fun hc => absurd hc Bool.false_ne_true
  | thenTaken _ ih =>
    obtain ⟨⟨loops₁, r₁⟩, h₁, h⟩ := Option.bind_eq_some_iff.1 h
    cases h
    exact (ih hst h₁).later (.refl _) fun _ => rfl
  | thenSkipped =>
    obtain ⟨⟨loops₁, r₁⟩, h₁, h⟩ := Option.bind_eq_some_iff.1 h
    cases h
    exact .of_normal rfl
  | @ifTrue _ body elseStmt _ _ ih =>
    obtain ⟨⟨loops₁, r₁⟩, h₁, h⟩ := Option.bind_eq_some_iff.1 h
    obtain ⟨⟨loops₂, r₂⟩, h₂, h⟩ := Option.bind_eq_some_iff.1 h
    cases h
    refine (ih hst h₁).later (elseStmt.later h₂) fun hr => ?_
    rw [hr, Bool.not_true, Bool.and_false]
    rfl
  | @ifFalse _ body elseStmt _ _ ih =>
    obtain ⟨⟨loops₁, r₁⟩, h₁, h⟩ := Option.bind_eq_some_iff.1 h
    obtain ⟨⟨loops₂, r₂⟩, h₂, h⟩ := Option.bind_eq_some_iff.1 h
    cases h
    refine (ih ((body.later h₁).targets.trans hst) h₂).later (.refl _) fun hr => ?_
    rw [hr, Bool.not_true, Bool.false_and]
    rfl
  | switch hbody _ ih =>
    obtain ⟨⟨loops₁, r₁⟩, h₁, h⟩ := Option.bind_eq_some_iff.1 h
    cases h
    have hmem := hbody.elim Clauses.mem_bodies_of_cases Clauses.mem_bodies_of_default
    exact covered_clause hmem h₁ (fun hst' hb => ih (hst ▸ hst') hb) (ite_ends rfl)
  | @switchNone _ _ clauses hnone =>
    obtain ⟨⟨loops₁, r₁⟩, h₁, h⟩ := Option.bind_eq_some_iff.1 h
    cases h
    have hno : clauses.hasDefault = false := by
      rw [← Clauses.isSome_default, hnone]
      rfl
    exact .of_normal (by rw [hno]; rfl)
  | typeSwitch _ hselect _ ih =>
    obtain ⟨_, -, h⟩ := Option.bind_eq_some_iff.1 h
    obtain ⟨⟨loops₁, r₁⟩, h₁, h⟩ := Option.bind_eq_some_iff.1 h
    cases h
    exact covered_clause (Clauses.mem_bodies_of_select hselect) h₁
      (fun hst' hb => ih (hst ▸ hst') hb) (ite_ends rfl)
  | @typeSwitchNone _ _ variants clauses tag htag hnone =>
    obtain ⟨_, -, h⟩ := Option.bind_eq_some_iff.1 h
    obtain ⟨⟨loops₁, r₁⟩, h₁, h⟩ := Option.bind_eq_some_iff.1 h
    cases h
    -- no clause: there is no default, and too few cases to count as exhaustive
    have hno : clauses.hasDefault = false := by
      by_contra hc
      have hsome := Clauses.isSome_select_of_hasDefault (Bool.not_eq_false _ ▸ hc) variants tag
      rw [hnone] at hsome
      cases hsome
    have hcount : (clauses.covered variants == variants.length) = false := by
      rw [beq_eq_false_iff_ne]
      intro hc
      have hsome := htags variants clauses tag htag hc
      rw [hnone] at hsome
      cases hsome
    exact .of_normal (by rw [hno, hcount]; rfl)
  | @forDone _ _ body =>
    obtain ⟨⟨loops₁, r₁⟩, h₁, h⟩ := Option.bind_eq_some_iff.1 h
    cases h
    have hb : isBroken 0 loops₁ = true := (body.later h₁).isBroken rfl
    exact .of_normal (by rw [hb]; rfl)
  | forNext _ _ _ _ ih => exact ih hst h
  | forLeft _ hgoes ih =>
    obtain ⟨⟨loops₁, r₁⟩, h₁, h⟩ := Option.bind_eq_some_iff.1 h
    cases h
    exact covered_left (ih (by rw [List.map_cons, hst]) h₁) hgoes
  | @rangeDone _ _ body =>
    obtain ⟨⟨loops₁, r₁⟩, h₁, h⟩ := Option.bind_eq_some_iff.1 h
    cases h
    have hb : isBroken 0 loops₁ = true := (body.later h₁).isBroken rfl
    exact .of_normal (by rw [hb]; rfl)
  | rangeNext _ _ _ _ ih => exact ih hst h
  | rangeLeft _ hgoes ih =>
    obtain ⟨⟨loops₁, r₁⟩, h₁, h⟩ := Option.bind_eq_some_iff.1 h
    cases h
    exact covered_left (ih (by rw [List.map_cons, hst]) h₁) hgoes
  | @break_ _ label k hk =>
    obtain ⟨k', hk', h⟩ := Option.bind_eq_some_iff.1 h
    rw [hst] at hk'
    obtain rfl : k = k' := Option.some.inj (hk.symm.trans hk')
    cases h
    obtain ⟨loop, hloop, -⟩ := findLoop_spec hk
    have hlt : k < loops.length := by
      rw [← hst] at hloop
      simpa using (List.getElem?_eq_some_iff.1 hloop).1
    refine ⟨fun hc => (by cases hc), fun j hj => ?_, fun _ hj => (by cases hj)⟩
    cases hj
    rw [if_pos ⟨rfl, rfl⟩]
    exact isBroken_setBroken hlt
  | @continue_ _ label k hk =>
    obtain ⟨k', hk', h⟩ := Option.bind_eq_some_iff.1 h
    cases h
    refine ⟨fun hc => (by cases hc), fun _ hj => (by cases hj), fun j hj => ?_⟩
    cases hj
    obtain ⟨loop, hloop, hblock⟩ := findLoop_spec hk
    rw [if_neg (by decide), hst]
    exact ⟨loop, hloop, hblock rfl⟩
  | return_ =>
    cases h
    exact ⟨fun hc => (by cases hc), fun _ hj => (by cases hj), fun _ hj => (by cases hj)⟩

/-- **No missing return**: a body that the checker accepts does not end, whatever its conditions are,
if each type switch that counts as exhaustive has a clause for its operand. -/
theorem Exec.not_normal {body : Stmt} (h : Accepted body) : ¬Exec matchedTag [] body .normal := by
  intro he
  obtain ⟨loops, hcheck⟩ := h
  have hcov := he.covered (fun _ _ _ htag => htag.2) rfl hcheck
  exact absurd (hcov.normal rfl) Bool.false_ne_true

/-- `switch v in u { case A: return; case B: return }` for a union of `A` and `B`. -/
def returnByVariant : Stmt :=
  .typeSwitch "" [0, 1] (.cons [0] (.cons .return_ .nil) (.cons [1] (.cons .return_ .nil) .nil))

theorem not_normal_returnByVariant : ¬Exec matchedTag [] returnByVariant .normal :=
  Exec.not_normal ⟨[], rfl⟩

/-- It is accepted, and it ends where the union is `nil`. -/
theorem accepted_normal : Accepted returnByVariant ∧ Exec anyTag [] returnByVariant .normal :=
  ⟨⟨[], rfl⟩, .typeSwitchNone (Nat.zero_le 2) rfl⟩

end OdinSon.Odinc
