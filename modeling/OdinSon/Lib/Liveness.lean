import Mathlib.Data.List.Basic
import Mathlib.Tactic.Tauto

/-!
# Live variables

A flow graph has blocks of instructions.  An instruction first uses some variables and then defines
at most one; more variables can be used on the way from one block to the next.  A variable is live
at a point of a block when there is a path from there to a use of it that does not define it.

Sets of variables for the ends of the blocks that are closed under the flow (`Closed`) have
everything that is live there.

## Main results

* `Live.of_liveBefore` : what is live inside a block, from what is live at its end.
* `Closed.of_live` : closed sets have all that is live.
-/

namespace OdinSon

/-- Blocks `B` of instructions `I` over the variables `V`. -/
structure FlowGraph (B I V : Type*) where
  /-- The instructions of a block. -/
  instrs : B → List I
  /-- What an instruction reads. -/
  uses : I → List V
  /-- What an instruction sets. -/
  defs : I → Option V
  /-- The blocks before a block, each with what is used between the two. -/
  preds : B → List (B × List V)

namespace FlowGraph

variable {B I V : Type*} (G : FlowGraph B I V)

/-- `v` is live in a block that still has the instructions `s` to go. -/
inductive Live (v : V) : B → List I → Prop
  | use {b : B} {i : I} {s : List I} : v ∈ G.uses i → Live v b (i :: s)
  | step {b : B} {i : I} {s : List I} : G.defs i ≠ some v → Live v b s → Live v b (i :: s)
  | edgeUse {b c : B} {us : List V} : (b, us) ∈ G.preds c → v ∈ us → Live v b []
  | edge {b c : B} {us : List V} : (b, us) ∈ G.preds c → Live v c (G.instrs c) → Live v b []

/-- `v` is used in `s`, before any definition of it. -/
def Exposed (v : V) : List I → Prop
  | [] => False
  | i :: s => v ∈ G.uses i ∨ G.defs i ≠ some v ∧ Exposed v s

/-- `v` is defined in `s`. -/
def Defines (v : V) (s : List I) : Prop := ∃ i ∈ s, G.defs i = some v

/-- `v` is live before `s`, when `S` is live after it and `u` says whether uses count. -/
def LiveBefore (u : Prop) (S : V → Prop) (s : List I) (v : V) : Prop :=
  u ∧ G.Exposed v s ∨ S v ∧ ¬ G.Defines v s

variable {G} {v : V} {b : B} {i : I} {s : List I} {u : Prop} {S : V → Prop}

theorem not_defines_cons : ¬ G.Defines v (i :: s) ↔ G.defs i ≠ some v ∧ ¬ G.Defines v s := by
  simp [Defines]

theorem liveBefore_nil : G.LiveBefore u S [] v ↔ S v := by
  simp [LiveBefore, Exposed, Defines]

/-- One instruction more in front. -/
theorem liveBefore_cons : G.LiveBefore u S (i :: s) v ↔
    u ∧ v ∈ G.uses i ∨ G.defs i ≠ some v ∧ G.LiveBefore u S s v := by
  simp only [LiveBefore, Exposed, not_defines_cons]
  tauto

theorem LiveBefore.mono {u' : Prop} {S' : V → Prop} (h : G.LiveBefore u S s v) (hu : u → u')
    (hS : ∀ v, S v → S' v) : G.LiveBefore u' S' s v := by
  rcases h with ⟨h, he⟩ | ⟨h, hd⟩
  · exact .inl ⟨hu h, he⟩
  · exact .inr ⟨hS v h, hd⟩

/-- What is live because of one thing or another. -/
theorem liveBefore_or {u' : Prop} {S' : V → Prop} :
    G.LiveBefore (u ∨ u') (fun v => S v ∨ S' v) s v ↔
      G.LiveBefore u S s v ∨ G.LiveBefore u' S' s v := by
  simp only [LiveBefore]
  tauto

theorem Live.of_exposed (h : G.Exposed v s) : G.Live v b s := by
  induction s with
  | nil => exact h.elim
  | cons i s ih =>
    rcases h with h | ⟨hd, h⟩
    · exact .use h
    · exact .step hd (ih h)

theorem Exposed.append {s t : List I} (hs : ¬ G.Defines v s) (h : G.Exposed v t) :
    G.Exposed v (s ++ t) := by
  induction s with
  | nil => exact h
  | cons i s ih =>
    rw [not_defines_cons] at hs
    exact .inr ⟨hs.1, ih hs.2⟩

/-- What is live at the end and not defined before it is live. -/
theorem Live.of_end (hd : ¬ G.Defines v s) (h : G.Live v b []) : G.Live v b s := by
  induction s with
  | nil => exact h
  | cons i s ih =>
    rw [not_defines_cons] at hd
    exact .step hd.1 (ih hd.2)

theorem Live.of_liveBefore (hS : ∀ v, S v → G.Live v b []) (h : G.LiveBefore u S s v) :
    G.Live v b s := by
  rcases h with ⟨-, h⟩ | ⟨h, hd⟩
  · exact .of_exposed h
  · exact .of_end hd (hS v h)

variable (G) in
/-- Sets for the ends of the blocks that follow the flow. -/
structure Closed (L : B → V → Prop) : Prop where
  edgeUse : ∀ {b c : B} {us : List V}, (b, us) ∈ G.preds c → ∀ v ∈ us, L b v
  edge : ∀ {b c : B} {us : List V}, (b, us) ∈ G.preds c → ∀ v,
    G.LiveBefore True (L c) (G.instrs c) v → L b v

/-- **Closed sets have everything that is live**, at the end of a block and inside it. -/
theorem Closed.of_live {L : B → V → Prop} (hL : G.Closed L) (h : G.Live v b s) :
    G.LiveBefore True (L b) s v := by
  induction h with
  | use hu => exact liveBefore_cons.2 (.inl ⟨trivial, hu⟩)
  | step hd _ ih => exact liveBefore_cons.2 (.inr ⟨hd, ih⟩)
  | edgeUse hp hu => exact liveBefore_nil.2 (hL.edgeUse hp v hu)
  | edge hp _ ih => exact liveBefore_nil.2 (hL.edge hp v ih)

end FlowGraph

end OdinSon
