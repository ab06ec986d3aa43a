import Mathlib.Data.List.Basic
import Mathlib.Data.Set.Defs
import Mathlib.Logic.Relation

/-!
# Strongly connected components

The components of a graph as lists of their members.  A set of nodes that no edge leaves holds all that
is reached from it (`mem_of_reach`); what is connected and leads only to itself and to such a set is a
component (`isComponent_of_closed`).
-/

namespace OdinSon.Lib

open Relation

variable {α : Type*} {E : α → α → Prop}

/-- The members reach each other, and whatever a member reaches and is reached from is a member. -/
def IsComponent (E : α → α → Prop) (C : List α) : Prop :=
  C ≠ [] ∧ ∀ a ∈ C, ∀ b, b ∈ C ↔ ReflTransGen E a b ∧ ReflTransGen E b a

/-- No edge leaves the set. -/
def NoExit (E : α → α → Prop) (S : Set α) : Prop := ∀ a ∈ S, ∀ b, E a b → b ∈ S

theorem mem_of_reach {S : Set α} (hS : NoExit E S) {a b : α} (h : ReflTransGen E a b) (ha : a ∈ S) :
    b ∈ S := by
  induction h with
  | refl => exact ha
  | tail _ hedge ih => exact hS _ ih _ hedge

theorem isComponent_of_closed {S : Set α} {C : List α} {r : α} (hr : r ∈ C) (hrS : r ∉ S)
    (hS : NoExit E S) (hC : ∀ a ∈ C, ∀ b, E a b → b ∈ C ∨ b ∈ S)
    (hreach : ∀ a ∈ C, ReflTransGen E r a ∧ ReflTransGen E a r) : IsComponent E C := by
  have hunion : NoExit E {b | b ∈ C ∨ b ∈ S} := by
    rintro a (ha | ha) b hab
    · exact hC a ha b hab
    · exact Or.inr (hS a ha b hab)
  refine ⟨List.ne_nil_of_mem hr, fun a ha b => ⟨fun hb => ?_, fun ⟨hab, hba⟩ => ?_⟩⟩
  · exact ⟨(hreach a ha).2.trans (hreach b hb).1, (hreach b hb).2.trans (hreach a ha).1⟩
  · obtain hb | hb := mem_of_reach hunion hab (Or.inl ha)
    · exact hb
    · exact absurd (mem_of_reach hS (hba.trans (hreach a ha).2) hb) hrS

end OdinSon.Lib
