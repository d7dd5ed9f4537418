import Mathlib

/-!
# What holds of everything below

A relation leads from a thing to the things right below it. `AllBelow` says that a property holds of
a thing and of everything below it, however far. A search that has looked at some things, and found
of each thing right below them that it has looked at it too or that the property holds from there
on, has found it to hold everywhere (`of_cover`).
-/

namespace Xrpld

open Relation (ReflTransGen)

variable {α : Type*} {E : α → α → Prop} {P P' : α → Prop} {a b : α}

/-- The property holds of `a` and of everything below it. -/
def AllBelow (E : α → α → Prop) (P : α → Prop) (a : α) : Prop := ∀ b, ReflTransGen E a b → P b

namespace AllBelow

theorem self (h : AllBelow E P a) : P a := h a .refl

theorem step (h : AllBelow E P a) (ha : E a b) : AllBelow E P b := fun c hb => h c (.head ha hb)

theorem mono (h : AllBelow E P a) (hP : ∀ b, P b → P' b) : AllBelow E P' a := fun b ha => hP b (h b ha)

/-- A thing and all that is right below it. -/
theorem of_steps (ha : P a) (hs : ∀ b, E a b → AllBelow E P b) : AllBelow E P a := by
  intro c hac
  rcases Relation.ReflTransGen.cases_head hac with rfl | ⟨b, hb, hc⟩
  · exact ha
  · exact hs b hb c hc

/-- **A search that leaves nothing out** has seen all there is. -/
theorem of_cover (R : Set α) (hR : ∀ a ∈ R, P a) (hs : ∀ a ∈ R, ∀ b, E a b → b ∈ R ∨ AllBelow E P b) (ha : a ∈ R) :
    AllBelow E P a := by
  intro c hac
  induction hac using Relation.ReflTransGen.head_induction_on with
  | refl => exact hR c ha
  | head hab hc ih =>
    rcases hs _ ha _ hab with hb | hb
    · exact ih hb
    · exact hb c hc

end AllBelow

end Xrpld
