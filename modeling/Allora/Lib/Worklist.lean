import Mathlib.Algebra.BigOperators.Group.Finset.Basic
import Mathlib.Data.Finset.Card
import Mathlib.Logic.Relation

/-!
# Exploring a graph from a worklist

A search keeps a worklist of vertices to look at and a list of those it has visited. It takes one
vertex at a time from the list: a visited one is dropped, and of any other the successors join the
list. So a vertex may wait in the list many times, and cycles do no harm.

`Explored` is what both steps keep, in whatever order vertices are taken: `Explored.drop` and
`Explored.visit`. With an empty worklist, the visited vertices are those that can be reached
(`Explored.done`). `pending` counts the successors of the vertices still to be visited; together
with the length of the worklist it goes down by one at each step.
-/

set_option autoImplicit false

namespace Allora
namespace Worklist

variable {V : Type} (next : V → List V)

/-- A path of successors. -/
def Reach : V → V → Prop := Relation.ReflTransGen fun a b => b ∈ next a

theorem Reach.step {next : V → List V} {s a b : V} (h : Reach next s a) (hb : b ∈ next a) :
    Reach next s b :=
  Relation.ReflTransGen.tail h hb

/-- What is reached from a closed set stays in it. -/
theorem Reach.mem {next : V → List V} {s c : V} {P : V → Prop} (h : Reach next s c) (hs : P s)
    (hclosed : ∀ a, P a → ∀ b ∈ next a, P b) : P c := by
  induction h with
  | refl => exact hs
  | tail _ hb ih => exact hclosed _ ih _ hb

/-- Everything seen can be reached, and what a visited vertex leads to is seen. -/
structure Explored (s : V) (work visited : List V) : Prop where
  nodup : visited.Nodup
  start : s ∈ visited ∨ s ∈ work
  sound : ∀ a, a ∈ visited ∨ a ∈ work → Reach next s a
  closed : ∀ a ∈ visited, ∀ b ∈ next a, b ∈ visited ∨ b ∈ work

variable {next : V → List V} {s c : V} {rest visited : List V}

theorem Explored.init (s : V) : Explored next s [s] [] where
  nodup := List.nodup_nil
  start := .inr (List.mem_singleton_self s)
  sound a ha := by
    rcases ha with ha | ha
    · cases ha
    · rw [List.mem_singleton.mp ha]
      exact Relation.ReflTransGen.refl
  closed a ha := by cases ha

/-- A vertex that was visited before is dropped. -/
theorem Explored.drop (h : Explored next s (rest ++ [c]) visited) (hc : c ∈ visited) :
    Explored next s rest visited := by
  have hwork : ∀ a, a ∈ visited ∨ a ∈ rest ++ [c] → a ∈ visited ∨ a ∈ rest := by
    intro a ha
    rcases ha with ha | ha
    · exact .inl ha
    · rcases List.mem_append.mp ha with ha | ha
      · exact .inr ha
      · exact .inl (List.mem_singleton.mp ha ▸ hc)
  refine ⟨h.nodup, hwork s h.start, fun a ha => h.sound a ?_, fun a ha b hb => ?_⟩
  · exact ha.imp_right fun hr => List.mem_append_left _ hr
  · exact hwork b (h.closed a ha b hb)

/-- A new vertex is visited, and its successors wait. -/
theorem Explored.visit (h : Explored next s (rest ++ [c]) visited) (hc : c ∉ visited) :
    Explored next s (rest ++ next c) (visited ++ [c]) := by
  have hreach : Reach next s c := h.sound c (.inr (by simp))
  have hwork : ∀ a, a ∈ visited ∨ a ∈ rest ++ [c] →
      a ∈ visited ++ [c] ∨ a ∈ rest ++ next c := by
    intro a ha
    rw [List.mem_append, List.mem_append] at *
    tauto
  refine ⟨?_, hwork s h.start, ?_, ?_⟩
  · rw [List.nodup_append_comm]
    exact List.nodup_cons.mpr ⟨hc, h.nodup⟩
  · intro a ha
    simp only [List.mem_append, List.mem_singleton] at ha
    rcases ha with (ha | rfl) | (ha | ha)
    · exact h.sound a (.inl ha)
    · exact hreach
    · exact h.sound a (.inr (List.mem_append_left _ ha))
    · exact hreach.step ha
  · intro a ha b hb
    rcases List.mem_append.mp ha with ha | ha
    · exact hwork b (h.closed a ha b hb)
    · rw [List.mem_singleton.mp ha] at hb
      exact .inr (List.mem_append_right _ hb)

/-- **When nothing waits, exactly what can be reached was visited.** -/
theorem Explored.done (h : Explored next s [] visited) (a : V) : a ∈ visited ↔ Reach next s a := by
  constructor
  · intro ha
    exact h.sound a (.inl ha)
  · intro ha
    induction ha with
    | refl => simpa using h.start
    | tail _ hb ih => simpa using h.closed _ ih _ hb

/-! ## Termination -/

section Pending

variable [DecidableEq V] {nodes : Finset V}

/-- The successors that vertices not yet visited may still add. -/
def pending (next : V → List V) (nodes : Finset V) (visited : List V) : Nat :=
  ∑ a ∈ nodes.filter (· ∉ visited), (next a).length

theorem pending_visit (hc : c ∈ nodes) (hnew : c ∉ visited) :
    pending next nodes visited = (next c).length + pending next nodes (visited ++ [c]) := by
  have hsplit : nodes.filter (· ∉ visited) = insert c (nodes.filter (· ∉ visited ++ [c])) := by
    ext a
    simp only [Finset.mem_filter, Finset.mem_insert, List.mem_append, List.mem_singleton]
    by_cases hac : a = c
    · subst hac
      simp [hc, hnew]
    · simp [hac]
  rw [pending, hsplit, Finset.sum_insert (by simp), pending]

end Pending

end Worklist
end Allora
