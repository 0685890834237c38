import Mathlib.Tactic.Common

/-!
# Containers of a fixed capacity

A `Bounded α cap` is a sequence of at most `cap` elements. As a stack it grows and shrinks at its
end, and refuses to grow beyond its capacity; a map is a sequence of entries, in which a key that is
there already takes no further room.
-/

set_option autoImplicit false

namespace Allora

/-- At most `cap` elements. -/
structure Bounded (α : Type) (cap : Nat) where
  elems : List α
  fits : elems.length ≤ cap

namespace Bounded

variable {α κ : Type} {cap : Nat}

def empty : Bounded α cap := ⟨[], Nat.zero_le cap⟩

/-- One more at the end, if there is room. -/
def push (b : Bounded α cap) (a : α) : Option (Bounded α cap) :=
  if h : (b.elems ++ [a]).length ≤ cap then some ⟨b.elems ++ [a], h⟩ else none

/-- The last one, and what is before it. -/
def pop (b : Bounded α cap) : Option (α × Bounded α cap) :=
  match b.elems.getLast? with
  | some a =>
      some (a, ⟨b.elems.dropLast, Nat.le_trans (List.dropLast_sublist b.elems).length_le b.fits⟩)
  | none => none

/-- The key has an entry. -/
def containsKey [DecidableEq κ] (b : Bounded (κ × α) cap) (k : κ) : Bool :=
  b.elems.any fun e => e.1 = k

/-- The entry of the key is replaced, or a new one is made. -/
def insert [DecidableEq κ] (b : Bounded (κ × α) cap) (k : κ) (v : α) :
    Option (Bounded (κ × α) cap) :=
  if b.containsKey k then
    some ⟨b.elems.map fun e => if e.1 = k then (k, v) else e, by
      rw [List.length_map]
      exact b.fits⟩
  else
    b.push (k, v)

@[simp] theorem pop_nil (h : ([] : List α).length ≤ cap) :
    (⟨[], h⟩ : Bounded α cap).pop = none := rfl

theorem push_mk {l : List α} (h : l.length ≤ cap) (a : α) (h' : (l ++ [a]).length ≤ cap) :
    (⟨l, h⟩ : Bounded α cap).push a = some ⟨l ++ [a], h'⟩ := dif_pos h'

theorem pop_mk {l : List α} {a : α} (h : (l ++ [a]).length ≤ cap) (h' : l.length ≤ cap) :
    (⟨l ++ [a], h⟩ : Bounded α cap).pop = some (a, ⟨l, h'⟩) := by
  simp [pop]

section Map

variable [DecidableEq κ] {b : Bounded (κ × α) cap} {k : κ}

theorem containsKey_eq_true_iff : b.containsKey k = true ↔ k ∈ b.elems.map Prod.fst := by
  simp only [containsKey, List.any_eq_true, decide_eq_true_eq, List.mem_map]

theorem containsKey_eq_false_iff : b.containsKey k = false ↔ k ∉ b.elems.map Prod.fst := by
  rw [← containsKey_eq_true_iff, Bool.not_eq_true]

/-- A new key needs room. -/
theorem insert_new (hk : k ∉ b.elems.map Prod.fst) (v : α) : b.insert k v = b.push (k, v) := by
  rw [insert, containsKey_eq_false_iff.mpr hk]
  rfl

end Map

end Bounded
end Allora
