import Mathlib.Data.Fintype.Pigeonhole
import Mathlib.Data.List.Perm.Subperm
import Mathlib.Data.Nat.ModEq
import Mathlib.Data.Set.Finite.Basic
import Mathlib.Order.Interval.Finset.Nat

/-!
# Rotors

A rotor is a hand that goes round `m` places, one place at a time. `turns m h k` are the places it
names in `k` turns from `h` on; in a round of `m` turns it names each of them exactly once.

A `Walk` moves about among many rotors: at each step it turns the rotor it is at, and no other.
A rotor that such a walk comes back to again and again is seen at every one of its places, again
and again (`Walk.recurrent_hand`), whatever the other rotors do.
-/

set_option autoImplicit false

namespace Allora
namespace Rotor

/-! ## One rotor -/

/-- The places that a hand of `m` names from `h` on, in `k` turns. -/
def turns (m h k : Nat) : List Nat := (List.range k).map fun i => (h + i) % m

@[simp] theorem turns_zero (m h : Nat) : turns m h 0 = [] := rfl

@[simp] theorem length_turns (m h k : Nat) : (turns m h k).length = k := by simp [turns]

theorem turns_mod (m h k : Nat) : turns m (h % m) k = turns m h k := by
  simp [turns, Nat.mod_add_mod]

theorem turns_add (m h j k : Nat) : turns m h (j + k) = turns m h j ++ turns m (h + j) k := by
  rw [turns, List.range_add, List.map_append, List.map_map, turns, turns]
  congr 2
  funext i
  exact congrArg (· % m) (Nat.add_assoc h j i).symm

theorem turns_succ {m h : Nat} (hlt : h < m) (k : Nat) :
    turns m h (k + 1) = h :: turns m ((h + 1) % m) k := by
  rw [Nat.add_comm, turns_add, turns_mod]
  simp [turns, Nat.mod_eq_of_lt hlt]

/-- A part of the turns is again the turns of the hand, from further on. -/
theorem take_drop_turns {m h k a n : Nat} (hle : a + n ≤ k) :
    ((turns m h k).drop a).take n = turns m (h + a) n := by
  obtain ⟨rest, rfl⟩ : ∃ rest, k = a + (n + rest) := ⟨k - a - n, by omega⟩
  rw [turns_add, turns_add, List.drop_left' (length_turns m h a),
    List.take_left' (length_turns m (h + a) n)]

/-- **In one round every place is named exactly once.** -/
theorem turns_perm {m : Nat} (hm : 0 < m) (h : Nat) : (turns m h m).Perm (List.range m) := by
  have hnodup : (turns m h m).Nodup := by
    refine List.Nodup.map_on ?_ List.nodup_range
    intro i hi j hj heq
    rw [List.mem_range] at hi hj
    have hmod : i % m = j % m := Nat.ModEq.add_left_cancel' h heq
    rwa [Nat.mod_eq_of_lt hi, Nat.mod_eq_of_lt hj] at hmod
  have hsub : turns m h m ⊆ List.range m := by
    intro x hx
    obtain ⟨i, -, rfl⟩ := List.mem_map.mp hx
    exact List.mem_range.mpr (Nat.mod_lt _ hm)
  exact (List.subperm_of_subset hnodup hsub).perm_of_length_le (by simp)

/-! ## Many rotors -/

/-- A walk that turns the rotor it is at, and no other. -/
structure Walk (V : Type) where
  pos : Nat → V
  hand : Nat → V → Nat
  size : V → Nat
  turn : ∀ n, hand (n + 1) (pos n) = (hand n (pos n) + 1) % size (pos n)
  still : ∀ n v, v ≠ pos n → hand (n + 1) v = hand n v

namespace Walk

variable {V : Type} (w : Walk V) {v : V}

/-- The walk comes back to `v` again and again. -/
def Recurrent (v : V) : Prop := ∀ N, ∃ n, N ≤ n ∧ w.pos n = v

/-- A walk that stays among finitely many rotors comes back to one of them. -/
theorem exists_recurrent {l : List V} (h : ∀ n, w.pos n ∈ l) : ∃ v, w.Recurrent v := by
  have : Finite {v // v ∈ l} := l.finite_toSet
  obtain ⟨⟨v, hv⟩, hinf⟩ := Finite.exists_infinite_fiber fun n => (⟨w.pos n, h n⟩ : {v // v ∈ l})
  rw [Set.infinite_coe_iff] at hinf
  refine ⟨v, fun N => ?_⟩
  obtain ⟨n, hn, hlt⟩ := hinf.exists_gt N
  refine ⟨n, Nat.le_of_lt hlt, ?_⟩
  simpa using hn

variable {w}

/-- Until the next visit the hand stays where it is. -/
theorem Recurrent.next_visit (hrec : w.Recurrent v) (n : Nat) :
    ∃ n', n ≤ n' ∧ w.pos n' = v ∧ w.hand n' v = w.hand n v := by
  classical
  have hex : ∃ k, w.pos (n + k) = v := by
    obtain ⟨m, hm, hpos⟩ := hrec n
    exact ⟨m - n, by rwa [Nat.add_sub_cancel' hm]⟩
  have hstill : ∀ k, k ≤ Nat.find hex → w.hand (n + k) v = w.hand n v := by
    intro k
    induction k with
    | zero => exact fun _ => rfl
    | succ k ih =>
      intro hk
      have hne : v ≠ w.pos (n + k) := fun heq => Nat.find_min hex hk heq.symm
      rw [← Nat.add_assoc, w.still _ _ hne, ih (Nat.le_of_succ_le hk)]
  exact ⟨n + Nat.find hex, Nat.le_add_right _ _, Nat.find_spec hex, hstill _ (Nat.le_refl _)⟩

/-- After `k` more visits the hand has moved on by `k`. -/
theorem Recurrent.visit_add (hrec : w.Recurrent v) (n : Nat) (hlt : w.hand n v < w.size v) :
    ∀ k, ∃ n', n ≤ n' ∧ w.pos n' = v ∧ w.hand n' v = (w.hand n v + k) % w.size v := by
  intro k
  induction k with
  | zero =>
    obtain ⟨n', hle, hpos, hhand⟩ := hrec.next_visit n
    exact ⟨n', hle, hpos, by rw [hhand, Nat.add_zero, Nat.mod_eq_of_lt hlt]⟩
  | succ k ih =>
    obtain ⟨n', hle, hpos, hhand⟩ := ih
    obtain ⟨n'', hle', hpos', hhand'⟩ := hrec.next_visit (n' + 1)
    refine ⟨n'', by omega, hpos', ?_⟩
    rw [hhand', ← hpos, w.turn, hpos, hhand, Nat.mod_add_mod, Nat.add_assoc]

/-- **A rotor that is visited again and again is seen at every place again and again.** -/
theorem Recurrent.recurrent_hand (hrec : w.Recurrent v) (hlt : ∀ n, w.hand n v < w.size v) {i : Nat}
    (hi : i < w.size v) (N : Nat) : ∃ n, N ≤ n ∧ w.pos n = v ∧ w.hand n v = i := by
  have hN := hlt N
  obtain ⟨n, hle, hpos, hhand⟩ := hrec.visit_add N hN (w.size v - w.hand N v + i)
  refine ⟨n, hle, hpos, ?_⟩
  rw [hhand, ← Nat.add_assoc, Nat.add_sub_cancel' (Nat.le_of_lt hN), Nat.add_mod_left,
    Nat.mod_eq_of_lt hi]

end Walk
end Rotor
end Allora
