import Mathlib.Algebra.BigOperators.Group.List.Basic
import Mathlib.Algebra.Order.Ring.Nat
import Mathlib.Data.Nat.ModEq
import Mathlib.Tactic.Common

/-!
# Ones' complement sums

Digits run from 0 to `m`, the digit of all ones. A sum that passes `m` has its carry added at the
low end again, so that sums count modulo `m`, except that zero has two digits: `m` is one as well,
and a sum is 0 only if everything added was. `norm m s` is the digit that the sum `s` comes to.

Adding digit by digit with the carry put back (`endAround`), and adding up first and folding the
carries at the end (`fold`), both come to it. A sum together with its complement is `m`.
-/

set_option autoImplicit false

namespace Allora
namespace OnesComplement

variable {m a b s : Nat}

/-- The digit for a sum. -/
def norm (m s : Nat) : Nat := if s = 0 then 0 else (s - 1) % m + 1

@[simp] theorem norm_zero (m : Nat) : norm m 0 = 0 := rfl

theorem norm_pos (h : 0 < s) : norm m s = (s - 1) % m + 1 := if_neg (Nat.ne_of_gt h)

theorem norm_le (hm : 0 < m) : norm m s ≤ m := by
  unfold norm
  split
  · exact Nat.zero_le m
  · exact Nat.mod_lt _ hm

theorem norm_of_le (h : s ≤ m) : norm m s = s := by
  unfold norm
  split
  · exact Eq.symm ‹s = 0›
  · rw [Nat.mod_eq_of_lt (by omega)]
    omega

theorem norm_eq_zero_iff : norm m s = 0 ↔ s = 0 := by
  unfold norm
  split
  · simp [*]
  · simp [*]

/-- **Two sums come to the same digit** if they are the same modulo `m`, and neither or both 0. -/
theorem norm_eq_norm_iff : norm m a = norm m b ↔ a % m = b % m ∧ (a = 0 ↔ b = 0) := by
  rcases Nat.eq_zero_or_pos a with rfl | ha
  · rw [norm_zero, eq_comm, norm_eq_zero_iff]
    constructor
    · rintro rfl
      simp
    · rintro ⟨-, hb⟩
      exact hb.mp rfl
  · rcases Nat.eq_zero_or_pos b with rfl | hb
    · rw [norm_zero, norm_eq_zero_iff]
      constructor
      · rintro rfl
        simp
      · rintro ⟨-, hab⟩
        exact hab.mpr rfl
    · rw [norm_pos ha, norm_pos hb, Nat.add_right_cancel_iff]
      have hmod : (a - 1) % m = (b - 1) % m ↔ a % m = b % m := by
        constructor
        · intro h
          have hsucc : (a - 1 + 1) % m = (b - 1 + 1) % m := Nat.ModEq.add_right 1 h
          rwa [Nat.sub_add_cancel ha, Nat.sub_add_cancel hb] at hsucc
        · intro h
          refine Nat.ModEq.add_right_cancel' 1 ?_
          rwa [Nat.sub_add_cancel ha, Nat.sub_add_cancel hb]
      rw [hmod]
      exact (and_iff_left (by omega)).symm

theorem norm_mod (m s : Nat) : norm m s % m = s % m := by
  rcases Nat.eq_zero_or_pos s with rfl | hs
  · rfl
  · rw [norm_pos hs, Nat.mod_add_mod, Nat.sub_add_cancel hs]

/-- A digit may stand for the sum it came from. -/
theorem norm_norm_add (m a b : Nat) : norm m (norm m a + b) = norm m (a + b) := by
  rw [norm_eq_norm_iff]
  constructor
  · rw [Nat.add_mod, norm_mod, ← Nat.add_mod]
  · rw [Nat.add_eq_zero_iff, Nat.add_eq_zero_iff, norm_eq_zero_iff]

/-! ## Adding with the carry put back -/

/-- The sum of two digits. -/
def endAround (m a b : Nat) : Nat := if a + b ≤ m then a + b else a + b - m

theorem endAround_eq (ha : a ≤ m) (hb : b ≤ m) : endAround m a b = norm m (a + b) := by
  unfold endAround
  split
  · exact (norm_of_le ‹_›).symm
  · have hlow : a + b - m ≤ m := by omega
    rw [← norm_of_le hlow, norm_eq_norm_iff]
    constructor
    · conv_rhs => rw [← Nat.sub_add_cancel (show m ≤ a + b by omega), Nat.add_mod_right]
    · omega

/-- The sum of digits, from the first on. -/
def endAroundSum (m : Nat) (ds : List Nat) : Nat := ds.foldl (endAround m) 0

theorem foldl_endAround (hm : 0 < m) :
    ∀ {ds : List Nat} (acc : Nat), acc ≤ m → (∀ d ∈ ds, d ≤ m) →
      ds.foldl (endAround m) acc = norm m (acc + ds.sum) := by
  intro ds
  induction ds with
  | nil =>
    intro acc hacc _
    rw [List.foldl_nil, List.sum_nil, Nat.add_zero, norm_of_le hacc]
  | cons d ds ih =>
    intro acc hacc hds
    rw [List.foldl_cons, endAround_eq hacc (hds d List.mem_cons_self),
      ih _ (norm_le hm) (fun d' hd' => hds d' (List.mem_cons_of_mem d hd')), norm_norm_add,
      List.sum_cons, Nat.add_assoc]

/-- **Digit by digit, the sum is that of the numbers.** -/
theorem endAroundSum_eq (hm : 0 < m) {ds : List Nat} (h : ∀ d ∈ ds, d ≤ m) :
    endAroundSum m ds = norm m ds.sum := by
  rw [endAroundSum, foldl_endAround hm 0 (Nat.zero_le m) h, Nat.zero_add]

/-! ## Folding the carries at the end -/

/-- The low digit and the carries. -/
def fold (m s : Nat) : Nat := s % (m + 1) + s / (m + 1)

theorem fold_add (m s : Nat) : fold m s + m * (s / (m + 1)) = s := by
  have hdiv := Nat.mod_add_div s (m + 1)
  rw [Nat.succ_mul] at hdiv
  unfold fold
  omega

theorem norm_fold (m s : Nat) : norm m (fold m s) = norm m s := by
  have h := fold_add m s
  rw [norm_eq_norm_iff]
  constructor
  · conv_rhs => rw [← h, Nat.add_mul_mod_self_left]
  · constructor
    · intro hzero
      obtain ⟨-, hdiv⟩ := Nat.add_eq_zero_iff.mp hzero
      rw [← h, hzero, hdiv]
      rfl
    · rintro rfl
      simp [fold]

/-! ## The complement -/

/-- **A sum and its complement.** -/
theorem norm_add_complement (hm : 0 < m) (s : Nat) : norm m (s + (m - norm m s)) = m := by
  rw [← norm_norm_add, Nat.add_sub_cancel' (norm_le hm), norm_of_le (Nat.le_refl m)]

end OnesComplement
end Allora
