import Allora.Timer
import Mathlib.Order.Bounds.Basic
import Mathlib.Order.Monotone.Defs
import Mathlib.Order.Nat

/-!
# When `spin_wait` keeps the time

The ticks that are due are the duration times the frequency. `convert_to_ticks` divides before it
multiplies, so what is less than a second is lost (and so is what does not fit in 64 bits), and the
loop waits for one value of the counter, so a thread that is off the core at that tick waits for
good. What remains is where neither matters.
-/

set_option autoImplicit false

namespace Allora
namespace Timer

open Outcome

/-- The ticks in a duration. -/
def due (d : Duration) : Nat := d.asMillis * TIMER_FREQ / 1000

/-- The ticks that `convert_to_ticks` finds in it. -/
def converted (d : Duration) : Nat := d.asMillis % 2 ^ 64 / 1000 * TIMER_FREQ

/-- `spin_wait` comes back in the first round that sees the ticks elapsed, and not before. -/
structure Waits (d : Duration) (start : Nat) (seen : Nat → Nat) : Prop where
  calm : ∀ fuel, ¬ Panics (spinWait d start seen fuel)
  returns_iff : ∀ i, (∃ fuel, spinWait d start seen fuel = ok i) ↔
    IsLeast {i | start + due d ≤ seen i} i

/-- The conversion loses no tick: what is beyond whole seconds is less than one. -/
def NoTickLost (d : Duration) : Prop := d.asMillis < 2 ^ 64 ∧ d.asMillis % 1000 < 100

/-! ## The conversion -/

theorem convertToTicks_eq (d : Duration) : convertToTicks d = ok (converted d) := by
  have hlt := Nat.mod_lt d.asMillis (Nat.two_pow_pos 64)
  refine if_pos ?_
  simp only [TIMER_FREQ]
  omega

theorem converted_le_due (d : Duration) : converted d ≤ due d := by
  have hle := Nat.mod_le d.asMillis (2 ^ 64)
  simp only [converted, due, TIMER_FREQ]
  omega

theorem converted_eq_due_iff (d : Duration) : converted d = due d ↔ NoTickLost d := by
  simp only [converted, due, NoTickLost, TIMER_FREQ]
  by_cases h : d.asMillis < 2 ^ 64
  · rw [Nat.mod_eq_of_lt h]
    omega
  · -- at least `2 ^ 64` milliseconds are missing
    have hmod := Nat.mod_lt d.asMillis (Nat.two_pow_pos 64)
    omega

/-! ## The loop -/

theorem spinLoop_not_panics (ticks : Nat) (seen : Nat → Nat) (fuel : Nat) :
    ∀ i, ¬ Panics (spinLoop ticks seen fuel i) := by
  induction fuel with
  | zero =>
    intro i h
    obtain ⟨msg, h⟩ := h
    cases h
  | succ fuel ih =>
    intro i
    rw [spinLoop]
    split
    · exact not_panics_ok i
    · exact ih (i + 1)

/-- From the round `k` on, the loop returns in the first round that sees `ticks`. -/
theorem spinLoop_eq_ok {ticks : Nat} {seen : Nat → Nat} (fuel : Nat) : ∀ {k i : Nat},
    spinLoop ticks seen fuel k = ok i →
      k ≤ i ∧ seen i = ticks ∧ ∀ j, k ≤ j → j < i → seen j ≠ ticks := by
  induction fuel with
  | zero =>
    intro k i h
    cases h
  | succ fuel ih =>
    intro k i h
    rw [spinLoop] at h
    by_cases hk : seen k = ticks
    · rw [if_pos hk] at h
      cases h
      exact ⟨Nat.le_refl k, hk, fun j h1 h2 => absurd h1 (Nat.not_le_of_lt h2)⟩
    · rw [if_neg hk] at h
      obtain ⟨hle, hi, hfirst⟩ := ih h
      refine ⟨by omega, hi, fun j h1 h2 => ?_⟩
      by_cases hj : j = k
      · exact hj ▸ hk
      · exact hfirst j (by omega) h2

theorem spinLoop_returns {ticks : Nat} {seen : Nat → Nat} {i : Nat} (hi : seen i = ticks)
    (fuel : Nat) : ∀ {k : Nat}, k ≤ i → i < k + fuel →
      (∀ j, k ≤ j → j < i → seen j ≠ ticks) → spinLoop ticks seen fuel k = ok i := by
  induction fuel with
  | zero =>
    intro k h1 h2
    omega
  | succ fuel ih =>
    intro k h1 h2 hfirst
    rw [spinLoop]
    by_cases hk : k = i
    · rw [if_pos (hk ▸ hi), hk]
    · rw [if_neg (hfirst k (Nat.le_refl k) (by omega))]
      exact ih (by omega) (by omega) fun j hj => hfirst j (by omega)

/-- The loop returns in the first round that sees `ticks`, and in no other. -/
theorem spinLoop_iff {ticks : Nat} {seen : Nat → Nat} {i : Nat} :
    (∃ fuel, spinLoop ticks seen fuel 0 = ok i) ↔ IsLeast {i | seen i = ticks} i := by
  constructor
  · intro h
    obtain ⟨fuel, h⟩ := h
    obtain ⟨-, hi, hfirst⟩ := spinLoop_eq_ok fuel h
    refine ⟨hi, fun j hj => ?_⟩
    by_contra hlt
    exact hfirst j (Nat.zero_le j) (by omega) hj
  · intro h
    obtain ⟨hi, hleast⟩ := h
    refine ⟨i + 1, spinLoop_returns hi (i + 1) (Nat.zero_le i) (by omega) fun j _ hj heq => ?_⟩
    exact absurd (hleast heq) (Nat.not_le_of_lt hj)

/-- A round that is ever come to has a first. -/
theorem exists_first {p : Nat → Prop} (h : ∃ i, p i) : ∃ i, IsLeast {i | p i} i := by
  classical
  exact ⟨Nat.find h, Nat.isLeast_find h⟩

/-! ## The call -/

variable {d : Duration} {start : Nat} {seen : Nat → Nat}

theorem spinWait_eq (hfits : start + converted d < 2 ^ 64) (fuel : Nat) :
    spinWait d start seen fuel = spinLoop (start + converted d) seen fuel 0 := by
  have hadd : addChecked 64 start (converted d) = ok (start + converted d) := if_pos hfits
  rw [spinWait, convertToTicks_eq, ok_bind, hadd, ok_bind]

/-- The sum of the two is checked. -/
theorem spinWait_panics (hlong : ¬ start + converted d < 2 ^ 64) (fuel : Nat) :
    Panics (spinWait d start seen fuel) := by
  have hadd : addChecked 64 start (converted d) = .panic "attempt to add with overflow" :=
    if_neg hlong
  rw [spinWait, convertToTicks_eq, ok_bind, hadd]
  exact ⟨_, rfl⟩

theorem waits_iff_isLeast :
    Waits d start seen ↔ start + converted d < 2 ^ 64 ∧
      ∀ i, IsLeast {i | seen i = start + converted d} i ↔
        IsLeast {i | start + due d ≤ seen i} i := by
  constructor
  · intro h
    have hfits : start + converted d < 2 ^ 64 := by
      by_contra hlong
      exact h.calm 0 (spinWait_panics hlong 0)
    refine ⟨hfits, fun i => ?_⟩
    rw [← h.returns_iff, ← spinLoop_iff]
    simp only [spinWait_eq hfits]
  · intro h
    obtain ⟨hfits, hiff⟩ := h
    refine ⟨fun fuel => ?_, fun i => ?_⟩
    · rw [spinWait_eq hfits]
      exact spinLoop_not_panics _ _ fuel 0
    · rw [← hiff, ← spinLoop_iff]
      simp only [spinWait_eq hfits]

/-- **`spin_wait` keeps the time exactly where** the conversion loses no tick and the first round
that sees the ticks elapsed sees none more, or where no round sees them elapsed, nor the value that
the loop waits for. -/
theorem spinWait_waits_iff (d : Duration) (start : Nat) (seen : Nat → Nat) :
    Waits d start seen ↔ start + d.asMillis % 2 ^ 64 / 1000 * TIMER_FREQ < 2 ^ 64 ∧
      ((NoTickLost d ∧ ∃ i, IsLeast {i | start + due d ≤ seen i} i ∧ seen i = start + due d) ∨
        (∀ i, seen i < start + due d) ∧
          ∀ i, seen i ≠ start + d.asMillis % 2 ^ 64 / 1000 * TIMER_FREQ) := by
  rw [waits_iff_isLeast]
  refine and_congr_right fun _ => ?_
  show _ ↔ (NoTickLost d ∧ ∃ i, IsLeast {i | start + due d ≤ seen i} i ∧ seen i = start + due d) ∨
    (∀ i, seen i < start + due d) ∧ ∀ i, seen i ≠ start + converted d
  have hle := converted_le_due d
  constructor
  · intro h
    by_cases hreach : ∃ i, start + due d ≤ seen i
    · -- the round that should return does, and what it sees is both
      obtain ⟨k, hfirst⟩ := exists_first hreach
      have hseen : seen k = start + converted d := ((h k).mpr hfirst).1
      have hge : start + due d ≤ seen k := hfirst.1
      exact Or.inl ⟨(converted_eq_due_iff d).mp (by omega), k, hfirst, by omega⟩
    · simp only [not_exists, Nat.not_le] at hreach
      refine Or.inr ⟨hreach, fun i hi => ?_⟩
      -- otherwise a round that sees the other value returns
      obtain ⟨k, hfirst⟩ : ∃ k, IsLeast {i | seen i = start + converted d} k :=
        exists_first ⟨i, hi⟩
      have hgoal : start + due d ≤ seen k := ((h k).mp hfirst).1
      exact absurd (hreach k) (Nat.not_lt_of_le hgoal)
  · intro h i
    rcases h with ⟨hexact, k, hk, hseen⟩ | ⟨hshort, hmiss⟩
    · have heq : converted d = due d := (converted_eq_due_iff d).mpr hexact
      have hk' : IsLeast {i | seen i = start + converted d} k := by
        refine ⟨by rw [heq]; exact hseen, fun j hj => hk.2 ?_⟩
        have hj' : seen j = start + converted d := hj
        show start + due d ≤ seen j
        omega
      constructor
      · intro hi
        rwa [hi.unique hk']
      · intro hi
        rwa [hi.unique hk]
    · constructor
      · intro hi
        exact absurd hi.1 (hmiss i)
      · intro hi
        exact absurd hi.1 (Nat.not_le_of_lt (hshort i))

/-- One second. -/
def second : Duration := ⟨1, 0, by decide, by decide⟩

/-- Half a second. -/
def halfSecond : Duration := ⟨0, 500000000, by decide, by decide⟩

/-- A thread that reads the counter at every third tick waits for a second without end, and half a
second is over at once. -/
theorem spinWait_misses : (Monotone fun i : Nat => 3 * i) ∧ ¬ Waits second 0 (fun i => 3 * i) ∧
    (Monotone fun i : Nat => i) ∧ ¬ Waits halfSecond 0 (fun i => i) := by
  refine ⟨fun i j h => Nat.mul_le_mul_left 3 h, ?_, fun i j h => h, ?_⟩
  · rw [waits_iff_isLeast]
    intro h
    have hten : IsLeast {i | 0 + due second ≤ 3 * i} 4 := by
      have hdue : 0 + due second = 10 := rfl
      refine ⟨Nat.le_add_right 10 2, fun j hj => ?_⟩
      have hj' : 0 + due second ≤ 3 * j := hj
      omega
    have hseen : 3 * 4 = 0 + converted second := ((h.2 4).mpr hten).1
    exact absurd hseen (by decide)
  · rw [waits_iff_isLeast]
    intro h
    have hzero : IsLeast {i | i = 0 + converted halfSecond} 0 :=
      ⟨by decide, fun j _ => Nat.zero_le j⟩
    have hdue : 0 + due halfSecond ≤ 0 := ((h.2 0).mp hzero).1
    exact absurd hdue (by decide)

end Timer
end Allora
