import Allora.Apps

/-!
# What the shell emits

The shell hands each piece of its output to a closure, and does not look at what the closure does.
So a command can be run once with a closure that takes notes, and any other closure then is fed
these notes one by one.
-/

set_option autoImplicit false

namespace Allora
namespace Apps

open Outcome

/-- The closure that takes notes. -/
def record (outs : List (List UInt8)) (out : List UInt8) : Outcome (List (List UInt8)) :=
  ok (outs ++ [out])

theorem foldlM_record (outs acc : List (List UInt8)) : outs.foldlM record acc = ok (acc ++ outs) := by
  induction outs generalizing acc with
  | nil => simp
  | cons out outs ih => rw [List.foldlM_cons, record, ok_bind, ih, List.append_assoc, List.cons_append,
      List.nil_append]

namespace Shell

variable {σ : Type} {w : World} {f : σ → List UInt8 → Outcome σ} {sh sh' : Shell} {s s' : σ}

theorem getRandom_emits : sh.getRandom w f s = ok (sh', s') ↔
    ∃ outs, sh.getRandom w record [] = ok (sh', outs) ∧ outs.foldlM f s = ok s' := by
  unfold getRandom
  cases sh.entropyRead w 16 with
  | ok r =>
    simp only [ok_bind, bind_eq_ok, record, pure_eq_ok, Outcome.ok.injEq, Prod.mk.injEq]
    constructor
    · rintro ⟨s₁, h₁, s₂, h₂, rfl, rfl⟩
      exact ⟨_, ⟨rfl, rfl⟩, by simp [h₁, h₂]⟩
    · rintro ⟨_, ⟨rfl, rfl⟩, h⟩
      obtain ⟨s₁, h₁, h⟩ := bind_eq_ok.mp h
      obtain ⟨s₂, h₂, h⟩ := bind_eq_ok.mp h
      cases h
      exact ⟨s₁, h₁, s', h₂, rfl, rfl⟩
  | panic msg => simp
  | timeout => simp

theorem writeRandom_emits {words : List (List UInt8)} : sh.writeRandom w f words s = ok (sh', s') ↔
    ∃ outs, sh.writeRandom w record words [] = ok (sh', outs) ∧ outs.foldlM f s = ok s' := by
  unfold writeRandom
  cases sh.writeRandomLoop w (argument words 0 0) (argument words 1 0) with
  | ok r => simp [record, bind_eq_ok, and_comm]
  | panic msg => simp
  | timeout => simp

/-- By induction on the length that is left; the rest of the run is fed what comes after the first
piece, whoever takes it. -/
theorem readLoop_emits {sector len : Nat} : ∀ {σ : Type} {f : σ → List UInt8 → Outcome σ}
    {sh sh' : Shell} {data : List UInt8} {s s' : σ},
    sh.readLoop w f sector data len s = ok (sh', s') ↔
      ∃ outs, sh.readLoop w record sector data len [] = ok (sh', outs) ∧ outs.foldlM f s = ok s' := by
  induction len using Nat.strongRecOn with
  | ind len ih =>
    intro σ f sh sh' data s s'
    rw [readLoop, readLoop]
    cases sh.blkRead w sector data with
    | panic msg => simp
    | timeout => simp
    | ok r =>
      obtain ⟨sh₁, data₁⟩ := r
      simp only [ok_bind]
      by_cases hlen : len > 512
      · simp only [dif_pos hlen, record, ok_bind, List.nil_append, bind_eq_ok]
        have hnotes : ∀ outs, sh₁.readLoop w record sector data₁ (len - 512) [data₁] =
            ok (sh', outs) ↔ ∃ rest, sh₁.readLoop w record sector data₁ (len - 512) [] =
              ok (sh', rest) ∧ outs = data₁ :: rest := by
          intro outs
          rw [ih _ (by omega)]
          simp [foldlM_record, eq_comm]
        constructor
        · rintro ⟨s₁, h₁, h⟩
          obtain ⟨rest, hrest, hfold⟩ := (ih _ (by omega)).mp h
          exact ⟨data₁ :: rest, (hnotes _).mpr ⟨rest, hrest, rfl⟩, bind_eq_ok.mpr ⟨s₁, h₁, hfold⟩⟩
        · rintro ⟨outs, houts, hfold⟩
          obtain ⟨rest, hrest, rfl⟩ := (hnotes outs).mp houts
          obtain ⟨s₁, h₁, hfold⟩ := bind_eq_ok.mp hfold
          exact ⟨s₁, h₁, (ih _ (by omega)).mpr ⟨rest, hrest, hfold⟩⟩
      · simp [dif_neg hlen, record, bind_eq_ok, and_comm]

/-- The three commands that go on after their output. -/
theorem feeds {x : Outcome (Shell × σ)} {y : Outcome (Shell × List (List UInt8))} {exit : Bool}
    (h : ∀ sh' s', x = ok (sh', s') ↔ ∃ outs, y = ok (sh', outs) ∧ outs.foldlM f s = ok s') :
    (x >>= fun r => pure (r.1, r.2, false)) = ok (sh', s', exit) ↔
      ∃ outs, (y >>= fun r => pure (r.1, r.2, false)) = ok (sh', outs, exit) ∧
        outs.foldlM f s = ok s' := by
  simp only [bind_eq_ok, pure_eq_ok, Outcome.ok.injEq, Prod.mk.injEq]
  constructor
  · rintro ⟨⟨sh₁, s₁⟩, hx, rfl, rfl, rfl⟩
    obtain ⟨outs, hy, hfold⟩ := (h _ _).mp hx
    exact ⟨outs, ⟨_, hy, rfl, rfl, rfl⟩, hfold⟩
  · rintro ⟨outs, ⟨⟨sh₁, outs₁⟩, hy, rfl, rfl, rfl⟩, hfold⟩
    exact ⟨_, (h _ _).mpr ⟨outs₁, hy, hfold⟩, rfl, rfl, rfl⟩

/-- **A line feeds its output to the closure**, whatever the closure is. -/
theorem doLine_emits {line : List UInt8} {exit : Bool} : sh.doLine w f line s = ok (sh', s', exit) ↔
    ∃ outs, sh.doLine w record line [] = ok (sh', outs, exit) ∧ outs.foldlM f s = ok s' := by
  unfold doLine
  cases hcmd : command (firstLine line) with
  | rand =>
    simp only [hcmd]
    exact feeds fun _ _ => getRandom_emits
  | writeRand words =>
    simp only [hcmd]
    exact feeds fun _ _ => writeRandom_emits
  | read words =>
    simp only [hcmd]
    exact feeds fun _ _ => readLoop_emits
  | exit => simp [hcmd, and_assoc, and_comm, and_left_comm]
  | unknown =>
    simp only [hcmd, bind_eq_ok, record, pure_eq_ok, ok_bind, Outcome.ok.injEq, Prod.mk.injEq]
    constructor
    · rintro ⟨s₁, h₁, s₂, h₂, s₃, h₃, rfl, rfl, rfl⟩
      exact ⟨_, ⟨rfl, rfl, rfl⟩, by simp [h₁, h₂, h₃]⟩
    · rintro ⟨_, ⟨rfl, rfl, rfl⟩, h⟩
      obtain ⟨s₁, h₁, h⟩ := bind_eq_ok.mp h
      obtain ⟨s₂, h₂, h⟩ := bind_eq_ok.mp h
      obtain ⟨s₃, h₃, h⟩ := bind_eq_ok.mp h
      cases h
      exact ⟨s₁, h₁, s₂, h₂, s', h₃, rfl, rfl, rfl⟩

end Shell
end Apps
end Allora
