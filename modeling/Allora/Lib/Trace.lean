import Mathlib.Data.List.Induction
import Mathlib.Tactic.Common

/-!
# Machines that take turns

A `Machine` is a step function from a state and a turn to the next state, together with what an
onlooker sees of the step. A schedule is a list of turns, a run is the fold of the step function
over it, and its trace is what was seen, in order. Interleavings of several threads are schedules
of a machine whose turns name the thread that moves.

`Machine.run_invariant` is the main rule: an invariant of the state and the trace so far holds
after every run, if one step keeps it. The rule carries an assumption `G` about the trace, for runs
in which the outside world keeps to a contract; `G` must be closed under taking prefixes, so that
it can be used at each step.

`Machine.exists_run` is the rule for what can be reached: a rank that some turn brings down.

A condition can also be asked of each step, on the state before it: `Machine.Throughout`. If steps
that meet `C` keep an invariant, and the invariant makes two conditions the same, then a run meets
one throughout if and only if it meets the other (`Machine.throughout_iff`).

`Always` speaks of a trace alone: each event of it is one that what came before allows.
-/

set_option autoImplicit false

namespace Allora

/-- A step function, with what can be seen of a step. -/
structure Machine (σ τ ε : Type) where
  step : σ → τ → σ × List ε

namespace Machine

variable {σ τ ε : Type} (M : Machine σ τ ε)

/-- The state and the trace after a schedule. -/
def run (s : σ) (turns : List τ) : σ × List ε :=
  turns.foldl (fun p t => ((M.step p.1 t).1, p.2 ++ (M.step p.1 t).2)) (s, [])

@[simp] theorem run_nil (s : σ) : M.run s [] = (s, []) := rfl

theorem run_concat (s : σ) (turns : List τ) (t : τ) :
    M.run s (turns ++ [t]) = ((M.step (M.run s turns).1 t).1,
      (M.run s turns).2 ++ (M.step (M.run s turns).1 t).2) := by
  rw [run, List.foldl_append]
  rfl

/-- **What one step keeps, a run keeps.** -/
theorem run_invariant {P : σ → List ε → Prop} {G : List ε → Prop} {s : σ}
    (hG : ∀ {es es' : List ε}, G (es ++ es') → G es) (hinit : P s [])
    (hstep : ∀ s es t, P s es → G (es ++ (M.step s t).2) →
      P (M.step s t).1 (es ++ (M.step s t).2)) :
    ∀ turns : List τ, G (M.run s turns).2 → P (M.run s turns).1 (M.run s turns).2 := by
  intro turns
  induction turns using List.reverseRecOn with
  | nil => exact fun _ => hinit
  | append_singleton turns t ih =>
    rw [run_concat]
    exact fun h => hstep _ _ t (ih (hG h)) h

/-- **A run that can always come closer can get there.** Every schedule can be carried on until `Q`
holds, if as long as it does not there is a turn that brings `rank` down. -/
theorem exists_run {P : σ → List ε → Prop} {Q : σ → Prop} (rank : σ → Nat) {s : σ}
    (hP : ∀ turns, P (M.run s turns).1 (M.run s turns).2)
    (hcloser : ∀ s es, P s es → ¬ Q s → ∃ t, rank (M.step s t).1 < rank s) (turns : List τ) :
    ∃ more, Q (M.run s (turns ++ more)).1 := by
  generalize hn : rank (M.run s turns).1 = n
  induction n using Nat.strongRecOn generalizing turns with
  | ind n ih =>
    by_cases hQ : Q (M.run s turns).1
    · refine ⟨[], ?_⟩
      rwa [List.append_nil]
    · obtain ⟨t, ht⟩ := hcloser _ _ (hP turns) hQ
      have hlt : rank (M.run s (turns ++ [t])).1 < n := by
        rw [run_concat, ← hn]
        exact ht
      obtain ⟨more, hmore⟩ := ih _ hlt (turns ++ [t]) rfl
      refine ⟨t :: more, ?_⟩
      rwa [List.append_assoc] at hmore

/-- `C` holds before every step of the schedule. -/
def Throughout (C : σ → List ε → τ → Prop) (s : σ) (turns : List τ) : Prop :=
  ∀ pre t, pre ++ [t] <+: turns → C (M.run s pre).1 (M.run s pre).2 t

theorem throughout_nil (C : σ → List ε → τ → Prop) (s : σ) : M.Throughout C s [] := by
  intro pre t h
  simp at h

theorem throughout_concat {C : σ → List ε → τ → Prop} {s : σ} {turns : List τ} {t : τ} :
    M.Throughout C s (turns ++ [t]) ↔
      M.Throughout C s turns ∧ C (M.run s turns).1 (M.run s turns).2 t := by
  constructor
  · intro h
    refine ⟨fun pre u hpre => h pre u (hpre.trans (List.prefix_append _ _)), ?_⟩
    exact h turns t (List.prefix_refl _)
  · rintro ⟨h, ht⟩ pre u hpre
    rcases List.prefix_concat_iff.mp hpre with heq | hpre
    · obtain ⟨rfl, hu⟩ := List.append_inj' heq rfl
      cases hu
      exact ht
    · exact h pre u hpre

/-- The state alone. -/
theorem run_fst (s : σ) (turns : List τ) :
    (M.run s turns).1 = turns.foldl (fun s t => (M.step s t).1) s := by
  induction turns using List.reverseRecOn with
  | nil => rfl
  | append_singleton turns t ih =>
    rw [run_concat, List.foldl_append, ← ih]
    rfl

/-- A condition on the state alone, one turn at a time. -/
theorem throughout_cons {C : σ → τ → Prop} {s : σ} {t : τ} {turns : List τ} :
    M.Throughout (fun s _ t => C s t) s (t :: turns) ↔
      C s t ∧ M.Throughout (fun s _ t => C s t) (M.step s t).1 turns := by
  have hrun : ∀ pre, (M.run s (t :: pre)).1 = (M.run (M.step s t).1 pre).1 := by
    intro pre
    rw [run_fst, run_fst, List.foldl_cons]
  constructor
  · intro h
    refine ⟨h [] t (by simp), ?_⟩
    intro pre u hpre
    have hu := h (t :: pre) u (List.cons_prefix_cons.mpr ⟨rfl, hpre⟩)
    rwa [hrun] at hu
  · intro ⟨ht, h⟩ pre u hpre
    cases pre with
    | nil =>
      obtain ⟨rfl, -⟩ := List.cons_prefix_cons.mp hpre
      exact ht
    | cons v pre =>
      obtain ⟨rfl, hrest⟩ := List.cons_prefix_cons.mp hpre
      rw [hrun]
      exact h pre u hrest

/-- A schedule can be checked. -/
instance decidableThroughout {C : σ → τ → Prop} [∀ s t, Decidable (C s t)] :
    ∀ (s : σ) (turns : List τ), Decidable (M.Throughout (fun s _ t => C s t) s turns)
  | s, [] => isTrue (M.throughout_nil _ s)
  | s, t :: turns =>
    have : Decidable (M.Throughout (fun s _ t => C s t) (M.step s t).1 turns) :=
      decidableThroughout (M.step s t).1 turns
    decidable_of_iff (C s t ∧ M.Throughout (fun s _ t => C s t) (M.step s t).1 turns)
      M.throughout_cons.symm

/-- **What a step that meets `C` keeps, a run that meets it throughout keeps.** -/
theorem Throughout.invariant {P : σ → List ε → Prop} {C : σ → List ε → τ → Prop} {s : σ}
    {turns : List τ} (hinit : P s [])
    (hstep : ∀ s es t, P s es → C s es t → P (M.step s t).1 (es ++ (M.step s t).2))
    (h : M.Throughout C s turns) : P (M.run s turns).1 (M.run s turns).2 := by
  induction turns using List.reverseRecOn with
  | nil => exact hinit
  | append_singleton turns t ih =>
    obtain ⟨hbefore, ht⟩ := (M.throughout_concat).mp h
    rw [run_concat]
    exact hstep _ _ t (ih hbefore) ht

/-- **Two conditions that the invariant makes the same.** -/
theorem throughout_iff {P : σ → List ε → Prop} {A C : σ → List ε → τ → Prop} {s : σ}
    (hinit : P s [])
    (hstep : ∀ s es t, P s es → C s es t → P (M.step s t).1 (es ++ (M.step s t).2))
    (hiff : ∀ s es t, P s es → (A s es t ↔ C s es t)) (turns : List τ) :
    M.Throughout A s turns ↔ M.Throughout C s turns := by
  induction turns using List.reverseRecOn with
  | nil => exact iff_of_true (M.throughout_nil A s) (M.throughout_nil C s)
  | append_singleton turns t ih =>
    rw [throughout_concat, throughout_concat, ih]
    exact and_congr_right fun h => hiff _ _ t (h.invariant M hinit hstep)

/-- **Two machines that answer alike.** Steps of related states show the same and lead to related
states again, for the turns that the second machine may take. -/
theorem run_simulates {σ' : Type} {M' : Machine σ' τ ε} {R : σ → σ' → Prop}
    {C : σ' → List ε → τ → Prop}
    (hstep : ∀ s s' es t, R s s' → C s' es t →
      (M.step s t).2 = (M'.step s' t).2 ∧ R (M.step s t).1 (M'.step s' t).1)
    {s : σ} {s' : σ'} (hinit : R s s') (turns : List τ) : M'.Throughout C s' turns →
      (M.run s turns).2 = (M'.run s' turns).2 ∧ R (M.run s turns).1 (M'.run s' turns).1 := by
  induction turns using List.reverseRecOn with
  | nil => exact fun _ => ⟨rfl, hinit⟩
  | append_singleton turns t ih =>
    intro hC
    obtain ⟨hbefore, ht⟩ := (M'.throughout_concat).mp hC
    obtain ⟨htrace, hrun⟩ := ih hbefore
    obtain ⟨hseen, hnext⟩ := hstep _ _ _ t hrun ht
    rw [run_concat, run_concat, htrace, hseen]
    exact ⟨rfl, hnext⟩

end Machine

/-! ## Traces in which each event is allowed by what came before -/

/-- Each event is allowed after those before it. -/
def Always {ε : Type} (C : List ε → ε → Prop) (es : List ε) : Prop :=
  ∀ pre e, pre ++ [e] <+: es → C pre e

namespace Always

variable {ε : Type} {C : List ε → ε → Prop} {es es' : List ε} {e : ε}

theorem nil : Always C [] := by
  intro pre e h
  simp at h

theorem of_append (h : Always C (es ++ es')) : Always C es :=
  fun pre e hpre => h pre e (hpre.trans (List.prefix_append ..))

theorem concat (h : Always C es) (he : C es e) : Always C (es ++ [e]) := by
  intro pre f hpre
  rcases List.prefix_concat_iff.mp hpre with heq | hpre
  · obtain ⟨rfl, hf⟩ := List.append_inj' heq rfl
    cases hf
    exact he
  · exact h pre f hpre

theorem last (h : Always C (es ++ [e])) : C es e := h es e (List.prefix_refl _)

end Always
end Allora
