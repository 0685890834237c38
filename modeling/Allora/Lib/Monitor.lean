import Allora.Lib.Trace
import Mathlib.Logic.Function.Basic

/-!
# Code behind a lock

Several threads share a value which only the holder of a lock is to touch. A thread asks for the
lock with what it is going to do behind it, asks again as long as it is refused, does its code one
access at a time, and leaves with a result. In between, the other threads run: a turn of the
machine is one attempt, one access or one exit of any thread. What the threads do without the lock
is left to the schedule; where that, too, changes the value, it is a turn of its own.

`Monitor.kept` is the rule of the lock: an invariant `P` of the value while nobody is behind the
lock, and `Q` of the value and of the one thread that is, so that each of the six things that can
happen keeps them. `Replay` is the serial reading of what went on behind the lock, one whole section
after the other.
-/

set_option autoImplicit false

namespace Allora

/-- A lock word: what an attempt to take it leaves behind if it succeeds, and how it is given
back. -/
structure Latch (L : Type) where
  free : L
  held : L
  attempt : L → Option L
  release : L → L
  attempt_free : attempt free = some held
  attempt_held : attempt held = none
  release_held : release held = free

/-- What the code behind the lock does next: one access to the value, or the exit. -/
inductive Use (α I R : Type)
  | access (d : α) (i : I)
  | leave (r : R)

/-- A value of type `α` behind a lock. `use` is the code behind it, with a continuation of type `I`
and a result of type `R`; `touch` is what may happen to the value without the lock. -/
structure Monitor (L α I R W : Type) where
  latch : Latch L
  use : I → α → Use α I R
  touch : W → α → α

namespace Monitor

variable {L ι α I R W : Type}

/-- The lock word, the value, and the threads behind the lock with what they are about to do. -/
structure State (L ι α I : Type) where
  word : L
  data : α
  inside : ι → Option I

inductive Turn (ι I W : Type)
  | call (t : ι) (i : I)
  | go (t : ι)
  | touch (w : W)

inductive Event (ι I R W : Type)
  | spun (t : ι)
  | entered (t : ι) (i : I)
  | left (t : ι) (r : R)
  | touched (w : W)
  deriving DecidableEq

section Machine

variable [DecidableEq ι] (M : Monitor L α I R W)

/-- Thread `t` is at `o`: behind the lock, or not. -/
def State.put (s : State L ι α I) (t : ι) (o : Option I) : State L ι α I :=
  { s with inside := Function.update s.inside t o }

/-- One turn. A thread that is behind the lock does not ask for it. -/
def step (s : State L ι α I) : Turn ι I W → State L ι α I × List (Event ι I R W)
  | .call t i =>
    match s.inside t with
    | some _ => (s, [])
    | none =>
      match M.latch.attempt s.word with
      | none => (s, [.spun t])
      | some word => ({ s with word := word }.put t (some i), [.entered t i])
  | .go t =>
    match s.inside t with
    | none => (s, [])
    | some i =>
      match M.use i s.data with
      | .access d i => ({ s with data := d }.put t (some i), [])
      | .leave r => ({ s with word := M.latch.release s.word }.put t none, [.left t r])
  | .touch w => ({ s with data := M.touch w s.data }, [.touched w])

/-- The monitor as a machine. -/
def machine (ι : Type) [DecidableEq ι] :
    Machine (State L ι α I) (Turn ι I W) (Event ι I R W) := ⟨M.step⟩

/-- Nobody is behind the lock. -/
def start (ι : Type) (data : α) : State L ι α I := ⟨M.latch.free, data, fun _ => none⟩

/-! ## The rule of the lock -/

/-- Only `t` is behind the lock, and about to do `i`. -/
def alone (t : ι) (i : I) : ι → Option I := Function.update (fun _ => none) t (some i)

/-- The lock is free and `P` holds, or one thread is behind it and `Q` holds. -/
def Kept (P : α → List (Event ι I R W) → Prop) (Q : ι → I → α → List (Event ι I R W) → Prop)
    (s : State L ι α I) (es : List (Event ι I R W)) : Prop :=
  (s.word = M.latch.free ∧ s.inside = (fun _ => none) ∧ P s.data es) ∨
    ∃ t i, s.word = M.latch.held ∧ s.inside = alone t i ∧ Q t i s.data es

/-- What has to be shown of `P` and `Q`, under a contract `G` on the trace. -/
structure Rules (G : List (Event ι I R W) → Prop) (P : α → List (Event ι I R W) → Prop)
    (Q : ι → I → α → List (Event ι I R W) → Prop) : Prop where
  spun : ∀ t i d es u, Q t i d es → u ≠ t → Q t i d (es ++ [.spun u])
  entered : ∀ t i d es, P d es → G (es ++ [.entered t i]) → Q t i d (es ++ [.entered t i])
  access : ∀ t i d es d' i', Q t i d es → M.use i d = .access d' i' → Q t i' d' es
  left : ∀ t i d es r, Q t i d es → M.use i d = .leave r → P d (es ++ [.left t r])
  touchedFree : ∀ w d es, P d es → G (es ++ [.touched w]) → P (M.touch w d) (es ++ [.touched w])
  touchedHeld : ∀ t i w d es, Q t i d es → G (es ++ [.touched w]) →
    Q t i (M.touch w d) (es ++ [.touched w])

section Rule

variable {M} {G : List (Event ι I R W) → Prop} {P : α → List (Event ι I R W) → Prop}
  {Q : ι → I → α → List (Event ι I R W) → Prop} {s : State L ι α I} {es : List (Event ι I R W)}

@[simp] theorem alone_self (t : ι) (i : I) : alone t i t = some i := Function.update_self ..

theorem alone_of_ne {t u : ι} {i : I} (h : u ≠ t) : alone t i u = none :=
  Function.update_of_ne h ..

/-- A thread that is seen behind the lock is the one that is. -/
theorem eq_of_alone {t u : ι} {i j : I} (h : alone t i u = some j) : u = t ∧ i = j := by
  by_cases hu : u = t
  · subst hu
    rw [alone_self] at h
    exact ⟨rfl, Option.some.inj h⟩
  · rw [alone_of_ne hu] at h
    cases h

theorem update_alone (t : ι) (i : I) (o : Option I) :
    Function.update (alone t i) t o = Function.update (fun _ => none) t o :=
  Function.update_idem ..

/-- What a turn does while the lock is free. -/
theorem kept_of_free (hr : M.Rules G P Q) (hword : s.word = M.latch.free)
    (hin : s.inside = fun _ => none) (hP : P s.data es) (turn : Turn ι I W)
    (hG : G (es ++ (M.step s turn).2)) :
    M.Kept P Q (M.step s turn).1 (es ++ (M.step s turn).2) := by
  cases turn with
  | call t i =>
    have hstep : M.step s (.call t i) =
        ({ s with word := M.latch.held }.put t (some i), [.entered t i]) := by
      simp only [step, hin, hword, M.latch.attempt_free]
    rw [hstep] at hG ⊢
    refine Or.inr ⟨t, i, rfl, ?_, hr.entered t i _ _ hP hG⟩
    show Function.update s.inside t (some i) = alone t i
    rw [hin]
    rfl
  | go t =>
    have hstep : M.step s (.go t) = (s, []) := by simp only [step, hin]
    rw [hstep, List.append_nil]
    exact Or.inl ⟨hword, hin, hP⟩
  | touch w => exact Or.inl ⟨hword, hin, hr.touchedFree w _ _ hP hG⟩

/-- What a turn does while a thread is behind it. -/
theorem kept_of_held (hr : M.Rules G P Q) {t : ι} {i : I} (hword : s.word = M.latch.held)
    (hin : s.inside = alone t i) (hQ : Q t i s.data es) (turn : Turn ι I W)
    (hG : G (es ++ (M.step s turn).2)) :
    M.Kept P Q (M.step s turn).1 (es ++ (M.step s turn).2) := by
  cases turn with
  | call u j =>
    by_cases hu : u = t
    · have hstep : M.step s (.call u j) = (s, []) := by simp only [step, hin, hu, alone_self]
      rw [hstep, List.append_nil]
      exact Or.inr ⟨t, i, hword, hin, hQ⟩
    · have hstep : M.step s (.call u j) = (s, [.spun u]) := by
        simp only [step, hin, alone_of_ne hu, hword, M.latch.attempt_held]
      rw [hstep]
      exact Or.inr ⟨t, i, hword, hin, hr.spun t i _ _ u hQ hu⟩
  | go u =>
    by_cases hu : u = t
    · subst hu
      cases huse : M.use i s.data with
      | access d j =>
        have hstep : M.step s (.go u) = ({ s with data := d }.put u (some j), []) := by
          simp only [step, hin, alone_self, huse]
        rw [hstep, List.append_nil]
        refine Or.inr ⟨u, j, hword, ?_, hr.access u i _ _ d j hQ huse⟩
        show Function.update s.inside u (some j) = alone u j
        rw [hin, update_alone]
        rfl
      | leave r =>
        have hstep : M.step s (.go u) =
            ({ s with word := M.latch.free }.put u none, [.left u r]) := by
          simp only [step, hin, alone_self, huse, hword, M.latch.release_held]
        rw [hstep]
        refine Or.inl ⟨rfl, ?_, hr.left u i _ _ r hQ huse⟩
        show Function.update s.inside u none = fun _ => none
        rw [hin, update_alone, Function.update_eq_self]
    · have hstep : M.step s (.go u) = (s, []) := by simp only [step, hin, alone_of_ne hu]
      rw [hstep, List.append_nil]
      exact Or.inr ⟨t, i, hword, hin, hQ⟩
  | touch w => exact Or.inr ⟨t, i, hword, hin, hr.touchedHeld t i w _ _ hQ hG⟩

/-- **The rule of the lock.** -/
theorem kept (hr : M.Rules G P Q) (hG : ∀ {es es' : List (Event ι I R W)}, G (es ++ es') → G es)
    {data : α} (hinit : P data []) (turns : List (Turn ι I W))
    (h : G ((M.machine ι).run (M.start ι data) turns).2) :
    M.Kept P Q ((M.machine ι).run (M.start ι data) turns).1
      ((M.machine ι).run (M.start ι data) turns).2 := by
  refine (M.machine ι).run_invariant hG (Or.inl ⟨rfl, rfl, hinit⟩) ?_ turns h
  intro s es turn hkept hG
  rcases hkept with ⟨hword, hin, hP⟩ | ⟨t, i, hword, hin, hQ⟩
  · exact kept_of_free hr hword hin hP turn hG
  · exact kept_of_held hr hword hin hQ turn hG

end Rule

end Machine

/-! ## Sections, one after the other -/

/-- Some accesses, from a continuation and a value to others. -/
inductive Part (use : I → α → Use α I R) : I → α → I → α → Prop
  | refl (i : I) (d : α) : Part use i d i d
  | access {i j k : I} {d e f : α} : Part use i d j e → use j e = .access f k → Part use i d k f

/-- A whole section, with its result and the value it leaves behind. -/
def Section (use : I → α → Use α I R) (i : I) (d : α) (r : R) (e : α) : Prop :=
  ∃ j, Part use i d j e ∧ use j e = .leave r

/-- Sections one after the other, each with the thread that ran it and its result. -/
inductive Replay (use : I → α → Use α I R) (d : α) : List (ι × I × R) → α → Prop
  | nil : Replay use d [] d
  | snoc {secs : List (ι × I × R)} {e f : α} {t : ι} {i : I} {r : R} :
      Replay use d secs e → Section use i e r f → Replay use d (secs ++ [(t, i, r)]) f

/-- The threads that entered, in their order, with what they were going to do. -/
def calls (es : List (Event ι I R W)) : List (ι × I) :=
  es.filterMap fun
    | .entered t i => some (t, i)
    | _ => none

/-- The threads that left, in their order, with what they left with. -/
def returns (es : List (Event ι I R W)) : List (ι × R) :=
  es.filterMap fun
    | .left t r => some (t, r)
    | _ => none

section Traces

variable (es : List (Event ι I R W))

@[simp] theorem calls_spun (t : ι) : calls (es ++ [.spun t]) = calls es := by
  simp [calls]

@[simp] theorem calls_entered (t : ι) (i : I) :
    calls (es ++ [.entered t i]) = calls es ++ [(t, i)] := by
  simp [calls]

@[simp] theorem calls_left (t : ι) (r : R) : calls (es ++ [.left t r]) = calls es := by
  simp [calls]

@[simp] theorem returns_spun (t : ι) : returns (es ++ [.spun t]) = returns es := by
  simp [returns]

@[simp] theorem returns_entered (t : ι) (i : I) :
    returns (es ++ [.entered t i]) = returns es := by
  simp [returns]

@[simp] theorem returns_left (t : ι) (r : R) :
    returns (es ++ [.left t r]) = returns es ++ [(t, r)] := by
  simp [returns]

end Traces

section Serial

variable (use : I → α → Use α I R) (data : α)

/-- Nobody is behind the lock: whole sections have been run, and nothing else. -/
def Rest (d : α) (es : List (Event ι I R Empty)) : Prop :=
  ∃ secs, Replay use data secs d ∧ calls es = secs.map (fun c => (c.1, c.2.1)) ∧
    returns es = secs.map fun c => (c.1, c.2.2)

/-- Thread `t` is behind the lock, and about to do `i`: whole sections have been run, and then a
part of that of `t`. -/
def Busy (t : ι) (i : I) (d : α) (es : List (Event ι I R Empty)) : Prop :=
  ∃ secs j e, Replay use data secs e ∧ Part use j e i d ∧
    calls es = secs.map (fun c => (c.1, c.2.1)) ++ [(t, j)] ∧
    returns es = secs.map fun c => (c.1, c.2.2)

end Serial

variable (M : Monitor L α I R Empty) (data : α)

theorem rules_serial :
    M.Rules (fun _ => True) (Rest M.use data) (Busy (ι := ι) M.use data) where
  spun := by
    intro t i d es u hQ _
    simpa [Busy] using hQ
  entered := by
    intro t i d es hP _
    obtain ⟨secs, hreplay, hcalls, hreturns⟩ := hP
    refine ⟨secs, i, d, hreplay, .refl i d, ?_, ?_⟩
    · rw [calls_entered, hcalls]
    · rw [returns_entered, hreturns]
  access := by
    intro t i d es d' i' hQ huse
    obtain ⟨secs, j, e, hreplay, hpart, hcalls, hreturns⟩ := hQ
    exact ⟨secs, j, e, hreplay, .access hpart huse, hcalls, hreturns⟩
  left := by
    intro t i d es r hQ huse
    obtain ⟨secs, j, e, hreplay, hpart, hcalls, hreturns⟩ := hQ
    refine ⟨secs ++ [(t, j, r)], .snoc hreplay ⟨i, hpart, huse⟩, ?_, ?_⟩
    · rw [calls_left, hcalls, List.map_append]
      rfl
    · rw [returns_left, hreturns, List.map_append]
      rfl
  touchedFree := by
    intro w
    exact w.elim
  touchedHeld := by
    intro _ _ w
    exact w.elim

/-- **Runs are serial.** Whatever the schedule, the value is what whole sections make of it, one
after the other in the order in which they were entered, with at most a part of one more. -/
theorem serial [DecidableEq ι] (turns : List (Turn ι I Empty)) :
    M.Kept (Rest M.use data) (Busy M.use data) ((M.machine ι).run (M.start ι data) turns).1
      ((M.machine ι).run (M.start ι data) turns).2 := by
  refine kept (M.rules_serial data) (fun h => h) ?_ turns trivial
  exact ⟨[], .nil, rfl, rfl⟩

end Monitor
end Allora
