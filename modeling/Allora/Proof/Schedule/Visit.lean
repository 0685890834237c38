import Allora.Schedule
import Mathlib.Data.List.Basic

/-!
# One visit to a container

`visit` reads the hand that `TS` keeps for a container and moves it on. `visit_cases` says all that
it can do while the hands are in range (`HandsOk`), and is what everything else rests on: either
the container has nothing to give and nothing changes, or the slice at its hand is up, and only
that hand moves. `findNextThread_cases` says the same of one level of the search, with what is seen
of it.
-/

set_option autoImplicit false

namespace Allora
namespace Sched

open Outcome

/-! ## Hands and slices -/

/-- The hand that `TS` keeps for a container: the first entry counts. -/
def handOf (s : Sched) (ct : Nat) : Option Nat :=
  s.ts.bind fun cts => (cts.find? fun e => e.1 = ct).map Prod.snd

/-- The containers that have an entry in `TS`. -/
def keys (s : Sched) : List Nat := (s.ts.getD []).map Prod.fst

/-- The slices of a container, none if it has no vector of them. -/
def slicesOf (s : Sched) (ct : Nat) : List TimeSlice := (s.containers ct).timeSlices.getD []

/-- Every hand is in range. The hand of a container without slices is never read. -/
def HandsOk (s : Sched) : Prop :=
  ∀ cts, s.ts = some cts → ∀ e ∈ cts, s.slicesOf e.1 ≠ [] → e.2 < (s.slicesOf e.1).length

/-- The hand of `ct` was `h`, and has moved on. -/
def turned (s : Sched) (ct h : Nat) : Sched :=
  { s with ts := s.ts.map (setHand ct ((h + 1) % (s.slicesOf ct).length)) }

section SetHand

variable {cts : List (Nat × Nat)} {ct c h : Nat}

theorem map_fst_setHand (ct h : Nat) (cts : List (Nat × Nat)) :
    (setHand ct h cts).map Prod.fst = cts.map Prod.fst := by
  induction cts with
  | nil => rfl
  | cons e cts ih =>
    rw [setHand]
    split
    · rfl
    · rw [List.map_cons, List.map_cons, ih]

theorem mem_setHand {e : Nat × Nat} (he : e ∈ setHand ct h cts) : e ∈ cts ∨ e = (ct, h) := by
  induction cts with
  | nil => cases he
  | cons e' cts ih =>
    rw [setHand] at he
    split at he
    · rename_i heq
      rcases List.mem_cons.mp he with rfl | he
      · exact .inr (by rw [heq])
      · exact .inl (List.mem_cons_of_mem _ he)
    · rcases List.mem_cons.mp he with rfl | he
      · exact .inl List.mem_cons_self
      · exact (ih he).imp_left (List.mem_cons_of_mem _)

theorem find?_setHand_self {e : Nat × Nat} (he : cts.find? (fun e => e.1 = ct) = some e) :
    (setHand ct h cts).find? (fun e => e.1 = ct) = some (ct, h) := by
  induction cts with
  | nil => cases he
  | cons e' cts ih =>
    rw [setHand]
    split
    · rename_i heq
      simp [heq]
    · rename_i hne
      rw [List.find?_cons_of_neg (by simpa using hne)] at he ⊢
      exact ih he

theorem find?_setHand_of_ne (hne : c ≠ ct) :
    (setHand ct h cts).find? (fun e => e.1 = c) = cts.find? (fun e => e.1 = c) := by
  induction cts with
  | nil => rfl
  | cons e' cts ih =>
    rw [setHand]
    split
    · rename_i heq
      have hneg : ¬ e'.1 = c := fun hc => hne (hc.symm.trans heq)
      rw [List.find?_cons_of_neg (by simpa using hneg), List.find?_cons_of_neg (by simpa using hneg)]
    · rw [List.find?_cons, List.find?_cons, ih]

end SetHand

section Turned

variable {s : Sched} {ct c h : Nat}

@[simp] theorem turned_containers (s : Sched) (ct h : Nat) :
    (s.turned ct h).containers = s.containers := rfl

@[simp] theorem slicesOf_turned (s : Sched) (ct h c : Nat) :
    (s.turned ct h).slicesOf c = s.slicesOf c := rfl

theorem entry_of_handOf (hhand : s.handOf ct = some h) :
    ∃ cts, s.ts = some cts ∧ cts.find? (fun e => e.1 = ct) = some (ct, h) := by
  obtain ⟨cts, hts, hsnd⟩ := Option.bind_eq_some_iff.mp hhand
  obtain ⟨e, hfind, rfl⟩ := Option.map_eq_some_iff.mp hsnd
  have hct : e.1 = ct := by simpa using List.find?_some hfind
  exact ⟨cts, hts, by rw [hfind, ← hct]⟩

theorem handOf_turned_self (hhand : s.handOf ct = some h) :
    (s.turned ct h).handOf ct = some ((h + 1) % (s.slicesOf ct).length) := by
  obtain ⟨cts, hts, hfind⟩ := entry_of_handOf hhand
  rw [handOf, turned, hts]
  simp only [Option.map_some, Option.bind_some]
  rw [find?_setHand_self hfind]
  rfl

theorem handOf_turned_of_ne (hne : c ≠ ct) : (s.turned ct h).handOf c = s.handOf c := by
  rw [handOf, turned, handOf]
  cases s.ts with
  | none => rfl
  | some cts =>
    simp only [Option.map_some, Option.bind_some]
    rw [find?_setHand_of_ne hne]

@[simp] theorem keys_turned (s : Sched) (ct h : Nat) : (s.turned ct h).keys = s.keys := by
  rw [keys, turned, keys]
  cases s.ts with
  | none => rfl
  | some cts => exact map_fst_setHand _ _ _

theorem mem_keys_iff : ct ∈ s.keys ↔ ∃ h, s.handOf ct = some h := by
  rw [keys, ← Option.isSome_iff_exists, handOf]
  cases s.ts with
  | none => simp
  | some cts =>
    rw [Option.getD_some, Option.bind_some, Option.isSome_map, List.find?_isSome, List.mem_map]
    simp

theorem HandsOk.turned (hok : HandsOk s) : HandsOk (s.turned ct h) := by
  intro cts hts e he hne
  obtain ⟨cts', hts', rfl⟩ := Option.map_eq_some_iff.mp hts
  rcases mem_setHand he with he | rfl
  · exact hok cts' hts' e he hne
  · exact Nat.mod_lt _ (List.length_pos_of_ne_nil hne)

theorem HandsOk.hand_lt (hok : HandsOk s) (hhand : s.handOf ct = some h)
    (hne : s.slicesOf ct ≠ []) : h < (s.slicesOf ct).length := by
  obtain ⟨cts, hts, hfind⟩ := entry_of_handOf hhand
  exact hok cts hts (ct, h) (List.mem_of_find?_eq_some hfind) hne

end Turned

/-! ## What a visit can do -/

section Visit

variable {s : Sched} {ct h : Nat}

theorem visit_stop (hstop : s.handOf ct = none ∨ s.slicesOf ct = []) :
    s.visit ct = ⟨[], ok (s, none)⟩ := by
  have htake : s.takeHand ct = (s, none) := by
    simp only [handOf, slicesOf] at hstop
    unfold takeHand
    cases hts : s.ts with
    | none => rfl
    | some cts =>
      cases hfind : cts.find? fun e => e.1 = ct with
      | none => simp only [hfind]
      | some e =>
        simp only [hfind]
        cases hslices : (s.containers ct).timeSlices with
        | none => rfl
        | some slices =>
          rw [hts, hslices] at hstop
          simp [hfind] at hstop
          simp [hstop]
  simp only [visit, htake, Logged.pure_eq]

theorem visit_slice {slice : TimeSlice} (hhand : s.handOf ct = some h)
    (hslice : (s.slicesOf ct)[h]? = some slice) :
    s.visit ct = ⟨[.slice ct h], ok (s.turned ct h, some slice)⟩ := by
  obtain ⟨cts, hts, hfind⟩ := entry_of_handOf hhand
  cases hslices : (s.containers ct).timeSlices with
  | none =>
    rw [slicesOf, hslices] at hslice
    cases hslice
  | some slices =>
    have hof : s.slicesOf ct = slices := by rw [slicesOf, hslices, Option.getD_some]
    rw [hof] at hslice
    have hne : slices.isEmpty = false := by
      cases slices with
      | nil => cases hslice
      | cons _ _ => rfl
    have htake : s.takeHand ct = (s.turned ct h, some h) := by
      simp only [takeHand, hts, hfind, hslices, hne, Bool.false_eq_true, if_false, turned, hof,
        Option.map_some]
    simp only [visit, htake, turned_containers, hslices, hslice, Logged.emit_bind, Logged.pure_eq]

/-- **One visit**, while the hands are in range. -/
theorem visit_cases (hok : HandsOk s) (ct : Nat) :
    ((s.handOf ct = none ∨ s.slicesOf ct = []) ∧ s.visit ct = ⟨[], ok (s, none)⟩) ∨
    ∃ h slice, s.handOf ct = some h ∧ (s.slicesOf ct)[h]? = some slice ∧
      s.visit ct = ⟨[.slice ct h], ok (s.turned ct h, some slice)⟩ := by
  cases hhand : s.handOf ct with
  | none => exact .inl ⟨.inl rfl, visit_stop (.inl hhand)⟩
  | some h =>
    by_cases hne : s.slicesOf ct = []
    · exact .inl ⟨.inr hne, visit_stop (.inr hne)⟩
    · have hlt := hok.hand_lt hhand hne
      have hslice := List.getElem?_eq_getElem hlt
      exact .inr ⟨h, _, rfl, hslice, visit_slice hhand hslice⟩

/-- The thread that a slice of `c` names, unless it passes the turn on. -/
def thread (c : SchedContainer) : TimeSlice → Option Nat
  | .routine => c.scheduler
  | .execute th => some th
  | .redirect _ => none

theorem findNextThread_redirect {d : Nat} (hhand : s.handOf ct = some h)
    (hslice : (s.slicesOf ct)[h]? = some (.redirect d)) (fuel : Nat) :
    findNextThread (fuel + 1) s ct =
      ⟨.visit ct :: .slice ct h :: (findNextThread fuel (s.turned ct h) d).log,
        (findNextThread fuel (s.turned ct h) d).result⟩ := by
  simp only [findNextThread, visit_slice hhand hslice, Logged.emit_bind, Logged.ok_bind,
    List.singleton_append]

/-- **One level of the search**: nothing is there, or a slice names a thread, or it goes on where
the slice redirects to. -/
theorem findNextThread_cases (hok : HandsOk s) (ct : Nat) :
    ((s.handOf ct = none ∨ s.slicesOf ct = []) ∧
      ∀ fuel, findNextThread (fuel + 1) s ct = ⟨[.visit ct], ok (s, none)⟩) ∨
    ∃ h slice, s.handOf ct = some h ∧ (s.slicesOf ct)[h]? = some slice ∧
      (((∀ d, slice ≠ .redirect d) ∧ ∀ fuel, findNextThread (fuel + 1) s ct =
          ⟨[.visit ct, .slice ct h], ok (s.turned ct h, thread (s.containers ct) slice)⟩) ∨
        ∃ d, slice = .redirect d ∧ ∀ fuel, findNextThread (fuel + 1) s ct =
          ⟨.visit ct :: .slice ct h :: (findNextThread fuel (s.turned ct h) d).log,
            (findNextThread fuel (s.turned ct h) d).result⟩) := by
  rcases visit_cases hok ct with ⟨hstop, hvisit⟩ | ⟨h, slice, hhand, hslice, hvisit⟩
  · refine .inl ⟨hstop, fun fuel => ?_⟩
    simp only [findNextThread, hvisit, Logged.emit_bind, Logged.ok_bind, Logged.pure_eq,
      List.append_nil]
  · refine .inr ⟨h, slice, hhand, hslice, ?_⟩
    cases slice with
    | routine =>
      refine .inl ⟨by simp, fun fuel => ?_⟩
      simp only [findNextThread, hvisit, Logged.emit_bind, Logged.ok_bind, Logged.pure_eq,
        List.append_nil, turned_containers, thread]
    | execute th =>
      refine .inl ⟨by simp, fun fuel => ?_⟩
      simp only [findNextThread, hvisit, Logged.emit_bind, Logged.ok_bind, Logged.pure_eq,
        List.append_nil, thread]
    | redirect d => exact .inr ⟨d, rfl, findNextThread_redirect hhand hslice⟩

end Visit

end Sched
end Allora
