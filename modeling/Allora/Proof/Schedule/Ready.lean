import Allora.Ready

/-!
# Turns in the ready list

`schedule` and `schedule_list` push the page of the pointer they find in `TPIDR_EL2`. That is the
page after the one a reference names, and `current_thread_koref`, which subtracts one, knows it.
So whenever a thread goes to the back of a list, what is there is a reference to its second page,
and the list has lost the thread.
-/

set_option autoImplicit false

namespace Allora
namespace Ready

open Outcome

variable {s : Ready} {r : Nat}

/-- The queue, empty before it is set up. -/
def queue (s : Ready) : List Nat := s.list.getD []

/-- The running thread and the queue. -/
def threads (s : Ready) : List Nat :=
  match s.currentThreadKoref with
  | ok (some r) => r :: s.queue
  | _ => s.queue

/-- If a thread leaves the front of a list, `r` is at its back. -/
def Pushes (r : Nat) (before after : List Nat) : Prop :=
  ∀ next rest, before = next :: rest → after = rest ++ [r]

theorem asPtr_ne_zero (id : Nat) : asPtr id ≠ 0 := by
  unfold asPtr pa PAGE_SIZE
  omega

@[simp] theorem pgid_asPtr (id : Nat) : pgid (asPtr id) = id + 1 :=
  Nat.mul_div_cancel _ (by decide)

theorem currentThread_eq (h : s.tpidr = asPtr r) : s.currentThread = some (asPtr r) := by
  rw [currentThread, h, if_neg (asPtr_ne_zero r)]

/-- `current_thread_koref` undoes `as_ptr`. -/
theorem currentThreadKoref_eq (h : s.tpidr = asPtr r) : s.currentThreadKoref = ok (some r) := by
  simp [currentThreadKoref, currentThread_eq h]

/-- The other two do not: what they push is the next page. -/
theorem schedule_cons {next : Nat} {rest : List Nat} (h : s.tpidr = asPtr r)
    (hq : s.list = some (next :: rest)) :
    s.schedule = ⟨asPtr next, some (rest ++ [r + 1])⟩ := by
  simp [schedule, currentThread_eq h, hq, switch]

theorem scheduleList_cons {next : Nat} {rest : List Nat} (h : s.tpidr = asPtr r) :
    s.scheduleList (next :: rest) = (s.switch (asPtr next), rest ++ [r + 1]) := by
  simp [scheduleList, currentThread_eq h]

/-- With nobody to switch to, `schedule` does nothing. -/
theorem schedule_nil (h : s.queue = []) : s.schedule = s := by
  unfold schedule
  cases s.currentThread with
  | none => rfl
  | some curr =>
    cases hl : s.list with
    | none => rfl
    | some l =>
      rw [queue, hl, Option.getD_some] at h
      subst h
      rfl

theorem list_eq_of_queue {next : Nat} {rest : List Nat} (h : s.queue = next :: rest) :
    s.list = some (next :: rest) := by
  cases hl : s.list with
  | none =>
    rw [queue, hl] at h
    cases h
  | some l =>
    rw [queue, hl] at h
    exact congrArg some h

theorem append_succ_ne (rest : List Nat) (r : Nat) : rest ++ [r + 1] ≠ rest ++ [r] := by
  simp

/-- One turn replaces the thread by its next page. -/
theorem threads_schedule_cons {next : Nat} {rest : List Nat} (h : s.tpidr = asPtr r)
    (hq : s.queue = next :: rest) : ¬ List.Perm s.schedule.threads s.threads := by
  rw [schedule_cons h (list_eq_of_queue hq), threads, threads, currentThreadKoref_eq h,
    currentThreadKoref_eq rfl]
  show ¬ List.Perm (next :: (rest ++ [r + 1])) (r :: s.queue)
  rw [hq]
  intro hperm
  have hswap : List.Perm (next :: rest ++ [r]) (r :: next :: rest) :=
    List.perm_append_singleton r (next :: rest)
  have hlast : List.Perm (next :: rest ++ [r + 1]) (next :: rest ++ [r]) :=
    hperm.trans hswap.symm
  have hcancel := (List.perm_append_left_iff (next :: rest)).mp hlast
  rw [List.perm_singleton, List.singleton_inj] at hcancel
  omega

/-- With an empty queue nothing ever happens. -/
theorem iterate_schedule_nil (h : s.queue = []) (n : Nat) : schedule^[n] s = s :=
  Function.iterate_fixed (schedule_nil h) n

/-- **The current thread goes to the back of the queue as itself only if nobody goes there.** -/
theorem schedule_keeps_iff (h : s.tpidr = asPtr r) :
    s.currentThreadKoref = ok (some r) ∧
    (Pushes r s.queue s.schedule.queue ↔ s.queue = []) ∧
    (∀ list, Pushes r list (s.scheduleList list).2 ↔ list = []) ∧
    ∀ n, (∀ i ≤ n, List.Perm (schedule^[i] s).threads s.threads) ↔ n = 0 ∨ s.queue = [] := by
  refine ⟨currentThreadKoref_eq h, ?_, fun list => ?_, fun n => ?_⟩
  · constructor
    · intro hp
      cases hq : s.queue with
      | nil => rfl
      | cons next rest =>
        have hback := hp next rest hq
        rw [schedule_cons h (list_eq_of_queue hq)] at hback
        exact absurd hback (append_succ_ne rest r)
    · intro hq next rest heq
      cases hq.symm.trans heq
  · constructor
    · intro hp
      cases list with
      | nil => rfl
      | cons next rest =>
        have hback := hp next rest rfl
        rw [scheduleList_cons h] at hback
        exact absurd hback (append_succ_ne rest r)
    · intro hl next rest heq
      cases hl.symm.trans heq
  · constructor
    · intro hall
      cases n with
      | zero => exact Or.inl rfl
      | succ n =>
        right
        cases hq : s.queue with
        | nil => rfl
        | cons next rest =>
          exact absurd (hall 1 (by omega)) (threads_schedule_cons h hq)
    · intro hcond i hi
      rcases hcond with rfl | hq
      · rw [Nat.le_zero.mp hi]
        exact List.Perm.refl _
      · rw [iterate_schedule_nil hq]

/-- Thread 7 runs and thread 25 waits. -/
def twoThreads : Ready := ⟨asPtr 7, some [25]⟩

/-- **Thread 7 is lost**: page 8 waits in its place. -/
theorem schedule_loses_thread :
    ¬ ∀ (s : Ready) (r : Nat), s.tpidr = asPtr r →
      Pushes r s.queue s.schedule.queue ∧ List.Perm s.schedule.threads s.threads := by
  intro hall
  have hback := (hall twoThreads 7 rfl).1 25 [] rfl
  revert hback
  decide

theorem schedule_keeps_iff_twoThreads :
    twoThreads.tpidr = asPtr 7 ∧
      ¬ ∀ i ≤ 1, List.Perm (schedule^[i] twoThreads).threads twoThreads.threads := by
  have h : twoThreads.tpidr = asPtr 7 := rfl
  refine ⟨h, fun hall => ?_⟩
  have hcond := ((schedule_keeps_iff h).2.2.2 1).mp hall
  revert hcond
  decide

end Ready
end Allora
