import Allora.Lib.Outcome
import Allora.Mm.Align

/-!
# The ready list

Before there were resource blocks, threads took turns in `READY_LIST`. `schedule` and
`schedule_list` are still there, and `spawn` still pushes to it.

A thread has two names. `TPIDR_EL2` holds the address of the `Thread`, which lies at the start of
the second page of the object, and a `ThreadRef` is the number of the first. `as_ptr` goes one way;
`current_thread_koref`, `schedule` and `schedule_list` each go the other way on their own.
-/

set_option autoImplicit false

namespace Allora

open Outcome

/-- `TPIDR_EL2` and `READY_LIST`. -/
structure Ready where
  tpidr : Nat
  list : Option (List Nat)
  deriving DecidableEq

namespace Ready

/-- `KObjectRef::as_ptr`. -/
def asPtr (id : Nat) : Nat := pa (id + 1)

/-- `current_thread`: the pointer in `TPIDR_EL2`. -/
def currentThread (s : Ready) : Option Nat := if s.tpidr = 0 then none else some s.tpidr

/-- `current_thread_koref`. -/
def currentThreadKoref (s : Ready) : Outcome (Option Nat) :=
  match s.currentThread with
  | none => ok none
  | some th =>
    if pgid th = 0 then
      .panic "attempt to subtract with overflow"
    else
      ok (some (pgid th - 1))

/-- `switch`, as far as it is seen from here: the other thread is the current one. -/
def switch (s : Ready) (next : Nat) : Ready := { s with tpidr := next }

/-- `schedule`. -/
def schedule (s : Ready) : Ready :=
  match s.currentThread with
  | none => s
  | some curr =>
    match s.list with
    | none => s
    | some [] => s
    | some (next :: rest) => { s with list := some (rest ++ [pgid curr]) }.switch (asPtr next)

/-- `schedule_list`; the second component is the caller's list. -/
def scheduleList (s : Ready) (list : List Nat) : Ready × List Nat :=
  match s.currentThread with
  | none => (s, list)
  | some curr =>
    match list with
    | [] => (s, [])
    | next :: rest => (s.switch (asPtr next), rest ++ [pgid curr])

end Ready
end Allora
