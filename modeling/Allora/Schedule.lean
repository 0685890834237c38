import Allora.Lib.Logged
import Mathlib.Logic.Function.Basic

/-!
# The scheduler

Time is handed out in two levels. `RESBLOCKS` is a vector of resource blocks with a hand that goes
round it; the block that is up names a container. Each container has its own vector of time
slices, and its hand is kept apart from it, in the table `TS`. A slice lets the container's
scheduler run, or one thread, or passes the turn on to another container.

Containers and threads are named by the page they start at. Of a container only the fields that
the scheduler reads are here. What is served is shown as an `Event` where the code serves it: the
block where `rbs` is indexed, a visit where `find_next_thread` begins, the slice where `slices` is
indexed, and the thread that gets the processor in `switch`.
-/

set_option autoImplicit false

namespace Allora

open Outcome Logged

/-- `TimeSlice`. -/
inductive TimeSlice
  | routine
  | execute (th : Nat)
  | redirect (ct : Nat)
  deriving Repr, DecidableEq

/-- The fields of `Container` that the scheduler reads. -/
structure SchedContainer where
  scheduler : Option Nat
  timeSlices : Option (List TimeSlice)

/-- `ResourceBlock`. -/
structure ResourceBlock where
  holder : Nat
  timeQuota : Nat

/-- The containers, the two tables behind their locks, and the current thread. -/
structure Sched where
  containers : Nat → SchedContainer
  ts : Option (List (Nat × Nat))
  resblocks : Option (List ResourceBlock × Nat)
  current : Option Nat

/-- What an onlooker sees of the scheduler. -/
inductive Sched.Event
  /-- A resource block is up. -/
  | block (i : Nat)
  /-- `find_next_thread` comes to a container. -/
  | visit (ct : Nat)
  /-- A slice of a container is used. -/
  | slice (ct i : Nat)
  /-- A thread gets the processor. -/
  | switch (th : Nat)
  deriving Repr, DecidableEq

namespace Sched

/-- Write the hand of the first entry for `ct`. -/
def setHand (ct h : Nat) : List (Nat × Nat) → List (Nat × Nat)
  | [] => []
  | e :: rest => if e.1 = ct then (e.1, h) :: rest else e :: setHand ct h rest

/-- The first half of `find_next_thread`: the hand of `ct`, which moves on by one. -/
def takeHand (s : Sched) (ct : Nat) : Sched × Option Nat :=
  match s.ts with
  | none => (s, none)
  | some cts =>
    match cts.find? fun e => e.1 = ct with
    | none => (s, none)
    | some (_, h) =>
      match (s.containers ct).timeSlices with
      | none => (s, none)
      | some slices =>
        if slices.isEmpty then
          (s, none)
        else
          ({ s with ts := some (setHand ct ((h + 1) % slices.length) cts) }, some h)

/-- The slice of `ct` that is up: `slices[h]`. -/
def visit (s : Sched) (ct : Nat) : Logged Event (Sched × Option TimeSlice) :=
  match s.takeHand ct with
  | (s, none) => pure (s, none)
  | (s, some h) =>
    match (s.containers ct).timeSlices with
    | none => pure (s, none)
    | some slices =>
      match slices[h]? with
      | none => quiet (.panic "index out of bounds")
      | some slice => do
        emit (.slice ct h)
        pure (s, some slice)

/-- `find_next_thread`. -/
def findNextThread : Nat → Sched → Nat → Logged Event (Sched × Option Nat)
  | 0, _, _ => quiet timeout
  | fuel + 1, s, ct => do
    emit (.visit ct)
    let (s, slice) ← s.visit ct
    match slice with
    | none => pure (s, none)
    | some .routine => pure (s, (s.containers ct).scheduler)
    | some (.execute th) => pure (s, some th)
    | some (.redirect ct) => findNextThread fuel s ct

/-- `switch`: `TPIDR_EL2` is now `th`. -/
def switch (s : Sched) (th : Nat) : Logged Event Sched := do
  emit (.switch th)
  pure { s with current := some th }

/-- `schedule_by_resource_blocks`. -/
def scheduleByResourceBlocks (fuel : Nat) (s : Sched) : Logged Event Sched :=
  match s.current with
  | none => pure s
  | some _ =>
    match s.resblocks with
    | none => pure s
    | some (rbs, hand) =>
      if rbs.isEmpty then
        pure s
      else do
        quiet (assert (decide (rbs.length > hand)) "assertion failed: rbs.len() > *hand")
        let s := { s with resblocks := some (rbs, (hand + 1) % rbs.length) }
        match rbs[hand]? with
        | none => quiet (.panic "index out of bounds")
        | some rb => do
          emit (.block hand)
          let (s, next) ← findNextThread fuel s rb.holder
          match next with
          | none => pure s
          | some th => s.switch th

/-! ## Filling the tables -/

/-- `rbs.push(rb)`. -/
def pushBlock (s : Sched) (rb : ResourceBlock) : Sched :=
  { s with resblocks := s.resblocks.map fun (rbs, hand) => (rbs ++ [rb], hand) }

/-- `ts.push((ct, 0))`. -/
def pushTs (s : Sched) (ct : Nat) : Sched :=
  { s with ts := s.ts.map fun cts => cts ++ [(ct, 0)] }

/-- `slices.push(slice)`, after `time_slices` was made if there was none. -/
def pushSlice (s : Sched) (ct : Nat) (slice : TimeSlice) : Sched :=
  let slices := (s.containers ct).timeSlices.getD []
  { s with
    containers := Function.update s.containers ct
      { s.containers ct with timeSlices := some (slices ++ [slice]) } }

end Sched
end Allora
