import Allora.Lib.Monitor

/-!
# `mutex.rs` — the spin lock

A `Mutex` is a flag and a value. `lock` spins on a compare-exchange of the flag until it has turned
it from `false` to `true`; the guard that it returns lets the value be read and written, and turns
the flag back when it is dropped.

The threads of the kernel share one core and may lose it between any two instructions, so that a
run is an interleaving of attempts at the flag, of accesses through the guard and of drops, in any
order. The orderings of the atomics play no part in that: the `Relaxed` store of `drop` is read as
any other. That a guard is used only while it is held, and dropped once, is what its lifetime says.
-/

set_option autoImplicit false

namespace Allora

open Monitor

/-- `AtomicBool::compare_exchange`: the result, and the cell after it. -/
def compareExchange (cell current new : Bool) : Except Bool Bool × Bool :=
  if cell = current then (.ok cell, new) else (.error cell, cell)

/-- `Mutex`. -/
structure Mutex (T : Type) where
  locked : Bool
  data : T

namespace Mutex

variable {T I R U : Type}

/-- `Mutex::new`. -/
def new (data : T) : Mutex T := ⟨false, data⟩

/-- `Mutex::into_inner`. -/
def intoInner (m : Mutex T) : T := m.data

/-- One round of the loop of `Mutex::lock`; `none` is another round. -/
def tryLock (locked : Bool) : Option Bool :=
  match compareExchange locked false true with
  | (.ok false, locked) => some locked
  | _ => none

/-- `MutexGuard::drop`. -/
def drop (_locked : Bool) : Bool := false

/-- The flag. -/
def flag : Latch Bool where
  free := false
  held := true
  attempt := tryLock
  release := drop
  attempt_free := rfl
  attempt_held := rfl
  release_held := rfl

/-- A mutex and what its users do with the guard. Without one, nobody gets at the value. -/
def guarded (use : I → T → Use T I R) : Monitor Bool T I R Empty := ⟨flag, use, fun w _ => w.elim⟩

/-- The mutex, with no thread behind its lock. -/
def start (ι : Type) (m : Mutex T) : State Bool ι T I := ⟨m.locked, m.data, fun _ => none⟩

/-- `Mutex::map`: `self.lock().as_mut().map(f)`, for a closure with the code `use`. -/
def map (use : I → T → Use T I U) : I → Option T → Use (Option T) I (Option U)
  | _, none => .leave none
  | i, some d =>
    match use i d with
    | .access d i => .access (some d) i
    | .leave u => .leave (some u)

end Mutex
end Allora
