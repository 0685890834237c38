import Allora.Lib.Outcome

/-!
# `timer.rs` — waiting for a number of ticks

The timer interrupt counts ticks, `TIMER_FREQ` of them a second. `spin_wait` reads the counter, adds
the duration in ticks, and reads the counter again until it finds that very number. Between two
readings the thread may be off the core for as long as the scheduler likes, so what it finds is an
input of the model: `seen i` is the value that the round `i` of the loop reads.
-/

set_option autoImplicit false

namespace Allora
namespace Timer

open Outcome

/-- `TIMER_FREQ`. -/
def TIMER_FREQ : Nat := 10

/-- `core::time::Duration`. -/
structure Duration where
  secs : Nat
  nanos : Nat
  secs_lt : secs < 2 ^ 64
  nanos_lt : nanos < 1000000000

/-- `Duration::as_millis`, of 128 bits. -/
def Duration.asMillis (d : Duration) : Nat := d.secs * 1000 + d.nanos / 1000000

/-- `convert_to_ticks`; `as u64` keeps the low bits. -/
def convertToTicks (duration : Duration) : Outcome Nat :=
  mulChecked 64 (duration.asMillis % 2 ^ 64 / 1000) TIMER_FREQ

/-- The loop of `spin_wait`: `compare_exchange(ticks, ticks)` is `Ok(ticks)` if the counter is
`ticks`, which it leaves as it is. -/
def spinLoop (ticks : Nat) (seen : Nat → Nat) : Nat → Nat → Outcome Nat
  | 0, _ => timeout
  | fuel + 1, i => if seen i = ticks then ok i else spinLoop ticks seen fuel (i + 1)

/-- `spin_wait`, with the value that `current_ticks` reads and those that the loop reads; the round
in which it returns. -/
def spinWait (duration : Duration) (start : Nat) (seen : Nat → Nat) (fuel : Nat) : Outcome Nat := do
  let n ← convertToTicks duration
  let ticks ← addChecked 64 start n
  spinLoop ticks seen fuel 0

end Timer
end Allora
