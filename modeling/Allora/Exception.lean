import Allora.Lib.Trace
import Allora.Mutex
import Mathlib.Algebra.Group.Nat.Defs

/-!
# `exception.rs` and `thread.rs` — interrupts and yields

One core runs one thread at a time. The timer interrupts it wherever its interrupts are not masked;
on every fourth tick the handler asks for a yield, which it does itself before it returns, so that
the interrupted thread is left in the middle of its handler. A thread that yields on its own account
does so with its interrupts off. `switch` does not touch the mask: whoever comes back sets his own
again, and a thread that runs for the first time starts with interrupts on.

A step is one instruction on the shared state: the flag, the tick counter, a lock, the mask. Which
of the threads `find_next_thread` answers with, and how often it locks `TS` on the way, is left to
the schedule, and so is what a thread does on its own. As to that, the locks of the scheduler and
`UART` are taken in two kinds of places only: in a closure of `with_intr_disabled`, and by
`kernel_main` before it has called `init_thread`.

A run starts in `kernel_main`, after `load_table` has turned interrupts on.
-/

set_option autoImplicit false

namespace Allora
namespace Exception

/-! ## The mask -/

/-- `DAIF`: the bits D, A, I and F, from the top. -/
abbrev Daif := BitVec 4

/-- `msr DAIFSet, 7` -/
def daifSet (daif : Daif) : Daif := daif ||| 7#4

/-- `msr DAIFClr, 7` -/
def daifClr (daif : Daif) : Daif := daif &&& ~~~7#4

/-- An IRQ is taken only if I is clear. -/
def irqMasked (daif : Daif) : Bool := daif.getLsbD 1

/-! ## The threads -/

/-- The locks that scheduling and printing use. -/
inductive Lock
  | resblocks
  | ts
  | uart
  deriving DecidableEq

/-- What a closure of `with_intr_disabled` does: the thread's own code, or one of the two yields. -/
inductive Closure
  | own
  | scheduleByResourceBlocks
  | scheduleThread (next : Nat)

/-- What a thread does next. -/
inductive Pc
  /-- Its own code, inside or outside of a closure. -/
  | run
  | locking (l : Lock)
  | holding (l : Lock)
  /-- `interrupt_disable` has read the mask. -/
  | disabling (oldMask : Daif) (f : Closure)
  /-- `schedule_by_resource_blocks` begins. -/
  | schedule
  | lockRes
  | inRes
  | lockTs
  | inTs
  | chosen (next : Option Nat)
  | scheduleThread (next : Nat)
  | switching (next : Nat)
  /-- `interrupt_mask_set`, at the end of a yield. A thread that is not running is here. -/
  | restoring
  /-- The loop of `exception_handler` over what is left of `INTERRUPTS`. -/
  | irqs (left : List Nat)
  | checkFlag
  | eret
  | panicked (msg : String)

/-- What a thread has on its stack: the `old_mask` of a closure, or what the processor and
`context_stack` have saved of an interrupted thread. -/
inductive Frame
  | closure (oldMask : Daif)
  | handler (spsr : Daif) (tpidr : Option Nat) (elr : Pc)

structure Stack where
  pc : Pc
  frames : List Frame

/-- The core. A thread without a stack of its own has never run: its `saved_sp` is null. -/
structure State where
  daif : Daif
  tpidr : Option Nat
  tickCount : Nat
  yieldBeforeReturn : Bool
  locked : Lock → Bool
  running : Nat
  saved : Nat → Option Stack

/-- What is left open by the step of a thread. -/
inductive Choice
  | idle
  | withIntrDisabled (f : Closure)
  | lock (l : Lock)
  | initThread
  /-- The end of a critical section or of a closure. -/
  | done
  /-- `gic::is_pending` -/
  | pending (b : Bool)
  /-- `find_next_thread` locks `TS`, once for each container it looks at. -/
  | lookUp
  /-- What it answers with in the end. -/
  | found (next : Option Nat)

inductive Turn
  /-- The interrupt line of the core is raised. -/
  | irq
  | go (c : Choice)

/-- What an onlooker sees of the core. -/
inductive Event
  /-- The handler of a pending interrupt is called. -/
  | handled (irq : Nat)
  /-- `tick` has counted. -/
  | ticked (count : Nat)
  /-- `schedule_by_resource_blocks` begins, for the handler of an interrupt or for the thread. -/
  | yielded (preempted : Bool)
  deriving DecidableEq

/-! ## The steps -/

/-- `TIME_SLICE` -/
def TIME_SLICE : Nat := 4

/-- `INTERRUPTS`: `CPUPowerDown` and `Timer`. -/
def INTERRUPTS : List Nat := [0, 30]

namespace State

/-- The running thread goes on at `pc`. -/
def goto (s : State) (pc : Pc) (frames : List Frame) : State :=
  { s with saved := Function.update s.saved s.running (some ⟨pc, frames⟩) }

/-- `lock` on one of the locks: one round of the loop. -/
def lock (s : State) (l : Lock) (here there : Pc) (frames : List Frame) : State :=
  match Mutex.tryLock (s.locked l) with
  | some b => { s with locked := Function.update s.locked l b }.goto there frames
  | none => s.goto here frames

/-- The guard is dropped. -/
def unlock (s : State) (l : Lock) : State :=
  { s with locked := Function.update s.locked l (Mutex.drop (s.locked l)) }

/-- The processor takes the interrupt, and `context_stack` saves the rest. -/
def irq (s : State) (st : Stack) : State :=
  if irqMasked s.daif then s
  else { s with daif := 15#4 }.goto (.irqs INTERRUPTS) (.handler s.daif s.tpidr st.pc :: st.frames)

/-- `timer_interrupt_handler`; `tick` returns the count before it. -/
def timerInterruptHandler (s : State) (rest : List Nat) (frames : List Frame) :
    State × List Event :=
  let tick := s.tickCount
  let s := { s with tickCount := (tick + 1) % 2 ^ 64 }
  if tick % TIME_SLICE = 0 then
    match compareExchange s.yieldBeforeReturn false true with
    | (.ok _, flag) => ({ s with yieldBeforeReturn := flag }.goto (.irqs rest) frames, [.ticked tick])
    | (.error _, _) => (s.goto (.panicked "assumption failed") frames, [.ticked tick])
  else
    (s.goto (.irqs rest) frames, [.ticked tick])

/-- The handlers of `INTERRUPTS`. `cpu_power_down_handler` only clears its interrupt. -/
def handle (s : State) (irq : Nat) (rest : List Nat) (frames : List Frame) : State × List Event :=
  if irq = 30 then s.timerInterruptHandler rest frames else (s.goto (.irqs rest) frames, [])

/-- `YIELD_BEFORE_RETURN.compare_exchange(true, false)`, and `yield_to_next` if that was it. -/
def checkFlag (s : State) (frames : List Frame) : State :=
  match compareExchange s.yieldBeforeReturn true false with
  | (.ok true, flag) =>
    { s with yieldBeforeReturn := flag }.goto (.disabling s.daif .scheduleByResourceBlocks) frames
  | _ => s.goto .eret frames

/-- Whether it was a handler that called the closure. -/
def preempted : List Frame → Bool
  | .closure _ :: .handler .. :: _ => true
  | _ => false

/-- Where a closure that is over was called from. -/
def caller : List Frame → Pc
  | .handler .. :: _ => .eret
  | _ => .run

/-- `interrupt_mask_set(old_mask)` -/
def restoreMask (s : State) : List Frame → State
  | .closure oldMask :: frames => { s with daif := oldMask }.goto (caller frames) frames
  | frames => s.goto .restoring frames

/-- The first step of a closure. -/
def entry : Closure → Pc
  | .own => .run
  | .scheduleByResourceBlocks => .schedule
  | .scheduleThread next => .scheduleThread next

/-- `switch`: `entry` and `restore`. -/
def switch (s : State) (next : Nat) (frames : List Frame) : State :=
  let s := s.goto .restoring frames
  let s := { s with running := next, tpidr := some next }
  match s.saved next with
  | none => { s with daif := daifClr s.daif }.goto .run []
  | some _ => s

/-- `context_restore` and `eret`. -/
def eret (s : State) : List Frame → State
  | .handler spsr tpidr elr :: frames => { s with daif := spsr, tpidr := tpidr }.goto elr frames
  | frames => s.goto .eret frames

/-- A step of the thread's own code. -/
def own (s : State) (frames : List Frame) : Choice → State
  | .withIntrDisabled f => s.goto (.disabling s.daif f) frames
  | .lock l => if frames ≠ [] ∨ s.tpidr = none then s.goto (.locking l) frames else s
  | .initThread => if frames = [] ∧ s.tpidr = none then { s with tpidr := some s.running } else s
  | .done =>
    match frames with
    | [] => s
    | _ :: _ => s.restoreMask frames
  | _ => s

/-- A step of the running thread, which is at `pc`. -/
def go (s : State) (frames : List Frame) (c : Choice) : Pc → State × List Event
  | .run => (s.own frames c, [])
  | .locking l => (s.lock l (.locking l) (.holding l) frames, [])
  | .holding l =>
    match c with
    | .done => ((s.unlock l).goto .run frames, [])
    | _ => (s, [])
  | .disabling oldMask f =>
    ({ s with daif := daifSet s.daif }.goto (entry f) (.closure oldMask :: frames), [])
  | .schedule =>
    match s.tpidr with
    | none => (s.goto .restoring frames, [.yielded (preempted frames)])
    | some _ => (s.goto .lockRes frames, [.yielded (preempted frames)])
  | .lockRes => (s.lock .resblocks .lockRes .inRes frames, [])
  | .inRes =>
    match c with
    | .lookUp => (s.goto .lockTs frames, [])
    | .found next => ((s.unlock .resblocks).goto (.chosen next) frames, [])
    | _ => (s, [])
  | .lockTs => (s.lock .ts .lockTs .inTs frames, [])
  | .inTs => ((s.unlock .ts).goto .inRes frames, [])
  | .chosen none => (s.goto .restoring frames, [])
  | .chosen (some next) => (s.goto (.switching next) frames, [])
  | .scheduleThread next =>
    match s.tpidr with
    | none => (s.goto .restoring frames, [])
    | some _ => (s.goto (.switching next) frames, [])
  | .switching next => (s.switch next frames, [])
  | .restoring => (s.restoreMask frames, [])
  | .irqs [] => (s.goto .checkFlag frames, [])
  | .irqs (irq :: rest) =>
    match c with
    | .pending true =>
      let (s, es) := s.handle irq rest frames
      (s, .handled irq :: es)
    | .pending false => (s.goto (.irqs rest) frames, [])
    | _ => (s, [])
  | .checkFlag => (s.checkFlag frames, [])
  | .eret => (s.eret frames, [])
  | .panicked _ => (s, [])

def step (s : State) (turn : Turn) : State × List Event :=
  match s.saved s.running with
  | none => (s, [])
  | some st =>
    match turn with
    | .irq => (s.irq st, [])
    | .go c => s.go st.frames c st.pc

end State

/-- The core as a machine. -/
def machine : Machine State Turn Event := ⟨State.step⟩

/-- `kernel_main` runs, on the stack of what is to be the main thread, and is none of the threads
yet. The bit D is set since reset. -/
def boot (main : Nat) : State where
  daif := 8#4
  tpidr := none
  tickCount := 0
  yieldBeforeReturn := false
  locked := fun _ => false
  running := main
  saved := Function.update (fun _ => none) main (some ⟨.run, []⟩)

end Exception
end Allora
