import Allora.Kobject

/-!
# Two threads that create objects in one container

The timer can take the processor from a thread in the middle of `container::create` or
`thread::spawn_raw`, and neither of them turns interrupts off. This is the same code as
`Kernel.create` and `Kernel.spawnRaw`, one step at a time: `get_slot`, `get_multiple`, the `create`
of the object and `set_slot` are the steps, first for the label and then for the object itself.
Which thread is current matters to the label check at the start of a call, and to nothing else.

That a thread which is left alone does what the call does is `run_alone`.
-/

set_option autoImplicit false

namespace Allora

open Outcome

/-- A call that a thread makes on the container. -/
inductive Call
  | create (label : String)
  | spawnRaw (label : String) (closure : Layout)

/-- Each call makes a label, and then an object with that label. -/
inductive Stage
  | label
  | object (lbPage : Nat)

/-- What a thread does next. -/
inductive Pc
  | idle
  | getSlot (call : Call) (stage : Stage)
  | getMultiple (call : Call) (stage : Stage) (slotId : Nat)
  | create (call : Call) (stage : Stage) (slotId page : Nat)
  | setSlot (call : Call) (stage : Stage) (slotId page : Nat)

/-- A thread, with the calls it has not begun. -/
structure Proc where
  thread : Nat
  calls : List Call
  pc : Pc

/-- The kernel and two threads. -/
structure Preempt (Buckle : Type) where
  kernel : Kernel Buckle
  procs : Bool → Proc

/-- What a call makes at a stage. -/
def Call.kind : Call → Stage → KObjectKind
  | _, .label => .label
  | .create _, .object _ => .container
  | .spawnRaw _ _, .object _ => .thread

namespace Preempt

variable {Buckle : Type} (fuel : Nat) (lb : Labeled Buckle) (sz : Sizes) (bytes : Nat → PageNode)
  (ct : Nat)

/-- The label check of a call. -/
def check (k : Kernel Buckle) : Call → Outcome Unit
  | .create label => do
    let mine ← unwrap k.currentLabel
    k.checkLabel lb mine ct ("fail to create a container with label <" ++ label.quote ++ ">")
  | .spawnRaw label _ => do
    let curr ← expect "no current thread" k.current
    let mine ← unwrap (k.info curr).label
    k.checkLabel lb mine ct ("fail to create the thread with label <" ++ label.quote ++ ">")

/-- The object is made on its pages, and its metadata filled in. -/
def createObject (k : Kernel Buckle) (page : Nat) : Call → Stage → Outcome (Kernel Buckle)
  | .create label, .label => k.createLabel lb sz bytes page label
  | .create _, .object _ => ok (k.createContainer sz bytes page)
  | .spawnRaw label _, .label => do
    let k ← k.createLabel lb sz bytes page label
    ok (k.setMeta page fun m => { m with parent := some ct })
  | .spawnRaw _ closure, .object lbPage => do
    let k ← k.createThread fuel sz bytes page closure
    ok (k.setMeta page fun m => { m with parent := some ct, label := some lbPage })

/-- `set_slot`; `container::create` sets the label of the new container only after it. -/
def storeObject (k : Kernel Buckle) (slotId page : Nat) : Call → Stage → Outcome (Kernel Buckle)
  | .create _, .object lbPage => do
    let k ← k.setSlot ct slotId page
    ok (k.setMeta page fun m => { m with label := some lbPage })
  | _, _ => k.setSlot ct slotId page

/-- Thread `t` has moved. -/
def move (s : Preempt Buckle) (t : Bool) (k : Kernel Buckle) (pc : Pc) : Preempt Buckle :=
  ⟨k, Function.update s.procs t { s.procs t with pc := pc }⟩

/-- One step of thread `t`. -/
def step (s : Preempt Buckle) (t : Bool) : Outcome (Preempt Buckle) :=
  let p := s.procs t
  match p.pc with
  | .idle =>
    match p.calls with
    | [] => ok s
    | call :: calls => do
      let k := { s.kernel with current := some p.thread }
      check lb ct k call
      ok ⟨k, Function.update s.procs t { p with calls := calls, pc := .getSlot call .label }⟩
  | .getSlot call stage =>
    let (k, slotId) := s.kernel.getSlot ct
    ok (s.move t k (.getMultiple call stage slotId))
  | .getMultiple call stage slotId => do
    let (k, page) ← s.kernel.takePages fuel ct (reservedPages (call.kind stage))
    ok (s.move t k (.create call stage slotId page))
  | .create call stage slotId page => do
    let k ← createObject fuel lb sz bytes ct s.kernel page call stage
    ok (s.move t k (.setSlot call stage slotId page))
  | .setSlot call stage slotId page => do
    let k ← storeObject ct s.kernel slotId page call stage
    match stage with
    | .label => ok (s.move t k (.getSlot call (.object page)))
    | .object _ => ok (s.move t k .idle)

/-- `container::create` and `thread::spawn_raw`, as one call. -/
def callAlone (k : Kernel Buckle) : Call → Outcome (Kernel Buckle × Nat)
  | .create label => k.create fuel lb sz bytes ct label
  | .spawnRaw label closure => k.spawnRaw fuel lb sz bytes ct label closure

/-- **A thread that is left alone for nine steps makes the call.** -/
theorem run_alone (s : Preempt Buckle) (t : Bool) {call : Call} {calls : List Call}
    (hpc : (s.procs t).pc = .idle) (hcalls : (s.procs t).calls = call :: calls) :
    (List.replicate 9 t).foldlM (step fuel lb sz bytes ct) s = (do
      let k := { s.kernel with current := some (s.procs t).thread }
      let (k, _) ← callAlone fuel lb sz bytes ct k call
      ok ⟨k, Function.update s.procs t ⟨(s.procs t).thread, calls, .idle⟩⟩) := by
  cases call with
  | create label =>
    simp [List.replicate, step, hpc, hcalls, check, move, callAlone, Kernel.create, createObject,
      storeObject, Call.kind, reservedPages, Function.update_idem]
  | spawnRaw label closure =>
    simp [List.replicate, step, hpc, hcalls, check, move, callAlone, Kernel.spawnRaw, createObject,
      storeObject, Call.kind, reservedPages, Function.update_idem]

end Preempt
end Allora
