import Allora.Proof.Exception.Safety

/-!
# A yield on every fourth tick

A tick is a call of the timer's handler. Each of them is counted, and every fourth, from the first
one on, takes the processor from whoever has it: before the handler returns to the thread that it
has interrupted, `schedule_by_resource_blocks` has begun on its behalf. Nothing is counted twice or
left out, and no other handler yields. Between the tick and the yield the handler owes one
(`Stack.owed`), and it is only then that the flag is up.
-/

set_option autoImplicit false

namespace Allora
namespace Exception

/-- What the handlers have to do with the timer: its own events, and the yields of handlers. -/
def Event.ofTimer : Event → Bool
  | .handled irq => irq = 30
  | .ticked _ => true
  | .yielded preempted => preempted

/-- The handled ticks. -/
def ticks (es : List Event) : Nat := es.count (.handled 30)

/-- The yield after the tick `k`, if it is a fourth one. -/
def yieldAfter (k : Nat) : List Event := if k % TIME_SLICE = 0 then [.yielded true] else []

/-- What the tick `k` is to show: that it was counted, and on every fourth a yield. -/
def expected (k : Nat) : List Event :=
  [.handled 30, .ticked (k % 2 ^ 64)] ++ yieldAfter k

/-- The yield that a handler is on its way to. It is owed from the moment the flag goes up, and
when the flag is down again until `schedule_by_resource_blocks` begins. -/
def Stack.owed (flag : Bool) : Stack → List Event
  | ⟨.irqs _, _⟩ => if flag then [.yielded true] else []
  | ⟨.checkFlag, _⟩ => if flag then [.yielded true] else []
  | ⟨.disabling _ .scheduleByResourceBlocks, .handler .. :: _⟩ => [.yielded true]
  | ⟨.schedule, frames⟩ => if State.preempted frames then [.yielded true] else []
  | _ => []

/-- The yield that the running thread owes. -/
def State.owed (s : State) : List Event :=
  (s.saved s.running).elim [] (Stack.owed s.yieldBeforeReturn)

/-- What was seen so far. -/
def Told (s : State) (es : List Event) : Prop :=
  s.tickCount = ticks es % 2 ^ 64 ∧
    es.filter Event.ofTimer ++ s.owed = (List.range (ticks es)).flatMap expected

/-- **What a step can do to the account**: nothing, a tick, or a yield that is owed. -/
inductive Counts (s s' : State) : List Event → Prop
  | quiet {es : List Event} : (∀ e ∈ es, e.ofTimer = false) → s'.tickCount = s.tickCount →
      s'.owed = s.owed → Counts s s' es
  | tick : s.owed = [] → s'.tickCount = (s.tickCount + 1) % 2 ^ 64 →
      s'.owed = yieldAfter s.tickCount → Counts s s' [.handled 30, .ticked s.tickCount]
  | preempt : s.owed = [.yielded true] → s'.tickCount = s.tickCount → s'.owed = [] →
      Counts s s' [.yielded true]

section Steps

variable {s : State} {frames : List Frame}

theorem owed_of_saved {st : Stack} (h : s.saved s.running = some st) :
    s.owed = st.owed s.yieldBeforeReturn := by
  rw [State.owed, h, Option.elim_some]

@[simp] theorem owed_goto (s : State) (pc : Pc) (frames : List Frame) :
    (s.goto pc frames).owed = Stack.owed s.yieldBeforeReturn ⟨pc, frames⟩ :=
  owed_of_saved (goto_saved_self s pc frames)

/-- A step that shows nothing. -/
theorem Counts.silent {s' : State} (htick : s'.tickCount = s.tickCount)
    (howed : s'.owed = s.owed) : Counts s s' [] :=
  .quiet (fun _ he => absurd he List.not_mem_nil) htick howed

/-- The thread's own code owes nothing. -/
theorem owed_of_interrupted {flag : Bool} {tpidr : Option Nat} {pc : Pc}
    (h : Interrupted tpidr pc) : Stack.owed flag ⟨pc, []⟩ = [] := by
  cases pc with
  | run => rfl
  | locking => rfl
  | holding => rfl
  | disabling oldMask f => cases f <;> rfl
  | _ => exact h.elim

/-- Nor does one that begins to yield by itself. -/
theorem owed_disabling {flag : Bool} {oldMask : Daif} {f : Closure} (h : Closures frames) :
    Stack.owed flag ⟨.disabling oldMask f, frames⟩ = [] := by
  cases frames with
  | nil => cases f <;> rfl
  | cons frame rest =>
    cases frame with
    | closure => cases f <;> rfl
    | handler => exact h.elim

/-- A closure that is over. -/
theorem owed_caller (flag : Bool) (frames : List Frame) :
    Stack.owed flag ⟨State.caller frames, frames⟩ = [] := by
  cases frames with
  | nil => rfl
  | cons frame rest => cases frame <;> rfl

theorem counts_lock {l : Lock} {here there : Pc}
    (hhere : Stack.owed s.yieldBeforeReturn ⟨here, frames⟩ = s.owed)
    (hthere : Stack.owed s.yieldBeforeReturn ⟨there, frames⟩ = s.owed) :
    Counts s (s.lock l here there frames) [] := by
  rw [State.lock]
  split
  · exact .silent rfl ((owed_goto ..).trans hthere)
  · exact .silent rfl ((owed_goto ..).trans hhere)

theorem counts_restoreMask (h : s.owed = []) : ∀ frames : List Frame,
    Counts s (s.restoreMask frames) []
  | .closure _ :: frames =>
    .silent rfl ((owed_goto ..).trans ((owed_caller _ frames).trans h.symm))
  | .handler .. :: _ => .silent rfl ((owed_goto ..).trans h.symm)
  | [] => .silent rfl ((owed_goto ..).trans h.symm)

/-- A thread that goes on was at the end of a yield, and one that begins owes nothing yet. -/
theorem counts_switch {st : Stack} (h : Sound s st) (howed : s.owed = []) (next : Nat) :
    Counts s (s.switch next frames) [] := by
  rw [State.switch]
  cases hnext : (s.goto .restoring frames).saved next with
  | none => exact .silent rfl ((owed_goto ..).trans howed.symm)
  | some st' =>
    simp only
    refine .silent rfl ?_
    have hpc : st'.pc = .restoring := by
      by_cases ht : next = s.running
      · subst ht
        rw [goto_saved_self] at hnext
        cases hnext
        rfl
      · rw [goto_saved_of_ne s _ _ ht] at hnext
        exact (h.others next st' ht hnext).1
    obtain ⟨pc, frames'⟩ := st'
    obtain rfl : pc = .restoring := hpc
    rw [howed, State.owed]
    show (((s.goto .restoring frames).saved next).elim [] _) = []
    rw [hnext]
    rfl

theorem counts_own (h : Sound s ⟨.run, frames⟩) (c : Choice) : Counts s (s.own frames c) [] := by
  have howed : s.owed = [] := owed_of_saved h.stack
  have hclosures : Closures frames := h.shape
  cases c with
  | withIntrDisabled f =>
    exact .silent rfl ((owed_goto ..).trans ((owed_disabling hclosures).trans howed.symm))
  | lock l =>
    rw [State.own]
    split
    · exact .silent rfl ((owed_goto ..).trans howed.symm)
    · exact .silent rfl rfl
  | initThread =>
    rw [State.own]
    split
    · exact .silent rfl rfl
    · exact .silent rfl rfl
  | done =>
    cases frames with
    | nil => exact .silent rfl rfl
    | cons f fs => exact counts_restoreMask howed (f :: fs)
  | _ => exact .silent rfl rfl

/-- The handler of the timer finds the flag down. -/
theorem counts_timer {rest : List Nat} (hdown : s.yieldBeforeReturn = false) (howed : s.owed = []) :
    Counts s (s.timerInterruptHandler rest frames).1
      (.handled 30 :: (s.timerInterruptHandler rest frames).2) := by
  rw [State.timerInterruptHandler]
  by_cases hslice : s.tickCount % TIME_SLICE = 0
  · simp only [if_pos hslice, hdown, compareExchange]
    exact .tick howed rfl ((owed_goto ..).trans (by rw [yieldAfter, if_pos hslice]; rfl))
  · simp only [if_neg hslice]
    refine .tick howed rfl ((owed_goto ..).trans ?_)
    show (if s.yieldBeforeReturn then _ else _) = _
    rw [yieldAfter, if_neg hslice, hdown, if_neg Bool.false_ne_true]

theorem counts_handle {irq : Nat} {rest : List Nat} (h : Sound s ⟨.irqs (irq :: rest), frames⟩) :
    Counts s (s.handle irq rest frames).1 (.handled irq :: (s.handle irq rest frames).2) := by
  have howed : s.owed = if s.yieldBeforeReturn then [.yielded true] else [] :=
    owed_of_saved h.stack
  rw [State.handle]
  by_cases h30 : irq = 30
  · subst h30
    have hdown : s.yieldBeforeReturn = false := by
      cases hup : s.yieldBeforeReturn with
      | false => rfl
      | true => exact absurd List.mem_cons_self (h.flag.2 hup)
    rw [hdown, if_neg Bool.false_ne_true] at howed
    rw [if_pos rfl]
    exact counts_timer hdown howed
  · rw [if_neg h30]
    refine .quiet (fun e he => ?_) rfl ((owed_goto ..).trans howed.symm)
    rw [List.mem_singleton] at he
    subst he
    exact decide_eq_false h30

/-- The flag that is taken down is a yield that the handler goes on to. -/
theorem counts_checkFlag (h : Sound s ⟨.checkFlag, frames⟩) : Counts s (s.checkFlag frames) [] := by
  have howed : s.owed = if s.yieldBeforeReturn then [.yielded true] else [] :=
    owed_of_saved h.stack
  obtain ⟨elr, rfl, -⟩ : Handled s.tpidr frames := h.shape
  rw [State.checkFlag]
  cases hflag : s.yieldBeforeReturn with
  | true =>
    rw [hflag, if_pos rfl] at howed
    simp only [compareExchange, if_pos]
    exact .silent rfl ((owed_goto ..).trans howed.symm)
  | false =>
    rw [hflag, if_neg Bool.false_ne_true] at howed
    simp only [compareExchange, Bool.false_eq_true, if_false]
    exact .silent rfl ((owed_goto ..).trans howed.symm)

/-- The mask is off, and the yield is still to begin. -/
theorem counts_disabling {oldMask : Daif} {f : Closure} {daif : Daif}
    (h : Sound s ⟨.disabling oldMask f, frames⟩) :
    Counts s ({ s with daif := daif }.goto (State.entry f) (.closure oldMask :: frames)) [] := by
  refine .silent rfl ((owed_goto ..).trans (.trans ?_ (owed_of_saved h.stack).symm))
  cases f with
  | own => rfl
  | scheduleThread => rfl
  | scheduleByResourceBlocks =>
    cases frames with
    | nil => rfl
    | cons frame rest => cases frame <;> rfl

/-- **The yield that was owed.** -/
theorem counts_schedule {pc : Pc} (h : Sound s ⟨.schedule, frames⟩)
    (hpc : Stack.owed s.yieldBeforeReturn ⟨pc, frames⟩ = []) :
    Counts s (s.goto pc frames) [.yielded (State.preempted frames)] := by
  have howed : s.owed = if State.preempted frames then [.yielded true] else [] :=
    owed_of_saved h.stack
  cases hpre : State.preempted frames with
  | true =>
    rw [hpre, if_pos rfl] at howed
    exact .preempt howed rfl ((owed_goto ..).trans hpc)
  | false =>
    rw [hpre, if_neg Bool.false_ne_true] at howed
    refine .quiet (fun e he => ?_) rfl ((owed_goto ..).trans (hpc.trans howed.symm))
    rw [List.mem_singleton] at he
    subst he
    rfl

theorem counts_eret (h : Sound s ⟨.eret, frames⟩) : Counts s (s.eret frames) [] := by
  have howed : s.owed = [] := owed_of_saved h.stack
  obtain ⟨elr, rfl, hint⟩ : Handled s.tpidr frames := h.shape
  exact .silent rfl ((owed_goto ..).trans ((owed_of_interrupted hint).trans howed.symm))

theorem counts_irq {st : Stack} (h : Sound s st) : Counts s (s.irq st) [] := by
  rw [State.irq]
  cases hmask : irqMasked s.daif with
  | true => exact .silent rfl rfl
  | false =>
    obtain ⟨pc, frames⟩ := st
    obtain rfl : frames = [] := h.frames_nil hmask
    have hint := interrupted_of_shape h.shape
    have howed : s.owed = [] := (owed_of_saved h.stack).trans (owed_of_interrupted hint)
    have hdown : s.yieldBeforeReturn = false := flag_of_interrupted hint h.flag
    rw [if_neg Bool.false_ne_true]
    refine .silent rfl ((owed_goto ..).trans (.trans ?_ howed.symm))
    show (if s.yieldBeforeReturn then _ else _) = _
    rw [hdown, if_neg Bool.false_ne_true]

theorem counts_go {st : Stack} (h : Sound s st) (c : Choice) :
    Counts s (s.go st.frames c st.pc).1 (s.go st.frames c st.pc).2 := by
  obtain ⟨pc, frames⟩ := st
  have howed := owed_of_saved h.stack
  cases pc with
  | run => exact counts_own h c
  | locking l => exact counts_lock howed.symm howed.symm
  | holding l =>
    cases c with
    | done => exact .silent rfl ((owed_goto ..).trans howed.symm)
    | _ => exact .silent rfl rfl
  | disabling oldMask f => exact counts_disabling h
  | schedule =>
    simp only [State.go]
    split
    · exact counts_schedule h rfl
    · exact counts_schedule h rfl
  | lockRes => exact counts_lock howed.symm howed.symm
  | inRes =>
    cases c with
    | lookUp => exact .silent rfl ((owed_goto ..).trans howed.symm)
    | found next => exact .silent rfl ((owed_goto ..).trans howed.symm)
    | _ => exact .silent rfl rfl
  | lockTs => exact counts_lock howed.symm howed.symm
  | inTs => exact .silent rfl ((owed_goto ..).trans howed.symm)
  | chosen next => cases next <;> exact .silent rfl ((owed_goto ..).trans howed.symm)
  | scheduleThread next =>
    simp only [State.go]
    split
    · exact .silent rfl ((owed_goto ..).trans howed.symm)
    · exact .silent rfl ((owed_goto ..).trans howed.symm)
  | switching next => exact counts_switch h howed next
  | restoring => exact counts_restoreMask howed frames
  | irqs left =>
    cases left with
    | nil => exact .silent rfl ((owed_goto ..).trans howed.symm)
    | cons irq rest =>
      cases c with
      | pending b =>
        cases b with
        | true => exact counts_handle h
        | false => exact .silent rfl ((owed_goto ..).trans howed.symm)
      | _ => exact .silent rfl rfl
  | checkFlag => exact counts_checkFlag h
  | eret => exact counts_eret h
  | panicked => exact .silent rfl rfl

theorem counts_step {st : Stack} (h : Sound s st) (turn : Turn) :
    Counts s (s.step turn).1 (s.step turn).2 := by
  rw [State.step, h.stack]
  cases turn with
  | irq => exact counts_irq h
  | go c => exact counts_go h c

theorem ticks_append (es es' : List Event) : ticks (es ++ es') = ticks es + ticks es' :=
  List.count_append

/-- **What a step does to the account.** -/
theorem Told.step {s' : State} {es es' : List Event} (h : Told s es) (hc : Counts s s' es') :
    Told s' (es ++ es') := by
  obtain ⟨hk, hes⟩ := h
  rw [Told, ticks_append, List.filter_append]
  cases hc with
  | quiet hother htick howed =>
    have hfilter : es'.filter Event.ofTimer = [] := by
      rw [List.filter_eq_nil_iff]
      intro e he
      rw [hother e he]
      exact Bool.false_ne_true
    have hzero : ticks es' = 0 := by
      refine List.count_eq_zero.mpr fun hmem => ?_
      cases hother _ hmem
    rw [hzero, hfilter, List.append_nil, howed]
    exact ⟨htick.trans hk, hes⟩
  | tick howed htick howed' =>
    have hone : ticks [.handled 30, .ticked s.tickCount] = 1 := rfl
    rw [howed, List.append_nil] at hes
    have hmod : ticks es % 2 ^ 64 % TIME_SLICE = ticks es % TIME_SLICE := by
      rw [TIME_SLICE]
      omega
    rw [hone]
    refine ⟨by rw [htick, hk, Nat.mod_add_mod], ?_⟩
    rw [howed', List.range_succ, List.flatMap_append, List.flatMap_singleton, ← hes, hk, expected,
      yieldAfter, yieldAfter, hmod, List.append_assoc]
    rfl
  | preempt howed htick howed' =>
    have hzero : ticks [.yielded true] = 0 := rfl
    rw [hzero, Nat.add_zero, howed', List.append_nil, ← hes, howed]
    exact ⟨htick.trans hk, rfl⟩

end Steps

theorem told_boot (main : Nat) : Told (boot main) [] := by
  have howed : (boot main).owed = [] := owed_of_saved (sound_boot main).stack
  refine ⟨rfl, ?_⟩
  rw [howed]
  rfl

/-- **Every fourth tick yields, and no other handler does.** In every run, with `k` calls of the
timer's handler in it: the counter is at `k` (it is of 64 bits); and what was seen of the timer and
of yields in a handler is, tick after tick, the call, the count, and on every fourth, from the first
one on, the yield. All this is complete but for the yield that the running handler still owes, and
one that is on its way back to the interrupted thread owes none. -/
theorem preempted_every_fourth (main : Nat) (turns : List Turn) :
    let s := (machine.run (boot main) turns).1
    let es := (machine.run (boot main) turns).2
    s.tickCount = ticks es % 2 ^ 64 ∧ ∃ st, s.saved s.running = some st ∧
      es.filter Event.ofTimer ++ st.owed s.yieldBeforeReturn =
        (List.range (ticks es)).flatMap expected := by
  have hrun := machine.run_invariant (P := fun s es => (∃ st, Sound s st) ∧ Told s es)
    (G := fun _ => True) (s := boot main) (fun h => h) ⟨⟨_, sound_boot main⟩, told_boot main⟩
    (fun s es turn ⟨⟨_, h⟩, htold⟩ _ => ⟨h.step turn, htold.step (counts_step h turn)⟩) turns
    trivial
  obtain ⟨⟨st, h⟩, hk, hes⟩ := hrun
  refine ⟨hk, st, h.stack, ?_⟩
  rw [← owed_of_saved h.stack]
  exact hes

/-- The first tick takes the processor from the main thread, thread 5 gives it back by itself, and
the second tick does not take it. -/
def twoTicks : List Turn :=
  [.go .initThread, .irq, .go (.pending false), .go (.pending true), .go .idle, .go .idle, .go .idle,
    .go .idle, .go .idle, .go .lookUp, .go .idle, .go .idle, .go (.found (some 5)), .go .idle,
    .go .idle, .go (.withIntrDisabled .scheduleByResourceBlocks), .go .idle, .go .idle, .go .idle,
    .go (.found (some 1)), .go .idle, .go .idle, .go .idle, .go .idle, .irq, .go (.pending false),
    .go (.pending true), .go .idle, .go .idle, .go .idle]

theorem preempted_every_fourth_twoTicks :
    (machine.run (boot 1) twoTicks).2 =
        [.handled 30, .ticked 0, .yielded true, .yielded false, .handled 30, .ticked 1] ∧
      (machine.run (boot 1) twoTicks).1.tickCount = 2 := by
  have hes : (machine.run (boot 1) twoTicks).2 =
      [.handled 30, .ticked 0, .yielded true, .yielded false, .handled 30, .ticked 1] := by
    decide +kernel
  have htick := (preempted_every_fourth 1 twoTicks).1
  rw [hes] at htick
  exact ⟨hes, htick⟩

end Exception
end Allora
