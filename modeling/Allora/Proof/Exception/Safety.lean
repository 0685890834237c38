import Allora.Exception

/-!
# Yields never meet a lock

A thread that takes the processor finds no lock of the scheduler taken. The locks are taken with
interrupts off, and a thread that yields holds none of them; the one exception is `kernel_main`,
which takes them with interrupts on, but before there is a thread to yield. So the loop of `lock` is
never gone around in the scheduler, where it would not end: with interrupts off, nobody else runs.

The invariant `Sound` says what the stack of the running thread can look like at each of its steps,
and that the mask, the flag and the locks are what the stack says. It is proved step by step.
-/

set_option autoImplicit false

namespace Allora
namespace Exception

/-! ## What a stack can look like -/

/-- The mask under the frames of a thread. -/
def maskOf : List Frame → Daif
  | [] => 8#4
  | _ :: _ => 15#4

theorem daifSet_maskOf : ∀ frames : List Frame, daifSet (maskOf frames) = 15#4
  | [] => show daifSet 8#4 = 15#4 by decide
  | _ :: _ => show daifSet 15#4 = 15#4 by decide

/-- In a closure and in a handler. -/
theorem irqMasked_maskOf : ∀ frames : List Frame, irqMasked (maskOf frames) = true ↔ frames ≠ []
  | [] => iff_of_false (show ¬ irqMasked 8#4 = true by decide) fun h => h rfl
  | _ :: _ => iff_of_true (show irqMasked 15#4 = true by decide) (List.cons_ne_nil _ _)

/-- Closures in closures, and nothing else. -/
def Closures : List Frame → Prop
  | [] => True
  | .closure oldMask :: frames => oldMask = maskOf frames ∧ Closures frames
  | .handler .. :: _ => False

/-- A thread is interrupted in its own code, outside of closures. -/
def Interrupted (tpidr : Option Nat) : Pc → Prop
  | .run => True
  | .locking _ => tpidr = none
  | .holding _ => tpidr = none
  | .disabling oldMask _ => oldMask = 8#4
  | _ => False

/-- The handler is on the stack of an interrupted thread. -/
def Handled (tpidr : Option Nat) (frames : List Frame) : Prop :=
  ∃ elr, frames = [.handler 8#4 tpidr elr] ∧ Interrupted tpidr elr

/-- The closure of a yield, called by the thread itself or by its handler. -/
def InClosure (tpidr : Option Nat) (frames : List Frame) : Prop :=
  ∃ oldMask rest, frames = .closure oldMask :: rest ∧ oldMask = maskOf rest ∧
    (Closures rest ∨ Handled tpidr rest)

/-- The stack of the running thread. -/
def Shape (tpidr : Option Nat) (frames : List Frame) : Pc → Prop
  | .run => Closures frames
  | .locking _ => Closures frames ∧ (frames ≠ [] ∨ tpidr = none)
  | .holding _ => Closures frames ∧ (frames ≠ [] ∨ tpidr = none)
  | .disabling oldMask f => oldMask = maskOf frames ∧
      (Closures frames ∨ Handled tpidr frames ∧ f = .scheduleByResourceBlocks)
  | .irqs _ => Handled tpidr frames
  | .checkFlag => Handled tpidr frames
  | .eret => Handled tpidr frames
  | .schedule => InClosure tpidr frames
  | .scheduleThread _ => InClosure tpidr frames
  | .restoring => InClosure tpidr frames
  | .panicked _ => False
  | _ => InClosure tpidr frames ∧ tpidr ≠ none

/-! ## Who holds a lock -/

def Pc.holds (l : Lock) : Pc → Bool
  | .holding k => k = l
  | .inRes => l = .resblocks
  | .lockTs => l = .resblocks
  | .inTs => l = .resblocks ∨ l = .ts
  | _ => false

def Frame.holds (l : Lock) : Frame → Bool
  | .closure _ => false
  | .handler _ _ elr => elr.holds l

def Stack.holds (l : Lock) (st : Stack) : Bool := st.pc.holds l || st.frames.any (Frame.holds l)

theorem Closures.quiet (l : Lock) : ∀ {frames : List Frame}, Closures frames →
    frames.any (Frame.holds l) = false
  | [], _ => rfl
  | .closure _ :: _, h => by
    rw [List.any_cons, h.2.quiet l]
    rfl
  | .handler .. :: _, h => h.elim

theorem Interrupted.quiet {th : Nat} {pc : Pc} (l : Lock) (h : Interrupted (some th) pc) :
    pc.holds l = false := by
  cases pc with
  | run => rfl
  | disabling => rfl
  | locking => cases h
  | holding => cases h
  | _ => exact h.elim

theorem Handled.quiet {th : Nat} {frames : List Frame} (l : Lock) (h : Handled (some th) frames) :
    frames.any (Frame.holds l) = false := by
  obtain ⟨elr, rfl, hint⟩ := h
  simp [Frame.holds, hint.quiet l]

/-- **A thread that yields holds no lock.** -/
theorem InClosure.quiet {th : Nat} {frames : List Frame} (l : Lock)
    (h : InClosure (some th) frames) : frames.any (Frame.holds l) = false := by
  obtain ⟨oldMask, rest, rfl, -, hrest⟩ := h
  rw [List.any_cons]
  rcases hrest with hrest | hrest
  · rw [hrest.quiet l]
    rfl
  · rw [hrest.quiet l]
    rfl

/-! ## The invariant -/

/-- The flag is up only between the handler of the timer and the check. -/
def FlagOk (flag : Bool) : Pc → Prop
  | .irqs left => left.Nodup ∧ (flag = true → 30 ∉ left)
  | .checkFlag => True
  | _ => flag = false

structure Sound (s : State) (st : Stack) : Prop where
  stack : s.saved s.running = some st
  shape : Shape s.tpidr st.frames st.pc
  mask : s.daif = maskOf st.frames
  flag : FlagOk s.yieldBeforeReturn st.pc
  locks : ∀ l, s.locked l = st.holds l
  tpidr : s.tpidr = some s.running ∨
    s.tpidr = none ∧ ∀ t, t ≠ s.running → s.saved t = none
  others : ∀ t st, t ≠ s.running → s.saved t = some st →
    st.pc = .restoring ∧ InClosure (some t) st.frames

theorem boot_saved_of_ne {main t : Nat} (ht : t ≠ main) : (boot main).saved t = none := by
  simp [boot, ht]

theorem sound_boot (main : Nat) : Sound (boot main) ⟨.run, []⟩ where
  stack := by simp [boot]
  shape := trivial
  mask := rfl
  flag := rfl
  locks := fun _ => rfl
  tpidr := by
    refine Or.inr ⟨rfl, ?_⟩
    intro t ht
    exact boot_saved_of_ne ht
  others := by
    intro t st ht hst
    have hnone : (boot main).saved t = none := boot_saved_of_ne ht
    rw [hnone] at hst
    cases hst

section Steps

variable {s : State} {st : Stack}

theorem goto_saved_self (s : State) (pc : Pc) (frames : List Frame) :
    (s.goto pc frames).saved s.running = some ⟨pc, frames⟩ := Function.update_self ..

theorem goto_saved_of_ne (s : State) (pc : Pc) (frames : List Frame) {t : Nat}
    (ht : t ≠ s.running) : (s.goto pc frames).saved t = s.saved t :=
  Function.update_of_ne ht ..

/-- What a step has to show that leaves the other threads alone. -/
theorem Sound.goto (h : Sound s st) {s' : State} {pc : Pc} {frames : List Frame}
    (hsaved : s'.saved = s.saved) (hrunning : s'.running = s.running)
    (htpidr : s'.tpidr = s.tpidr) (hshape : Shape s.tpidr frames pc)
    (hmask : s'.daif = maskOf frames) (hflag : FlagOk s'.yieldBeforeReturn pc)
    (hlocks : ∀ l, s'.locked l = Stack.holds l ⟨pc, frames⟩) :
    Sound (s'.goto pc frames) ⟨pc, frames⟩ where
  stack := Function.update_self ..
  shape := htpidr ▸ hshape
  mask := hmask
  flag := hflag
  locks := hlocks
  tpidr := by
    show s'.tpidr = some s'.running ∨ s'.tpidr = none ∧ ∀ t, t ≠ s'.running →
      Function.update s'.saved s'.running _ t = none
    rw [htpidr, hrunning, hsaved]
    refine h.tpidr.imp_right fun ⟨hnone, hothers⟩ => ⟨hnone, ?_⟩
    intro t ht
    exact (Function.update_of_ne ht ..).trans (hothers t ht)
  others := by
    show ∀ t st, t ≠ s'.running → Function.update s'.saved s'.running _ t = some st → _
    rw [hrunning, hsaved]
    intro t st' ht hst
    rw [Function.update_of_ne ht] at hst
    exact h.others t st' ht hst

/-- The thread goes on, on the same stack. -/
theorem Sound.goto_same (h : Sound s st) {pc : Pc} (hshape : Shape s.tpidr st.frames pc)
    (hflag : FlagOk s.yieldBeforeReturn pc) (hholds : ∀ l, pc.holds l = st.pc.holds l) :
    Sound (s.goto pc st.frames) ⟨pc, st.frames⟩ := by
  refine h.goto rfl rfl rfl hshape h.mask hflag ?_
  intro l
  rw [h.locks l, Stack.holds, Stack.holds, hholds l]

/-- One round of `lock`. -/
theorem Sound.lock (h : Sound s st) {l : Lock} {there : Pc}
    (hshape : Shape s.tpidr st.frames there) (hflag : FlagOk s.yieldBeforeReturn there)
    (hholds : ∀ k, there.holds k = (decide (k = l) || st.pc.holds k)) :
    ∃ st', Sound (s.lock l st.pc there st.frames) st' := by
  rw [State.lock]
  cases hl : s.locked l with
  | true => exact ⟨_, h.goto_same h.shape h.flag fun _ => rfl⟩
  | false =>
    refine ⟨_, h.goto rfl rfl rfl hshape h.mask hflag ?_⟩
    intro k
    rw [Stack.holds, hholds k, Bool.or_assoc]
    by_cases hk : k = l
    · subst hk
      simp [Function.update_self]
    · have hother := h.locks k
      simpa [hk, Stack.holds] using hother

/-- A guard is dropped. -/
theorem Sound.unlock (h : Sound s st) {l : Lock} {pc : Pc}
    (hshape : Shape s.tpidr st.frames pc) (hflag : FlagOk s.yieldBeforeReturn pc)
    (hquiet : st.frames.any (Frame.holds l) = false)
    (hholds : ∀ k, pc.holds k = (decide (k ≠ l) && st.pc.holds k)) :
    Sound ((s.unlock l).goto pc st.frames) ⟨pc, st.frames⟩ := by
  refine h.goto rfl rfl rfl hshape h.mask hflag ?_
  intro k
  show Function.update s.locked l (Mutex.drop (s.locked l)) k = _
  rw [Stack.holds, hholds k]
  by_cases hk : k = l
  · subst hk
    simp [Mutex.drop, hquiet]
  · have hother := h.locks k
    simpa [hk, Stack.holds] using hother

/-- An interrupt that is taken finds no frame on the stack. -/
theorem Sound.frames_nil (h : Sound s st) (hmask : irqMasked s.daif = false) :
    st.frames = [] := by
  by_contra hne
  rw [h.mask, (irqMasked_maskOf st.frames).mpr hne] at hmask
  cases hmask

theorem not_inClosure_nil {tpidr : Option Nat} : ¬ InClosure tpidr [] := by
  rintro ⟨_, _, h, -⟩
  cases h

theorem not_handled_nil {tpidr : Option Nat} : ¬ Handled tpidr [] := by
  rintro ⟨_, h, -⟩
  cases h

/-- And finds the thread in its own code. -/
theorem interrupted_of_shape {tpidr : Option Nat} {pc : Pc} (h : Shape tpidr [] pc) :
    Interrupted tpidr pc := by
  cases pc with
  | run => trivial
  | locking => exact h.2.resolve_left fun hne => hne rfl
  | holding => exact h.2.resolve_left fun hne => hne rfl
  | disabling => exact h.1
  | irqs => exact (not_handled_nil h).elim
  | checkFlag => exact (not_handled_nil h).elim
  | eret => exact (not_handled_nil h).elim
  | schedule => exact (not_inClosure_nil h).elim
  | scheduleThread => exact (not_inClosure_nil h).elim
  | restoring => exact (not_inClosure_nil h).elim
  | panicked => exact h
  | _ => exact (not_inClosure_nil h.1).elim

/-- In its own code, the flag is down. -/
theorem flag_of_interrupted {tpidr : Option Nat} {flag : Bool} {pc : Pc}
    (h : Interrupted tpidr pc) (hflag : FlagOk flag pc) : flag = false := by
  cases pc with
  | run => exact hflag
  | locking => exact hflag
  | holding => exact hflag
  | disabling => exact hflag
  | _ => exact h.elim

/-- And it will be down after the handler. -/
theorem flagOk_of_interrupted {tpidr : Option Nat} {pc : Pc} (h : Interrupted tpidr pc) :
    FlagOk false pc := by
  cases pc with
  | run => rfl
  | locking => rfl
  | holding => rfl
  | disabling => rfl
  | _ => exact h.elim

theorem Sound.irq (h : Sound s st) : ∃ st', Sound (s.irq st) st' := by
  rw [State.irq]
  cases hmask : irqMasked s.daif with
  | true => exact ⟨st, h⟩
  | false =>
    obtain ⟨pc, frames⟩ := st
    obtain rfl : frames = [] := h.frames_nil hmask
    have hint := interrupted_of_shape h.shape
    have hdaif : s.daif = 8#4 := h.mask
    rw [if_neg (by decide), hdaif]
    refine ⟨_, h.goto rfl rfl rfl ⟨pc, rfl, hint⟩ rfl ?_ ?_⟩
    · refine ⟨by decide, fun htrue => ?_⟩
      cases (flag_of_interrupted hint h.flag).symm.trans htrue
    · intro l
      rw [show s.locked l = _ from h.locks l]
      simp [Stack.holds, Frame.holds, Pc.holds]

/-- The handlers. -/
theorem Sound.handle (h : Sound s st) {irq : Nat} {rest : List Nat} (hpc : st.pc = .irqs (irq :: rest)) :
    ∃ st', Sound (s.handle irq rest st.frames).1 st' := by
  obtain ⟨pc, frames⟩ := st
  obtain rfl : pc = .irqs (irq :: rest) := hpc
  obtain ⟨hnodup, hflag⟩ := h.flag
  obtain ⟨hirq, hrest⟩ := List.nodup_cons.mp hnodup
  have hsame : FlagOk s.yieldBeforeReturn (.irqs rest) :=
    ⟨hrest, fun htrue hmem => hflag htrue (List.mem_cons_of_mem irq hmem)⟩
  rw [State.handle]
  by_cases h30 : irq = 30
  · subst h30
    have hdown : s.yieldBeforeReturn = false := by
      cases hup : s.yieldBeforeReturn with
      | false => rfl
      | true => exact absurd List.mem_cons_self (hflag hup)
    rw [if_pos rfl, State.timerInterruptHandler]
    by_cases hslice : s.tickCount % TIME_SLICE = 0
    · simp only [if_pos hslice, hdown, compareExchange]
      exact ⟨_, h.goto rfl rfl rfl h.shape h.mask ⟨hrest, fun _ => hirq⟩ h.locks⟩
    · simp only [if_neg hslice]
      exact ⟨_, h.goto rfl rfl rfl h.shape h.mask hsame h.locks⟩
  · rw [if_neg h30]
    exact ⟨_, h.goto_same h.shape hsame fun _ => rfl⟩

theorem Sound.checkFlag (h : Sound s st) (hpc : st.pc = .checkFlag) :
    ∃ st', Sound (s.checkFlag st.frames) st' := by
  obtain ⟨pc, frames⟩ := st
  obtain rfl : pc = .checkFlag := hpc
  have hhandled : Handled s.tpidr frames := h.shape
  rw [State.checkFlag]
  cases hflag : s.yieldBeforeReturn with
  | true =>
    simp only [compareExchange, if_pos]
    exact ⟨_, h.goto rfl rfl rfl ⟨h.mask, Or.inr ⟨hhandled, rfl⟩⟩ h.mask rfl h.locks⟩
  | false =>
    simp only [compareExchange, Bool.false_eq_true, if_false]
    exact ⟨_, h.goto_same hhandled hflag fun _ => rfl⟩

/-- What is under a closure goes on as before it. -/
theorem shape_caller {tpidr : Option Nat} {frames : List Frame}
    (h : Closures frames ∨ Handled tpidr frames) :
    Shape tpidr frames (State.caller frames) ∧ FlagOk false (State.caller frames) ∧
      ∀ l, (State.caller frames).holds l = false := by
  rcases h with h | ⟨elr, rfl, hint⟩
  · cases frames with
    | nil => exact ⟨trivial, rfl, fun _ => rfl⟩
    | cons f fs =>
      cases f with
      | closure => exact ⟨h, rfl, fun _ => rfl⟩
      | handler => exact h.elim
  · exact ⟨⟨elr, rfl, hint⟩, rfl, fun _ => rfl⟩

/-- **The end of a closure restores the mask.** -/
theorem Sound.restoreMask (h : Sound s st) {oldMask : Daif} {rest : List Frame}
    (hframes : st.frames = .closure oldMask :: rest) (hmask : oldMask = maskOf rest)
    (hrest : Closures rest ∨ Handled s.tpidr rest) (hflag : s.yieldBeforeReturn = false)
    (hholds : ∀ l, st.pc.holds l = false) : ∃ st', Sound (s.restoreMask st.frames) st' := by
  obtain ⟨hshape, hdown, hquiet⟩ := shape_caller hrest
  rw [hframes]
  refine ⟨_, h.goto rfl rfl rfl hshape hmask (hflag ▸ hdown) ?_⟩
  intro l
  rw [show s.locked l = _ from h.locks l, Stack.holds, Stack.holds, hframes, hholds l, hquiet l]
  rfl

theorem Sound.eret (h : Sound s st) (hpc : st.pc = .eret) : ∃ st', Sound (s.eret st.frames) st' := by
  obtain ⟨pc, frames⟩ := st
  obtain rfl : pc = .eret := hpc
  obtain ⟨elr, rfl, hint⟩ : Handled s.tpidr frames := h.shape
  have hdown : s.yieldBeforeReturn = false := h.flag
  have hshape : Shape s.tpidr [] elr := by
    cases elr with
    | run => trivial
    | locking => exact ⟨trivial, Or.inr hint⟩
    | holding => exact ⟨trivial, Or.inr hint⟩
    | disabling => exact ⟨hint, Or.inl trivial⟩
    | _ => exact hint.elim
  refine ⟨_, h.goto rfl rfl rfl hshape rfl ?_ ?_⟩
  · show FlagOk s.yieldBeforeReturn elr
    rw [hdown]
    exact flagOk_of_interrupted hint
  · intro l
    show s.locked l = _
    rw [h.locks l]
    simp [Stack.holds, Frame.holds, Pc.holds]

/-- **A switch leaves every thread where it can be resumed.** -/
theorem Sound.switch (h : Sound s st) {next : Nat} (hpc : st.pc = .switching next) :
    ∃ st', Sound (s.switch next st.frames) st' := by
  obtain ⟨pc, frames⟩ := st
  obtain rfl : pc = .switching next := hpc
  obtain ⟨hclosure, hsome⟩ : InClosure s.tpidr frames ∧ s.tpidr ≠ none := h.shape
  have htpidr : s.tpidr = some s.running := h.tpidr.resolve_right fun hnone => hsome hnone.1
  rw [htpidr] at hclosure
  have hdown : s.yieldBeforeReturn = false := h.flag
  have hmask : s.daif = 15#4 := by
    obtain ⟨_, _, rfl, -⟩ := hclosure
    exact h.mask
  have hunlocked : ∀ l, s.locked l = false := by
    intro l
    rw [h.locks l, Stack.holds, hclosure.quiet l]
    rfl
  -- every thread with a stack is now at the end of a yield, the one that was running, too
  have hsaved : ∀ t st, (s.goto .restoring frames).saved t = some st →
      st.pc = .restoring ∧ InClosure (some t) st.frames := by
    intro t st hst
    by_cases ht : t = s.running
    · subst ht
      rw [goto_saved_self] at hst
      cases hst
      exact ⟨rfl, hclosure⟩
    · rw [goto_saved_of_ne s _ _ ht] at hst
      exact h.others t st ht hst
  rw [State.switch]
  cases hnext : (s.goto .restoring frames).saved next with
  | none =>
    simp only
    refine ⟨⟨.run, []⟩, ?_, trivial, ?_, hdown, hunlocked, Or.inl rfl, ?_⟩
    · exact Function.update_self ..
    · show daifClr s.daif = 8#4
      rw [hmask]
      rfl
    · intro t st ht hst
      exact hsaved t st ((Function.update_of_ne ht ..).symm.trans hst)
  | some st =>
    obtain ⟨hpc, hinside⟩ := hsaved next st hnext
    obtain ⟨pc, frames'⟩ := st
    obtain rfl : pc = .restoring := hpc
    simp only
    refine ⟨_, hnext, hinside, ?_, hdown, ?_, Or.inl rfl, fun t st _ hst => hsaved t st hst⟩
    · obtain ⟨_, _, rfl, -⟩ : InClosure (some next) frames' := hinside
      exact hmask
    · intro l
      show s.locked l = _
      rw [hunlocked l, Stack.holds, InClosure.quiet l hinside]
      rfl

/-- The thread's own code. -/
theorem Sound.own (h : Sound s st) (hpc : st.pc = .run) (c : Choice) :
    ∃ st', Sound (s.own st.frames c) st' := by
  obtain ⟨pc, frames⟩ := st
  obtain rfl : pc = .run := hpc
  have hclosures : Closures frames := h.shape
  have hdown : s.yieldBeforeReturn = false := h.flag
  cases c with
  | withIntrDisabled f =>
    exact ⟨_, h.goto_same ⟨h.mask, Or.inl hclosures⟩ hdown fun _ => rfl⟩
  | lock l =>
    by_cases hallowed : frames ≠ [] ∨ s.tpidr = none
    · rw [State.own, if_pos hallowed]
      exact ⟨_, h.goto_same ⟨hclosures, hallowed⟩ hdown fun _ => rfl⟩
    · rw [State.own, if_neg hallowed]
      exact ⟨_, h⟩
  | initThread =>
    by_cases hnone : frames = [] ∧ s.tpidr = none
    · obtain ⟨rfl, htpidr⟩ := hnone
      rw [State.own, if_pos ⟨rfl, htpidr⟩]
      exact ⟨_, h.stack, trivial, h.mask, h.flag, h.locks, Or.inl rfl, h.others⟩
    · rw [State.own, if_neg hnone]
      exact ⟨_, h⟩
  | done =>
    cases frames with
    | nil => exact ⟨_, h⟩
    | cons f fs =>
      cases f with
      | closure oldMask =>
        exact h.restoreMask rfl hclosures.1 (Or.inl hclosures.2) hdown fun _ => rfl
      | handler => exact hclosures.elim
  | idle => exact ⟨_, h⟩
  | pending => exact ⟨_, h⟩
  | lookUp => exact ⟨_, h⟩
  | found => exact ⟨_, h⟩

/-- A step of the running thread, by where it is. -/
theorem Sound.go (h : Sound s st) (c : Choice) : ∃ st', Sound (s.go st.frames c st.pc).1 st' := by
  obtain ⟨pc, frames⟩ := st
  cases pc with
  | run => exact h.own rfl c
  | locking l =>
    refine h.lock h.shape h.flag ?_
    intro k
    simp [Pc.holds, eq_comm]
  | holding l =>
    cases c with
    | done =>
      have hclosures : Closures frames := h.shape.1
      refine ⟨_, h.unlock hclosures h.flag (hclosures.quiet l) ?_⟩
      intro k
      simp [Pc.holds, eq_comm]
    | _ => exact ⟨_, h⟩
  | disabling oldMask f =>
    obtain ⟨hmask, hframes⟩ : oldMask = maskOf frames ∧ _ := h.shape
    have hdown : s.yieldBeforeReturn = false := h.flag
    have hset : daifSet s.daif = 15#4 := by rw [h.mask, daifSet_maskOf]
    have hholds : ∀ l, s.locked l = Stack.holds l ⟨State.entry f, .closure oldMask :: frames⟩ := by
      intro l
      rw [h.locks l]
      cases f <;> rfl
    have hflag : FlagOk s.yieldBeforeReturn (State.entry f) := by
      rw [hdown]
      cases f <;> rfl
    refine ⟨_, h.goto rfl rfl rfl ?_ hset hflag hholds⟩
    cases f with
    | own =>
      rcases hframes with hframes | ⟨-, hnot⟩
      · exact ⟨hmask, hframes⟩
      · cases hnot
    | scheduleByResourceBlocks =>
      exact ⟨oldMask, frames, rfl, hmask, hframes.imp_right fun hframes => hframes.1⟩
    | scheduleThread =>
      exact ⟨oldMask, frames, rfl, hmask, hframes.imp_right fun hframes => hframes.1⟩
  | schedule =>
    have hclosure : InClosure s.tpidr frames := h.shape
    simp only [State.go]
    cases htpidr : s.tpidr with
    | none => exact ⟨_, h.goto_same hclosure h.flag fun _ => rfl⟩
    | some th => exact ⟨_, h.goto_same ⟨hclosure, by simp [htpidr]⟩ h.flag fun _ => rfl⟩
  | lockRes =>
    refine h.lock h.shape h.flag ?_
    intro k
    simp [Pc.holds]
  | inRes =>
    obtain ⟨hclosure, hsome⟩ : InClosure s.tpidr frames ∧ s.tpidr ≠ none := h.shape
    cases c with
    | lookUp => exact ⟨_, h.goto_same h.shape h.flag fun _ => rfl⟩
    | found next =>
      obtain ⟨th, hth⟩ := Option.ne_none_iff_exists'.mp hsome
      refine ⟨_, h.unlock h.shape h.flag ((hth ▸ hclosure).quiet .resblocks) ?_⟩
      intro k
      cases k <;> rfl
    | _ => exact ⟨_, h⟩
  | lockTs =>
    refine h.lock h.shape h.flag ?_
    intro k
    cases k <;> rfl
  | inTs =>
    obtain ⟨hclosure, hsome⟩ : InClosure s.tpidr frames ∧ s.tpidr ≠ none := h.shape
    obtain ⟨th, hth⟩ := Option.ne_none_iff_exists'.mp hsome
    refine ⟨_, h.unlock h.shape h.flag ((hth ▸ hclosure).quiet .ts) ?_⟩
    intro k
    cases k <;> rfl
  | chosen next =>
    cases next with
    | none => exact ⟨_, h.goto_same h.shape.1 h.flag fun _ => rfl⟩
    | some next => exact ⟨_, h.goto_same h.shape h.flag fun _ => rfl⟩
  | scheduleThread next =>
    have hclosure : InClosure s.tpidr frames := h.shape
    simp only [State.go]
    cases htpidr : s.tpidr with
    | none => exact ⟨_, h.goto_same hclosure h.flag fun _ => rfl⟩
    | some th => exact ⟨_, h.goto_same ⟨hclosure, by simp [htpidr]⟩ h.flag fun _ => rfl⟩
  | switching next => exact h.switch rfl
  | restoring =>
    obtain ⟨oldMask, rest, rfl, hmask, hrest⟩ : InClosure s.tpidr frames := h.shape
    exact h.restoreMask rfl hmask hrest h.flag fun _ => rfl
  | irqs left =>
    cases left with
    | nil => exact ⟨_, h.goto_same h.shape trivial fun _ => rfl⟩
    | cons irq rest =>
      cases c with
      | pending b =>
        cases b with
        | true => exact h.handle rfl
        | false =>
          obtain ⟨hnodup, hflag⟩ := h.flag
          refine ⟨_, h.goto_same h.shape ⟨(List.nodup_cons.mp hnodup).2, ?_⟩ fun _ => rfl⟩
          intro htrue hmem
          exact hflag htrue (List.mem_cons_of_mem irq hmem)
      | _ => exact ⟨_, h⟩
  | checkFlag => exact h.checkFlag rfl
  | eret => exact h.eret rfl
  | panicked => exact ⟨_, h⟩

theorem Sound.step (h : Sound s st) (turn : Turn) : ∃ st', Sound (s.step turn).1 st' := by
  rw [State.step, h.stack]
  cases turn with
  | irq => exact h.irq
  | go c => exact h.go c

end Steps

/-! ## Runs -/

theorem sound_run (main : Nat) (turns : List Turn) :
    ∃ st, Sound (machine.run (boot main) turns).1 st := by
  refine machine.run_invariant (P := fun s _ => ∃ st, Sound s st) (G := fun _ => True) (fun h => h)
    ⟨_, sound_boot main⟩ ?_ turns trivial
  intro s es turn ⟨st, h⟩ _
  exact h.step turn

/-- The lock that a thread is about to take. -/
def Pc.wants : Pc → Option Lock
  | .locking l => some l
  | .lockRes => some .resblocks
  | .lockTs => some .ts
  | _ => none

theorem Sound.wanted_free {s : State} {st : Stack} (h : Sound s st) {l : Lock}
    (hwants : st.pc.wants = some l) : s.locked l = false := by
  obtain ⟨pc, frames⟩ := st
  rw [h.locks l, Stack.holds]
  have hclosure : InClosure s.tpidr frames ∧ s.tpidr ≠ none →
      frames.any (Frame.holds l) = false := by
    intro ⟨hclosure, hsome⟩
    obtain ⟨th, hth⟩ := Option.ne_none_iff_exists'.mp hsome
    exact (hth ▸ hclosure).quiet l
  cases pc with
  | locking k =>
    rw [h.shape.1.quiet l]
    rfl
  | lockRes =>
    rw [hclosure h.shape]
    rfl
  | lockTs =>
    cases hwants
    rw [hclosure h.shape]
    rfl
  | _ => cases hwants

/-- **No deadlock, no lost mask, no failed assumption.** In every run, from `load_table` on, for
every interleaving of interrupts, yields and critical sections: whoever is about to take a lock of
the scheduler or `UART` finds it free; `expect("assumption failed")` never fails; a thread's
interrupts are off exactly while it is in a closure of `with_intr_disabled` or in a handler; the
flag is up only while the handler of the timer has the core; and a thread that is not running holds
no lock. -/
theorem yields_safe (main : Nat) (turns : List Turn) :
    let s := (machine.run (boot main) turns).1
    ∃ st, s.saved s.running = some st ∧
      (∀ l, st.pc.wants = some l → s.locked l = false) ∧
      (∀ msg, st.pc ≠ .panicked msg) ∧
      (irqMasked s.daif = true ↔ st.frames ≠ []) ∧
      (s.yieldBeforeReturn = true → st.pc = .checkFlag ∨ ∃ left, st.pc = .irqs left) ∧
      ∀ t st', t ≠ s.running → s.saved t = some st' → ∀ l, st'.holds l = false := by
  obtain ⟨st, h⟩ := sound_run main turns
  refine ⟨st, h.stack, fun l => h.wanted_free, ?_, ?_, ?_, ?_⟩
  · intro msg hpc
    have hshape := h.shape
    rw [hpc] at hshape
    exact hshape
  · rw [h.mask, irqMasked_maskOf]
  · intro hup
    have hflag := h.flag
    rw [hup] at hflag
    cases hpc : st.pc with
    | irqs left => exact Or.inr ⟨left, rfl⟩
    | checkFlag => exact Or.inl rfl
    | _ =>
      rw [hpc] at hflag
      cases hflag
  · intro t st' ht hst l
    obtain ⟨hpc, hclosure⟩ := h.others t st' ht hst
    rw [Stack.holds, hpc, hclosure.quiet l]
    rfl

end Exception
end Allora
