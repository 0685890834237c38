import Allora.Proof.Switch.Call
import Mathlib.Data.Finset.Basic

/-!
# Threads that switch to each other

Any number of threads, each with an object and a stack of its own, run and call `switch` in any
order: to a thread that has never run, to one that is itself in a call of `switch`, or to
themselves. Between calls, the running thread does what it likes, as long as it leaves the other
threads' objects and stacks alone and its stack pointer in its own stack. A stack is where the
pushes of its thread go, those of `switch` included.

The invariant is about the threads that do not run. A thread without a call has never run, and its
`Thread` is as `Thread::create` made it. The others have a full frame on their stacks, at
`saved_sp`, for the context that they called `switch` in.
-/

set_option autoImplicit false

namespace Allora
namespace Switch

open Mem SysReg

/-! ## The threads and their memory -/

/-- The threads, by the addresses of their `Thread`s, and their stacks. The text of `switch.S` is at
`base`. Of a `Thread`, the first four words matter. -/
structure Layout where
  base : BitVec 64
  threads : Finset (BitVec 64)
  lo : BitVec 64 → Nat
  hi : BitVec 64 → Nat
  object_le : ∀ t ∈ threads, t.toNat + 32 ≤ 2 ^ 64
  lo_pos : ∀ t ∈ threads, 0 < lo t
  hi_lt : ∀ t ∈ threads, hi t < 2 ^ 64
  objects_apart : ∀ t ∈ threads, ∀ u ∈ threads, t ≠ u →
    t.toNat + 32 ≤ u.toNat ∨ u.toNat + 32 ≤ t.toNat
  stacks_apart : ∀ t ∈ threads, ∀ u ∈ threads, t ≠ u → hi t ≤ lo u ∨ hi u ≤ lo t
  object_stack : ∀ t ∈ threads, ∀ u ∈ threads, t.toNat + 32 ≤ lo u ∨ hi u ≤ t.toNat

namespace Layout

variable (L : Layout)

/-- The stack pointer is in the stack of `t`. -/
def InStack (t sp : BitVec 64) : Prop := L.lo t < sp.toNat ∧ sp.toNat ≤ L.hi t

instance (t sp : BitVec 64) : Decidable (L.InStack t sp) :=
  inferInstanceAs (Decidable (_ ∧ _))

/-- The byte belongs to `t`. -/
def Owns (t b : BitVec 64) : Prop :=
  (t.toNat ≤ b.toNat ∧ b.toNat < t.toNat + 32) ∨ (L.lo t ≤ b.toNat ∧ b.toNat < L.hi t)

/-- The thread that runs does something other than calling `switch`. -/
structure Works (m m' : Machine) : Prop where
  tpidr : m'.sys TPIDR_EL2 = m.sys TPIDR_EL2
  sp : L.InStack (m.sys TPIDR_EL2) m'.sp
  others : ∀ t ∈ L.threads, t ≠ m.sys TPIDR_EL2 → ∀ b, L.Owns t b → m'.mem b = m.mem b

/-- The thread that runs calls `switch(curr, next)`, from outside of `switch.S`. -/
structure Calls (m : Machine) (next : BitVec 64) : Prop where
  x0 : m.getX 0 = m.sys TPIDR_EL2
  x1 : m.getX 1 = next
  mem : next ∈ L.threads
  room : L.lo (m.sys TPIDR_EL2) + FRAME_SIZE ≤ m.sp.toNat
  out : fetch L.base (m.get Reg.lr) = none

/-- `STACK_SIZE` -/
def STACK_SIZE : Nat := 1 <<< 14

/-- A thread as `Thread::create` makes it. -/
structure Fresh (m : Machine) (t : BitVec 64) : Prop where
  savedSp : m.savedSp t = 0
  stack : (m.threadStack t).toNat = L.lo t
  size : L.lo t + STACK_SIZE = L.hi t
  main : fetch L.base (m.threadMain t) = none

/-- One thread runs, and the others have not been started. -/
structure Starts (m : Machine) : Prop where
  mem : m.sys TPIDR_EL2 ∈ L.threads
  sp : L.InStack (m.sys TPIDR_EL2) m.sp
  fresh : ∀ t ∈ L.threads, t ≠ m.sys TPIDR_EL2 → L.Fresh m t

end Layout

/-! ## Runs -/

/-- A call of `switch`, and where the machine is when it has left `switch.S`. -/
structure Call where
  curr : BitVec 64
  next : BitVec 64
  called : Context
  pc : BitVec 64
  arrived : Context

/-- The context of the last call that `t` made. -/
def lastCall (t : BitVec 64) (calls : List Call) : Option Context :=
  (calls.reverse.find? fun e => e.curr = t).map Call.called

theorem lastCall_concat (t : BitVec 64) (calls : List Call) (e : Call) :
    lastCall t (calls ++ [e]) = if e.curr = t then some e.called else lastCall t calls := by
  unfold lastCall
  rw [List.reverse_append, List.reverse_singleton, List.singleton_append, List.find?_cons]
  by_cases h : e.curr = t
  · simp [h]
  · simp [h]

/-- Runs of the threads, with the calls of `switch` they have made. -/
inductive Run (L : Layout) : List Call → Machine → Prop
  | start {m : Machine} (h : L.Starts m) : Run L [] m
  | work {calls : List Call} {m m' : Machine} (h : Run L calls m) (hw : L.Works m m') :
      Run L calls m'
  | call {calls : List Call} {m m' : Machine} {next pc : BitVec 64} (h : Run L calls m)
      (hcall : L.Calls m next) (hswitch : switch L.base m = some (pc, m')) :
      Run L (calls ++ [⟨m.sys TPIDR_EL2, next, m.context, pc, m'.context⟩]) m'

/-! ## The invariant -/

variable {L : Layout} {m m' : Machine} {t : BitVec 64}

/-- A thread that called `switch` in the context `c`, and is still in that call. -/
structure Layout.InCall (L : Layout) (m : Machine) (t : BitVec 64) (c : Context) : Prop where
  sp : (m.savedSp t).toNat + FRAME_SIZE = c.sp.toNat
  lo : L.lo t ≤ (m.savedSp t).toNat
  hi : c.sp.toNat ≤ L.hi t
  xzr : c.reg Reg.xzr = 0
  out : fetch L.base (c.reg Reg.lr) = none
  stacked : Stacked m.mem (m.savedSp t) (fullFrame c t)

/-- A thread that does not run, by its last call. -/
def Layout.Asleep (L : Layout) (m : Machine) (t : BitVec 64) : Option Context → Prop
  | none => L.Fresh m t
  | some c => L.InCall m t c

/-- Fields of a `Thread` are its own. -/
theorem field_congr (ht : t ∈ L.threads) {k : Nat} (hk : k + 8 ≤ 32)
    (h : ∀ b, L.Owns t b → m'.mem b = m.mem b) :
    m'.mem.load 64 (t + BitVec.ofNat 64 k) = m.mem.load 64 (t + BitVec.ofNat 64 k) := by
  have hle := L.object_le t ht
  have haddr : (t + BitVec.ofNat 64 k).toNat = t.toNat + k := toNat_add_ofNat (by omega)
  apply load_congr (by decide)
  · rw [haddr]
    omega
  · intro b hb
    apply h b
    left
    unfold Among at hb
    rw [haddr] at hb
    omega

theorem savedSp_congr (ht : t ∈ L.threads) (h : ∀ b, L.Owns t b → m'.mem b = m.mem b) :
    m'.savedSp t = m.savedSp t :=
  field_congr ht (k := 24) (by decide) h

/-- A thread sleeps on, while what it owns does not change. -/
theorem asleep_congr {o : Option Context} (ht : t ∈ L.threads)
    (h : ∀ b, L.Owns t b → m'.mem b = m.mem b) (hm : L.Asleep m t o) : L.Asleep m' t o := by
  have hsaved := savedSp_congr ht h
  cases o with
  | none =>
    have hstack : m'.threadStack t = m.threadStack t := field_congr ht (k := 8) (by decide) h
    have hmain : m'.threadMain t = m.threadMain t := field_congr ht (k := 0) (by decide) h
    exact ⟨hsaved.trans hm.savedSp, hstack ▸ hm.stack, hm.size, hmain ▸ hm.main⟩
  | some c =>
    have hm' : L.InCall m t c := hm
    have hsp := hm'.sp
    have hlo := hm'.lo
    have hhi := hm'.hi
    have hlt := L.hi_lt t ht
    refine ⟨hsaved ▸ hm'.sp, hsaved ▸ hm'.lo, hm'.hi, hm'.xzr, hm'.out, ?_⟩
    rw [hsaved]
    apply hm'.stacked.congr
    · rw [size_fullFrame]
      omega
    · intro b hb
      unfold Among at hb
      rw [size_fullFrame] at hb
      exact (h b (Or.inr (by omega))).symm

/-- What holds between calls. -/
structure Inv (L : Layout) (calls : List Call) (m : Machine) : Prop where
  mem : m.sys TPIDR_EL2 ∈ L.threads
  sp : L.InStack (m.sys TPIDR_EL2) m.sp
  asleep : ∀ t ∈ L.threads, t ≠ m.sys TPIDR_EL2 → L.Asleep m t (lastCall t calls)

theorem Inv.start (h : L.Starts m) : Inv L [] m := ⟨h.mem, h.sp, h.fresh⟩

theorem Inv.work {calls : List Call} (h : Inv L calls m) (hw : L.Works m m') : Inv L calls m' where
  mem := hw.tpidr ▸ h.mem
  sp := hw.tpidr ▸ hw.sp
  asleep t ht hne := by
    rw [hw.tpidr] at hne
    exact asleep_congr ht (hw.others t ht hne) (h.asleep t ht hne)

/-! ## Calls -/

/-- After the first half of a call, every thread sleeps, the caller too. -/
theorem Left.asleep {calls : List Call} {next : BitVec 64} {m₁ : Machine}
    (hinv : Inv L calls m) (hcall : L.Calls m next) (hleft : Left m m₁) :
    ∀ t ∈ L.threads,
      L.Asleep m₁ t (if m.sys TPIDR_EL2 = t then some m.context else lastCall t calls) := by
  obtain ⟨mem, hpushed, hmem⟩ := hleft.mem
  rw [hcall.x0] at hmem
  generalize hc : m.sys TPIDR_EL2 = curr at *
  have hcmem : curr ∈ L.threads := hc ▸ hinv.mem
  have hin : L.InStack curr m.sp := hc ▸ hinv.sp
  have hroom : L.lo curr + FRAME_SIZE ≤ m.sp.toNat := hc ▸ hcall.room
  have hsize : ∀ tpidr, size (fullFrame m.context tpidr) = FRAME_SIZE :=
    fun tpidr => size_fullFrame m.context tpidr
  have hsp : m₁.sp.toNat = m.sp.toNat - FRAME_SIZE := by
    rw [hpushed.toNat_sp (by rw [hsize]; omega), hsize]
  have hobject := L.object_le curr hcmem
  have hfield : (curr + BitVec.ofNat 64 24).toNat = curr.toNat + 24 := toNat_add_ofNat (by omega)
  have hfits : (curr + BitVec.ofNat 64 24).toNat + 64 / 8 ≤ 2 ^ 64 := by omega
  unfold Layout.InStack at hin
  intro t ht
  by_cases htc : curr = t
  · subst htc
    rw [if_pos rfl]
    have hsaved : m₁.savedSp curr = m₁.sp := by
      rw [Machine.savedSp, hmem]
      exact load_store_same (by decide) (by decide)
    have hlt := L.hi_lt curr ht
    refine ⟨?_, ?_, hin.2, get_xzr m, hcall.out, ?_⟩
    · rw [hsaved, hsp]
      exact Nat.sub_add_cancel (by omega)
    · rw [hsaved, hsp]
      omega
    · rw [hsaved, hmem]
      apply hpushed.stacked.congr
      · rw [hsize, hsp]
        have := m.sp.isLt
        omega
      · -- the store to `saved_sp` is outside of the stack
        intro b hb
        have happart := L.object_stack curr ht curr ht
        unfold Among at hb
        rw [hsize, hsp] at hb
        symm
        apply store_apply_of_not hfits
        unfold Among
        omega
  · rw [if_neg htc]
    refine asleep_congr ht (fun b hb => ?_) (hinv.asleep t ht (by rw [hc]; exact Ne.symm htc))
    have h₁ := L.objects_apart t ht curr hcmem (Ne.symm htc)
    have h₂ := L.stacks_apart t ht curr hcmem (Ne.symm htc)
    have h₃ := L.object_stack t ht curr hcmem
    have h₄ := L.object_stack curr hcmem t ht
    unfold Layout.Owns at hb
    rw [hmem]
    have hstore : mem.store (curr + BitVec.ofNat 64 24) m₁.sp b = mem b := by
      apply store_apply_of_not hfits
      unfold Among
      omega
    exact hstore.trans (hpushed.outside b (by rw [hsize]; omega))

/-- **One call.** It arrives at the next thread, in the context of that thread's last call if there
is one. -/
theorem Inv.call {calls : List Call} {next : BitVec 64} (hinv : Inv L calls m)
    (hcall : L.Calls m next) :
    ∃ pc m', switch L.base m = some (pc, m') ∧ m'.sys TPIDR_EL2 = next ∧
      Inv L (calls ++ [⟨m.sys TPIDR_EL2, next, m.context, pc, m'.context⟩]) m' ∧
      ∀ c, lastCall next (calls ++ [⟨m.sys TPIDR_EL2, next, m.context, pc, m'.context⟩]) = some c →
        m'.context = c ∧ pc = c.reg Reg.lr := by
  have hroom := hcall.room
  obtain ⟨m₁, hrun, hleft⟩ := switch_left (m := m) L.base (by omega)
  have hasleep := Left.asleep hinv hcall hleft
  have hx1 : m₁.getX 1 = next := hleft.x1.trans hcall.x1
  have hlo := L.lo_pos next hcall.mem
  simp only [hrun, lastCall_concat]
  -- what the second half has to establish, whichever way it goes
  suffices hgoal : ∃ pc m', run L.base 84 (addr L.base 84) m₁ = some (pc, m') ∧
      m'.sys TPIDR_EL2 = next ∧ L.InStack next m'.sp ∧ m'.mem = m₁.mem ∧
      ∀ c, (if m.sys TPIDR_EL2 = next then some m.context else lastCall next calls) = some c →
        m'.context = c ∧ pc = c.reg Reg.lr by
    obtain ⟨pc, m', hrun', htpidr, hin, hmem, hctx⟩ := hgoal
    refine ⟨pc, m', hrun', htpidr, ⟨htpidr ▸ hcall.mem, htpidr ▸ hin, ?_⟩, hctx⟩
    intro t ht _
    rw [lastCall_concat]
    exact asleep_congr ht (fun b _ => congrFun hmem b) (hasleep t ht)
  have hnext := hasleep next hcall.mem
  cases hlast : (if m.sys TPIDR_EL2 = next then some m.context else lastCall next calls) with
  | none =>
    rw [hlast] at hnext
    have hfresh : L.Fresh m₁ next := hnext
    have hsaved : m₁.savedSp (m₁.getX 1) = 0 := hx1 ▸ hfresh.savedSp
    have hmain : fetch L.base (m₁.threadMain (m₁.getX 1)) = none := hx1 ▸ hfresh.main
    obtain ⟨m', hrun', htpidr, hsp, hmem⟩ := run_enters hsaved hmain
    rw [hx1] at htpidr hsp
    have hlt := L.hi_lt next hcall.mem
    have hsize := hfresh.size
    have htop : m'.sp.toNat = L.hi next := by
      rw [hsp, ← hsize, ← hfresh.stack]
      exact toNat_add_ofNat (k := Layout.STACK_SIZE) (by rw [hfresh.stack]; omega)
    refine ⟨_, m', hrun', htpidr, ⟨?_, ?_⟩, hmem, ?_⟩
    · have hpos : 0 < Layout.STACK_SIZE := by decide
      omega
    · omega
    · intro c hc
      cases hc
  | some c =>
    rw [hlast] at hnext
    have hin : L.InCall m₁ next c := hnext
    have hsp := hin.sp
    have hlo' := hin.lo
    have hsaved : m₁.savedSp (m₁.getX 1) ≠ 0 := by
      rw [hx1]
      intro hzero
      rw [hzero] at hlo'
      exact absurd hlo' (by simp; omega)
    have hstack : Stacked m₁.mem (m₁.savedSp (m₁.getX 1)) (fullFrame c next) := by
      rw [hx1]
      exact hin.stacked
    have hspeq : m₁.savedSp (m₁.getX 1) + BitVec.ofNat 64 FRAME_SIZE = c.sp := by
      rw [hx1]
      apply BitVec.eq_of_toNat_eq
      have hlt := c.sp.isLt
      rw [toNat_add_ofNat (by omega), hsp]
    obtain ⟨m', hrun', hctx, htpidr, hmem⟩ := run_resumes hin.xzr hsaved hstack hspeq hin.out
    refine ⟨_, m', hrun', htpidr, ?_, hmem, ?_⟩
    · have hsp' : m'.sp = c.sp := congrArg Context.sp hctx
      rw [hsp']
      have hframe : 0 < FRAME_SIZE := by decide
      exact ⟨by omega, hin.hi⟩
    · intro c' hc'
      cases hc'
      exact ⟨hctx, rfl⟩

/-! ## Whole runs -/

/-- Every call so far that went to a thread with a call of its own has arrived in the context of
that one. -/
def Resumes (calls : List Call) : Prop :=
  ∀ before e after, calls = before ++ e :: after →
    ∀ c, lastCall e.next (before ++ [e]) = some c → e.arrived = c ∧ e.pc = c.reg Reg.lr

theorem Resumes.concat {calls : List Call} {e : Call} (h : Resumes calls)
    (he : ∀ c, lastCall e.next (calls ++ [e]) = some c → e.arrived = c ∧ e.pc = c.reg Reg.lr) :
    Resumes (calls ++ [e]) := by
  intro before e' after heq
  rcases List.eq_nil_or_concat after with rfl | ⟨after', e'', rfl⟩
  · obtain ⟨rfl, heq'⟩ := List.append_inj' heq rfl
    cases heq'
    exact he
  · have hsplit : calls ++ [e] = (before ++ e' :: after') ++ [e''] := by
      rw [heq, List.append_assoc, List.cons_append, List.concat_eq_append]
    exact h before e' after' (List.append_inj' hsplit rfl).1

theorem Run.inv {calls : List Call} (h : Run L calls m) : Inv L calls m ∧ Resumes calls := by
  induction h with
  | start h =>
    refine ⟨Inv.start h, ?_⟩
    intro before e after heq
    cases before with
    | nil => cases heq
    | cons a before => cases heq
  | work h hw ih => exact ⟨ih.1.work hw, ih.2⟩
  | call h hcall hswitch ih =>
    obtain ⟨pc, m', hswitch', -, hinv, hctx⟩ := ih.1.call hcall
    rw [hswitch] at hswitch'
    cases hswitch'
    exact ⟨hinv, ih.2.concat hctx⟩

/-- **Switching threads.** In every run, `TPIDR_EL2` names the thread whose stack is in use, every
call of `switch` comes to its end, and a thread that is resumed finds its registers as they were
when it called. -/
theorem switch_keeps_threads {calls : List Call} (h : Run L calls m) :
    m.sys TPIDR_EL2 ∈ L.threads ∧
      (∀ t ∈ L.threads, L.InStack t m.sp ↔ t = m.sys TPIDR_EL2) ∧
      (∀ next, L.Calls m next → ∃ pc m', switch L.base m = some (pc, m')) ∧
      Resumes calls := by
  obtain ⟨hinv, hresumes⟩ := h.inv
  refine ⟨hinv.mem, ?_, ?_, hresumes⟩
  · intro t ht
    constructor
    · intro hin
      by_contra hne
      have hcurr := hinv.sp
      have hapart := L.stacks_apart t ht _ hinv.mem hne
      unfold Layout.InStack at hin hcurr
      omega
    · intro heq
      rw [heq]
      exact hinv.sp
  · intro next hcall
    obtain ⟨pc, m', hswitch, -⟩ := hinv.call hcall
    exact ⟨pc, m', hswitch⟩

/-- Two threads, with their objects on one page each and stacks of 16 KiB. -/
def pingPong : Layout where
  base := 0x40000
  threads := {0x1000, 0x2000}
  lo t := if t = 0x1000 then 0x10000 else 0x20000
  hi t := if t = 0x1000 then 0x14000 else 0x24000
  object_le := by simp
  lo_pos := by simp
  hi_lt := by simp
  objects_apart := by simp
  stacks_apart := by simp
  object_stack := by simp

section

attribute [local instance] neZero_registers

/-- The first one runs and is about to call `switch`. -/
def ping : Machine where
  x r := if r = 0 then 0x1000 else if r = 1 then 0x2000 else 0
  q _ := 0
  sp := 0x14000
  sys s := if s = TPIDR_EL2 then 0x1000 else 0
  daif := 0
  mem := Mem.store (fun _ => 0) 0x2008 (0x20000 : BitVec 64)

end

theorem ping_starts : pingPong.Starts ping where
  mem := by simp [ping, pingPong]
  sp := by simp [ping, pingPong, Layout.InStack]
  fresh t ht hne := by
    have ht' : t = 0x1000 ∨ t = 0x2000 := by simpa [pingPong] using ht
    rcases ht' with rfl | rfl
    · exact absurd rfl hne
    · exact ⟨by decide +kernel, by decide +kernel, by simp [pingPong, Layout.STACK_SIZE], by rfl⟩

/-- The first thread starts the second one, which switches back. -/
theorem switch_keeps_threads_pingPong :
    ∃ calls m, Run pingPong calls m ∧
      calls.map (fun e => (e.curr, e.next)) = [(0x1000, 0x2000), (0x2000, 0x1000)] ∧
      Resumes calls := by
  have hrun₀ := Run.start ping_starts
  have hcall₀ : pingPong.Calls ping 0x2000 :=
    ⟨rfl, rfl, by simp [pingPong], by simp [ping, pingPong, FRAME_SIZE], by rfl⟩
  obtain ⟨pc₁, m₁, hswitch₁, htpidr₁, -⟩ := hrun₀.inv.1.call hcall₀
  have hrun₁ := hrun₀.call hcall₀ hswitch₁
  -- the second thread gets its arguments ready
  obtain ⟨m₂, hx, hsp, hsys, hmem⟩ : ∃ m₂ : Machine,
      (m₂.x = fun r => if r = 0 then 0x2000 else if r = 1 then 0x1000 else 0) ∧
        m₂.sp = 0x24000 ∧ m₂.sys = m₁.sys ∧ m₂.mem = m₁.mem :=
    ⟨⟨_, m₁.q, _, m₁.sys, m₁.daif, m₁.mem⟩, rfl, rfl, rfl, rfl⟩
  have htpidr₂ : m₂.sys TPIDR_EL2 = 0x2000 := by rw [hsys, htpidr₁]
  have hworks : pingPong.Works m₁ m₂ := by
    refine ⟨by rw [hsys], ?_, fun _ _ _ b _ => by rw [hmem]⟩
    rw [htpidr₁, hsp]
    simp [pingPong, Layout.InStack]
  have hrun₂ := hrun₁.work hworks
  have hcall₂ : pingPong.Calls m₂ 0x1000 := by
    refine ⟨?_, ?_, by simp [pingPong], ?_, ?_⟩
    · rw [htpidr₂, Machine.getX, hx]
      rfl
    · rw [Machine.getX, hx]
      rfl
    · rw [htpidr₂, hsp]
      simp [pingPong, FRAME_SIZE]
    · have hlr : m₂.get Reg.lr = 0 := by
        show m₂.getX 30 = 0
        rw [Machine.getX, hx]
        rfl
      rw [hlr]
      rfl
  obtain ⟨pc₃, m₃, hswitch₃, -⟩ := hrun₂.inv.1.call hcall₂
  have hrun₃ := hrun₂.call hcall₂ hswitch₃
  refine ⟨_, m₃, hrun₃, ?_, (switch_keeps_threads hrun₃).2.2.2⟩
  have htpidr₀ : ping.sys TPIDR_EL2 = 0x1000 := rfl
  rw [htpidr₂, htpidr₀]
  rfl

end Switch
end Allora
