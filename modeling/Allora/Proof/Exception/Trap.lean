import Allora.Vectors
import Allora.Proof.Switch.Call

/-!
# An exception leaves no trace

Whatever `exception_handler` does to the registers, to the system registers and to memory elsewhere,
the interrupted code goes on as if nothing had happened: with all its registers, its flags, its
mask, its stack and its thread. All that is asked of `exception_handler` is what its calling
convention says of every function: it comes back with the stack pointer it was called with, and has
not written over its caller's part of the stack. Other threads may well have run in between.
-/

set_option autoImplicit false

namespace Allora
namespace Vectors

open Switch Mem SysReg

variable {m : Switch.Machine} {base vbar : BitVec 64} {H : Switch.Machine → Switch.Machine}

/-! ## The processor state -/

theorem nzcvOf_spsr (nzcv daif : BitVec 4) : nzcvOf (spsr nzcv daif) = nzcv := by
  revert nzcv daif
  decide

theorem daifOf_spsr (nzcv daif : BitVec 4) : daifOf (spsr nzcv daif) = daif := by
  revert nzcv daif
  decide

/-! ## Calls into `switch.S` -/

/-- `bl context_stack`. The frame does not show that the link register has changed. -/
theorem call_contextStack (pc : BitVec 64) (hout : fetch base pc = none)
    (hroom : 792 ≤ m.sp.toNat) :
    ∃ m', Switch.run base 64 (addr base CONTEXT_STACK) (m.setX 30 pc) = some (pc, m') ∧
      Saved (m.setX 30 pc) (frame m.context (m.sys TPIDR_EL2)) m' := by
  have hsaved := contextStack_saved (m := m.setX 30 pc) (by rwa [setX_sp])
  have hframe : frame (m.setX 30 pc).context ((m.setX 30 pc).sys TPIDR_EL2) =
      frame m.context (m.sys TPIDR_EL2) := by
    apply frame_congr
    · intro r hr
      have hne : r ≠ .x 30 := by
        rintro rfl
        revert hr
        decide
      exact get_set_of_ne hne m pc
    · rw [frameSys_context, frameSys_context, setX_sys]
  rw [hframe] at hsaved
  refine ⟨_, ?_, hsaved⟩
  have hops := run_ops base (m.setX 30 pc) 25
    (show text.drop CONTEXT_STACK = contextStack.map .op ++ text.drop 39 from rfl)
  have h39 : text[39]? = some .ret := rfl
  have hlr : (contextStack.foldl Op.exec (m.setX 30 pc)).getX 30 = pc := by
    rw [hsaved.getX 30 (by decide) (by decide), getX_setX _ (by decide), if_pos rfl]
  rw [show Switch.run base 64 = Switch.run base (25 + contextStack.length) from rfl, hops]
  show Switch.run base (24 + 1) (addr base 39) _ = _
  rw [run_step h39, step, hlr]
  exact run_out hout

/-- `bl context_restore`, on a frame. -/
theorem call_contextRestore {c : Context} {tpidr : BitVec 64} (pc : BitVec 64)
    (hout : fetch base pc = none) (hc : c.reg Reg.xzr = 0)
    (h : Stacked m.mem m.sp (frame c tpidr)) :
    ∃ m', Switch.run base 64 (addr base CONTEXT_RESTORE) (m.setX 30 pc) = some (pc, m') ∧
      Restored (m.setX 30 pc) 792 (frameSys c tpidr) m' ∧
      ∀ r ∈ regs qPairs ++ regs xPairs, m'.get r = c.reg r := by
  obtain ⟨hrestored, hregs⟩ := contextRestore_restored (m := m.setX 30 pc) hc
    (by rwa [setX_mem, setX_sp])
  refine ⟨_, ?_, hrestored, hregs⟩
  have hops := run_ops base (m.setX 30 pc) 25
    (show text.drop CONTEXT_RESTORE = contextRestore.map .op ++ text.drop 79 from rfl)
  have h79 : text[79]? = some .ret := rfl
  have hlr : (contextRestore.foldl Op.exec (m.setX 30 pc)).getX 30 = pc := by
    have hsame : (contextRestore.foldl Op.exec (m.setX 30 pc)).getX 30 = (m.setX 30 pc).getX 30 :=
      hrestored.lr
    rw [hsame, getX_setX _ (by decide), if_pos rfl]
  rw [show Switch.run base 64 = Switch.run base (25 + contextRestore.length) from rfl, hops]
  show Switch.run base (24 + 1) (addr base 79) _ = _
  rw [run_step h79, step, hlr]
  exact run_out hout

/-! ## The two halves of a vector -/

/-- What `exception_handler` is called with: the frame of `m` on the stack, its address in `x1`, and
the vector in `x0`. -/
structure Entered (m : Switch.Machine) (type desc : BitVec 16) (m' : Switch.Machine) : Prop where
  pushed : Pushed m.mem m.sp (fullFrame m.context (m.sys TPIDR_EL2)) m'.mem m'.sp
  info : Info.ofReg (m'.getX 0) = ⟨type, desc⟩
  frame : m'.getX 1 = m'.sp

theorem ones_getElem : ∀ i : Fin 16, (65535#16)[i] = true := by decide

/-- `mov` and `movk` put an `Info` together. -/
theorem ofReg_movk (type desc : BitVec 16) :
    Info.ofReg (type.setWidth 64 &&& ~~~(0xffff#64 <<< 16) ||| desc.setWidth 64 <<< 16) =
      ⟨type, desc⟩ := by
  rw [Info.ofReg, Info.mk.injEq]
  constructor
  · ext i hi
    simpa using fun _ => ones_getElem ⟨i, hi⟩
  · ext i hi
    have h64 : 16 + i < 64 := by omega
    simp [BitVec.getLsbD_eq_getElem hi, h64, show i < 64 by omega]

/-- **The first half**, up to the call. -/
theorem exec_enters (rest : List Instr) {pc : BitVec 64} (type desc : BitVec 16)
    (hout : fetch base (pc + 4 + 4) = none) (hroom : FRAME_SIZE ≤ m.sp.toNat) :
    ∃ m', Entered m type desc m' ∧
      exec base H pc (.op (.stp Reg.lr Reg.xzr (-16)) :: .bl CONTEXT_STACK :: .movImm 0 type ::
        .movk 0 desc 16 :: .op (.movFromSp 1) :: .blHandler :: rest) m =
        exec base H (pc + 4 + 4 + 4 + 4 + 4 + 4) rest (H m') := by
  have h808 : 808 ≤ m.sp.toNat := hroom
  -- `stp lr, xzr`
  have hpush := stp_pushed (m := m) (a := Reg.lr) (b := Reg.xzr) (by simp [Reg.lr, Reg.xzr]; omega)
  have hget := pushOp_get (Reg.lr, Reg.xzr) m
  have hsys : ((pushOp (Reg.lr, Reg.xzr)).exec m).sys = m.sys := pushOp_sys _ m
  have hsize : size (words m.get [Reg.lr, Reg.xzr]) = 16 := by
    rw [size_words]
    rfl
  have hstp : (Op.stp Reg.lr Reg.xzr (-16)).exec m = (pushOp (Reg.lr, Reg.xzr)).exec m := rfl
  rw [exec, hstp]
  generalize (pushOp (Reg.lr, Reg.xzr)).exec m = ma at *
  have hspa := hpush.toNat_sp (by omega)
  rw [hsize] at hspa
  -- `bl context_stack`
  obtain ⟨ms, hrun, hsaved⟩ := call_contextStack (m := ma) (pc + 4 + 4) hout (by omega)
  have hframe : frame ma.context (ma.sys TPIDR_EL2) = frame m.context (m.sys TPIDR_EL2) := by
    apply frame_congr
    · intro r _
      exact congrFun hget r
    · rw [frameSys_context, frameSys_context, hsys]
  rw [hframe] at hsaved
  have hpushed := hsaved.pushed
  rw [setX_mem, setX_sp] at hpushed
  have hall := hpush.trans hpushed (by rw [size_frame, hsize]; exact h808)
  rw [exec, hrun]
  simp only [if_true, exec]
  -- `mov`, `movk`, `mov x1, sp` and the `bl`
  refine ⟨_, ⟨?_, ?_, ?_⟩, rfl⟩
  · simp only [Op.exec, setX_mem, setX_sp]
    exact hall
  · simp (disch := decide) only [Op.exec, getX_setX, setX_sp]
    exact ofReg_movk type desc
  · simp (disch := decide) only [Op.exec, getX_setX, setX_sp]
    rfl

/-- **The second half**, from the return of `exception_handler`. -/
theorem exec_returns {c : Context} {tpidr pc : BitVec 64} (hc : c.reg Reg.xzr = 0)
    (hstack : Stacked m.mem m.sp (fullFrame c tpidr)) (hout : fetch base (pc + 4) = none) :
    ∃ m' : Switch.Machine, exec base H pc [.bl CONTEXT_RESTORE, .op (.ldp Reg.lr Reg.xzr 16), .eret] m =
        some ⟨c.elr, nzcvOf c.spsr, m'.setDaif (daifOf c.spsr)⟩ ∧
      m'.get = c.reg ∧ m'.sp = m.sp + BitVec.ofNat 64 FRAME_SIZE ∧ m'.sys = frameSys c tpidr ∧
      m'.mem = m.mem := by
  -- `bl context_restore`
  obtain ⟨mr, hrun, hrestored, hregs⟩ := call_contextRestore (pc + 4) hout hc
    (stacked_append.mp hstack).1
  have hrest : Stacked mr.mem mr.sp (words c.reg [Reg.lr, Reg.xzr]) := by
    refine hrestored.stacked (size_frame c tpidr) ?_
    rw [setX_mem, setX_sp]
    exact hstack
  have hmem : mr.mem = m.mem := hrestored.mem.trans (setX_mem ..)
  have hspr : mr.sp = m.sp + BitVec.ofNat 64 792 := by rw [hrestored.sp, setX_sp]
  -- `ldp lr, xzr`
  have hpop := ldp_popped hc hrest
  have hldp : (Op.ldp Reg.lr Reg.xzr 16).exec mr = (popOp (Reg.lr, Reg.xzr)).exec mr := rfl
  rw [exec, hrun]
  simp only [if_true, exec]
  rw [hldp]
  generalize (popOp (Reg.lr, Reg.xzr)).exec mr = mf at *
  have hsys : mf.sys = frameSys c tpidr := hpop.sys.trans hrestored.sys
  have helr : mf.sys ELR_EL2 = c.elr := congrFun hsys ELR_EL2
  have hspsr : mf.sys SPSR_EL2 = c.spsr := congrFun hsys SPSR_EL2
  refine ⟨mf, by rw [helr, hspsr], ?_, ?_, hsys, hpop.mem.trans hmem⟩
  · funext r
    rw [hpop.get]
    rcases mem_regs_or r with hr | hr | hr
    · by_cases hlr : r ∈ [Reg.lr, Reg.xzr]
      · rw [if_pos hlr]
      · rw [if_neg hlr, hregs r hr]
    · rw [if_pos (by simp [hr])]
    · rw [if_pos (by simp [hr])]
  · rw [hpop.sp, hspr, size_words, BitVec.add_assoc, ← BitVec.ofNat_add]
    rfl

/-! ## A whole exception -/

/-- The calling convention, as far as it is needed: the stack pointer comes back, and the caller's
frame on the stack is as it was. -/
def KeepsFrame (exceptionHandler : Switch.Machine → Switch.Machine) : Prop :=
  ∀ m : Switch.Machine, (exceptionHandler m).sp = m.sp ∧
    ∀ b, Among m.sp FRAME_SIZE b → (exceptionHandler m).mem b = m.mem b

/-- The code of `switch.S` is not where the vectors are. -/
def Clear (base vbar : BitVec 64) : Prop :=
  ∀ k, k < 0x800 → fetch base (vbar + BitVec.ofNat 64 k) = none

theorem take_sp (c : Cpu) (esr : BitVec 64) : (c.take esr).sp = c.machine.sp := rfl

/-- **An exception is invisible to the code it interrupts.** For every vector, every state of the
processor and every `exception_handler` that keeps to its calling convention, the vector comes back
to the interrupted instruction with all registers, the flags, the mask, the stack pointer, the
thread and the translation table as they were, and memory as `exception_handler` left it. That was
called once, with its frame in `x1` and the number of the vector in `x0`. -/
theorem trap_transparent (hclear : Clear base vbar) (hkeeps : KeepsFrame H) {i : Nat} (hi : i < 16)
    (esr : BitVec 64) (c : Cpu) (hroom : FRAME_SIZE ≤ c.machine.sp.toNat) :
    ∃ mh c', trap base vbar H i esr c = some c' ∧
      Entered (c.take esr) (BitVec.ofNat 16 (i % 4)) (BitVec.ofNat 16 (i / 4)) mh ∧
      c'.pc = c.pc ∧ c'.nzcv = c.nzcv ∧ c'.machine.daif = c.machine.daif ∧
      c'.machine.get = c.machine.get ∧ c'.machine.sp = c.machine.sp ∧
      c'.machine.sys TPIDR_EL2 = c.machine.sys TPIDR_EL2 ∧
      c'.machine.sys TTBR0_EL2 = c.machine.sys TTBR0_EL2 ∧ c'.machine.mem = (H mh).mem := by
  have hlook : ∀ k, k < 0x80 → fetch base (vector vbar i + BitVec.ofNat 64 k) = none := by
    intro k hk
    rw [vector, BitVec.add_assoc, ← BitVec.ofNat_add]
    exact hclear _ (by omega)
  have hout₁ : fetch base (vector vbar i + 4 + 4) = none := by
    rw [BitVec.add_assoc]
    exact hlook 8 (by decide)
  have hout₂ : fetch base (vector vbar i + 4 + 4 + 4 + 4 + 4 + 4 + 4) = none := by
    simp only [BitVec.add_assoc]
    exact hlook 28 (by decide)
  obtain ⟨mh, hentered, hfirst⟩ := exec_enters (m := c.take esr) (H := H)
    [.bl CONTEXT_RESTORE, .op (.ldp Reg.lr Reg.xzr 16), .eret] (BitVec.ofNat 16 (i % 4))
    (BitVec.ofNat 16 (i / 4)) hout₁ hroom
  -- the frame is still there when `exception_handler` comes back
  obtain ⟨hsp, hmem⟩ := hkeeps mh
  have hpushed := hentered.pushed
  have hspmh := hpushed.toNat_sp (by rw [size_fullFrame]; exact hroom)
  rw [size_fullFrame] at hspmh
  have hlt := (c.take esr).sp.isLt
  have hstack : Stacked (H mh).mem (H mh).sp
      (fullFrame (c.take esr).context ((c.take esr).sys TPIDR_EL2)) := by
    rw [hsp]
    refine hpushed.stacked.congr ?_ ?_
    · rw [size_fullFrame, hspmh, take_sp]
      rw [take_sp] at hlt
      omega
    · intro b hb
      rw [size_fullFrame] at hb
      exact (hmem b hb).symm
  obtain ⟨mf, hsecond, hget, hspf, hsys, hmemf⟩ := exec_returns (H := H)
    (get_xzr (m := c.take esr)) hstack hout₂
  have hspsr : (c.take esr).context.spsr = spsr c.nzcv c.machine.daif := rfl
  rw [hspsr] at hsecond
  refine ⟨mh, ⟨c.pc, nzcvOf (spsr c.nzcv c.machine.daif), mf.setDaif _⟩,
    (hfirst.trans hsecond :), hentered, rfl, nzcvOf_spsr _ _, daifOf_spsr _ _, hget, ?_,
    congrFun hsys TPIDR_EL2, congrFun hsys TTBR0_EL2, hmemf⟩
  show mf.sp = c.machine.sp
  rw [hspf, hsp, hpushed.sp, size_fullFrame, BitVec.sub_add_cancel]
  rfl

/-- The vectors may be a page behind `switch.S`. -/
theorem clear_page (base : BitVec 64) : Clear base (base + 0x1000#64) := by
  intro k hk
  have hoffset : (base + 0x1000#64 + BitVec.ofNat 64 k - base).toNat = 0x1000 + k := by
    rw [BitVec.add_assoc, BitVec.add_comm, BitVec.add_sub_cancel, BitVec.toNat_add,
      BitVec.toNat_ofNat, BitVec.toNat_ofNat]
    omega
  rw [fetch, hoffset]
  split
  · apply List.getElem?_eq_none
    show 98 ≤ (0x1000 + k) / 4
    omega
  · rfl

/-- A thread with interrupts on, with its number in every register. -/
def interrupted : Cpu :=
  ⟨0x40100000, 5, ⟨fun r => BitVec.ofNat 64 r, fun r => BitVec.ofNat 128 r, 0x50000000,
    fun _ => 0x40200000, 8, fun _ => 0⟩⟩

/-- The timer interrupts it, and the handler leaves nothing in its registers. -/
theorem trap_transparent_irq :
    ∃ (mh : Switch.Machine) (c' : Cpu), trap 0x40080000 (0x40080000 + 0x1000) (fun m => { m with x := fun _ => 0 }) 5 0
        interrupted = some c' ∧ Info.ofReg (mh.getX 0) = ⟨1, 1⟩ ∧ c'.pc = 0x40100000 ∧
      c'.nzcv = 5 ∧ c'.machine.daif = 8 ∧ c'.machine.get = interrupted.machine.get := by
  obtain ⟨mh, c', htrap, hentered, hpc, hnzcv, hdaif, hget, -⟩ := trap_transparent
    (clear_page 0x40080000) (H := fun m => { m with x := fun _ => 0 })
    (fun m => ⟨rfl, fun b _ => rfl⟩) (i := 5) (by decide) 0 interrupted (by decide)
  exact ⟨mh, c', htrap, hentered.info, hpc, hnzcv, hdaif, hget⟩

end Vectors
end Allora
