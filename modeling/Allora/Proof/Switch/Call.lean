import Allora.Proof.Switch.Frame

/-!
# One call of `switch`

The first half saves the caller and is the same in every call. The second half depends on what
`saved_sp` of the next thread is: it resumes the thread from the frame there, or, if it is zero,
enters it at its `main` with an empty stack.
-/

set_option autoImplicit false

namespace Allora
namespace Switch

open Mem SysReg

variable {m m₁ : Machine} {base : BitVec 64}

/-- What a thread in `switch` has on its stack: a frame, and the address to return to. -/
def fullFrame (c : Context) (tpidr : BitVec 64) : List Mem.Word :=
  frame c tpidr ++ words c.reg [Reg.lr, Reg.xzr]

def FRAME_SIZE : Nat := 808

theorem size_fullFrame (c : Context) (tpidr : BitVec 64) :
    size (fullFrame c tpidr) = FRAME_SIZE := by
  rw [fullFrame, size_append, size_frame, size_words]
  rfl

/-- A frame has the registers that `context_stack` saves, and no others. -/
theorem frame_congr {c c' : Context} {t t' : BitVec 64}
    (hreg : ∀ r ∈ regs qPairs ++ regs xPairs, c.reg r = c'.reg r)
    (hsys : frameSys c t = frameSys c' t') : frame c t = frame c' t' := by
  have hwords : ∀ rs, (∀ r ∈ rs, c.reg r = c'.reg r) → words c.reg rs = words c'.reg rs := by
    intro rs hrs
    apply List.map_congr_left
    intro r hr
    rw [Reg.word, Reg.word, hrs r hr]
  have hq := hwords (regs qPairs) fun r hr => hreg r (List.mem_append_left _ hr)
  have hx := hwords (regs xPairs) fun r hr => hreg r (List.mem_append_right _ hr)
  have h₁ : c.esr = c'.esr := congrFun hsys ESR_EL2
  have h₂ : c.spsr = c'.spsr := congrFun hsys SPSR_EL2
  have h₃ : c.elr = c'.elr := congrFun hsys ELR_EL2
  have h₄ : t = t' := congrFun hsys TPIDR_EL2
  have h₅ : c.ttbr0 = c'.ttbr0 := congrFun hsys TTBR0_EL2
  rw [frame, frame, hq, hx, h₁, h₂, h₃, h₄, h₅]

/-! ## The first half -/

/-- **The caller is saved**: its frame is on its stack, and `saved_sp` of the thread in `x0` says
where. -/
structure Left (m m₁ : Machine) : Prop where
  mem : ∃ mem, Pushed m.mem m.sp (fullFrame m.context (m.sys TPIDR_EL2)) mem m₁.sp ∧
    m₁.mem = mem.store (m.getX 0 + 24) m₁.sp
  sys : m₁.sys = m.sys
  x1 : m₁.getX 1 = m.getX 1

theorem switch_left (base : BitVec 64) (h : FRAME_SIZE ≤ m.sp.toNat) :
    ∃ m₁, switch base m = run base 84 (addr base 84) m₁ ∧ Left m m₁ := by
  have hroom : 808 ≤ m.sp.toNat := h
  -- `stp lr, xzr`, and `bl`
  have hpush := stp_pushed (m := m) (a := Reg.lr) (b := Reg.xzr) (by simp [Reg.lr, Reg.xzr]; omega)
  have hget := pushOp_get (Reg.lr, Reg.xzr) m
  have hsys : ((pushOp (Reg.lr, Reg.xzr)).exec m).sys = m.sys := pushOp_sys _ m
  have hbl : switch base m = run base (87 + contextStack.length) (addr base CONTEXT_STACK)
      (((pushOp (Reg.lr, Reg.xzr)).exec m).setX 30 (addr base 82)) := by
    have h80 : text[80]? = some (.op (pushOp (Reg.lr, Reg.xzr))) := rfl
    have h81 : text[81]? = some (.bl CONTEXT_STACK) := rfl
    rw [switch, SWITCH, run_step h80, step, addr_succ, run_step h81, step, addr_succ]
    rfl
  generalize (pushOp (Reg.lr, Reg.xzr)).exec m = ma at *
  have hsize : size (words m.get [Reg.lr, Reg.xzr]) = 16 := by
    rw [size_words]
    rfl
  have hspa := hpush.toNat_sp (by omega)
  rw [hsize] at hspa
  -- `context_stack`, which does not see that `lr` has changed
  have hstack := contextStack_saved (m := ma.setX 30 (addr base 82)) (by rw [setX_sp]; omega)
  have hops := run_ops base (ma.setX 30 (addr base 82)) 87
    (show text.drop CONTEXT_STACK = contextStack.map .op ++ text.drop 39 from rfl)
  have hframe : frame (ma.setX 30 (addr base 82)).context
      ((ma.setX 30 (addr base 82)).sys TPIDR_EL2) = frame m.context (m.sys TPIDR_EL2) := by
    apply frame_congr
    · intro r hr
      have hne : r ≠ .x 30 := by
        rintro rfl
        revert hr
        decide
      exact (get_set_of_ne hne ma (addr base 82)).trans (congrFun hget r)
    · rw [frameSys_context, frameSys_context, setX_sys, hsys]
  rw [hframe] at hstack
  rw [hops] at hbl
  generalize contextStack.foldl Op.exec (ma.setX 30 (addr base 82)) = ms at *
  have hgetX : ∀ r, r ≠ 8 → r ≠ 9 → r ≠ 30 → ms.getX r = m.getX r := by
    intro r h8 h9 h30
    rw [hstack.getX r h8 h9, getX_setX _ (by decide), if_neg h30, getX_of_get hget]
  have hlr : ms.getX 30 = addr base 82 := by
    rw [hstack.getX 30 (by decide) (by decide), getX_setX _ (by decide), if_pos rfl]
  -- `ret`, `mov` and `str`
  refine ⟨(Op.str 2 0 24).exec ((Op.movFromSp 2).exec ms), ?_, ?_⟩
  · have h39 : text[39]? = some .ret := rfl
    have h82 : text[82]? = some (.op (.movFromSp 2)) := rfl
    have h83 : text[83]? = some (.op (.str 2 0 24)) := rfl
    rw [hbl]
    show run base (86 + 1) (addr base 39) ms = _
    rw [run_step h39, step, hlr, run_step h82, step, addr_succ, run_step h83, step, addr_succ]
  · have hx0 : (ms.setX 2 ms.sp).getX 0 = m.getX 0 := by
      rw [getX_setX _ (by decide), if_neg (by decide),
        hgetX 0 (by decide) (by decide) (by decide)]
    have hx2 : (ms.setX 2 ms.sp).getX 2 = ms.sp := by
      rw [getX_setX _ (by decide), if_pos rfl]
    have hpushed := hstack.pushed
    rw [setX_mem, setX_sp] at hpushed
    have hexec : (Op.str 2 0 24).exec ((Op.movFromSp 2).exec ms) =
        { ms.setX 2 ms.sp with mem := ms.mem.store (m.getX 0 + 24) ms.sp } := by
      simp only [Op.exec, hx0, hx2, setX_mem]
    rw [hexec]
    refine ⟨⟨ms.mem, ?_, ?_⟩, ?_, ?_⟩
    · show Pushed m.mem m.sp _ ms.mem (ms.setX 2 ms.sp).sp
      rw [setX_sp]
      exact hpush.trans hpushed (by rw [size_frame, hsize]; exact hroom)
    · show ms.mem.store (m.getX 0 + 24) ms.sp = ms.mem.store (m.getX 0 + 24) (ms.setX 2 ms.sp).sp
      rw [setX_sp]
    · exact (setX_sys ms 2 ms.sp).trans (hstack.sys.trans ((setX_sys ma 30 _).trans hsys))
    · rw [getX_withMem, getX_setX _ (by decide), if_neg (by decide),
        hgetX 1 (by decide) (by decide) (by decide)]

/-! ## The second half -/

/-- `ldr x2, [x1, 24]` and `cbnz`. -/
theorem run_branch (base : BitVec 64) (m₁ : Machine) :
    run base 84 (addr base 84) m₁ =
      run base 82 (addr base (if m₁.savedSp (m₁.getX 1) ≠ 0 then RESTORE else 86))
        (m₁.setX 2 (m₁.savedSp (m₁.getX 1))) := by
  have h84 : text[84]? = some (.op (.ldr 2 1 24)) := rfl
  have h85 : text[85]? = some (.cbnz 2 RESTORE) := rfl
  have hx2 : (m₁.setX 2 (m₁.savedSp (m₁.getX 1))).getX 2 = m₁.savedSp (m₁.getX 1) := by
    rw [getX_setX _ (by decide), if_pos rfl]
  have hldr : (Op.ldr 2 1 24).exec m₁ = m₁.setX 2 (m₁.savedSp (m₁.getX 1)) := rfl
  rw [run_step h84, step, addr_succ, hldr, run_step h85, step, hx2, addr_succ]
  by_cases h : m₁.savedSp (m₁.getX 1) ≠ 0
  · rw [if_pos h, if_pos h]
  · rw [if_neg h, if_neg h]

/-- **A thread that is in `switch` returns from it**, in the context it was called in. -/
theorem run_resumes {c : Context} {t : BitVec 64} (hc : c.reg Reg.xzr = 0)
    (hsaved : m₁.savedSp (m₁.getX 1) ≠ 0)
    (hstack : Stacked m₁.mem (m₁.savedSp (m₁.getX 1)) (fullFrame c t))
    (hsp : m₁.savedSp (m₁.getX 1) + BitVec.ofNat 64 FRAME_SIZE = c.sp)
    (hout : fetch base (c.reg Reg.lr) = none) :
    ∃ m₂, run base 84 (addr base 84) m₁ = some (c.reg Reg.lr, m₂) ∧ m₂.context = c ∧
      m₂.sys TPIDR_EL2 = t ∧ m₂.mem = m₁.mem := by
  rw [run_branch, if_pos hsaved]
  generalize m₁.savedSp (m₁.getX 1) = s at *
  -- `mov sp, x2` and `bl`
  have hx2 : (m₁.setX 2 s).getX 2 = s := by rw [getX_setX _ (by decide), if_pos rfl]
  have hbl : run base 82 (addr base RESTORE) (m₁.setX 2 s) =
      run base (41 + contextRestore.length) (addr base CONTEXT_RESTORE)
        (((Op.movToSp 2).exec (m₁.setX 2 s)).setX 30 (addr base 96)) := by
    have h94 : text[94]? = some (.op (.movToSp 2)) := rfl
    have h95 : text[95]? = some (.bl CONTEXT_RESTORE) := rfl
    rw [RESTORE, run_step h94, step, addr_succ, run_step h95, step, addr_succ]
    rfl
  have hmem : (((Op.movToSp 2).exec (m₁.setX 2 s)).setX 30 (addr base 96)).mem = m₁.mem := by
    rw [setX_mem]
    exact setX_mem m₁ 2 s
  have hspa : (((Op.movToSp 2).exec (m₁.setX 2 s)).setX 30 (addr base 96)).sp = s := by
    rw [setX_sp]
    exact hx2
  have hlr : (((Op.movToSp 2).exec (m₁.setX 2 s)).setX 30 (addr base 96)).getX 30 =
      addr base 96 := by
    rw [getX_setX _ (by decide), if_pos rfl]
  generalize ((Op.movToSp 2).exec (m₁.setX 2 s)).setX 30 (addr base 96) = ma at *
  -- `context_restore`
  rw [← hmem, ← hspa] at hstack
  obtain ⟨hrestored, hregs⟩ := contextRestore_restored hc (stacked_append.mp hstack).1
  have hrest := hrestored.stacked (size_frame c t) hstack
  rw [hbl, run_ops base ma 41
    (show text.drop CONTEXT_RESTORE = contextRestore.map .op ++ text.drop 79 from rfl)]
  generalize contextRestore.foldl Op.exec ma = mr at *
  -- `ldp lr, xzr`
  have hpop := ldp_popped hc hrest
  have hret : mr.getX 30 = addr base 96 := hrestored.lr.trans hlr
  have hldp : run base 41 (addr base (CONTEXT_RESTORE + contextRestore.length)) mr =
      run base 39 (addr base 97) ((popOp (Reg.lr, Reg.xzr)).exec mr) := by
    have h79 : text[79]? = some .ret := rfl
    have h96 : text[96]? = some (.op (popOp (Reg.lr, Reg.xzr))) := rfl
    show run base (40 + 1) (addr base 79) mr = _
    rw [run_step h79, step, hret, run_step h96, step, addr_succ]
  rw [hldp]
  generalize (popOp (Reg.lr, Reg.xzr)).exec mr = mf at *
  have hreg : mf.get = c.reg := by
    funext r
    rw [hpop.get]
    rcases mem_regs_or r with hr | hr | hr
    · by_cases hmem' : r ∈ [Reg.lr, Reg.xzr]
      · rw [if_pos hmem']
      · rw [if_neg hmem', hregs r hr]
    · rw [if_pos (by simp [hr])]
    · rw [if_pos (by simp [hr])]
  have hsys : mf.sys = frameSys c t := hpop.sys.trans hrestored.sys
  refine ⟨mf, ?_, ?_, congrFun hsys TPIDR_EL2, hpop.mem.trans (hrestored.mem.trans hmem)⟩
  · have h97 : text[97]? = some .ret := rfl
    have hpc : mf.getX 30 = c.reg Reg.lr := congrFun hreg Reg.lr
    rw [run_step h97, step, hpc]
    exact run_out hout
  · have hmfsp : mf.sp = c.sp := by
      rw [hpop.sp, hrestored.sp, hspa, size_words, BitVec.add_assoc, ← hsp, ← BitVec.ofNat_add]
      rfl
    have h₁ : mf.sys TTBR0_EL2 = c.ttbr0 := congrFun hsys TTBR0_EL2
    have h₂ : mf.sys SPSR_EL2 = c.spsr := congrFun hsys SPSR_EL2
    have h₃ : mf.sys ELR_EL2 = c.elr := congrFun hsys ELR_EL2
    have h₄ : mf.sys ESR_EL2 = c.esr := congrFun hsys ESR_EL2
    rw [Machine.context, hreg, hmfsp, h₁, h₂, h₃, h₄]

/-- From `entry` to its branch. -/
theorem entry_exec (m : Machine) :
    (entry.foldl Op.exec m).getX 3 = m.threadMain (m.getX 1) ∧
      (entry.foldl Op.exec m).sys TPIDR_EL2 = m.getX 1 ∧
      (entry.foldl Op.exec m).sp = m.threadStack (m.getX 1) + 4 <<< 12 ∧
      (entry.foldl Op.exec m).mem = m.mem := by
  simp (disch := decide) [entry, Op.exec, getX_setX, Machine.threadMain, Machine.threadStack]

/-- **A thread that has never run is entered** at its `main`, with an empty stack. -/
theorem run_enters (hsaved : m₁.savedSp (m₁.getX 1) = 0)
    (hout : fetch base (m₁.threadMain (m₁.getX 1)) = none) :
    ∃ m₂, run base 84 (addr base 84) m₁ = some (m₁.threadMain (m₁.getX 1), m₂) ∧
      m₂.sys TPIDR_EL2 = m₁.getX 1 ∧ m₂.sp = m₁.threadStack (m₁.getX 1) + 4 <<< 12 ∧
      m₂.mem = m₁.mem := by
  rw [run_branch, if_neg (not_not.mpr hsaved)]
  have hx1 : (m₁.setX 2 (m₁.savedSp (m₁.getX 1))).getX 1 = m₁.getX 1 := by
    rw [getX_setX _ (by decide), if_neg (by decide)]
  have hmem : (m₁.setX 2 (m₁.savedSp (m₁.getX 1))).mem = m₁.mem := setX_mem ..
  generalize m₁.setX 2 (m₁.savedSp (m₁.getX 1)) = ma at *
  obtain ⟨hmain, htpidr, hstack, hmem'⟩ := entry_exec ma
  have hfields : ma.threadMain (ma.getX 1) = m₁.threadMain (m₁.getX 1) ∧
      ma.threadStack (ma.getX 1) = m₁.threadStack (m₁.getX 1) := by
    rw [hx1, Machine.threadMain, Machine.threadStack, hmem]
    exact ⟨rfl, rfl⟩
  refine ⟨entry.foldl Op.exec ma, ?_, ?_, ?_, ?_⟩
  · have h93 : text[93]? = some (.br 3) := rfl
    have hops := run_ops base ma 75 (show text.drop 86 = entry.map .op ++ text.drop 93 from rfl)
    show run base (75 + entry.length) (addr base 86) ma = _
    rw [hops]
    show run base (74 + 1) (addr base 93) _ = _
    rw [run_step h93, step, hmain, hfields.1]
    exact run_out hout
  · rw [htpidr, hx1]
  · rw [hstack, hfields.2]
  · rw [hmem', hmem]

end Switch
end Allora
