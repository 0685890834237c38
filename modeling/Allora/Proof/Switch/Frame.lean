import Allora.Switch

/-!
# What `context_stack` saves, `context_restore` brings back

A pair of registers is stored by one instruction and loaded by another. Sequences of such
instructions are taken as lists of pairs, and each half of the code is a few such lists and a short
rest. The frame on the stack is a list of words, lowest address first: the system registers,
`q0`–`q31`, `x0`–`x29`, `lr`, and a zero.

Both halves use `x` registers as scratch: `x8` and `x9` after they have been stored, `x0` and `x1`
before they are loaded.
-/

set_option autoImplicit false

namespace Allora
namespace Switch

open Mem SysReg

variable {m m' : Machine} {base : BitVec 64}

/-! ## Running through the text -/

theorem addr_succ (base : BitVec 64) (i : Nat) : addr base i + 4 = addr base (i + 1) := by
  unfold addr
  rw [Nat.mul_add, BitVec.ofNat_add, BitVec.add_assoc]
  rfl

theorem fetch_addr {i : Nat} (hi : i < text.length) :
    fetch base (addr base i) = text[i]? := by
  have hlen : text.length = 98 := rfl
  have hoffset : (addr base i - base).toNat = 4 * i := by
    rw [addr, BitVec.add_comm, BitVec.add_sub_cancel, BitVec.toNat_ofNat,
      Nat.mod_eq_of_lt (by omega)]
  rw [fetch, hoffset, if_pos (Nat.mul_mod_right 4 i), Nat.mul_div_cancel_left i (by decide)]

theorem run_step {i fuel : Nat} {instr : Instr} (h : text[i]? = some instr) :
    run base (fuel + 1) (addr base i) m =
      run base fuel (step base (addr base i) m instr).1 (step base (addr base i) m instr).2 := by
  have hi : i < text.length := (List.getElem?_eq_some_iff.mp h).1
  rw [run, fetch_addr hi, h]

/-- Instructions that do not branch are executed one after another. -/
theorem run_ops (base : BitVec 64) (m : Machine) (fuel : Nat) {ops : List Op} {rest : List Instr}
    {i : Nat} (h : text.drop i = ops.map .op ++ rest) :
    run base (fuel + ops.length) (addr base i) m =
      run base fuel (addr base (i + ops.length)) (ops.foldl Op.exec m) := by
  induction ops generalizing i m with
  | nil => rfl
  | cons o ops ih =>
    have hget : text[i]? = some (.op o) := by
      rw [← List.head?_drop, h]
      rfl
    have hdrop : text.drop (i + 1) = ops.map .op ++ rest := by
      rw [← List.tail_drop, h]
      rfl
    rw [List.length_cons, ← Nat.add_assoc, run_step hget, step, addr_succ, ih _ hdrop,
      Nat.add_right_comm, Nat.add_assoc, List.foldl_cons]

/-- A piece of text that has been left. -/
theorem run_out {pc : BitVec 64} {fuel : Nat} (h : fetch base pc = none) :
    run base (fuel + 1) pc m = some (pc, m) := by
  rw [run, h]

/-! ## Registers -/

namespace Reg

theorem whole (r : Reg) : r.width % 8 = 0 := by
  cases r with
  | x r => simp [width]
  | q r => simp [width]

theorem bytes_eq (r : Reg) : r.bytes = r.width / 8 := by
  cases r with
  | x r => simp [width, bytes]
  | q r => simp [width, bytes]

@[simp] theorem bytes_x (r : Fin 32) : (x r).bytes = 8 := rfl

@[simp] theorem bytes_q (r : Fin 32) : (q r).bytes = 16 := rfl

/-- The word a register has, where `f` gives the values. -/
def word (f : (r : Reg) → BitVec r.width) (r : Reg) : Mem.Word := ⟨r.width, f r, r.whole⟩

@[simp] theorem bytes_word (f : (r : Reg) → BitVec r.width) (r : Reg) :
    (word f r).bytes = r.bytes := r.bytes_eq.symm

end Reg

section

variable (m : Machine) (r : Fin 32) (v : BitVec 64)

/-- Writing to a register changes nothing else. -/
theorem setX_eq : m.setX r v = { m with x := (m.setX r v).x } := by
  unfold Machine.setX
  split
  · rfl
  · rfl

@[simp] theorem setX_q : (m.setX r v).q = m.q := by rw [setX_eq]

@[simp] theorem setX_sp : (m.setX r v).sp = m.sp := by rw [setX_eq]

@[simp] theorem setX_sys : (m.setX r v).sys = m.sys := by rw [setX_eq]

@[simp] theorem setX_mem : (m.setX r v).mem = m.mem := by rw [setX_eq]

@[simp] theorem setX_daif : (m.setX r v).daif = m.daif := by rw [setX_eq]

end

section

variable (m : Machine) (sp v : BitVec 64) (daif : BitVec 4) (s : SysReg) (r : Fin 32)

@[simp] theorem getX_setSp : (m.setSp sp).getX r = m.getX r := rfl

@[simp] theorem getX_setDaif : (m.setDaif daif).getX r = m.getX r := rfl

@[simp] theorem getX_setSys : (m.setSys s v).getX r = m.getX r := rfl

@[simp] theorem setSp_sp : (m.setSp sp).sp = sp := rfl

@[simp] theorem setDaif_sp : (m.setDaif daif).sp = m.sp := rfl

@[simp] theorem setSp_sys : (m.setSp sp).sys = m.sys := rfl

@[simp] theorem setDaif_sys : (m.setDaif daif).sys = m.sys := rfl

@[simp] theorem setSys_sys : (m.setSys s v).sys = Function.update m.sys s v := rfl

@[simp] theorem setSp_mem : (m.setSp sp).mem = m.mem := rfl

@[simp] theorem setDaif_mem : (m.setDaif daif).mem = m.mem := rfl

@[simp] theorem setSys_mem : (m.setSys s v).mem = m.mem := rfl

end

theorem getX_withMem (m : Machine) (mem : Mem 64) (r : Fin 32) :
    ({ m with mem := mem } : Machine).getX r = m.getX r := rfl

theorem getX_setX (m : Machine) {r : Fin 32} (hr : r ≠ 31) (v : BitVec 64) (r' : Fin 32) :
    (m.setX r v).getX r' = if r' = r then v else m.getX r' := by
  unfold Machine.getX Machine.setX
  rw [if_neg hr]
  dsimp only
  by_cases h : r' = r
  · rw [if_pos h, h, if_neg hr, Function.update_self]
  · rw [if_neg h, Function.update_of_ne h]

section

variable (m : Machine) (r : Reg) (v : BitVec r.width)

@[simp] theorem set_sp : (m.set r v).sp = m.sp := by
  cases r with
  | x r => exact setX_sp m r v
  | q r => rfl

@[simp] theorem set_sys : (m.set r v).sys = m.sys := by
  cases r with
  | x r => exact setX_sys m r v
  | q r => rfl

@[simp] theorem set_mem : (m.set r v).mem = m.mem := by
  cases r with
  | x r => exact setX_mem m r v
  | q r => rfl

theorem get_xzr : m.get Reg.xzr = 0 := rfl

end

theorem get_set_of_ne {r r' : Reg} (h : r' ≠ r) (m : Machine) (v : BitVec r.width) :
    (m.set r v).get r' = m.get r' := by
  cases r with
  | x r =>
    cases r' with
    | x r' =>
      have hne : r' ≠ r := fun heq => h (congrArg Reg.x heq)
      by_cases hr : r = 31
      · have heq : m.setX r v = m := if_pos hr
        exact congrArg (fun m' : Machine => m'.getX r') heq
      · exact (getX_setX m hr v r').trans (if_neg hne)
    | q r' => exact congrFun (setX_q m r v) r'
  | q r =>
    cases r' with
    | x r' => rfl
    | q r' => exact Function.update_of_ne (fun heq => h (congrArg Reg.q heq)) v m.q

/-- Writing a register from a source `f` of values, in which `xzr` is zero. -/
theorem get_set {f : (r : Reg) → BitVec r.width} (hf : f Reg.xzr = 0) (m : Machine) (r r' : Reg) :
    (m.set r (f r)).get r' = if r' = r then f r' else m.get r' := by
  by_cases h : r' = r
  · subst h
    rw [if_pos rfl]
    cases r' with
    | x r =>
      by_cases hr : r = 31
      · subst hr
        exact hf.symm
      · exact (getX_setX m hr _ r).trans (if_pos rfl)
    | q r => exact Function.update_self r _ m.q
  · rw [if_neg h]
    exact get_set_of_ne h m (f r)

/-! ## Pairs -/

/-- The registers of a list of pairs. -/
def regs (pairs : List (Reg × Reg)) : List Reg := pairs.flatMap fun p => [p.1, p.2]

/-- The words of some registers. -/
def words (f : (r : Reg) → BitVec r.width) (rs : List Reg) : List Mem.Word := rs.map (Reg.word f)

/-- `stp`, to the place below. -/
def pushOp (p : Reg × Reg) : Op := .stp p.1 p.2 (-BitVec.ofNat 64 (p.1.bytes + p.2.bytes))

/-- `ldp`, from the place above. -/
def popOp (p : Reg × Reg) : Op := .ldp p.1 p.2 (BitVec.ofNat 64 (p.1.bytes + p.2.bytes))

theorem stp_pushed {a b : Reg} (h : a.bytes + b.bytes ≤ m.sp.toNat) :
    Pushed m.mem m.sp (words m.get [a, b]) ((pushOp (a, b)).exec m).mem
      ((pushOp (a, b)).exec m).sp := by
  have hpush : ∀ {mem : Mem 64} {sp : BitVec 64} (r : Reg), r.bytes ≤ sp.toNat →
      Pushed mem sp (words m.get [r]) (mem.store (sp - BitVec.ofNat 64 r.bytes) (m.get r))
        (sp - BitVec.ofNat 64 r.bytes) := by
    intro mem sp r hr
    have hword := pushed_store (m := mem) (a := sp) (v := Reg.word m.get r)
      (by rwa [Reg.bytes_word])
    rwa [Reg.bytes_word] at hword
  have hlt := m.sp.isLt
  have hsp : (m.sp - BitVec.ofNat 64 b.bytes).toNat = m.sp.toNat - b.bytes :=
    toNat_sub_ofNat (by omega)
  have hsp' : (m.sp - BitVec.ofNat 64 b.bytes - BitVec.ofNat 64 a.bytes).toNat =
      m.sp.toNat - b.bytes - a.bytes := by
    rw [toNat_sub_ofNat (by omega), hsp]
  have haddr : m.sp + -BitVec.ofNat 64 (a.bytes + b.bytes) =
      m.sp - BitVec.ofNat 64 b.bytes - BitVec.ofNat 64 a.bytes := by
    rw [BitVec.sub_sub, ← BitVec.ofNat_add, Nat.add_comm b.bytes, BitVec.sub_eq_add_neg]
  -- the two stores are two pushes, in the other order
  have hmem : ((pushOp (a, b)).exec m).mem =
      (m.mem.store (m.sp - BitVec.ofNat 64 b.bytes) (m.get b)).store
        (m.sp - BitVec.ofNat 64 b.bytes - BitVec.ofNat 64 a.bytes) (m.get a) := by
    simp only [pushOp, Op.exec]
    rw [haddr, BitVec.sub_add_cancel]
    apply store_comm
    · rw [hsp', ← Reg.bytes_eq]
      omega
    · rw [hsp, ← Reg.bytes_eq]
      omega
    · intro c hc
      unfold Among at hc ⊢
      rw [hsp', ← Reg.bytes_eq] at hc
      rw [hsp, ← Reg.bytes_eq]
      omega
  have hspeq : ((pushOp (a, b)).exec m).sp =
      m.sp - BitVec.ofNat 64 b.bytes - BitVec.ofNat 64 a.bytes := haddr
  rw [hmem, hspeq]
  refine (hpush b (by omega)).trans (hpush a (by omega)) ?_
  simp only [words, List.map_cons, List.map_nil, size_cons, size_nil, Reg.bytes_word]
  omega

theorem pushOp_get (p : Reg × Reg) (m : Machine) : ((pushOp p).exec m).get = m.get := by
  funext r
  cases r with
  | x r => rfl
  | q r => rfl

theorem pushOp_sys (p : Reg × Reg) (m : Machine) : ((pushOp p).exec m).sys = m.sys := rfl

theorem size_words_cons (f : (r : Reg) → BitVec r.width) (r : Reg) (rs : List Reg) :
    size (words f (r :: rs)) = r.bytes + size (words f rs) := by
  simp [words]

/-- **Pushing registers in pairs**, the last pair first. -/
theorem pushOps_pushed (pairs : List (Reg × Reg))
    (h : size (words m.get (regs pairs)) ≤ m.sp.toNat) :
    Pushed m.mem m.sp (words m.get (regs pairs))
        ((pairs.reverse.map pushOp).foldl Op.exec m).mem
        ((pairs.reverse.map pushOp).foldl Op.exec m).sp ∧
      ((pairs.reverse.map pushOp).foldl Op.exec m).get = m.get ∧
      ((pairs.reverse.map pushOp).foldl Op.exec m).sys = m.sys := by
  induction pairs with
  | nil => exact ⟨pushed_nil, rfl, rfl⟩
  | cons p pairs ih =>
    obtain ⟨a, b⟩ := p
    have hsize : a.bytes + (b.bytes + size (words m.get (regs pairs))) ≤ m.sp.toNat := by
      rw [← size_words_cons, ← size_words_cons]
      exact h
    rw [List.reverse_cons, List.map_append, List.foldl_append]
    obtain ⟨hpushed, hget, hsys⟩ := ih (by omega)
    generalize (pairs.reverse.map pushOp).foldl Op.exec m = m₁ at hpushed hget hsys ⊢
    have hsp := hpushed.toNat_sp (by omega)
    have hpair := stp_pushed (m := m₁) (a := a) (b := b) (by omega)
    rw [hget] at hpair
    refine ⟨hpushed.trans hpair ?_, ?_, ?_⟩
    · rw [size_words_cons, size_words_cons]
      simp only [words, List.map_nil, size_nil] at hsize ⊢
      omega
    · exact (pushOp_get (a, b) m₁).trans hget
    · exact hsys

/-- What loading some registers does, where `f` gives the values. -/
structure Popped (f : (r : Reg) → BitVec r.width) (rs : List Reg) (m m' : Machine) : Prop where
  mem : m'.mem = m.mem
  sys : m'.sys = m.sys
  sp : m'.sp = m.sp + BitVec.ofNat 64 (size (words f rs))
  get : ∀ r, m'.get r = if r ∈ rs then f r else m.get r

/-- One pair. -/
theorem ldp_popped {f : (r : Reg) → BitVec r.width} (hf : f Reg.xzr = 0) {a b : Reg}
    (h : Stacked m.mem m.sp (words f [a, b])) :
    Popped f [a, b] m ((popOp (a, b)).exec m) := by
  obtain ⟨ha, hb, -⟩ := h
  rw [Reg.bytes_word] at hb
  have hexec : (popOp (a, b)).exec m =
      { (m.set a (f a)).set b (f b) with
        sp := m.sp + BitVec.ofNat 64 (a.bytes + b.bytes) } := by
    have ha' : m.mem.load a.width m.sp = f a := ha
    have hb' : m.mem.load b.width (m.sp + BitVec.ofNat 64 a.bytes) = f b := hb
    simp only [popOp, Op.exec]
    rw [ha', hb']
  rw [hexec]
  refine ⟨?_, ?_, ?_, ?_⟩
  · rw [set_mem, set_mem]
  · rw [set_sys, set_sys]
  · simp [words]
  · intro r
    have hget : ((m.set a (f a)).set b (f b)).get r = if r ∈ [a, b] then f r else m.get r := by
      rw [get_set hf, get_set hf]
      by_cases hrb : r = b
      · simp [hrb]
      · simp [hrb]
    cases r with
    | x r => exact hget
    | q r => exact hget

theorem Popped.trans {f : (r : Reg) → BitVec r.width} {rs rs' : List Reg} {m m₁ m₂ : Machine}
    (h : Popped f rs m m₁) (h' : Popped f rs' m₁ m₂) : Popped f (rs ++ rs') m m₂ where
  mem := h'.mem.trans h.mem
  sys := h'.sys.trans h.sys
  sp := by rw [h'.sp, h.sp, words, words, words, List.map_append, size_append, BitVec.ofNat_add,
    BitVec.add_assoc]
  get r := by
    rw [h'.get, h.get]
    by_cases hr : r ∈ rs
    · simp [hr]
    · simp [hr]

/-- **Popping registers in pairs**, the first pair first. -/
theorem popOps_popped {f : (r : Reg) → BitVec r.width} (hf : f Reg.xzr = 0)
    (pairs : List (Reg × Reg)) (h : Stacked m.mem m.sp (words f (regs pairs))) :
    Popped f (regs pairs) m ((pairs.map popOp).foldl Op.exec m) := by
  induction pairs generalizing m with
  | nil => exact ⟨rfl, rfl, by simp [regs, words], fun r => by simp [regs]⟩
  | cons p pairs ih =>
    obtain ⟨a, b⟩ := p
    have hsplit : words f (regs ((a, b) :: pairs)) = words f [a, b] ++ words f (regs pairs) := rfl
    rw [hsplit, stacked_append] at h
    have hpair := ldp_popped hf h.1
    apply hpair.trans
    apply ih
    rw [hpair.mem, hpair.sp]
    exact h.2

/-! ## Frames -/

/-- The literals below are registers. -/
theorem neZero_registers : NeZero 32 := ⟨by decide⟩

section

attribute [local instance] neZero_registers

/-- `x0`, …, `x29`. -/
def xPairs : List (Reg × Reg) :=
  [0, 2, 4, 6, 8, 10, 12, 14, 16, 18, 20, 22, 24, 26, 28].map fun r => (.x r, .x (r + 1))

/-- `q0`, …, `q31`. -/
def qPairs : List (Reg × Reg) :=
  [0, 2, 4, 6, 8, 10, 12, 14, 16, 18, 20, 22, 24, 26, 28, 30].map fun r => (.q r, .q (r + 1))

end

/-- What a thread that calls `switch` finds again. -/
structure Context where
  reg : (r : Reg) → BitVec r.width
  sp : BitVec 64
  ttbr0 : BitVec 64
  spsr : BitVec 64
  elr : BitVec 64
  esr : BitVec 64

/-- The context that a machine is in. -/
def Machine.context (m : Machine) : Context where
  reg := m.get
  sp := m.sp
  ttbr0 := m.sys TTBR0_EL2
  spsr := m.sys SPSR_EL2
  elr := m.sys ELR_EL2
  esr := m.sys ESR_EL2

/-- A word of 64 bits. -/
def dword (v : BitVec 64) : Mem.Word := ⟨64, v, rfl⟩

@[simp] theorem bytes_dword (v : BitVec 64) : (dword v).bytes = 8 := by
  simp [dword, Mem.Word.bytes]

/-- What `context_stack` pushes, lowest address first. -/
def frame (c : Context) (tpidr : BitVec 64) : List Mem.Word :=
  [dword c.esr, dword c.spsr, dword c.elr, dword tpidr, dword c.ttbr0] ++
    (words c.reg (regs qPairs) ++ words c.reg (regs xPairs))

theorem contextStack_eq :
    contextStack = xPairs.reverse.map pushOp ++ (qPairs.reverse.map pushOp ++
      ([.mrs 8 TPIDR_EL2, .mrs 9 TTBR0_EL2, pushOp (.x 8, .x 9)] ++
        ([.mrs 8 SPSR_EL2, .mrs 9 ELR_EL2, pushOp (.x 8, .x 9)] ++
          [.mrs 8 ESR_EL2, .strPre (.x 8) (-8)]))) := rfl

theorem contextRestore_eq :
    contextRestore =
      [.ldrPost (.x 0) 8, .msr ESR_EL2 0] ++
        ([popOp (.x 0, .x 1), .msr SPSR_EL2 0, .msr ELR_EL2 1] ++
          ([popOp (.x 0, .x 1), .msr TPIDR_EL2 0, .msr TTBR0_EL2 1] ++
            (qPairs.map popOp ++ xPairs.map popOp))) := rfl

/-! ## Saving -/

/-- Words have been pushed; `x8` and `x9` are scratch. -/
structure Saved (m : Machine) (vs : List Mem.Word) (m' : Machine) : Prop where
  pushed : Pushed m.mem m.sp vs m'.mem m'.sp
  sys : m'.sys = m.sys
  getX : ∀ r, r ≠ 8 → r ≠ 9 → m'.getX r = m.getX r

theorem Saved.trans {m₁ m₂ : Machine} {vs us : List Mem.Word} (h : Saved m vs m₁)
    (h' : Saved m₁ us m₂) (hroom : size us + size vs ≤ m.sp.toNat) : Saved m (us ++ vs) m₂ where
  pushed := h.pushed.trans h'.pushed hroom
  sys := h'.sys.trans h.sys
  getX r h8 h9 := (h'.getX r h8 h9).trans (h.getX r h8 h9)

theorem word_x {r : Fin 32} {v : BitVec 64} (h : m.getX r = v) :
    Reg.word m.get (.x r) = dword v := by
  subst h
  rfl

theorem getX_of_get {m m' : Machine} (h : m'.get = m.get) (r : Fin 32) : m'.getX r = m.getX r :=
  congrFun h (.x r)

/-- Two system registers, by way of `x8` and `x9`. -/
theorem savePair (a b : SysReg) (h : 16 ≤ m.sp.toNat) :
    Saved m [dword (m.sys a), dword (m.sys b)]
      ([.mrs 8 a, .mrs 9 b, pushOp (.x 8, .x 9)].foldl Op.exec m) := by
  have hget : ∀ r, ((m.setX 8 (m.sys a)).setX 9 (m.sys b)).getX r =
      if r = 9 then m.sys b else if r = 8 then m.sys a else m.getX r := by
    intro r
    rw [getX_setX _ (by decide), getX_setX _ (by decide)]
  have hexec : [.mrs 8 a, .mrs 9 b, pushOp (.x 8, .x 9)].foldl Op.exec m =
      (pushOp (.x 8, .x 9)).exec ((m.setX 8 (m.sys a)).setX 9 (m.sys b)) := by
    simp only [List.foldl_cons, List.foldl_nil, Op.exec, setX_sys]
  rw [hexec]
  have hpushed := stp_pushed (m := (m.setX 8 (m.sys a)).setX 9 (m.sys b)) (a := .x 8) (b := .x 9)
    (by simpa using h)
  refine ⟨?_, ?_, ?_⟩
  · rw [setX_mem, setX_mem, setX_sp, setX_sp] at hpushed
    have hwords : words ((m.setX 8 (m.sys a)).setX 9 (m.sys b)).get [.x 8, .x 9] =
        [dword (m.sys a), dword (m.sys b)] := by
      rw [words, List.map_cons, List.map_cons, List.map_nil, word_x (hget 8), word_x (hget 9)]
      rfl
    rwa [hwords] at hpushed
  · show ((m.setX 8 (m.sys a)).setX 9 (m.sys b)).sys = m.sys
    rw [setX_sys, setX_sys]
  · intro r h8 h9
    rw [getX_of_get (pushOp_get _ _), hget, if_neg h9, if_neg h8]

/-- The last one, by way of `x8`. -/
theorem saveLast (a : SysReg) (h : 8 ≤ m.sp.toNat) :
    Saved m [dword (m.sys a)] ([.mrs 8 a, .strPre (.x 8) (-8)].foldl Op.exec m) := by
  have h8 : (m.setX 8 (m.sys a)).get (.x 8) = m.sys a := (getX_setX m (by decide) _ 8).trans rfl
  have hexec : [.mrs 8 a, .strPre (.x 8) (-8)].foldl Op.exec m =
      { m.setX 8 (m.sys a) with
        mem := m.mem.store (m.sp - 8#64) (m.sys a), sp := m.sp - 8#64 } := by
    simp only [List.foldl_cons, List.foldl_nil, Op.exec, setX_mem, setX_sp, h8]
    rw [← BitVec.sub_eq_add_neg]
    rfl
  rw [hexec]
  refine ⟨?_, ?_, ?_⟩
  · have hpushed := pushed_store (m := m.mem) (a := m.sp) (v := dword (m.sys a)) (by simpa using h)
    rw [bytes_dword] at hpushed
    exact hpushed
  · exact setX_sys m 8 (m.sys a)
  · intro r hr _
    exact (getX_setX m (by decide) (m.sys a) r).trans (if_neg hr)

theorem savePairs (pairs : List (Reg × Reg)) (h : size (words m.get (regs pairs)) ≤ m.sp.toNat) :
    Saved m (words m.get (regs pairs)) ((pairs.reverse.map pushOp).foldl Op.exec m) := by
  obtain ⟨hpushed, hget, hsys⟩ := pushOps_pushed pairs h
  exact ⟨hpushed, hsys, fun r _ _ => getX_of_get hget r⟩

theorem size_words (f : (r : Reg) → BitVec r.width) (rs : List Reg) :
    size (words f rs) = (rs.map Reg.bytes).sum := by
  induction rs with
  | nil => rfl
  | cons r rs ih => rw [size_words_cons, ih, List.map_cons, List.sum_cons]

theorem size_xWords (f : (r : Reg) → BitVec r.width) : size (words f (regs xPairs)) = 240 := by
  rw [size_words]
  rfl

theorem size_qWords (f : (r : Reg) → BitVec r.width) : size (words f (regs qPairs)) = 512 := by
  rw [size_words]
  rfl

theorem size_frame (c : Context) (tpidr : BitVec 64) : size (frame c tpidr) = 792 := by
  simp [frame, size_xWords, size_qWords]

/-- **`context_stack` pushes a frame.** -/
theorem contextStack_saved (h : 792 ≤ m.sp.toNat) :
    Saved m (frame m.context (m.sys TPIDR_EL2)) (contextStack.foldl Op.exec m) := by
  simp only [contextStack_eq, List.foldl_append]
  have hx := savePairs (m := m) xPairs (by rw [size_xWords]; omega)
  have hxget := (pushOps_pushed (m := m) xPairs (by rw [size_xWords]; omega)).2.1
  generalize (xPairs.reverse.map pushOp).foldl Op.exec m = m₁ at hx hxget ⊢
  have hsp₁ := hx.pushed.toNat_sp (by rw [size_xWords]; omega)
  rw [size_xWords] at hsp₁
  have hq := savePairs (m := m₁) qPairs (by rw [size_qWords]; omega)
  rw [hxget] at hq
  have hxq := hx.trans hq (by rw [size_xWords, size_qWords]; omega)
  generalize (qPairs.reverse.map pushOp).foldl Op.exec m₁ = m₂ at hxq ⊢
  have hsize : size (words m.get (regs qPairs) ++ words m.get (regs xPairs)) = 752 := by
    rw [size_append, size_xWords, size_qWords]
  have hsp₂ := hxq.pushed.toNat_sp (by omega)
  -- three more steps, and `sys` is the one we began with in each
  have h₃ := hxq.trans (savePair TPIDR_EL2 TTBR0_EL2 (m := m₂) (by omega)) (by simp [hsize]; omega)
  rw [hxq.sys] at h₃
  generalize [Op.mrs 8 TPIDR_EL2, .mrs 9 TTBR0_EL2, pushOp (.x 8, .x 9)].foldl Op.exec m₂ = m₃
    at h₃ ⊢
  have hsp₃ := h₃.pushed.toNat_sp (by simp [hsize]; omega)
  simp only [size_append, size_cons, size_nil, bytes_dword, size_xWords, size_qWords] at hsp₃
  have h₄ := h₃.trans (savePair SPSR_EL2 ELR_EL2 (m := m₃) (by omega)) (by simp [hsize]; omega)
  rw [h₃.sys] at h₄
  generalize [Op.mrs 8 SPSR_EL2, .mrs 9 ELR_EL2, pushOp (.x 8, .x 9)].foldl Op.exec m₃ = m₄
    at h₄ ⊢
  have hsp₄ := h₄.pushed.toNat_sp (by simp [hsize]; omega)
  simp only [size_append, size_cons, size_nil, bytes_dword, size_xWords, size_qWords] at hsp₄
  have h₅ := h₄.trans (saveLast ESR_EL2 (m := m₄) (by omega)) (by simp [hsize]; omega)
  rw [h₄.sys] at h₅
  exact h₅

/-! ## Restoring -/

/-- System registers have been loaded from `k` bytes of the stack; `x0` and `x1` are scratch. -/
structure Restored (m : Machine) (k : Nat) (sys : SysReg → BitVec 64) (m' : Machine) : Prop where
  mem : m'.mem = m.mem
  sp : m'.sp = m.sp + BitVec.ofNat 64 k
  sys : m'.sys = sys
  lr : m'.get Reg.lr = m.get Reg.lr

theorem Restored.trans {m₁ m₂ : Machine} {k k' : Nat} {sys sys' : SysReg → BitVec 64}
    (h : Restored m k sys m₁) (h' : Restored m₁ k' sys' m₂) : Restored m (k + k') sys' m₂ where
  mem := h'.mem.trans h.mem
  sp := by rw [h'.sp, h.sp, BitVec.ofNat_add, BitVec.add_assoc]
  sys := h'.sys
  lr := h'.lr.trans h.lr

/-- What lies behind is next. -/
theorem Restored.stacked {k : Nat} {sys : SysReg → BitVec 64} {vs us : List Mem.Word}
    (h : Restored m k sys m') (hk : size vs = k) (hm : Stacked m.mem m.sp (vs ++ us)) :
    Stacked m'.mem m'.sp us := by
  rw [h.mem, h.sp, ← hk]
  exact (stacked_append.mp hm).2

/-- `msr` from the scratch registers, after they have been loaded. -/
theorem restorePair {a b : SysReg} {u v : BitVec 64} (h : Stacked m.mem m.sp [dword u, dword v]) :
    Restored m 16 (Function.update (Function.update m.sys a u) b v)
      ([popOp (.x 0, .x 1), .msr a 0, .msr b 1].foldl Op.exec m) := by
  -- the values that are loaded, as the values of a machine
  have h0 : ((m.setX 0 u).setX 1 v).getX 0 = u := by
    rw [getX_setX _ (by decide), getX_setX _ (by decide)]
    rfl
  have h1 : ((m.setX 0 u).setX 1 v).getX 1 = v := by
    rw [getX_setX _ (by decide)]
    rfl
  have hwords : words ((m.setX 0 u).setX 1 v).get [.x 0, .x 1] = [dword u, dword v] := by
    rw [words, List.map_cons, List.map_cons, List.map_nil, word_x h0, word_x h1]
  have hpop := ldp_popped (get_xzr ((m.setX 0 u).setX 1 v)) (m := m) (a := .x 0) (b := .x 1)
    (by rwa [hwords])
  have hsp := hpop.sp
  rw [hwords] at hsp
  have hu : ((popOp (.x 0, .x 1)).exec m).getX 0 = u := (hpop.get (.x 0)).trans h0
  have hv : ((popOp (.x 0, .x 1)).exec m).getX 1 = v := (hpop.get (.x 1)).trans h1
  have hlr := hpop.get Reg.lr
  have hmem := hpop.mem
  have hsys := hpop.sys
  simp only [List.foldl_cons, List.foldl_nil]
  generalize (popOp (.x 0, .x 1)).exec m = m₁ at *
  refine ⟨hmem, ?_, ?_, hlr⟩
  · show m₁.sp = _
    simpa using hsp
  · show Function.update (Function.update m₁.sys a (m₁.getX 0)) b (m₁.getX 1) = _
    rw [hsys, hu, hv]

theorem restoreFirst {a : SysReg} {u : BitVec 64} (h : Stacked m.mem m.sp [dword u]) :
    Restored m 8 (Function.update m.sys a u)
      ([.ldrPost (.x 0) 8, .msr a 0].foldl Op.exec m) := by
  have hexec : (Op.ldrPost (.x 0) 8).exec m = { m.setX 0 u with sp := m.sp + 8 } := by
    have hload : m.mem.load (Reg.x 0).width m.sp = u := h.1
    simp only [Op.exec, hload]
    rfl
  have h0 : ({ m.setX 0 u with sp := m.sp + 8 } : Machine).getX 0 = u :=
    (getX_setX m (by decide) u 0).trans (if_pos rfl)
  have hlr : (m.setX 0 u).getX 30 = m.getX 30 :=
    (getX_setX m (by decide) u 30).trans (if_neg (by decide))
  simp only [List.foldl_cons, List.foldl_nil]
  rw [hexec]
  refine ⟨setX_mem m 0 u, rfl, ?_, hlr⟩
  show Function.update (m.setX 0 u).sys a (({ m.setX 0 u with sp := m.sp + 8 } : Machine).getX 0) = _
  rw [setX_sys, h0]

/-- The system registers as a frame has them. -/
def frameSys (c : Context) (tpidr : BitVec 64) : SysReg → BitVec 64
  | TPIDR_EL2 => tpidr
  | TTBR0_EL2 => c.ttbr0
  | SPSR_EL2 => c.spsr
  | ELR_EL2 => c.elr
  | ESR_EL2 => c.esr

theorem frameSys_context (m : Machine) : frameSys m.context (m.sys TPIDR_EL2) = m.sys := by
  funext s
  cases s with
  | TPIDR_EL2 => rfl
  | TTBR0_EL2 => rfl
  | SPSR_EL2 => rfl
  | ELR_EL2 => rfl
  | ESR_EL2 => rfl

theorem mem_regs_or (r : Reg) :
    r ∈ regs qPairs ++ regs xPairs ∨ r = Reg.lr ∨ r = Reg.xzr := by
  cases r with
  | x r =>
    revert r
    decide
  | q r =>
    revert r
    decide

/-- **`context_restore` takes a frame back.** -/
theorem contextRestore_restored {c : Context} {tpidr : BitVec 64} (hc : c.reg Reg.xzr = 0)
    (h : Stacked m.mem m.sp (frame c tpidr)) :
    Restored m 792 (frameSys c tpidr) (contextRestore.foldl Op.exec m) ∧
      ∀ r ∈ regs qPairs ++ regs xPairs, (contextRestore.foldl Op.exec m).get r = c.reg r := by
  have hsplit : frame c tpidr = [dword c.esr] ++ ([dword c.spsr, dword c.elr] ++
    ([dword tpidr, dword c.ttbr0] ++ (words c.reg (regs qPairs) ++ words c.reg (regs xPairs)))) :=
    rfl
  rw [hsplit] at h
  simp only [contextRestore_eq, List.foldl_append]
  have h₁ := restoreFirst (a := ESR_EL2) (stacked_append.mp h).1
  generalize [Op.ldrPost (.x 0) 8, .msr ESR_EL2 0].foldl Op.exec m = m₁ at h₁ ⊢
  have hstack₁ := h₁.stacked (by simp) h
  have h₂ := restorePair (a := SPSR_EL2) (b := ELR_EL2) (stacked_append.mp hstack₁).1
  generalize [popOp (.x 0, .x 1), .msr SPSR_EL2 0, .msr ELR_EL2 1].foldl Op.exec m₁ = m₂ at h₂ ⊢
  have hstack₂ := h₂.stacked (by simp) hstack₁
  have h₃ := restorePair (a := TPIDR_EL2) (b := TTBR0_EL2) (stacked_append.mp hstack₂).1
  generalize [popOp (.x 0, .x 1), .msr TPIDR_EL2 0, .msr TTBR0_EL2 1].foldl Op.exec m₂ = m₃
    at h₃ ⊢
  have hstack₃ := h₃.stacked (by simp) hstack₂
  rw [stacked_append] at hstack₃
  have hall := (h₁.trans h₂).trans h₃
  have hsys : m₃.sys = frameSys c tpidr := by
    rw [h₃.sys, h₂.sys, h₁.sys]
    funext s
    cases s with
    | TPIDR_EL2 => rfl
    | TTBR0_EL2 => rfl
    | SPSR_EL2 => rfl
    | ELR_EL2 => rfl
    | ESR_EL2 => rfl
  have hq := popOps_popped hc qPairs hstack₃.1
  generalize (qPairs.map popOp).foldl Op.exec m₃ = m₄ at hq ⊢
  have hx := popOps_popped hc (m := m₄) xPairs (by rw [hq.mem, hq.sp]; exact hstack₃.2)
  have hpop := hq.trans hx
  generalize (xPairs.map popOp).foldl Op.exec m₄ = m₅ at hpop ⊢
  refine ⟨⟨hpop.mem.trans hall.mem, ?_, hpop.sys.trans hsys, ?_⟩, ?_⟩
  · rw [hpop.sp, hall.sp, words, List.map_append, size_append, ← words, ← words, size_qWords,
      size_xWords, BitVec.add_assoc, ← BitVec.ofNat_add]
  · rw [hpop.get, if_neg (by decide)]
    exact hall.lr
  · intro r hr
    rw [hpop.get, if_pos hr]

end Switch
end Allora
