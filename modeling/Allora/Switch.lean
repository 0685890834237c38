import Allora.Lib.Stack

/-!
# `switch.S` — the context switch

The instructions that `switch.S` uses, on the registers it touches, and its text, line by line.
`switch` saves the context of the current thread on its stack, notes the stack pointer in the
`Thread`, and takes up the next one: at its entry if it has never run, else at the call of `switch`
that it is in.

Memory is flat, as the MMU is off, and accesses need not be aligned. The code runs with interrupts
masked.
-/

set_option autoImplicit false

namespace Allora
namespace Switch

/-! ## The machine -/

/-- A register that can be stored and loaded: `x0`, …, `x30` and `xzr`, or `q0`, …, `q31`. -/
inductive Reg
  | x (r : Fin 32)
  | q (r : Fin 32)
  deriving DecidableEq

namespace Reg

def lr : Reg := .x 30

def xzr : Reg := .x 31

def width : Reg → Nat
  | x _ => 64
  | q _ => 128

def bytes : Reg → Nat
  | x _ => 8
  | q _ => 16

end Reg

/-- The system registers. -/
inductive SysReg
  | TPIDR_EL2
  | TTBR0_EL2
  | SPSR_EL2
  | ELR_EL2
  | ESR_EL2
  deriving DecidableEq

/-- Registers and memory, without the program counter. -/
structure Machine where
  x : Fin 32 → BitVec 64
  q : Fin 32 → BitVec 128
  sp : BitVec 64
  sys : SysReg → BitVec 64
  daif : BitVec 4
  mem : Mem 64

namespace Machine

/-- `xzr` reads as zero. -/
def getX (m : Machine) (r : Fin 32) : BitVec 64 := if r = 31 then 0 else m.x r

/-- What is written to `xzr` is lost. -/
def setX (m : Machine) (r : Fin 32) (v : BitVec 64) : Machine :=
  if r = 31 then m else { m with x := Function.update m.x r v }

def get (m : Machine) : (r : Reg) → BitVec r.width
  | .x r => m.getX r
  | .q r => m.q r

def set (m : Machine) : (r : Reg) → BitVec r.width → Machine
  | .x r, v => m.setX r v
  | .q r, v => { m with q := Function.update m.q r v }

def setSp (m : Machine) (v : BitVec 64) : Machine := { m with sp := v }

def setDaif (m : Machine) (v : BitVec 4) : Machine := { m with daif := v }

def setSys (m : Machine) (s : SysReg) (v : BitVec 64) : Machine :=
  { m with sys := Function.update m.sys s v }

end Machine

/-! ## Instructions -/

/-- Instructions that go on to the next one. -/
inductive Op
  /-- `stp a, b, [sp, imm]!` -/
  | stp (a b : Reg) (imm : BitVec 64)
  /-- `ldp a, b, [sp], imm` -/
  | ldp (a b : Reg) (imm : BitVec 64)
  /-- `str a, [sp, imm]!` -/
  | strPre (a : Reg) (imm : BitVec 64)
  /-- `ldr a, [sp], imm` -/
  | ldrPost (a : Reg) (imm : BitVec 64)
  /-- `str a, [base, imm]` -/
  | str (a base : Fin 32) (imm : BitVec 64)
  /-- `ldr a, [base, imm]` -/
  | ldr (a base : Fin 32) (imm : BitVec 64)
  /-- `mov a, b` -/
  | mov (a b : Fin 32)
  /-- `mov a, sp` -/
  | movFromSp (a : Fin 32)
  /-- `mov sp, a` -/
  | movToSp (a : Fin 32)
  /-- `add a, b, imm, lsl shift` -/
  | add (a b : Fin 32) (imm : BitVec 64) (shift : Nat)
  /-- `mrs a, s` -/
  | mrs (a : Fin 32) (s : SysReg)
  /-- `msr s, a` -/
  | msr (s : SysReg) (a : Fin 32)
  /-- `msr DAIFClr, imm` -/
  | msrDAIFClr (imm : BitVec 4)

/-- The effect of an instruction. -/
def Op.exec (m : Machine) : Op → Machine
  | stp a b imm =>
    let address := m.sp + imm
    { m with
      mem := (m.mem.store address (m.get a)).store (address + BitVec.ofNat 64 a.bytes) (m.get b)
      sp := address }
  | ldp a b imm =>
    let address := m.sp
    let m' := (m.set a (m.mem.load a.width address)).set b
      (m.mem.load b.width (address + BitVec.ofNat 64 a.bytes))
    { m' with sp := address + imm }
  | strPre a imm =>
    let address := m.sp + imm
    { m with mem := m.mem.store address (m.get a), sp := address }
  | ldrPost a imm =>
    let address := m.sp
    { m.set a (m.mem.load a.width address) with sp := address + imm }
  | str a base imm => { m with mem := m.mem.store (m.getX base + imm) (m.getX a) }
  | ldr a base imm => m.setX a (m.mem.load 64 (m.getX base + imm))
  | mov a b => m.setX a (m.getX b)
  | movFromSp a => m.setX a m.sp
  | movToSp a => m.setSp (m.getX a)
  | add a b imm shift => m.setX a (m.getX b + imm <<< shift)
  | mrs a s => m.setX a (m.sys s)
  | msr s a => m.setSys s (m.getX a)
  | msrDAIFClr imm => m.setDaif (m.daif &&& ~~~imm)

/-- All instructions. The target of a branch is an index in the text. -/
inductive Instr
  | op (o : Op)
  | bl (target : Nat)
  | cbnz (a : Fin 32) (target : Nat)
  | br (a : Fin 32)
  | ret

/-! ## The text -/

open SysReg

def contextStack : List Op :=
  [.stp (.x 28) (.x 29) (-16),
   .stp (.x 26) (.x 27) (-16),
   .stp (.x 24) (.x 25) (-16),
   .stp (.x 22) (.x 23) (-16),
   .stp (.x 20) (.x 21) (-16),
   .stp (.x 18) (.x 19) (-16),
   .stp (.x 16) (.x 17) (-16),

   .stp (.x 14) (.x 15) (-16),
   .stp (.x 12) (.x 13) (-16),
   .stp (.x 10) (.x 11) (-16),
   .stp (.x 8) (.x 9) (-16),
   .stp (.x 6) (.x 7) (-16),
   .stp (.x 4) (.x 5) (-16),
   .stp (.x 2) (.x 3) (-16),
   .stp (.x 0) (.x 1) (-16),

   .stp (.q 30) (.q 31) (-32),
   .stp (.q 28) (.q 29) (-32),
   .stp (.q 26) (.q 27) (-32),
   .stp (.q 24) (.q 25) (-32),
   .stp (.q 22) (.q 23) (-32),
   .stp (.q 20) (.q 21) (-32),
   .stp (.q 18) (.q 19) (-32),
   .stp (.q 16) (.q 17) (-32),

   .stp (.q 14) (.q 15) (-32),
   .stp (.q 12) (.q 13) (-32),
   .stp (.q 10) (.q 11) (-32),
   .stp (.q 8) (.q 9) (-32),
   .stp (.q 6) (.q 7) (-32),
   .stp (.q 4) (.q 5) (-32),
   .stp (.q 2) (.q 3) (-32),
   .stp (.q 0) (.q 1) (-32),

   .mrs 8 TPIDR_EL2,
   .mrs 9 TTBR0_EL2,
   .stp (.x 8) (.x 9) (-16),

   .mrs 8 SPSR_EL2,
   .mrs 9 ELR_EL2,
   .stp (.x 8) (.x 9) (-16),

   .mrs 8 ESR_EL2,
   .strPre (.x 8) (-8)]

def contextRestore : List Op :=
  [.ldrPost (.x 0) 8,
   .msr ESR_EL2 0,

   .ldp (.x 0) (.x 1) 16,
   .msr SPSR_EL2 0,
   .msr ELR_EL2 1,

   .ldp (.x 0) (.x 1) 16,
   .msr TPIDR_EL2 0,
   .msr TTBR0_EL2 1,

   .ldp (.q 0) (.q 1) 32,
   .ldp (.q 2) (.q 3) 32,
   .ldp (.q 4) (.q 5) 32,
   .ldp (.q 6) (.q 7) 32,
   .ldp (.q 8) (.q 9) 32,
   .ldp (.q 10) (.q 11) 32,
   .ldp (.q 12) (.q 13) 32,
   .ldp (.q 14) (.q 15) 32,

   .ldp (.q 16) (.q 17) 32,
   .ldp (.q 18) (.q 19) 32,
   .ldp (.q 20) (.q 21) 32,
   .ldp (.q 22) (.q 23) 32,
   .ldp (.q 24) (.q 25) 32,
   .ldp (.q 26) (.q 27) 32,
   .ldp (.q 28) (.q 29) 32,
   .ldp (.q 30) (.q 31) 32,

   .ldp (.x 0) (.x 1) 16,
   .ldp (.x 2) (.x 3) 16,
   .ldp (.x 4) (.x 5) 16,
   .ldp (.x 6) (.x 7) 16,
   .ldp (.x 8) (.x 9) 16,
   .ldp (.x 10) (.x 11) 16,
   .ldp (.x 12) (.x 13) 16,
   .ldp (.x 14) (.x 15) 16,

   .ldp (.x 16) (.x 17) 16,
   .ldp (.x 18) (.x 19) 16,
   .ldp (.x 20) (.x 21) 16,
   .ldp (.x 22) (.x 23) 16,
   .ldp (.x 24) (.x 25) 16,
   .ldp (.x 26) (.x 27) 16,
   .ldp (.x 28) (.x 29) 16]

/-- From `entry` to its branch. -/
def entry : List Op :=
  [.msr TPIDR_EL2 1,
   .mov 0 1,

   .ldr 3 1 8,
   .add 3 3 4 12,
   .movToSp 3,

   .ldr 3 1 0,
   .msrDAIFClr 7]

/-! Where the labels are. -/

def CONTEXT_STACK : Nat := 0

def CONTEXT_RESTORE : Nat := 40

def SWITCH : Nat := 80

def RESTORE : Nat := 94

/-- The text of `switch.S`. -/
def text : List Instr :=
  contextStack.map .op ++ [.ret] ++
  contextRestore.map .op ++ [.ret] ++
  [.op (.stp Reg.lr Reg.xzr (-16)),
   .bl CONTEXT_STACK,

   .op (.movFromSp 2),
   .op (.str 2 0 24),

   .op (.ldr 2 1 24),
   .cbnz 2 RESTORE] ++
  entry.map .op ++ [.br 3] ++
  [.op (.movToSp 2),
   .bl CONTEXT_RESTORE,
   .op (.ldp Reg.lr Reg.xzr 16),
   .ret]

/-! ## Running it -/

/-- The address of an instruction, where the text is loaded at `base`. -/
def addr (base : BitVec 64) (i : Nat) : BitVec 64 := base + BitVec.ofNat 64 (4 * i)

def fetch (base pc : BitVec 64) : Option Instr :=
  let offset := (pc - base).toNat
  if offset % 4 = 0 then text[offset / 4]? else none

/-- One instruction. -/
def step (base pc : BitVec 64) (m : Machine) : Instr → BitVec 64 × Machine
  | .op o => (pc + 4, o.exec m)
  | .bl target => (addr base target, m.setX 30 (pc + 4))
  | .cbnz a target => (if m.getX a ≠ 0 then addr base target else pc + 4, m)
  | .br a => (m.getX a, m)
  | .ret => (m.getX 30, m)

/-- Run until the text is left, for fewer than `fuel` instructions. -/
def run (base : BitVec 64) : Nat → BitVec 64 → Machine → Option (BitVec 64 × Machine)
  | 0, _, _ => none
  | fuel + 1, pc, m =>
    match fetch base pc with
    | none => some (pc, m)
    | some i => run base fuel (step base pc m i).1 (step base pc m i).2

/-- A call of `switch`. -/
def switch (base : BitVec 64) (m : Machine) : Option (BitVec 64 × Machine) :=
  run base 128 (addr base SWITCH) m

/-! ## `Thread`, as far as `switch.S` knows it -/

/-! The fields, at their offsets. -/

def Machine.threadMain (m : Machine) (t : BitVec 64) : BitVec 64 := m.mem.load 64 (t + 0)

def Machine.threadStack (m : Machine) (t : BitVec 64) : BitVec 64 := m.mem.load 64 (t + 8)

def Machine.savedSp (m : Machine) (t : BitVec 64) : BitVec 64 := m.mem.load 64 (t + 24)

end Switch
end Allora
