import Allora.Switch

/-!
# `exception.S` — the exception vectors

Sixteen vectors, one for each kind of exception and each place it can come from. All of them are
`HANDLER`: save the context, call `exception_handler`, restore the context, return. The two halves
are those of `switch.S`. `exception_handler` itself is compiled from Rust; here it is what it does
to the machine between its call and its return.

An exception saves the program counter and the processor state in `ELR_EL2` and `SPSR_EL2`, masks
interrupts, and goes on at the vector; `eret` undoes that. Of the processor state there are the
condition flags and the mask; the mode is EL2 with its own stack pointer before and after, which is
where all of the kernel runs. An exception from anywhere else is not modelled: the vectors of the
other three places are entered from the same mode here, so that all sixteen differ by what they put
in `x0` alone.

`Frame`, by which `exception_handler` would read what `x1` points to, is not modelled. The handlers
do not look at it, and the message for a synchronous exception reads its first field, `esr`, which
is where it was pushed, as are the four that follow. But `v` has the alignment of `u128`, so that
`Frame` has it, and all that is behind it, 8 bytes further on than the registers are.
-/

set_option autoImplicit false

namespace Allora
namespace Vectors

open Switch

/-- For the numbers of registers. -/
theorem neZero_32 : NeZero 32 := ⟨by decide⟩

attribute [local instance] neZero_32

/-- `Switch.Machine` with what an exception saves by itself. -/
structure Cpu where
  pc : BitVec 64
  nzcv : BitVec 4
  machine : Switch.Machine

/-- What `SPSR_EL2` holds, of a processor in `EL2h`. -/
def spsr (nzcv daif : BitVec 4) : BitVec 64 :=
  nzcv.setWidth 64 <<< 28 ||| daif.setWidth 64 <<< 6 ||| 9#64

def nzcvOf (spsr : BitVec 64) : BitVec 4 := (spsr >>> 28).setWidth 4

def daifOf (spsr : BitVec 64) : BitVec 4 := (spsr >>> 6).setWidth 4

/-- The exception is taken, with the syndrome `esr`. -/
def Cpu.take (c : Cpu) (esr : BitVec 64) : Switch.Machine :=
  (((c.machine.setSys .SPSR_EL2 (spsr c.nzcv c.machine.daif)).setSys .ELR_EL2 c.pc).setSys
    .ESR_EL2 esr).setDaif 15#4

/-- Instructions of a vector. Those that branch come back to the next one. -/
inductive Instr
  | op (o : Op)
  /-- `mov a, imm` -/
  | movImm (a : Fin 32) (imm : BitVec 16)
  /-- `movk a, imm, lsl shift` -/
  | movk (a : Fin 32) (imm : BitVec 16) (shift : Nat)
  /-- `bl` into `switch.S` -/
  | bl (target : Nat)
  /-- `bl exception_handler` -/
  | blHandler
  | eret

/-- `HANDLER type, desc` -/
def handler (type desc : BitVec 16) : List Instr :=
  [.op (.stp Reg.lr Reg.xzr (-16)),
   .bl CONTEXT_STACK,

   .movImm 0 type,
   .movk 0 desc 16,
   .op (.movFromSp 1),
   .blHandler,

   .bl CONTEXT_RESTORE,
   .op (.ldp Reg.lr Reg.xzr 16),
   .eret]

/-- From `pc` on. `base` is where `switch.S` is loaded. -/
def exec (base : BitVec 64) (exceptionHandler : Switch.Machine → Switch.Machine) :
    BitVec 64 → List Instr → Switch.Machine → Option Cpu
  | _, [], _ => none
  | pc, .op o :: rest, m => exec base exceptionHandler (pc + 4) rest (o.exec m)
  | pc, .movImm a imm :: rest, m =>
    exec base exceptionHandler (pc + 4) rest (m.setX a (imm.setWidth 64))
  | pc, .movk a imm shift :: rest, m =>
    exec base exceptionHandler (pc + 4) rest
      (m.setX a (m.getX a &&& ~~~(0xffff#64 <<< shift) ||| imm.setWidth 64 <<< shift))
  | pc, .bl target :: rest, m =>
    match Switch.run base 64 (addr base target) (m.setX 30 (pc + 4)) with
    | none => none
    | some (ret, m) => if ret = pc + 4 then exec base exceptionHandler (pc + 4) rest m else none
  | pc, .blHandler :: rest, m =>
    exec base exceptionHandler (pc + 4) rest (exceptionHandler (m.setX 30 (pc + 4)))
  | _, .eret :: _, m =>
    some ⟨m.sys .ELR_EL2, nzcvOf (m.sys .SPSR_EL2), m.setDaif (daifOf (m.sys .SPSR_EL2))⟩

/-- The vector `i` of the table at `vbar`; they are `0x80` apart. -/
def vector (vbar : BitVec 64) (i : Nat) : BitVec 64 := vbar + BitVec.ofNat 64 (0x80 * i)

/-- An exception that goes to vector `i`, up to its return. The kinds of a place are next to each
other. -/
def trap (base vbar : BitVec 64) (exceptionHandler : Switch.Machine → Switch.Machine) (i : Nat)
    (esr : BitVec 64) (c : Cpu) : Option Cpu :=
  exec base exceptionHandler (vector vbar i)
    (handler (BitVec.ofNat 16 (i % 4)) (BitVec.ofNat 16 (i / 4))) (c.take esr)

/-- `Info`, as it is passed in a register. -/
structure Info where
  kind : BitVec 16
  desc : BitVec 16
  deriving DecidableEq

def Info.ofReg (v : BitVec 64) : Info := ⟨v.setWidth 16, (v >>> 16).setWidth 16⟩

end Vectors
end Allora
