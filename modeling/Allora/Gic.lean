import Allora.Lib.Outcome
import Allora.Lib.Trace

/-!
# `gic.rs` — the interrupt controller

The driver reads and writes the controller's registers, which are words of 32 bits at fixed
addresses. Some hold a bit or a field for each of several interrupts, and an interrupt's number says
which word and where in it.

The controller is hardware, and no part of this repository. What its registers do is left open here
(`Registers`): the driver is modelled by what it reads and writes.
-/

set_option autoImplicit false

namespace Allora
namespace Gic

open Outcome

abbrev U32 := BitVec 32

/-! ## Registers -/

def GICD_BASE : Nat := 0x8000000
def GICD_CTLR : Nat := GICD_BASE
def GICD_ISENABLER : Nat := GICD_BASE + 0x0100
def GICD_ICENABLER : Nat := GICD_BASE + 0x0180
def GICD_ICPENDR : Nat := GICD_BASE + 0x0280
def GICD_ITARGETSR : Nat := GICD_BASE + 0x0800
def GICD_IPRIORITYR : Nat := GICD_BASE + 0x0400
def GICD_ICFGR : Nat := GICD_BASE + 0x0c00
def GICD_SGIR : Nat := GICD_BASE + 0x0f00
def GICD_CPENDSGIR : Nat := GICD_BASE + 0x0f10

def GICC_BASE : Nat := 0x8010000
def GICC_CTLR : Nat := GICC_BASE
def GICC_PMR : Nat := GICC_BASE + 0x0004
def GICC_BPR : Nat := GICC_BASE + 0x0008

/-- `register.add(i)`, of a `*mut u32`. -/
def add (register i : Nat) : Nat := register + 4 * i

/-- What reaches the controller from elsewhere: a device raises or lowers the line of its interrupt,
or another core sends a software interrupt to this one. -/
inductive Signal
  | line (interrupt : Nat) (high : Bool)
  | soft (interrupt core : Nat)

/-- The controller, from where this core stands. -/
structure Registers (δ : Type) where
  /-- `read_volatile` -/
  read : δ → Nat → U32
  /-- `write_volatile` -/
  write : δ → Nat → U32 → δ
  signal : δ → Signal → δ

/-! ## The driver -/

/-- `value << shift`, which takes a shift of less than 32. -/
def shl (value : U32) (shift : Nat) : Outcome U32 :=
  if shift < 32 then ok (value <<< shift) else .panic "attempt to shift left with overflow"

section Driver

variable {δ : Type} (r : Registers δ) (d : δ)

/-- `init` -/
def init : δ :=
  let d := r.write d GICD_CTLR 1
  let d := r.write d GICC_CTLR 1
  let d := r.write d GICC_PMR 0xff
  r.write d GICC_BPR 0x00

/-- `enable` -/
def enable (interrupt : Nat) : δ :=
  r.write d (add GICD_ISENABLER (interrupt / 32)) ((1 : U32) <<< (interrupt % 32))

/-- `disable` -/
def disable (interrupt : Nat) : δ :=
  r.write d (add GICD_ICENABLER (interrupt / 32)) ((1 : U32) <<< (interrupt % 32))

/-- `is_pending` -/
def isPending (interrupt : Nat) : Bool :=
  r.read d (add GICD_ICPENDR (interrupt / 32)) &&& ((1 : U32) <<< (interrupt % 32)) ≠ 0

/-- `clear` -/
def clear (interrupt : Nat) : δ :=
  r.write d (add GICD_ICPENDR (interrupt / 32)) ((1 : U32) <<< (interrupt % 32))

/-- `clear_soft` -/
def clearSoft (interrupt : Nat) : δ :=
  r.write d (add GICD_CPENDSGIR ((interrupt / 4) <<< 2)) ((0xff : U32) <<< ((interrupt % 4) <<< 2))

/-- `u32::trailing_zeros` -/
def trailingZeros (value : U32) : Nat := ((List.range 32).find? value.getLsbD).getD 32

/-- `get_core` -/
def getCore (interrupt : Nat) : Outcome Nat := do
  let shift := interrupt % 4 * 8
  let value := r.read d (add GICD_ITARGETSR (interrupt / 4))
  let cores := (value >>> shift) &&& 0xff
  let first ← shl 1 (trailingZeros cores)
  subChecked (cores &&& first).toNat 1

/-- `set_core` -/
def setCore (interrupt core : Nat) : Outcome δ := do
  let shift := interrupt % 4 * 8
  let addr := add GICD_ITARGETSR (interrupt / 4)
  let value := r.read d addr
  let value := value &&& ~~~((0xff : U32) <<< shift)
  let target ← shl 1 core
  ok (r.write d addr (value ||| (target <<< shift)))

/-- `set_priority` -/
def setPriority (interrupt : Nat) (priority : U32) : δ :=
  let shift := interrupt % 4 * 8
  let addr := add GICD_IPRIORITYR (interrupt / 4)
  let value := r.read d addr
  let value := value &&& ~~~((0xff : U32) <<< shift)
  r.write d addr (value ||| (priority <<< shift))

/-- `set_config` -/
def setConfig (interrupt : Nat) (config : U32) : δ :=
  let shift := interrupt % 16 * 2
  let addr := add GICD_ICFGR (interrupt / 16)
  let value := r.read d addr
  let value := value &&& ~~~((0x03 : U32) <<< shift)
  r.write d addr (value ||| (config <<< shift))

/-- `signal_soft` -/
def signalSoft (interrupt : U32) (core : Nat) : Outcome (U32 × δ) := do
  let target ← shl 1 core
  let value := (target <<< 16) &&& ((0xff : U32) <<< 16)
  let value := value ||| (interrupt &&& 0x0f)
  ok (value, r.write d GICD_SGIR value)

/-- `GIC::enable`; `me` is what `current_core` returns. -/
def GIC.enable (me interrupt : Nat) : Outcome δ := do
  let d ← setCore r d interrupt me
  ok (Gic.enable r d interrupt)

end Driver

/-! ## A kernel that uses it -/

/-- The calls, on the core `me`; and what the controller hears between them. -/
inductive Turn
  | init
  | enable (interrupt : Nat)
  | disable (interrupt : Nat)
  | isPending (interrupt : Nat)
  | clear (interrupt : Nat)
  | clearSoft (interrupt : Nat)
  | getCore (interrupt : Nat)
  | setCore (interrupt core : Nat)
  | setPriority (interrupt : Nat) (priority : U32)
  | setConfig (interrupt : Nat) (config : U32)
  | signalSoft (interrupt : U32) (core : Nat)
  | gicEnable (interrupt : Nat)
  | signal (s : Signal)

/-- What a call returns, or panics with. -/
inductive Answer
  | pending (b : Bool)
  | core (n : Nat)
  | sent (value : U32)
  | panicked (msg : String)
  deriving DecidableEq

section Runs

variable {δ : Type}

/-- A call that may panic; it does so before it writes. -/
def called (d : δ) : Outcome (δ × List Answer) → δ × List Answer
  | ok r => r
  | .panic msg => (d, [.panicked msg])
  | timeout => (d, [])

def step (me : Nat) (r : Registers δ) (d : δ) : Turn → δ × List Answer
  | .init => (init r d, [])
  | .enable i => (enable r d i, [])
  | .disable i => (disable r d i, [])
  | .isPending i => (d, [.pending (isPending r d i)])
  | .clear i => (clear r d i, [])
  | .clearSoft i => (clearSoft r d i, [])
  | .getCore i => called d (do
      let n ← getCore r d i
      ok (d, [.core n]))
  | .setCore i core => called d (do
      let d ← setCore r d i core
      ok (d, []))
  | .setPriority i priority => (setPriority r d i priority, [])
  | .setConfig i config => (setConfig r d i config, [])
  | .signalSoft i core => called d (do
      let (value, d) ← signalSoft r d i core
      ok (d, [.sent value]))
  | .gicEnable i => called d (do
      let d ← GIC.enable r d me i
      ok (d, []))
  | .signal s => (r.signal d s, [])

def driver (me : Nat) (r : Registers δ) : Machine δ Turn Answer := ⟨step me r⟩

end Runs

end Gic
end Allora
