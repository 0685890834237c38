import Allora.DeviceTree

/-!
# `main.rs` — the interrupts of a node

The value of an `interrupts` property is a sequence of triples of 32-bit cells: a type, a number and
flags. The boot code reads the first triple up to its flags, and from there on skips a cell and
reads two.
-/

set_option autoImplicit false

namespace Allora
namespace DeviceTree

open Outcome

/-- `b"interrupts"`. -/
def INTERRUPTS : List UInt8 := [105, 110, 116, 101, 114, 114, 117, 112, 116, 115]

/-- `split_at`. -/
def splitAt (s : List UInt8) (mid : Nat) : Outcome (List UInt8 × List UInt8) :=
  if mid ≤ s.length then ok (s.take mid, s.drop mid)
  else .panic "assertion failed: mid <= self.len()"

/-- `&s[start..]`. -/
def sliceFrom (s : List UInt8) (start : Nat) : Outcome (List UInt8) :=
  if start ≤ s.length then ok (s.drop start) else .panic "range start index out of range for slice"

/-- `chunks(4)`: the last one may be shorter. -/
def chunks4 (s : List UInt8) : List (List UInt8) :=
  (List.range ((s.length + 3) / 4)).map fun i => (s.drop (4 * i)).take 4

/-- `copy_from_slice`, into four bytes. -/
def copyFromSlice (s : List UInt8) : Outcome (List UInt8) :=
  if s.length = 4 then ok s else .panic "source slice length does not match destination slice length"

/-- `u32::from_be_bytes`. -/
def fromBeBytes (c : List UInt8) : Nat := c.foldl (fun n b => n * 2 ^ 8 + b.toNat) 0

/-- `regs_to_usize`. -/
def regsToUsize (regs : List UInt8) (cellSize : Nat) : Outcome (Nat × List UInt8) := do
  let mid ← mulChecked 64 cellSize 4
  let (work, rest) ← splitAt regs mid
  let result ← (chunks4 work).foldlM (fun result chunk => do
    let c ← copyFromSlice chunk
    pure ((result <<< 32) % 2 ^ 64 ||| fromBeBytes c)) 0
  pure (result, rest)

/-- `get_interrupt`; the first are the SPIs, the others the PPIs. -/
def getInterrupt (irqType irq : Nat) : Outcome Nat :=
  if irqType = 0 then addChecked 32 32 (irq % 2 ^ 32) else addChecked 32 16 (irq % 2 ^ 32)

/-- The closure of `interrupt_for_node`. -/
def firstInterrupt (value : List UInt8) : Outcome Nat := do
  let (irqType, rest) ← regsToUsize value 1
  let (irq, _rest) ← regsToUsize rest 1
  getInterrupt irqType irq

/-- `interrupt_for_node`. -/
def interruptForNode (mem : Bytes.Memory) (fuel : Nat) (node : Node) : Outcome (Option Nat) := do
  match ← node.propByName mem fuel INTERRUPTS with
  | some interrupt => do
      let n ← firstInterrupt interrupt.value
      pure (some n)
  | none => pure none

/-- The loop of `interrupts_for_node`. -/
def interruptsLoop : Nat → List UInt8 → List Nat → Outcome (List Nat)
  | 0, _, _ => timeout
  | fuel + 1, rest, interrupts =>
      if 4 < rest.length then do
        let tail ← sliceFrom rest 4
        let (irqType, rest) ← regsToUsize tail 1
        let (irq, rest) ← regsToUsize rest 1
        let n ← getInterrupt irqType irq
        interruptsLoop fuel rest (interrupts ++ [n])
      else
        pure interrupts

/-- The closure of `interrupts_for_node`. -/
def allInterrupts (fuel : Nat) (value : List UInt8) : Outcome (List Nat) := do
  let (irqType, rest) ← regsToUsize value 1
  let (irq, rest) ← regsToUsize rest 1
  let n ← getInterrupt irqType irq
  interruptsLoop fuel rest [n]

/-- `interrupts_for_node`. -/
def interruptsForNode (mem : Bytes.Memory) (fuel : Nat) (node : Node) :
    Outcome (Option (List Nat)) := do
  match ← node.propByName mem fuel INTERRUPTS with
  | some interrupt => do
      let ns ← allInterrupts fuel interrupt.value
      pure (some ns)
  | none => pure none

end DeviceTree
end Allora
