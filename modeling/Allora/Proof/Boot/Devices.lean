import Allora.Proof.Boot.Entries
import Allora.Proof.DeviceTree.Path

/-!
# From the bytes of the device tree to the devices

What the kernel drives is decided by the root's entries. Two things there are not what one would
guess: of several virtio devices of one kind the last one is kept, and where there is no node for
the console, the path to it leads to the root, whose own `reg` is then asked.
-/

set_option autoImplicit false

namespace Allora
namespace Boot

open Outcome Bytes DeviceTree

/-! ## Interrupts, as they are written -/

section Read

variable {mem : Memory} {fuel : Nat} {node root : Node} {e : Entry} {es : List Entry}
  {children : List Node}

/-- The path to the console, as it stands in `chosen`. -/
def stdoutPath (es : List Entry) : Option (List UInt8) :=
  (es.find? fun e => e.name = CHOSEN).bind fun e => (e.prop STDOUT_PATH).map Property.value

/-- The entry that the path to the console leads to: the root if there is no such child. -/
def stdout (e : Entry) (es : List Entry) : Entry :=
  (es.find? fun e => e.name = PL011.tail).getD e

section Virtio

variable (regsAt : Nat → VirtIORegs)

/-- The last device of that kind. -/
def last (ds : List Mmio) (kind : Kind) : Option Mmio :=
  (ds.filter fun d => (regsAt d.addr).kind = some kind).getLast?

/-- The loop, with what it has found. -/
def keep (found : Virtios) (d : Mmio) : Virtios :=
  match (regsAt d.addr).kind with
  | none => found
  | some kind => Function.update found kind (some d)

variable {regsAt}

end Virtio

end Read

end Boot
end Allora
