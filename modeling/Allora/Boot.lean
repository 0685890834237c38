import Allora.Interrupts
import Allora.Mm.PageTree

/-!
# `main.rs` — what the boot code takes from the device tree

`kernel_main` goes through the root's children: for the memory, which it cuts into a heap and a
region of pages, for the console, the timer's interrupt and the virtio devices. All numbers in `reg`
properties are big-endian, of as many cells as the root says.

The kernel's image ends at `HEAP_START`, which the linker decides. What is at the address of a
virtio device is not known before it is looked at, and is a parameter.
-/

set_option autoImplicit false

namespace Allora
namespace Boot

open Outcome DeviceTree

/-- `"#size-cells"` -/
def SIZE_CELLS : List UInt8 := [35, 115, 105, 122, 101, 45, 99, 101, 108, 108, 115]
/-- `"#address-cells"` -/
def ADDRESS_CELLS : List UInt8 :=
  [35, 97, 100, 100, 114, 101, 115, 115, 45, 99, 101, 108, 108, 115]
/-- `"device_type"` -/
def DEVICE_TYPE : List UInt8 := [100, 101, 118, 105, 99, 101, 95, 116, 121, 112, 101]
/-- `b"memory\0"` -/
def MEMORY : List UInt8 := [109, 101, 109, 111, 114, 121, 0]
/-- `"reg"` -/
def REG : List UInt8 := [114, 101, 103]
/-- `"chosen"` -/
def CHOSEN : List UInt8 := [99, 104, 111, 115, 101, 110]
/-- `"stdout-path"` -/
def STDOUT_PATH : List UInt8 := [115, 116, 100, 111, 117, 116, 45, 112, 97, 116, 104]
/-- `b"/pl011@9000000"` -/
def PL011 : List UInt8 := [47, 112, 108, 48, 49, 49, 64, 57, 48, 48, 48, 48, 48, 48]
/-- `"timer"` -/
def TIMER : List UInt8 := [116, 105, 109, 101, 114]
/-- `"compatible"` -/
def COMPATIBLE : List UInt8 := [99, 111, 109, 112, 97, 116, 105, 98, 108, 101]
/-- `b"virtio,mmio\0"` -/
def VIRTIO_MMIO : List UInt8 := [118, 105, 114, 116, 105, 111, 44, 109, 109, 105, 111, 0]

/-! ## Memory -/

/-- `align_up(addr, PAGE_SIZE)`. -/
def pageAlignUpChecked (addr : Nat) : Outcome Nat := do
  let up ← addChecked 64 addr (PAGE_SIZE - 1)
  ok (alignDown up PAGE_SIZE)

/-- `hstart` and `hsize`, the region that `ALLOCATOR` is given, `mem_start` and `mem_size`. -/
structure Layout where
  hstart : Nat
  hsize : Nat
  heap : Nat × Nat
  memStart : Nat
  memSize : Nat
  deriving DecidableEq

/-- As long as no memory has been found. -/
def Layout.none : Layout := ⟨0, 0, (0, 0), 0, 0⟩

section Tree

variable (mem : Bytes.Memory) (fuel : Nat)

/-- `#size-cells` and `#address-cells`. -/
def cells (root : Node) (name : List UInt8) : Outcome Nat := do
  match ← root.propByName mem fuel name with
  | some sc => do
    let buf ← copyFromSlice sc.value
    ok (fromBeBytes buf)
  | none => ok 2

/-- The filter of `children_by_prop`. -/
def hasProp (name : List UInt8) (value : List UInt8) (child : Node) : Outcome Bool := do
  match ← child.propByName mem fuel name with
  | some prop => ok (prop.value = value)
  | none => ok false

/-- The address and the size in a `reg`. -/
def readReg (addressCell sizeCell : Nat) (value : List UInt8) : Outcome (Nat × Nat) := do
  let (addr, rest) ← regsToUsize value addressCell
  let (size, _) ← regsToUsize rest sizeCell
  ok (addr, size)

/-- The memory is in front of the kernel, or this is no place to run. -/
def place (heapStart addr size : Nat) : Outcome Layout :=
  if addr ≤ heapStart then do
    let top ← addChecked 64 heapStart (size / 2)
    let memStart ← pageAlignUpChecked top
    ok ⟨heapStart, size, (heapStart, size / 2), memStart, pageAlignDown (size / 2 / 2)⟩
  else .panic (hex addr ++ " " ++ hex heapStart)

/-- The body of the loop over the memories; `none` goes on to the next child. -/
def memory (heapStart addressCell sizeCell : Nat) (child : Node) : Outcome (Option Layout) := do
  if ← hasProp mem fuel DEVICE_TYPE MEMORY child then
    match ← child.propByName mem fuel REG with
    | some reg => do
      let (addr, size) ← readReg addressCell sizeCell reg.value
      let layout ← place heapStart addr size
      ok (some layout)
    | none => ok none
  else ok none

/-- What `kernel_main` makes of the memory in the tree. -/
def layout (heapStart base : Nat) : Outcome Layout := do
  match ← root mem fuel base with
  | some root => do
    let sizeCell ← cells mem fuel root SIZE_CELLS
    let addressCell ← cells mem fuel root ADDRESS_CELLS
    let found ← Iter.findMap (NodeIterator.next mem fuel)
      (memory mem fuel heapStart addressCell sizeCell) fuel root.children
    ok (found.getD Layout.none)
  | none => ok Layout.none

/-- The pages that the root container will own: `PageTree::new(mem_start, PAGE_SIZE * 512)`. -/
def pages (pageMem : Nat → PageNode) (l : Layout) : Outcome PageTree :=
  PageTree.new fuel pageMem l.memStart (PAGE_SIZE * 512)

/-! ## Devices -/

/-- A device with registers and an interrupt. -/
structure Mmio where
  addr : Nat
  irq : Nat
  deriving DecidableEq

/-- `null_terminated_str` -/
def nullTerminatedStr (bytes : List UInt8) : Outcome (List UInt8) :=
  match bytes.getLast? with
  | some b => ok (if b = 0 then bytes.dropLast else bytes)
  | none => .panic "attempt to subtract with overflow"

/-- `interrupt_for_node(node).unwrap_or(0)` -/
def irqOf (node : Node) : Outcome Nat := do
  let irq ← interruptForNode mem fuel node
  ok (irq.getD 0)

/-- The registers and the interrupt of the console. -/
def console (addressCell sizeCell : Nat) (stdout : Node) : Outcome (Option Mmio) := do
  let irq ← irqOf mem fuel stdout
  match ← stdout.propByName mem fuel REG with
  | none => ok none
  | some reg => do
    let (addr, size) ← readReg addressCell sizeCell reg.value
    ok (if size = 0x1000 then some ⟨addr, irq⟩ else none)

/-- The console, if it is the one that the kernel knows. -/
def uart (addressCell sizeCell : Nat) (root : Node) : Outcome (Option Mmio) := do
  match ← root.childByName mem fuel CHOSEN with
  | none => ok none
  | some chosen => do
    match ← chosen.propByName mem fuel STDOUT_PATH with
    | none => ok none
    | some stdoutPath => do
      let path ← nullTerminatedStr stdoutPath.value
      if path = PL011 then
        match ← root.childByPath mem fuel path with
        | none => ok none
        | some stdout => console mem fuel addressCell sizeCell stdout
      else ok none

/-- `timer::EL1_PHYSICAL_TIMER` -/
def EL1_PHYSICAL_TIMER : Nat := 30

/-- The interrupt that the timer is started with. -/
def timer (root : Node) : Outcome (Option Nat) := do
  match ← root.childByName mem fuel TIMER with
  | none => ok none
  | some timer => do
    let irqs ← interruptsForNode mem fuel timer
    ok (irqs.bind fun irqs => irqs.find? fun irq => irq = EL1_PHYSICAL_TIMER)

/-- The first registers of a virtio device. -/
structure VirtIORegs where
  magic : Nat
  version : Nat
  deviceId : Nat

/-- The kinds that the kernel drives. -/
inductive Kind
  | blk
  | entropy
  | net
  deriving DecidableEq

/-- `VirtIORegs::new`, and `device_id`. -/
def VirtIORegs.kind (regs : VirtIORegs) : Option Kind :=
  if regs.magic = 0x74726976 ∧ regs.version = 2 ∧ regs.deviceId ≠ 0 then
    match regs.deviceId with
    | 1 => some .net
    | 2 => some .blk
    | 4 => some .entropy
    | _ => none
  else none

/-- `BLK`, `ENTROPY` and `NET`. -/
abbrev Virtios := Kind → Option Mmio

/-- The body of the loop over the virtio devices. -/
def virtio (regsAt : Nat → VirtIORegs) (addressCell : Nat) (found : Virtios) (child : Node) :
    Outcome Virtios := do
  if ← hasProp mem fuel COMPATIBLE VIRTIO_MMIO child then
    match ← child.propByName mem fuel REG with
    | none => ok found
    | some reg => do
    let (addr, _) ← regsToUsize reg.value addressCell
    let irq ← irqOf mem fuel child
    match (regsAt addr).kind with
    | none => ok found
    | some kind => ok (Function.update found kind (some ⟨addr, irq⟩))
  else ok found

/-- What `kernel_main` drives. -/
structure Devices where
  uart : Option Mmio
  timer : Option Nat
  virtios : Virtios

/-- What `kernel_main` finds in the tree, after the memory. -/
def devices (regsAt : Nat → VirtIORegs) (base : Nat) : Outcome Devices := do
  match ← root mem fuel base with
  | some root => do
    let sizeCell ← cells mem fuel root SIZE_CELLS
    let addressCell ← cells mem fuel root ADDRESS_CELLS
    let console ← uart mem fuel addressCell sizeCell root
    let irq ← timer mem fuel root
    let virtios ← Iter.fold (NodeIterator.next mem fuel) (virtio mem fuel regsAt addressCell) fuel
      (fun _ => none) root.children
    ok ⟨console, irq, virtios⟩
  | none => ok ⟨none, none, fun _ => none⟩

end Tree
end Boot
end Allora
