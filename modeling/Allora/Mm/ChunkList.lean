import Allora.Lib.Outcome
import Allora.Mm.Align
import Mathlib.Logic.Function.Basic

/-!
# `mm/chunk_list.rs` and `mm/yaarena.rs` — the arena

A `ChunkList` is a list of free chunks threaded through the free memory itself: a chunk of `size`
bytes at address `a` starts with its header, two 8-byte words holding its size and the link to the
next chunk. The model keeps the headers in memory: a `ChunkList` here is the link of its head
together with the memory, and splitting a chunk is the sequence of header writes of the source.

Sizes and addresses are natural numbers, so sums do not wrap. The one overflow the source itself
checks, `start.checked_add(self.size).unwrap()`, is a panic of the model as well.
-/

set_option autoImplicit false

namespace Allora

open Outcome

/-! ## `core::alloc::Layout` -/

/-- `Layout`: the alignment is a power of two, and the size rounded up to it is at most
`isize::MAX`. -/
structure Layout where
  size : Nat
  align : Nat
  pow : align.isPowerOfTwo
  fits : size + align ≤ 2 ^ 63
  deriving DecidableEq

namespace Layout

/-- `Layout::from_size_align`. -/
def fromSizeAlign (size align : Nat) : Option Layout :=
  if h : align.isPowerOfTwo ∧ size + align ≤ 2 ^ 63 then some ⟨size, align, h.1, h.2⟩ else none

/-- `Layout::align_to`. -/
def alignTo (l : Layout) (align : Nat) : Option Layout := fromSizeAlign l.size (max l.align align)

/-- `Result::unwrap`, on the result of the two above. -/
def unwrap : Option Layout → Outcome Layout
  | some l => ok l
  | none => panic "called `Result::unwrap()` on an `Err` value: LayoutError"

/-- A power of two below `2 ^ 63` divides it, so rounding up stays below. -/
theorem padded_fits (l : Layout) : alignUp l.size l.align + l.align ≤ 2 ^ 63 := by
  obtain ⟨size, align, ⟨k, rfl⟩, fits⟩ := l
  have hk : k ≤ 63 := (Nat.pow_le_pow_iff_right (by decide)).mp (Nat.le_trans (Nat.le_add_left ..) fits)
  obtain ⟨q, hq⟩ := Nat.pow_dvd_pow 2 hk
  have hpos : 0 < 2 ^ k := Nat.two_pow_pos k
  show alignDown (size + (2 ^ k - 1)) (2 ^ k) + 2 ^ k ≤ 2 ^ 63
  have hdown : alignDown (size + (2 ^ k - 1)) (2 ^ k) = 2 ^ k * ((size + (2 ^ k - 1)) / 2 ^ k) := by
    have := Nat.div_add_mod (size + (2 ^ k - 1)) (2 ^ k)
    rw [alignDown]
    omega
  have hlt : (size + (2 ^ k - 1)) / 2 ^ k < q := by
    rw [Nat.div_lt_iff_lt_mul hpos, Nat.mul_comm]
    omega
  calc alignDown (size + (2 ^ k - 1)) (2 ^ k) + 2 ^ k
      = 2 ^ k * ((size + (2 ^ k - 1)) / 2 ^ k + 1) := by rw [hdown, Nat.mul_add, Nat.mul_one]
    _ ≤ 2 ^ k * q := Nat.mul_le_mul_left _ hlt
    _ = 2 ^ 63 := hq.symm

/-- `Layout::pad_to_align`. -/
def padToAlign (l : Layout) : Layout :=
  ⟨alignUp l.size l.align, l.align, l.pow, l.padded_fits⟩

end Layout

/-! ## Memory -/

/-- An 8-byte word of memory: a `usize`, or an `Option<NonNull<Chunk>>`. -/
inductive Word
  | usize (n : Nat)
  | link (l : Option Nat)
  deriving DecidableEq, Repr

namespace Word

/-- The word read as a `usize`; a null link reads as zero. -/
def toUsize : Word → Nat
  | usize n => n
  | link l => l.getD 0

/-- The word read as a link. -/
def toLink : Word → Option Nat
  | usize n => if n = 0 then none else some n
  | link l => l

end Word

/-- `Chunk`. -/
structure Chunk where
  size : Nat
  next : Option Nat
  deriving DecidableEq, Repr

/-- `mem::size_of::<Chunk>()`. -/
def CHUNK_SIZE : Nat := 16

/-- `mem::align_of::<Chunk>()`. -/
def CHUNK_ALIGN : Nat := 8

/-- `CanAllocInfo`; the field `end` of the source is `stop`. -/
structure CanAllocInfo where
  start : Nat
  stop : Nat
  allocStartOffset : Nat
  allocEndOffset : Nat
  deriving DecidableEq, Repr

/-- `usize::checked_add`. -/
def checkedAdd (a b : Nat) : Option Nat := if a + b < 2 ^ 64 then some (a + b) else none

/-- `Chunk::can_allocate`, of the chunk stored at `start`. -/
def Chunk.canAllocate (c : Chunk) (start : Nat) (layout : Layout) :
    Outcome (Option CanAllocInfo) := do
  let stop ← unwrap (checkedAdd start c.size)
  let allocStart :=
    if start = alignUp start layout.align then start
    else alignUp (start + CHUNK_SIZE) layout.align
  let allocEnd := alignUp (allocStart + layout.size) CHUNK_ALIGN
  -- `end.checked_sub(alloc_end)?`
  if stop < allocEnd then
    pure none
  else if stop - allocEnd = 0 ∨ CHUNK_SIZE ≤ stop - allocEnd then
    pure (some ⟨start, stop, allocStart - start, allocEnd - start⟩)
  else
    pure none

/-! ## `ChunkList` -/

/-- `ChunkList`: the link of its head, and the memory the links lead into. -/
structure ChunkList where
  mem : Nat → Word
  head : Option Nat

namespace ChunkList

/-- `ChunkList::empty`. -/
def empty (mem : Nat → Word) : ChunkList := ⟨mem, none⟩

/-- The chunk whose header is at `a`. -/
def chunk (cl : ChunkList) (a : Nat) : Chunk := ⟨(cl.mem a).toUsize, (cl.mem (a + 8)).toLink⟩

/-- `ptr.write(Chunk { .. })`. -/
def writeChunk (cl : ChunkList) (a : Nat) (c : Chunk) : ChunkList :=
  { cl with
    mem := Function.update (Function.update cl.mem a (.usize c.size)) (a + 8) (.link c.next) }

/-- `cur.next`, where `none` is the head of the list and `some a` the chunk at `a`. -/
def next (cl : ChunkList) : Option Nat → Option Nat
  | none => cl.head
  | some a => (cl.chunk a).next

/-- `prev.next = l`. -/
def setNext (cl : ChunkList) (prev l : Option Nat) : ChunkList :=
  match prev with
  | none => { cl with head := l }
  | some a => { cl with mem := Function.update cl.mem (a + 8) (.link l) }

/-- `init_chunk`. -/
def initChunk (cl : ChunkList) (start size : Nat) (next : Option Nat) : ChunkList × Nat :=
  let alignedStart := alignUp start CHUNK_ALIGN
  let alignedSize := alignDown size CHUNK_ALIGN
  (cl.writeChunk alignedStart ⟨alignedSize, next⟩, alignedStart)

/-- `ChunkList::new`. -/
def new (mem : Nat → Word) (start size : Nat) : ChunkList :=
  let (cl, ptr) := (empty mem).initChunk start size none
  { cl with head := some ptr }

/-- `push`. -/
def push (cl : ChunkList) (start size : Nat) : ChunkList :=
  let (cl, ptr) := cl.initChunk start size cl.head
  { cl with head := some ptr }

/-- `last`: the last chunk, or the head of an empty list. -/
def last (cl : ChunkList) : Nat → Option Nat → Outcome (Option Nat)
  | 0, _ => timeout
  | fuel + 1, cur =>
      match cl.next cur with
      | some a => last cl fuel (some a)
      | none => ok cur

/-- `append`. -/
def append (fuel : Nat) (cl : ChunkList) (start size : Nat) : Outcome ChunkList := do
  let (cl, ptr) := cl.initChunk start size none
  let last ← cl.last fuel none
  pure (cl.setNext last (some ptr))

/-- The search of `pop_first_fit`: the first chunk after `cur` that fits, with the one before it. -/
def firstFit (cl : ChunkList) (layout : Layout) :
    Nat → Option Nat → Outcome (Option (Option Nat × Nat × CanAllocInfo))
  | 0, _ => timeout
  | fuel + 1, cur =>
      match cl.next cur with
      | none => ok none
      | some a => do
          match ← (cl.chunk a).canAllocate a layout with
          | some info => ok (some (cur, a, info))
          | none => firstFit cl layout fuel (some a)

/-- The end of `pop_first_fit`: the chunk at `cur`, after `prev`, is split. -/
def carve (cl : ChunkList) (prev : Option Nat) (cur : Nat) (c : CanAllocInfo) : ChunkList × Nat :=
  if c.allocEndOffset = (cl.chunk cur).size then
    if c.allocStartOffset = 0 then
      (cl.setNext prev (cl.chunk cur).next, c.start)
    else
      let cl := cl.writeChunk c.start ⟨c.allocStartOffset, (cl.chunk cur).next⟩
      (cl.setNext prev (some c.start), c.start + c.allocStartOffset)
  else
    let back := c.start + c.allocEndOffset
    let cl := cl.writeChunk back ⟨c.stop - c.start - c.allocEndOffset, (cl.chunk cur).next⟩
    let cl := cl.setNext prev (some back)
    if c.allocStartOffset = 0 then
      (cl, c.start)
    else
      let cl := cl.writeChunk c.start ⟨c.allocStartOffset, some back⟩
      (cl.setNext prev (some c.start), c.start + c.allocStartOffset)

/-- `pop_first_fit`. -/
def popFirstFit (fuel : Nat) (cl : ChunkList) (layout : Layout) :
    Outcome (ChunkList × Option Nat) := do
  match ← cl.firstFit layout fuel none with
  | some (prev, cur, info) =>
      let (cl, ptr) := cl.carve prev cur info
      pure (cl, some ptr)
  | none => pure (cl, none)

/-- `align_layout`. -/
def alignLayout (layout : Layout) : Outcome Layout := do
  let size := max layout.size CHUNK_SIZE
  let l ← Layout.unwrap (Layout.fromSizeAlign size layout.align)
  let l ← Layout.unwrap (l.alignTo CHUNK_ALIGN)
  pure l.padToAlign

end ChunkList

/-! ## `Arena` -/

/-- `Arena`. -/
structure Arena where
  chunks : ChunkList

namespace Arena

/-- `Arena::new`. -/
def new (mem : Nat → Word) (start size : Nat) : Arena := ⟨ChunkList.new mem start size⟩

/-- `Arena::append`. -/
def append (fuel : Nat) (A : Arena) (start size : Nat) : Outcome Arena := do
  let chunks ← A.chunks.append fuel start size
  pure ⟨chunks⟩

/-- `Arena::allocate`. -/
def allocate (fuel : Nat) (A : Arena) (layout : Layout) : Outcome (Arena × Option Nat) := do
  let layout ← ChunkList.alignLayout layout
  let (chunks, ptr) ← A.chunks.popFirstFit fuel layout
  pure (⟨chunks⟩, ptr)

/-- `Arena::deallocate`. -/
def deallocate (A : Arena) (ptr : Nat) (layout : Layout) : Outcome Arena := do
  let l ← ChunkList.alignLayout layout
  pure ⟨A.chunks.push ptr l.size⟩

end Arena

end Allora
