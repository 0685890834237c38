import Allora.Mm.ChunkList
import Allora.Mutex

/-!
# `mm/koarena.rs` — an arena that threads share

A `KObjectArena` is a reference to one `Arena` behind one `Mutex`; a clone of it refers to the same
one. Any thread with a clone may allocate and free, and be interrupted at any point of it: the
search goes from chunk to chunk, one round a turn, and the writes that split a chunk or push one are
an access of their own. All the while the threads that own live blocks write into them, without the
lock and at any time, also in the middle of somebody else's search.

A panic behind the lock is where the thread stays, with the lock.
-/

set_option autoImplicit false

namespace Allora
namespace KObjectArena

open Outcome Monitor

/-- What a thread has got to, behind the lock. -/
inductive Op
  | allocate (layout : Layout)
  /-- The loop of `pop_first_fit`, after the chunk `cur`; `l` is the aligned layout. -/
  | search (layout l : Layout) (cur : Option Nat)
  | carve (layout : Layout) (prev : Option Nat) (cur : Nat) (info : CanAllocInfo)
  | allocated (layout : Layout) (ptr : Option Nat)
  | deallocate (ptr : Nat) (layout : Layout)
  | deallocated
  | panicked (msg : String)

/-- What a call returns: a slice or `AllocError`, or nothing. -/
inductive Answer
  | slice (layout : Layout) (slice : Option (Nat × Nat))
  | unit

/-- `Allocator::allocate` and `Allocator::deallocate`, one access at a time. -/
def use : Op → Arena → Use Arena Op Answer
  | .allocate layout, A =>
    match ChunkList.alignLayout layout with
    | ok l => .access A (.search layout l none)
    | .panic msg => .access A (.panicked msg)
    | timeout => .access A (.allocate layout)
  | .search layout l cur, A =>
    match A.chunks.next cur with
    | none => .access A (.allocated layout none)
    | some a =>
      match (A.chunks.chunk a).canAllocate a l with
      | ok (some info) => .access A (.carve layout cur a info)
      | ok none => .access A (.search layout l (some a))
      | .panic msg => .access A (.panicked msg)
      | timeout => .access A (.search layout l cur)
  | .carve layout prev cur info, A =>
    let (cl, ptr) := A.chunks.carve prev cur info
    .access ⟨cl⟩ (.allocated layout (some ptr))
  | .allocated layout ptr, _ => .leave (.slice layout (ptr.map fun p => (p, layout.size)))
  | .deallocate ptr layout, A =>
    match A.deallocate ptr layout with
    | ok A => .access A .deallocated
    | .panic msg => .access A (.panicked msg)
    | timeout => .access A (.deallocate ptr layout)
  | .deallocated, _ => .leave .unit
  | .panicked msg, A => .access A (.panicked msg)

/-- An owner of memory writes a word of it. -/
def poke (w : Nat × Word) (A : Arena) : Arena :=
  ⟨{ A.chunks with mem := Function.update A.chunks.mem w.1 w.2 }⟩

/-- The arena, with all that threads do to it. -/
def shared : Monitor Bool Arena Op Answer (Nat × Word) := ⟨Mutex.flag, use, poke⟩

abbrev Trace (ι : Type) := List (Event ι Op Answer (Nat × Word))

/-- `KObjectArena::new`, before its first clone has called it. -/
def new (ι : Type) (mem : Nat → Word) (start size : Nat) : State Bool ι Arena Op :=
  Mutex.start ι (Mutex.new (Arena.new mem start size))

end KObjectArena
end Allora
