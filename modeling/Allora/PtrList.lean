import Allora.Lib.Linked
import Allora.Lib.Outcome
import Allora.Mm.ChunkList
import Mathlib.Data.List.Basic

/-!
# `collections/list.rs` — the linked list

A `List` of the source is the address of a dummy node whose `next` is the first element's node. A
removal walks with two pointers, swaps the link of the one behind by a compare-exchange, and frees
the node it has passed.

Every access goes through a `Heap`. Reading or writing an address that holds no node would be
undefined behaviour in the source and is a panic here, and so is reading the dummy's `elem`, which
is zeroed memory and no value of the element type. The allocator is a parameter: all the list knows
of it is that an address it hands out holds no node at that moment; it may refuse, and it may hand
out again what was freed.
-/

set_option autoImplicit false

namespace Allora

open Outcome

namespace PtrList

/-! ## Nodes and their memory -/

/-- An address. -/
abbrev Ptr := Fin (2 ^ 64)

/-- `Node<T>`; the dummy's `elem` is `none`. -/
abbrev Node (α : Type) := Linked.Node Ptr (Option α)

/-- The nodes in memory, and how many boxes have been asked for so far. -/
structure Heap (α : Type) where
  cells : Ptr → Option (Node α)
  boxes : Nat

/-- `{:?}` of a `Layout`. -/
def debug (layout : Layout) : String :=
  "Layout \x7b size: " ++ toString layout.size ++ ", align: " ++ toString layout.align ++
    " (1 << " ++ toString layout.align.log2 ++ ") \x7d"

/-- What `alloc_error_handler` panics with. -/
def allocErrorHandler (layout : Layout) : String := "allocation error: " ++ debug layout

/-- An `Allocator`, as far as the list can tell. -/
structure Allocator (α : Type) where
  /-- Of a `Node<T>`, which is all it is asked for. -/
  layout : Layout
  place : Heap α → Option Ptr
  fresh : ∀ {h : Heap α} {a : Ptr}, place h = some a → h.cells a = none

/-- The panic if it refuses. -/
def Allocator.error {α : Type} (A : Allocator α) : String := allocErrorHandler A.layout

namespace Heap

variable {α : Type}

/-- Nothing allocated. -/
def empty : Heap α := ⟨fun _ => none, 0⟩

/-- `Box::into_raw(Box::new_in(node, alloc))`. -/
def boxNew (A : Allocator α) (h : Heap α) (node : Node α) : Outcome (Ptr × Heap α) :=
  match A.place h with
  | some a => ok (a, ⟨Function.update h.cells a (some node), h.boxes + 1⟩)
  | none => .panic A.error

/-- `&*a`. -/
def read (h : Heap α) (a : Ptr) : Outcome (Node α) :=
  match h.cells a with
  | some node => ok node
  | none => .panic "dangling pointer"

/-- `*a = node`. -/
def write (h : Heap α) (a : Ptr) (node : Node α) : Heap α :=
  { h with cells := Function.update h.cells a (some node) }

/-- `(*a).next.store(next)`. -/
def store (h : Heap α) (a : Ptr) (next : Option Ptr) : Outcome (Heap α) := do
  let node ← h.read a
  ok (h.write a { node with next := next })

/-- `(*a).next.compare_exchange(old, new)`, and whether it was done. -/
def compareExchange (h : Heap α) (a : Ptr) (old new : Option Ptr) : Outcome (Bool × Heap α) := do
  let node ← h.read a
  if node.next = old then
    ok (true, h.write a { node with next := new })
  else
    ok (false, h)

/-- `Box::from_raw_in(a, alloc)`, taken apart and dropped. -/
def unbox (h : Heap α) (a : Ptr) : Outcome (Node α × Heap α) := do
  let node ← h.read a
  ok (node, { h with cells := Function.update h.cells a none })

end Heap

/-- `node.elem`. -/
def value {α : Type} (node : Node α) : Outcome α :=
  match node.elem with
  | some elem => ok elem
  | none => .panic "zeroed element"

/-- A pointer that the source dereferences without a look. -/
def deref (p : Option Ptr) : Outcome Ptr :=
  match p with
  | some a => ok a
  | none => .panic "null pointer"

end PtrList

/-! ## The list -/

/-- `List<T>`, with the memory its nodes live in. -/
structure PtrList (α : Type) where
  heap : PtrList.Heap α
  head : Option PtrList.Ptr

namespace PtrList

variable {α : Type}

/-- `List::new_in`: the dummy alone. -/
def newIn (A : Allocator α) : Outcome (PtrList α) := do
  let (dummy, heap) ← Heap.empty.boxNew A ⟨none, none⟩
  ok ⟨heap, some dummy⟩

/-- `try_push`. -/
def tryPush (l : PtrList α) (new : Ptr) : Outcome (Bool × PtrList α) :=
  match l.head with
  | none => ok (false, l)
  | some head => do
      let node ← l.heap.read head
      let heap ← l.heap.store new node.next
      let (done, heap) ← heap.compareExchange head node.next (some new)
      ok (done, { l with heap := heap })

/-- The loop of `push`. -/
def pushLoop : Nat → PtrList α → Ptr → Outcome (PtrList α)
  | 0, _, _ => timeout
  | fuel + 1, l, node => do
      let (done, l) ← l.tryPush node
      if done then ok l else pushLoop fuel l node

/-- `push`. -/
def push (A : Allocator α) (fuel : Nat) (l : PtrList α) (elem : α) : Outcome (PtrList α) := do
  let (node, heap) ← l.heap.boxNew A ⟨some elem, none⟩
  pushLoop fuel { l with heap := heap } node

/-- How both removals end: `prev.next` is swapped from `cur` to what follows, and `cur` is freed. -/
def unlink (l : PtrList α) (prev cur : Ptr) : Outcome (Option α × PtrList α) := do
  let node ← l.heap.read cur
  let (done, heap) ← l.heap.compareExchange prev (some cur) node.next
  if done then do
    let (node, heap) ← heap.unbox cur
    let elem ← value node
    ok (some elem, { l with heap := heap })
  else
    ok (none, { l with heap := heap })

/-- The loop of `remove_nth`: `prev` and `cur` after `nth` steps, if the list is that long. -/
def removeNthLoop (h : Heap α) : Nat → Option Ptr → Ptr → Outcome (Option (Option Ptr × Ptr))
  | 0, prev, cur => ok (some (prev, cur))
  | nth + 1, _, cur => do
      let node ← h.read cur
      match node.next with
      | some next => removeNthLoop h nth (some cur) next
      | none => ok none

/-- `remove_nth`. -/
def removeNth (l : PtrList α) (nth : Nat) : Outcome (Option α × PtrList α) := do
  let cur ← deref l.head
  let found ← removeNthLoop l.heap nth none cur
  match found with
  | some (some prev, cur) => l.unlink prev cur
  | some (none, _) => ok (none, l)
  | none => ok (none, l)

/-- `pop`. -/
def pop (l : PtrList α) : Outcome (Option α × PtrList α) := l.removeNth 1

/-- The loop of `remove`. -/
def removeLoop (f : α → Bool) : Nat → PtrList α → Ptr → Outcome (Option α × PtrList α)
  | 0, _, _ => timeout
  | fuel + 1, l, prev => do
      let node ← l.heap.read prev
      match node.next with
      | none => ok (none, l)
      | some cur => do
          let node ← l.heap.read cur
          let elem ← value node
          if f elem then l.unlink prev cur else removeLoop f fuel l cur

/-- `remove`. -/
def remove (fuel : Nat) (l : PtrList α) (f : α → Bool) : Outcome (Option α × PtrList α) := do
  let cur ← deref l.head
  removeLoop f fuel l cur

/-- `iter`, and `iter_mut` alike: the node to come. -/
def iter (l : PtrList α) : Outcome (Option Ptr) :=
  match l.head with
  | none => ok none
  | some head => do
      let node ← l.heap.read head
      ok node.next

/-- `Iter::next`: the element, and the node to come. -/
def iterNext (h : Heap α) (it : Option Ptr) : Outcome (Option α × Option Ptr) :=
  match it with
  | none => ok (none, none)
  | some a => do
      let node ← h.read a
      let elem ← value node
      ok (some elem, node.next)

/-- `IterMut::next`: where the element is, and the node to come. -/
def iterMutNext (h : Heap α) (it : Option Ptr) : Outcome (Option Ptr × Option Ptr) :=
  match it with
  | none => ok (none, none)
  | some a => do
      let node ← h.read a
      ok (some a, node.next)

/-- `Iterator::fold`. -/
def fold {β : Type} (h : Heap α) (g : β → α → Outcome β) : Nat → β → Option Ptr → Outcome β
  | 0, _, _ => timeout
  | fuel + 1, acc, it => do
      let (elem, it) ← iterNext h it
      match elem with
      | none => ok acc
      | some elem => do
          let acc ← g acc elem
          fold h g fuel acc it

/-- `len`. -/
def len (fuel : Nat) (l : PtrList α) : Outcome Nat := do
  let it ← l.iter
  fold l.heap (fun a _ => addChecked 64 a 1) fuel 0 it

/-! ## A client -/

/-- What a client may do with a list. An iterator is asked a number of times; through a mutable one
each element that comes is written to, by the function that stands for the client's code. -/
inductive Op (α : Type)
  | push (elem : α)
  | pop
  | removeNth (nth : Nat)
  | remove (f : α → Bool)
  | iter (calls : Nat)
  | iterMut (writes : List (α → α))
  | len

/-- What it gets back. -/
inductive Answer (α : Type)
  | done
  | elem (e : Option α)
  | elems (es : List (Option α))
  | count (n : Nat)
  deriving DecidableEq

/-- As many calls of `Iter::next`. -/
def nexts (h : Heap α) : Nat → Option Ptr → Outcome (List (Option α))
  | 0, _ => ok []
  | calls + 1, it => do
      let (elem, it) ← iterNext h it
      let es ← nexts h calls it
      ok (elem :: es)

/-- `*e = f(*e)`, of a reference that `IterMut::next` may have returned. -/
def writeElem (h : Heap α) (f : α → α) : Option Ptr → Outcome (Option α × Heap α)
  | none => ok (none, h)
  | some a => do
      let node ← h.read a
      let elem ← value node
      ok (some elem, h.write a { node with elem := some (f elem) })

/-- As many calls of `IterMut::next` as there are writes. -/
def writeNexts (h : Heap α) :
    List (α → α) → Option Ptr → Outcome (List (Option α) × Heap α)
  | [], _ => ok ([], h)
  | f :: writes, it => do
      let (ref, it) ← iterMutNext h it
      let (elem, h) ← writeElem h f ref
      let (es, h) ← writeNexts h writes it
      ok (elem :: es, h)

/-- One operation. -/
def perform (A : Allocator α) (fuel : Nat) (l : PtrList α) :
    Op α → Outcome (Answer α × PtrList α)
  | .push e => do
      let l ← l.push A fuel e
      ok (.done, l)
  | .pop => do
      let (e, l) ← l.pop
      ok (.elem e, l)
  | .removeNth nth => do
      let (e, l) ← l.removeNth nth
      ok (.elem e, l)
  | .remove f => do
      let (e, l) ← l.remove fuel f
      ok (.elem e, l)
  | .iter calls => do
      let it ← l.iter
      let es ← nexts l.heap calls it
      ok (.elems es, l)
  | .iterMut writes => do
      let it ← l.iter
      let (es, heap) ← writeNexts l.heap writes it
      ok (.elems es, { l with heap := heap })
  | .len => do
      let n ← l.len fuel
      ok (.count n, l)

/-- One operation after the other. -/
def run (A : Allocator α) (fuel : Nat) :
    List (Op α) → PtrList α → Outcome (List (Answer α) × PtrList α)
  | [], l => ok ([], l)
  | op :: ops, l => do
      let (ans, l) ← l.perform A fuel op
      let (answers, l) ← run A fuel ops l
      ok (ans :: answers, l)

end PtrList
end Allora
