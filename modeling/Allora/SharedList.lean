import Allora.Lib.Trace
import Allora.PtrList

/-!
# `collections/list.rs` — a list that several threads use

`push` takes more than one step: it boxes the element, reads the dummy's link, stores it in the new
node, and swings the dummy's link by a compare-exchange, from the reading on again as long as that
fails. `iter` and `Iter::next` read one link each. Here any number of threads push and iterate at
the same time, one atomic access a turn, in any order; an iterator may be dropped before its end.
Removals free nodes and are left out: they need the list for themselves.

A thread keeps the element that it pushes, and the elements it has been given by an iterator; the
list does not see either.
-/

set_option autoImplicit false

namespace Allora
namespace SharedList

open Outcome PtrList

/-- Where a thread is. -/
inductive Pc (α : Type)
  | idle
  /-- `push`: `Box::new_in`. -/
  | boxing (elem : α)
  /-- `try_push`, up to its first load. -/
  | load (elem : α) (new : Ptr)
  | store (elem : α) (new : Ptr) (old : Option Ptr)
  | exchange (elem : α) (new : Ptr) (old : Option Ptr)
  /-- `iter` -/
  | begin
  /-- `Iter::next` -/
  | next (it : Option Ptr) (seen : List α)
  | panicked (msg : String)

structure State (ι α : Type) where
  list : PtrList α
  pc : ι → Pc α

inductive Turn (ι α : Type)
  | push (t : ι) (elem : α)
  | iter (t : ι)
  | stop (t : ι)
  | go (t : ι)

inductive Event (ι α : Type)
  | loaded (t : ι)
  | pushed (t : ι) (elem : α)
  | retried (t : ι)
  | began (t : ι)
  | finished (t : ι) (elems : List α)
  deriving DecidableEq

variable {ι α : Type} [DecidableEq ι]

namespace State

/-- Thread `t` goes on at `pc`. -/
def goto (s : State ι α) (t : ι) (pc : Pc α) : State ι α :=
  { s with pc := Function.update s.pc t pc }

/-- The nodes have changed. -/
def withHeap (s : State ι α) (heap : Heap α) : State ι α :=
  { s with list := { s.list with heap := heap } }

/-- The first half of `try_push`: `Err` if the list has no dummy, and the link to the first node. -/
def load (s : State ι α) (t : ι) (elem : α) (new : Ptr) : State ι α × List (Event ι α) :=
  match s.list.head with
  | none => (s.goto t (.load elem new), [])
  | some head =>
    match s.list.heap.read head with
    | ok node => (s.goto t (.store elem new node.next), [.loaded t])
    | .panic msg => (s.goto t (.panicked msg), [])
    | timeout => (s, [])

/-- Its compare-exchange. -/
def exchange (s : State ι α) (t : ι) (elem : α) (new : Ptr) (old : Option Ptr) :
    State ι α × List (Event ι α) :=
  match s.list.head with
  | none => (s.goto t (.load elem new), [])
  | some head =>
    match s.list.heap.compareExchange head old (some new) with
    | ok (true, heap) => ((s.withHeap heap).goto t .idle, [.pushed t elem])
    | ok (false, heap) => ((s.withHeap heap).goto t (.load elem new), [.retried t])
    | .panic msg => (s.goto t (.panicked msg), [])
    | timeout => (s, [])

/-- A step of thread `t`, which is at `pc`. -/
def go (A : Allocator α) (s : State ι α) (t : ι) : Pc α → State ι α × List (Event ι α)
  | .idle => (s, [])
  | .boxing elem =>
    match s.list.heap.boxNew A ⟨some elem, none⟩ with
    | ok (new, heap) => ((s.withHeap heap).goto t (.load elem new), [])
    | .panic msg => (s.goto t (.panicked msg), [])
    | timeout => (s, [])
  | .load elem new => s.load t elem new
  | .store elem new old =>
    match s.list.heap.store new old with
    | ok heap => ((s.withHeap heap).goto t (.exchange elem new old), [])
    | .panic msg => (s.goto t (.panicked msg), [])
    | timeout => (s, [])
  | .exchange elem new old => s.exchange t elem new old
  | .begin =>
    match s.list.iter with
    | ok it => (s.goto t (.next it []), [.began t])
    | .panic msg => (s.goto t (.panicked msg), [])
    | timeout => (s, [])
  | .next it seen =>
    match iterNext s.list.heap it with
    | ok (some elem, it) => (s.goto t (.next it (seen ++ [elem])), [])
    | ok (none, _) => (s.goto t .idle, [.finished t seen])
    | .panic msg => (s.goto t (.panicked msg), [])
    | timeout => (s, [])
  | .panicked _ => (s, [])

def step (A : Allocator α) (s : State ι α) : Turn ι α → State ι α × List (Event ι α)
  | .push t elem =>
    match s.pc t with
    | .idle => (s.goto t (.boxing elem), [])
    | _ => (s, [])
  | .iter t =>
    match s.pc t with
    | .idle => (s.goto t .begin, [])
    | _ => (s, [])
  | .stop t =>
    match s.pc t with
    | .next _ _ => (s.goto t .idle, [])
    | _ => (s, [])
  | .go t => s.go A t (s.pc t)

end State

/-- The list and its threads as a machine. -/
def machine (ι : Type) [DecidableEq ι] (A : Allocator α) :
    Machine (State ι α) (Turn ι α) (Event ι α) := ⟨State.step A⟩

/-- Nobody is using the list. -/
def start (ι : Type) (list : PtrList α) : State ι α := ⟨list, fun _ => .idle⟩

end SharedList
end Allora
