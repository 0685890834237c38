import Allora.Lib.Outcome
import Allora.Lib.Trace

/-!
# The channel between two threads

`lfchannel` is a linked list of entries that grows at the front, and is never shortened. The sender
numbers its messages and pushes them with a compare-exchange on the dummy node's `next`; the
receiver copies the whole list and keeps what is newer than the last number it saw.

Both run at once. Each atomic access to the shared list is one step: the sender's four (bump the
version, read `head.next`, set `node.next`, compare-exchange `head.next`) and the receiver's (read
the destroy flag and `last_seen`, read `first().version`, one node of `to_vec_in` at a time, set
`last_seen`). A thread that panicked takes no further step.

Pointers are indices into the heap, in the order of allocation, and a null pointer is `none`.
Nothing is freed. Messages are cloned by the source; a clone is the message.
-/

set_option autoImplicit false

namespace Allora
namespace Lfchannel

open Outcome

/-! ## `list.rs` -/

/-- A node. The dummy's `elem` is zeroed memory and no value of the element type: `none`. -/
structure Node (α : Type) where
  elem : Option α
  next : Option Nat

/-- `List<T>`, with the memory its nodes live in. -/
structure LfList (α : Type) where
  heap : List (Node α)
  head : Nat

namespace LfList

variable {α : Type}

/-- `List::new_in`: the dummy alone. -/
def new : LfList α := ⟨[⟨none, none⟩], 0⟩

/-- `(*a).next.load()`. -/
def next (l : LfList α) (a : Nat) : Outcome (Option Nat) :=
  match l.heap[a]? with
  | some node => ok node.next
  | none => .panic "invalid pointer"

/-- `(*p).elem`. -/
def elem (l : LfList α) (p : Option Nat) : Outcome α :=
  match p with
  | none => .panic "null pointer"
  | some a =>
    match l.heap[a]? with
    | some ⟨some elem, _⟩ => ok elem
    | _ => .panic "invalid pointer"

/-- `(*a).next.store(next)`. -/
def setNext (l : LfList α) (a : Nat) (next : Option Nat) : LfList α :=
  { l with heap := l.heap.modify a fun node => { node with next := next } }

/-- `Box::new_in(Node::new(elem), ..)`. -/
def boxNode (l : LfList α) (elem : α) : LfList α × Nat :=
  ({ l with heap := l.heap ++ [⟨some elem, none⟩] }, l.heap.length)

/-- `start_read`. -/
def startRead (l : LfList α) : Outcome (Option Nat) := l.next l.head

/-- `first`. -/
def first (l : LfList α) : Outcome α := do
  let p ← l.startRead
  l.elem p

end LfList

/-! ## `channel.rs` -/

/-- A numbered message. -/
structure Entry (T : Type) where
  msg : T
  version : UInt64

/-- `Channel<T>`. Nothing in the source sets `destroy`. -/
structure Channel (T : Type) where
  chan : LfList (Entry T)
  version : UInt64
  destroy : Bool

/-- `Channel::new_in`. -/
def Channel.new {T : Type} : Channel T := ⟨.new, 0, false⟩

/-- Where the sender is in `send` and `push`. -/
inductive SenderPc (T : Type)
  | idle
  | bumped (entry : Entry T)
  | read (entry : Entry T) (node : Nat) (next : Option Nat)
  | stored (entry : Entry T) (node : Nat) (next : Option Nat)
  | panicked (msg : String)

/-- Where the receiver is in `recv_in` and `to_vec_in`. -/
inductive ReceiverPc (T : Type)
  | idle
  | checked (lastSeen : UInt64)
  | walking (lastSeen : UInt64) (cur : Nat) (vec : List (Entry T))
  | collected (lastSeen : UInt64) (history : List (Entry T))
  | panicked (msg : String)

/-- What an onlooker sees. -/
inductive Event (T : Type)
  | sent (msg : T)
  | linked (msg : T)
  | began
  | returned (batch : Option (List T))

/-- The channel, the messages still to be sent, the two threads and the receiver's `last_seen`. -/
structure Sys (T : Type) where
  channel : Channel T
  todo : List T
  sender : SenderPc T
  lastSeen : UInt64
  receiver : ReceiverPc T

namespace Sys

variable {T : Type}

/-- `channel_in` and `WrapperReceiver::new`, and a sender that is going to send `msgs`. -/
def new (msgs : List T) : Sys T := ⟨.new, msgs, .idle, 0, .idle⟩

/-- One step of `send(msg)` for the next message. -/
def senderStep (s : Sys T) : Outcome (Sys T × List (Event T)) :=
  let c := s.channel
  match s.sender with
  | .idle =>
    match s.todo with
    | [] => ok (s, [])
    | msg :: todo =>
      -- `fetch_add` wraps and answers the old value
      ok ({ s with
        channel := { c with version := c.version + 1 }
        todo := todo
        sender := .bumped ⟨msg, c.version + 1⟩ }, [.sent msg])
  | .bumped entry => do
    let (list, node) := c.chan.boxNode entry
    let next ← list.next list.head
    ok ({ s with channel := { c with chan := list }, sender := .read entry node next }, [])
  | .read entry node next =>
    ok ({ s with
      channel := { c with chan := c.chan.setNext node next }
      sender := .stored entry node next }, [])
  | .stored entry node next => do
    let found ← c.chan.next c.chan.head
    if found = next then
      ok ({ s with
        channel := { c with chan := c.chan.setNext c.chan.head (some node) }
        sender := .idle }, [.linked entry.msg])
    else
      .panic "data corrupted"
  | .panicked _ => ok (s, [])

/-- One step of `recv_in`. -/
def receiverStep (s : Sys T) : Outcome (Sys T × List (Event T)) :=
  let list := s.channel.chan
  match s.receiver with
  | .idle =>
    if s.channel.destroy then
      ok (s, [.began, .returned none])
    else
      ok ({ s with receiver := .checked s.lastSeen }, [.began])
  | .checked lastSeen => do
    let entry ← list.first
    if entry.version ≤ lastSeen then
      ok ({ s with receiver := .idle }, [.returned none])
    else
      ok ({ s with receiver := .walking lastSeen list.head [] }, [])
  | .walking lastSeen cur vec => do
    match ← list.next cur with
    | none => ok ({ s with receiver := .collected lastSeen vec }, [])
    | some a =>
      let item ← list.elem (some a)
      ok ({ s with receiver := .walking lastSeen a (vec ++ [item]) }, [])
  | .collected lastSeen history => do
    let newest ← unwrap history.head?
    let vec := (history.filter fun x => lastSeen < x.version).map Entry.msg
    ok ({ s with lastSeen := newest.version, receiver := .idle }, [.returned (some vec)])
  | .panicked _ => ok (s, [])

end Sys

/-- Who moves. -/
inductive Turn
  | sender
  | receiver

/-- Sender and receiver, one step at a time. -/
def machine (T : Type) : Machine (Sys T) Turn (Event T) where
  step s
    | .sender =>
      match s.senderStep with
      | ok r => r
      | .panic msg => ({ s with sender := .panicked msg }, [])
      | timeout => (s, [])
    | .receiver =>
      match s.receiverStep with
      | ok r => r
      | .panic msg => ({ s with receiver := .panicked msg }, [])
      | timeout => (s, [])

/-! ## What a trace says -/

section Trace

variable {T : Type}

/-- The messages whose `send` has begun, in order. -/
def sent (es : List (Event T)) : List T :=
  es.filterMap fun
    | .sent msg => some msg
    | _ => none

/-- The messages that are in the list, in order. -/
def linked (es : List (Event T)) : List T :=
  es.filterMap fun
    | .linked msg => some msg
    | _ => none

/-- The batches the receiver has returned, in order. -/
def batches (es : List (Event T)) : List (List T) :=
  es.filterMap fun
    | .returned batch => batch
    | _ => none

/-- The batches turned round and put together. -/
def delivered (es : List (Event T)) : List T := (batches es).flatMap List.reverse

/-- No `recv_in` begins before a message is linked. -/
def LinkedFirst (es : List (Event T)) : Prop :=
  ∀ pre post, es = pre ++ .began :: post → linked pre ≠ []

end Trace

end Lfchannel
end Allora
