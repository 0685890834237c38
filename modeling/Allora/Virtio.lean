import Allora.Lib.Outcome
import Allora.Lib.Trace
import Mathlib.Logic.Function.Basic

/-!
# `virtio.rs` and the drivers over it

Driver and device share a queue: a table of descriptors, a ring of chains that the driver makes
available, and a counter of those that the device has used. Both counters are 16 bits wide, run
freely and wrap; the rings have 128 entries.

Each of the three drivers uses descriptors 0, 1, … for its one request, puts the head of the chain
into the ring, moves `available.idx` and waits until `used.idx` has caught up. The network driver
reduces the index modulo the ring and adds with `wrapping_add`; the disk and entropy drivers do
neither.

For the network driver both parties are here, one memory access at a time. Interrupts only wake the
waiting loop, and are left out.
-/

set_option autoImplicit false

namespace Allora

open Outcome

namespace Virtio

/-! ## The queue -/

/-- `VirtQDesc`. -/
structure VirtQDesc where
  addr : BitVec 64
  len : BitVec 32
  flags : BitVec 16
  next : BitVec 16
  deriving DecidableEq

/-- `ring.len()` and `descriptors.len()`. -/
def QUEUE_LEN : Nat := 128

/-- `Queue<128>`: the descriptors, `available` with its ring, and `used.idx`. -/
structure Queue where
  descriptors : Nat → VirtQDesc
  availIdx : BitVec 16
  ring : Nat → BitVec 16
  usedIdx : BitVec 16

namespace Queue

/-- `Queue::new`. -/
def new : Queue := ⟨fun _ => ⟨0, 0, 0, 0⟩, 0, fun _ => 0, 0⟩

/-- `descriptors[i] = desc`. -/
def setDesc (q : Queue) (i : Nat) (desc : VirtQDesc) : Queue :=
  { q with descriptors := Function.update q.descriptors i desc }

/-- `available.ring[i] = head`. -/
def setRing (q : Queue) (i : Nat) (head : BitVec 16) : Queue :=
  { q with ring := Function.update q.ring i head }

end Queue

/-! ## `virtio/net.rs`, the driver -/

/-- The two queues of the network device. -/
inductive Qnum
  | read
  | write
  deriving DecidableEq

/-- `size_of::<NetHdr>()`. -/
def NET_HDR_SIZE : BitVec 32 := 10

/-- `data.len()`. -/
def FRAME_LEN : BitVec 32 := 1526

/-- A call of `VirtIONet::read` or `VirtIONet::write`, with the addresses of its header and of its
data. -/
structure NetCall where
  qnum : Qnum
  hdr : BitVec 64
  data : BitVec 64
  deriving DecidableEq

namespace NetCall

/-- The header's descriptor. Flag 1 is `NEXT` and flag 2 is `WRITE`. -/
def desc0 (c : NetCall) : VirtQDesc where
  addr := c.hdr
  len := NET_HDR_SIZE
  flags := match c.qnum with
    | .read => 3
    | .write => 1
  next := 1

/-- The data's descriptor. -/
def desc1 (c : NetCall) : VirtQDesc where
  addr := c.data
  len := FRAME_LEN
  flags := match c.qnum with
    | .read => 2
    | .write => 0
  next := 0

/-- The chain a call sets up. -/
def chain (c : NetCall) : List VirtQDesc := [c.desc0, c.desc1]

end NetCall

/-- Where the driver is in a call. -/
inductive Pc
  | idle
  | desc0 (c : NetCall)
  | desc1 (c : NetCall)
  | ring (c : NetCall)
  | idx (c : NetCall)
  | notify (c : NetCall)
  | wait (c : NetCall)
  | compare (c : NetCall) (used : BitVec 16)
  deriving DecidableEq

/-- The call in progress. -/
def Pc.call : Pc → Option NetCall
  | .idle => none
  | .desc0 c | .desc1 c | .ring c | .idx c | .notify c | .wait c | .compare c _ => some c

/-! ## The device -/

/-- A chain that the device has taken: what it has read of it, and the next descriptor. -/
structure Task where
  got : List VirtQDesc
  next : Option (BitVec 16)
  deriving DecidableEq

/-- The device's own view of a queue: how far it has come in the ring, and the chain it is at. -/
structure Device where
  lastAvail : BitVec 16
  task : Option Task

/-- What an onlooker sees. -/
inductive NetEvent
  | began (c : NetCall)
  | used (qnum : Qnum) (chain : List VirtQDesc)
  | returned (c : NetCall)

/-- The queues, the device at each, the driver, and the calls still to be made. -/
structure Net where
  queues : Qnum → Queue
  devices : Qnum → Device
  pc : Pc
  calls : List NetCall

namespace Net

/-- Nothing has happened yet. -/
def start (calls : List NetCall) : Net := ⟨fun _ => .new, fun _ => ⟨0, none⟩, .idle, calls⟩

/-- The driver writes to a queue and goes on. -/
def write (s : Net) (qnum : Qnum) (q : Queue) (pc : Pc) : Net :=
  { s with queues := Function.update s.queues qnum q, pc := pc }

/-- One step of `read` or `write`, with `enqueue`. -/
def driverStep (s : Net) : Net × List NetEvent :=
  match s.pc with
  | .idle =>
    match s.calls with
    | [] => (s, [])
    | c :: calls => ({ s with pc := .desc0 c, calls := calls }, [.began c])
  | .desc0 c => (s.write c.qnum ((s.queues c.qnum).setDesc 0 c.desc0) (.desc1 c), [])
  | .desc1 c => (s.write c.qnum ((s.queues c.qnum).setDesc 1 c.desc1) (.ring c), [])
  | .ring c =>
    let q := s.queues c.qnum
    (s.write c.qnum (q.setRing (q.availIdx.toNat % QUEUE_LEN) 0) (.idx c), [])
  | .idx c =>
    let q := s.queues c.qnum
    (s.write c.qnum { q with availIdx := q.availIdx + 1 } (.notify c), [])
  | .notify c => ({ s with pc := .wait c }, [])
  | .wait c => ({ s with pc := .compare c (s.queues c.qnum).usedIdx }, [])
  | .compare c used =>
    if used ≠ (s.queues c.qnum).availIdx then
      ({ s with pc := .wait c }, [])
    else
      ({ s with pc := .idle }, [.returned c])

/-- The device moves on at a queue. -/
def setDevice (s : Net) (qnum : Qnum) (d : Device) : Net :=
  { s with devices := Function.update s.devices qnum d }

/-- One step of the device at a queue: it takes the next entry of the ring if there is one, reads a
descriptor of the chain it has taken, or counts the chain as used. -/
def deviceStep (s : Net) (qnum : Qnum) : Net × List NetEvent :=
  let q := s.queues qnum
  let d := s.devices qnum
  match d.task with
  | none =>
    if d.lastAvail = q.availIdx then
      (s, [])
    else
      let head := q.ring (d.lastAvail.toNat % QUEUE_LEN)
      (s.setDevice qnum ⟨d.lastAvail + 1, some ⟨[], some head⟩⟩, [])
  | some ⟨got, some i⟩ =>
    let desc := q.descriptors i.toNat
    let next := if desc.flags.getLsbD 0 then some desc.next else none
    (s.setDevice qnum { d with task := some ⟨got ++ [desc], next⟩ }, [])
  | some ⟨got, none⟩ =>
    ({ s.setDevice qnum { d with task := none } with
      queues := Function.update s.queues qnum { q with usedIdx := q.usedIdx + 1 } },
      [.used qnum got])

end Net

/-- Who moves. -/
inductive Turn
  | driver
  | device (qnum : Qnum)

/-- Driver and device, one step at a time. -/
def netMachine : Machine Net Turn NetEvent where
  step s
    | .driver => s.driverStep
    | .device qnum => s.deviceStep qnum

/-! ## What a trace says -/

/-- The calls that have begun, in order. -/
def begun (es : List NetEvent) : List NetCall :=
  es.filterMap fun
    | .began c => some c
    | _ => none

/-- The calls that have returned, in order. -/
def returned (es : List NetEvent) : List NetCall :=
  es.filterMap fun
    | .returned c => some c
    | _ => none

/-- The chains that the device has used at a queue, in order. -/
def usedChains (qnum : Qnum) (es : List NetEvent) : List (List VirtQDesc) :=
  es.filterMap fun
    | .used qnum' chain => if qnum' = qnum then some chain else none
    | _ => none

/-- The chains of those calls that are for a queue. -/
def chainsOf (qnum : Qnum) (calls : List NetCall) : List (List VirtQDesc) :=
  (calls.filter fun c => c.qnum = qnum).map NetCall.chain

/-! ## `virtio/blk.rs` and `virtio/entropy.rs` -/

/-- `size_of::<BlkReqHdr>()`. -/
def BLK_REQ_HDR_SIZE : BitVec 32 := 16

/-- A call of `VirtIOBlk::read`, `VirtIOBlk::write` or `VirtIOEntropy::read`, with the addresses it
puts into descriptors. -/
inductive Request
  | blkRead (hdr data status : BitVec 64)
  | blkWrite (hdr data status : BitVec 64)
  | entropyRead (data : BitVec 64) (len : BitVec 32)

/-- The descriptors of a request, from 0 on. -/
def Request.descs : Request → List VirtQDesc
  | .blkRead hdr data status =>
    [⟨hdr, BLK_REQ_HDR_SIZE, 1, 1⟩, ⟨data, 512, 3, 2⟩, ⟨status, 1, 2, 0⟩]
  | .blkWrite hdr data status =>
    [⟨hdr, BLK_REQ_HDR_SIZE, 1, 1⟩, ⟨data, 512, 1, 2⟩, ⟨status, 1, 2, 0⟩]
  | .entropyRead data len => [⟨data, len, 2, 0⟩]

namespace Queue

/-- `self.queue.descriptors[i] = ..` for each of them. -/
def setDescs (q : Queue) (descs : List VirtQDesc) : Queue :=
  descs.zipIdx.foldl (fun q d => q.setDesc d.2 d.1) q

/-- `available.ring[available.idx as usize] = 0`. -/
def pushHead (q : Queue) : Outcome Queue :=
  if q.availIdx.toNat < QUEUE_LEN then
    ok (q.setRing q.availIdx.toNat 0)
  else
    .panic "index out of bounds"

/-- `available.idx + 1`, checked. -/
def bumpIdx (q : Queue) : Outcome Queue :=
  if q.availIdx.toNat + 1 < 2 ^ 16 then
    ok { q with availIdx := q.availIdx + 1 }
  else
    .panic "attempt to add with overflow"

/-- The three drivers up to the waiting loop. -/
def submit (q : Queue) (r : Request) : Outcome Queue := do
  let q ← (q.setDescs r.descs).pushHead
  q.bumpIdx

end Queue

/-- `size_of::<VirtQUsed>()`: two `u16`s, 128 elements of two `u16`s each, one `u16`, and two bytes
for the alignment to 4. -/
def USED_SIZE : Nat := 2 + 2 + QUEUE_LEN * (2 + 2) + 2 + 2

/-- The bytes of `VirtQUsed` that a device writes when it has used a chain: an element of 8 bytes,
behind `flags` and `idx`. -/
def usedElement (usedIdx : BitVec 16) : Nat × Nat := (4 + 8 * (usedIdx.toNat % QUEUE_LEN), 8)

/-- The device completes the one request there is. -/
def Queue.complete (q : Queue) : Queue := { q with usedIdx := q.usedIdx + 1 }

/-- A request from beginning to end: the waiting loop ends when the device has completed it. -/
def Queue.request (q : Queue) (r : Request) : Outcome Queue := do
  let q ← q.submit r
  pure q.complete

end Virtio
end Allora
