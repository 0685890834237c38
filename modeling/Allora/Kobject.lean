import Allora.Lib.Text
import Allora.Lib.Tiling
import Allora.Mm.ChunkList
import Allora.Mm.PageTree

/-!
# `kobject/`, `container.rs`, `thread.rs` — kernel objects and the pages they live in

A kernel object occupies a run of pages: the first holds its metadata (`KObjectMeta`), the second
starts with the object itself, and the rest of the run is the arena of the object. An object is
named by its first page, so `KObjectPtr` and `KObjectRef` are page numbers here.

The kernel of the model is the memory these functions share. Page nodes, metadata, the slots of
containers and the contents of labels are kept as separate maps, each indexed by page. What keeps
the maps honest is that creating an object *overwrites* the page nodes of the pages it writes to
(`Kernel.dirty`): if one of those pages is still in a free tree, the tree is gone.

Labels belong to the `labeled` crate, which is not part of the repository: `Buckle` is a parameter
with its parser and its order.
-/

set_option autoImplicit false

namespace Allora

open Outcome

/-! ## Sizes -/

/-- `KObjectKind`. -/
inductive KObjectKind
  | none
  | container
  | label
  | thread
  | timeSlices
  deriving DecidableEq, Repr

def INVALID_KOBJ_ID : Nat := 2 ^ 64 - 1
def KOBJ_DESCR_LEN : Nat := 32
def KOBJ_NPAGES : Nat := 2
def STACK_SIZE : Nat := 1 <<< 14
def THREAD_NPAGES : Nat := STACK_SIZE / PAGE_SIZE + 12

/-- The pages the creators of an object take from the container: `create` takes `KOBJ_NPAGES` for a
label and for a container, `spawn_raw` takes `KOBJ_NPAGES` for a label and `THREAD_NPAGES` for a
thread. -/
def reservedPages : KObjectKind → Nat
  | .thread => THREAD_NPAGES
  | _ => KOBJ_NPAGES

/-- The sizes of the three object types, as `size_of` gives them. -/
structure Sizes where
  label : Nat
  container : Nat
  thread : Nat

/-! ## Metadata -/

/-- `KObjectMeta`. The arena is given by the memory region it was made from. -/
structure KObjectMeta where
  parent : Option Nat
  label : Option Nat
  alloc : Block
  kind : KObjectKind
  freePages : PageLink
  descr : List UInt8
  deriving DecidableEq

/-- The region `_kobject_create` hands to `KObjectArena::new`, for an object of `size` bytes. -/
def arenaRegion (kind : KObjectKind) (pageId size : Nat) : Block :=
  if kind = .thread then
    ⟨pa (pageId + 1) + size, THREAD_NPAGES * PAGE_SIZE - size⟩
  else
    ⟨pa (pageId + 1) + size, PAGE_SIZE - size⟩

/-- The description buffer: at most 32 bytes of the text, and zeros. -/
def descrBuf (descr : List UInt8) : List UInt8 :=
  descr.take KOBJ_DESCR_LEN ++ List.replicate (KOBJ_DESCR_LEN - descr.length) 0

/-- `KObjectMeta::descr`: the text in the buffer, without the zeros after it. -/
def KObjectMeta.descrStr (m : KObjectMeta) : Outcome String :=
  match Text.fromUtf8 m.descr with
  | some s => ok (Text.trimEnd s (Char.ofNat 0))
  | none => .panic "called `Result::unwrap()` on an `Err` value: Utf8Error"

/-- `_kobject_create`: the metadata it writes. -/
def kobjectCreate (kind : KObjectKind) (pageId size : Nat) (descr : List UInt8) : KObjectMeta where
  parent := none
  label := none
  alloc := arenaRegion kind pageId size
  kind := kind
  freePages := none
  descr := descrBuf descr

/-! ## The kernel -/

/-- What is read of the `labeled` crate: `Buckle2::parse_in` and `can_flow_to`. -/
structure Labeled (Buckle : Type) where
  parse : String → Option Buckle
  canFlowTo : Buckle → Buckle → Bool

/-- The memory the kernel objects live in, and the current thread. -/
structure Kernel (Buckle : Type) where
  mem : Nat → PageNode
  info : Nat → KObjectMeta
  slots : Nat → List Nat
  inner : Nat → Option Buckle
  current : Option Nat

namespace Kernel

variable {Buckle : Type}

/-- `meta_mut()`: a change of the metadata at a page. -/
def setMeta (k : Kernel Buckle) (page : Nat) (f : KObjectMeta → KObjectMeta) : Kernel Buckle :=
  { k with info := Function.update k.info page (f (k.info page)) }

/-- Memory is written from page `page` up to, and not including, the address `top`: the page nodes
that lie there are overwritten, and read as `bytes` from now on. -/
def dirty (k : Kernel Buckle) (page top : Nat) (bytes : Nat → PageNode) : Kernel Buckle :=
  { k with mem := fun n => if page ≤ n ∧ pa n < top then bytes n else k.mem n }

/-- `ct_ref.meta_mut().free_pages`. -/
def freePages (k : Kernel Buckle) (ct : Nat) : PageTree := ⟨k.mem, (k.info ct).freePages⟩

/-- The tree of `ct` after an operation on it. -/
def setFreePages (k : Kernel Buckle) (ct : Nat) (t : PageTree) : Kernel Buckle :=
  { k with mem := t.mem }.setMeta ct fun m => { m with freePages := t.root }

/-- `ct_ref.meta_mut().free_pages.get_multiple(n).unwrap()`. -/
def takePages (fuel : Nat) (k : Kernel Buckle) (ct n : Nat) : Outcome (Kernel Buckle × Nat) := do
  let (t, r) ← (k.freePages ct).getMultiple fuel n
  let page ← unwrap r
  pure (k.setFreePages ct t, page)

/-! ## Slots -/

/-- `Container::find_slot`. -/
def findSlot (k : Kernel Buckle) (ct ptr : Nat) : Option Nat := (k.slots ct).findIdx? (· == ptr)

/-- `Container::get_slot`; it never fails. -/
def getSlot (k : Kernel Buckle) (ct : Nat) : Kernel Buckle × Nat :=
  match k.findSlot ct INVALID_KOBJ_ID with
  | some pos => (k, pos)
  | none =>
      ({ k with slots := Function.update k.slots ct (k.slots ct ++ [INVALID_KOBJ_ID]) },
        (k.slots ct).length)

/-- `Container::set_slot`: `self.slots[slot_id] = ko_ref`. -/
def setSlot (k : Kernel Buckle) (ct slotId ref : Nat) : Outcome (Kernel Buckle) :=
  if slotId < (k.slots ct).length then
    ok { k with slots := Function.update k.slots ct ((k.slots ct).set slotId ref) }
  else
    panic "index out of bounds"

/-! ## Objects -/

/-- `Label::create`. The label's own allocations lie in its arena, in its second page. -/
def createLabel (lb : Labeled Buckle) (sz : Sizes) (bytes : Nat → PageNode) (k : Kernel Buckle)
    (page : Nat) (input : String) : Outcome (Kernel Buckle) := do
  let k := k.dirty page (pa (page + KOBJ_NPAGES)) bytes
  let k := k.setMeta page fun _ => kobjectCreate .label page sz.label []
  let b ← unwrap (lb.parse input)
  pure { k with inner := Function.update k.inner page (some b) }

/-- `Container::create`. -/
def createContainer (sz : Sizes) (bytes : Nat → PageNode) (k : Kernel Buckle) (page : Nat) :
    Kernel Buckle :=
  let k := k.dirty page (pa (page + KOBJ_NPAGES)) bytes
  let k := k.setMeta page fun _ => kobjectCreate .container page sz.container []
  { k with slots := Function.update k.slots page [] }

/-- The layout of a thread's stack, `[usize; STACK_LEN]`. -/
def stackLayout : Layout := ⟨STACK_SIZE, 8, ⟨3, rfl⟩, by decide⟩

/-- The end of the header of a chunk. -/
def headerEnd : Option Nat → Nat
  | some a => a + CHUNK_SIZE
  | none => 0

/-- The end of what `Thread::create` writes: it fills the arena of the thread with the stack and,
unless it is zero-sized, with the closure; the chunk that remains has its header behind them. -/
def threadTop (fuel : Nat) (page size : Nat) (closure : Layout) : Outcome Nat := do
  let region := arenaRegion .thread page size
  let A := Arena.new (fun _ => .usize 0) region.start region.size
  let (A, stack) ← A.allocate fuel stackLayout
  let _ ← unwrap stack
  if closure.size = 0 then do
    let last ← A.chunks.last fuel none
    pure (headerEnd last)
  else do
    let (A, data) ← A.allocate fuel closure
    let data ← unwrap data
    let last ← A.chunks.last fuel none
    pure (max (data + closure.size) (headerEnd last))

/-- `Thread::create`. -/
def createThread (fuel : Nat) (sz : Sizes) (bytes : Nat → PageNode) (k : Kernel Buckle)
    (page : Nat) (closure : Layout) : Outcome (Kernel Buckle) := do
  let top ← threadTop fuel page sz.thread closure
  let k := k.dirty page top bytes
  pure (k.setMeta page fun _ => kobjectCreate .thread page sz.thread [])

/-! ## `container.rs` and `thread.rs` -/

/-- `thread::current_label`. -/
def currentLabel (k : Kernel Buckle) : Option Nat := k.current.bind fun th => (k.info th).label

/-- The check both creators start with: the label `mine` can flow to that of the container. -/
def checkLabel (lb : Labeled Buckle) (k : Kernel Buckle) (mine ct : Nat) (msg : String) :
    Outcome Unit := do
  let theirs ← unwrap (k.info ct).label
  let mine ← unwrap (k.inner mine)
  let theirs ← unwrap (k.inner theirs)
  assert (lb.canFlowTo mine theirs) msg

section Calls

variable (fuel : Nat) (lb : Labeled Buckle) (sz : Sizes) (bytes : Nat → PageNode)

/-- `container::create`. -/
def create (k : Kernel Buckle) (ct : Nat) (label : String) : Outcome (Kernel Buckle × Nat) := do
  let mine ← unwrap k.currentLabel
  k.checkLabel lb mine ct ("fail to create a container with label <" ++ label.quote ++ ">")
  let (k, lbSlot) := k.getSlot ct
  let (k, lbPage) ← k.takePages fuel ct KOBJ_NPAGES
  let k ← k.createLabel lb sz bytes lbPage label
  let k ← k.setSlot ct lbSlot lbPage
  let (k, newCtSlot) := k.getSlot ct
  let (k, newCtPage) ← k.takePages fuel ct KOBJ_NPAGES
  let k := k.createContainer sz bytes newCtPage
  let k ← k.setSlot ct newCtSlot newCtPage
  let k := k.setMeta newCtPage fun m => { m with label := some lbPage }
  pure (k, newCtPage)

/-- `thread::spawn_raw`. The result is the new thread. -/
def spawnRaw (k : Kernel Buckle) (ct : Nat) (label : String) (closure : Layout) :
    Outcome (Kernel Buckle × Nat) := do
  let curr ← expect "no current thread" k.current
  let mine ← unwrap (k.info curr).label
  k.checkLabel lb mine ct ("fail to create the thread with label <" ++ label.quote ++ ">")
  let (k, lbSlot) := k.getSlot ct
  let (k, lbPage) ← k.takePages fuel ct KOBJ_NPAGES
  let k ← k.createLabel lb sz bytes lbPage label
  let k := k.setMeta lbPage fun m => { m with parent := some ct }
  let k ← k.setSlot ct lbSlot lbPage
  let (k, thSlot) := k.getSlot ct
  let (k, thPage) ← k.takePages fuel ct THREAD_NPAGES
  let k ← k.createThread fuel sz bytes thPage closure
  let k := k.setMeta thPage fun m => { m with parent := some ct, label := some lbPage }
  let k ← k.setSlot ct thSlot thPage
  pure (k, thPage)

/-- `BOTTOM`. -/
def BOTTOM : String := "T,F"

/-- `thread::spawn`: a thread with the bottom label, at the back of the ready list. Before the list
is set up nothing is spawned. -/
def spawn (k : Kernel Buckle) (ready : Option (List Nat)) (ct : Nat) (closure : Layout) :
    Outcome (Kernel Buckle × Option (List Nat)) :=
  match ready with
  | none => ok (k, none)
  | some l => do
    let (k, th) ← spawnRaw fuel lb sz bytes k ct BOTTOM closure
    pure (k, some (l ++ [th]))

/-- `container::move_npages`. -/
def moveNpages (k : Kernel Buckle) (ct₁ ct₂ npages : Nat) : Outcome (Kernel Buckle) := do
  let (k, page) ← k.takePages fuel ct₁ npages
  (List.range' page npages).foldlM
    (fun k p => do
      let t ← (k.freePages ct₂).insert fuel p
      pure (k.setFreePages ct₂ t)) k

/-- `kernel_main`, up to the root container: a tree over 512 pages, a label and a container carved
from it, and the tree moved into the container. The result is the kernel, the container and its
label. -/
def boot (mem : Nat → PageNode) (info : Nat → KObjectMeta) (memStart : Nat) :
    Outcome (Kernel Buckle × Nat × Nat) := do
  let pageTree ← PageTree.new fuel mem memStart (PAGE_SIZE * 512)
  let (pageTree, lbPage) ← pageTree.getMultiple fuel KOBJ_NPAGES
  let lbPage ← unwrap lbPage
  let k : Kernel Buckle := ⟨pageTree.mem, info, fun _ => [], fun _ => none, none⟩
  let k ← k.createLabel lb sz bytes lbPage "T,F"
  let (pageTree, ctPage) ← PageTree.getMultiple fuel ⟨k.mem, pageTree.root⟩ KOBJ_NPAGES
  let ctPage ← unwrap ctPage
  let k := { k with mem := pageTree.mem }.createContainer sz bytes ctPage
  let k := k.setMeta ctPage fun m => { m with freePages := pageTree.root, label := some lbPage }
  let k := k.setMeta lbPage fun m => { m with parent := some ctPage }
  pure (k, ctPage, lbPage)

/-- `kernel_main`, the main thread: as in `spawn_raw`, but with no check, for an empty closure and
without setting parents. -/
def initMain (k : Kernel Buckle) (ct : Nat) : Outcome (Kernel Buckle × Nat) := do
  let (k, lbSlot) := k.getSlot ct
  let (k, lbPage) ← k.takePages fuel ct KOBJ_NPAGES
  let k ← k.createLabel lb sz bytes lbPage "T,F"
  let k ← k.setSlot ct lbSlot lbPage
  let (k, thSlot) := k.getSlot ct
  let (k, thPage) ← k.takePages fuel ct THREAD_NPAGES
  let k ← k.createThread fuel sz bytes thPage ⟨0, 1, ⟨0, rfl⟩, by decide⟩
  let k := k.setMeta thPage fun m => { m with label := some lbPage }
  let k ← { k with current := some thPage }.setSlot ct thSlot thPage
  pure (k, thPage)

end Calls

end Kernel

end Allora
