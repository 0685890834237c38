import Allora.Lib.Outcome
import Allora.Mm.Align
import Std.Data.TreeMap

/-!
# `mm/page.rs` and `collections/bitmap.rs` — two stores of free pages

`PageMap` keeps a bit per page, 64 to a word, and `PageSet` an ordered map from the addresses of
its pages to a bit. Both hand out the lowest run of free pages, and take runs back.

Addresses are checked as the kernel's debug build checks them: an address that does not fit 64
bits is a panic. Indices of pages are far below that.
-/

set_option autoImplicit false

namespace Allora

open Outcome

/-! ## `collections/bitmap.rs` -/

/-- `Bitmap`. -/
structure Bitmap where
  bitCount : Nat
  bits : List (BitVec 64)

namespace Bitmap

def ITEM_BITS : Nat := 64

def itemCount (bitCount : Nat) : Nat := (bitCount + (ITEM_BITS - 1)) / ITEM_BITS
def itemIndex (bitIndex : Nat) : Nat := bitIndex / ITEM_BITS
def bitMask (bitIndex : Nat) : BitVec 64 := 1#64 <<< (bitIndex % ITEM_BITS)

def new (bitCount : Nat) : Bitmap := ⟨bitCount, List.replicate (itemCount bitCount) 0⟩

def len (b : Bitmap) : Nat := b.bitCount

def get (b : Bitmap) (bitIndex : Nat) : Outcome Bool :=
  match b.bits[itemIndex bitIndex]? with
  | some item => ok (item &&& bitMask bitIndex != 0)
  | none => .panic "index out of bounds"

/-- `self.bits[item_index(bit_index)] = f(..)`. -/
def modify (b : Bitmap) (bitIndex : Nat) (f : BitVec 64 → BitVec 64) : Outcome Bitmap :=
  match b.bits[itemIndex bitIndex]? with
  | some item => ok { b with bits := b.bits.set (itemIndex bitIndex) (f item) }
  | none => .panic "index out of bounds"

def mark (b : Bitmap) (bitIndex : Nat) : Outcome Bitmap := b.modify bitIndex (· ||| bitMask bitIndex)

def reset (b : Bitmap) (bitIndex : Nat) : Outcome Bitmap :=
  b.modify bitIndex (· &&& ~~~ bitMask bitIndex)

def flip (b : Bitmap) (bitIndex : Nat) : Outcome Bitmap := b.modify bitIndex (· ^^^ bitMask bitIndex)

def set (b : Bitmap) (bitIndex : Nat) (value : Bool) : Outcome Bitmap :=
  if value then b.mark bitIndex else b.reset bitIndex

def boundCheck (b : Bitmap) (start count : Nat) : Outcome Unit := do
  assert (start ≤ b.bitCount) "assertion failed: start <= self.bit_count"
  assert (start + count ≤ b.bitCount) "assertion failed: start + count <= self.bit_count"

def setMultiple (b : Bitmap) (start count : Nat) (value : Bool) : Outcome Bitmap := do
  b.boundCheck start count
  (List.range' start count).foldlM (fun b i => b.set i value) b

def all (b : Bitmap) (start count : Nat) (value : Bool) : Outcome Bool := do
  b.boundCheck start count
  (List.range' start count).allM fun i => do
    let bit ← b.get i
    pure (bit == value)

def isFull (b : Bitmap) (start count : Nat) : Outcome Bool := b.all start count true

def isNone (b : Bitmap) (start count : Nat) : Outcome Bool := b.all start count false

def find (b : Bitmap) (start count : Nat) (value : Bool) : Outcome (Option Nat) := do
  let last ← subChecked count 1
  let stop ← subChecked b.bitCount last
  (List.range' start (stop - start)).findM? fun i => b.all i count value

def findAndFlip (b : Bitmap) (start count : Nat) (value : Bool) :
    Outcome (Bitmap × Option Nat) := do
  match ← b.find start count value with
  | none => pure (b, none)
  | some found => do
    let b ← (List.range' found count).foldlM flip b
    pure (b, some found)

/-- `PartialEq::eq`. -/
def eq (b other : Bitmap) : Outcome Bool :=
  if b.len = other.len then
    (List.range b.len).allM fun i => do
      let x ← b.get i
      let y ← other.get i
      pure (x == y)
  else pure false

/-- `From::from`, of a slice of `bool`s. -/
def fromBools (value : List Bool) : Outcome Bitmap :=
  value.zipIdx.foldlM (fun b e => b.set e.2 e.1) (new value.length)

end Bitmap

/-! ## `mm/page.rs` -/

/-- `Error`. -/
inductive PageError
  | pageNotFound
  | pageExists
  deriving DecidableEq, Repr

def PAGE_IS_FREE : Bool := false
def PAGE_START : Nat := 0

def isAlignedToPage (addr : Nat) : Bool := addr % PAGE_SIZE == 0

def convertPageIndexToAddr (start index : Nat) : Outcome Nat := do
  assert (isAlignedToPage start) "assertion failed: is_aligned_to_page(start)"
  let offset ← mulChecked 64 index PAGE_SIZE
  addChecked 64 start offset

def convertPageAddrToIndex (start addr : Nat) : Outcome Nat := do
  assert (start ≤ addr) "assertion failed: addr >= start"
  assert (isAlignedToPage start) "assertion failed: is_aligned_to_page(start)"
  assert (isAlignedToPage addr) "assertion failed: is_aligned_to_page(addr)"
  pure ((addr - start) / PAGE_SIZE)

/-- `PageMap`. -/
structure PageMap where
  pool : Bitmap
  start : Nat
  size : Nat

namespace PageMap

def new (start size : Nat) : PageMap := ⟨.new (size / PAGE_SIZE), start, size⟩

def getMultiple (m : PageMap) (count : Nat) : Outcome (PageMap × Except PageError Nat) := do
  let (pool, index) ← m.pool.findAndFlip PAGE_START count PAGE_IS_FREE
  match index with
  | none => pure ({ m with pool := pool }, .error .pageNotFound)
  | some index => do
    let addr ← convertPageIndexToAddr m.start index
    pure ({ m with pool := pool }, .ok addr)

def putMultiple (m : PageMap) (start count : Nat) : Outcome (PageMap × Except PageError Unit) := do
  let startIndex ← convertPageAddrToIndex m.start start
  if ← m.pool.isFull startIndex count then do
    let pool ← m.pool.setMultiple startIndex count PAGE_IS_FREE
    pure ({ m with pool := pool }, .ok ())
  else
    pure (m, .error .pageExists)

end PageMap

/-- `page_range!`. -/
def pageRange (start n : Nat) : Outcome (List Nat) := do
  let len ← mulChecked 64 n PAGE_SIZE
  let _ ← addChecked 64 start len
  pure (List.range' start n PAGE_SIZE)

/-- `PageSet`: addresses and dirty bits, in the order of the addresses. -/
structure PageSet where
  map : Std.TreeMap Nat Bool

namespace PageSet

def new : PageSet := ⟨∅⟩

def all (s : PageSet) (start count : Nat) (value : Bool) : Outcome Bool := do
  let pages ← pageRange start count
  pure (pages.all fun p => s.map[p]? == some value)

def any (s : PageSet) (start count : Nat) (value : Bool) : Outcome Bool := do
  let pages ← pageRange start count
  pure (pages.any fun p => s.map[p]? == some value)

/-- `self.0.get_mut(&p).map(|e| *e = !PAGE_IS_FREE).unwrap()`. -/
def take (s : PageSet) (p : Nat) : Outcome PageSet := do
  let _ ← unwrap s.map[p]?
  pure ⟨s.map.insert p (!PAGE_IS_FREE)⟩

def getMultiple (s : PageSet) (count : Nat) : Outcome (PageSet × Except PageError Nat) := do
  match ← s.map.keys.findM? fun p => s.all p count PAGE_IS_FREE with
  | none => pure (s, .error .pageNotFound)
  | some start => do
    let pages ← pageRange start count
    let s ← pages.foldlM take s
    pure (s, .ok start)

/-- `put_mutiple`. -/
def putMutiple (s : PageSet) (start count : Nat) : Outcome (PageSet × Except PageError Unit) := do
  if ← s.any start count PAGE_IS_FREE then
    pure (s, .error .pageExists)
  else do
    let pages ← pageRange start count
    pure (⟨pages.foldl (fun map p => map.insert p PAGE_IS_FREE) s.map⟩, .ok ())

end PageSet
end Allora
