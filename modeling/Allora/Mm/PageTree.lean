import Allora.Lib.Bounded
import Allora.Lib.ColorTree
import Allora.Lib.Outcome
import Allora.Mm.Align
import Mathlib.Logic.Function.Basic

/-!
# `mm/page_tree.rs` — the page allocator, pointer by pointer

A `PageTree` is a red-black tree of free pages whose nodes are stored *in* the pages: the node of
page `n` is written at address `PAGE_SIZE * n`. The model keeps that: a `PageTree` here is the root
link together with the memory the links point into, and every operation is the sequence of reads
and writes of the source.

* A `NonNull<PageNode>` is only ever `PAGE_SIZE * n`, so it is represented by the page number `n`,
  and `PageLink = Option<NonNull<PageNode>>` by `Option Nat`.
* Memory maps each page number to the node stored at its first byte. A page that holds no node
  still reads as *some* node, as uninitialised memory does.
* The accessors of `IsPageLink` propagate `None` (`None.parent()` is `None`), and
  `if let Some(n) = link.node_mut()` does nothing on `None`; `modify` is that second idiom.

The source writes each loop body of the two fixups twice, once for each side. The two texts are
mirror images, so they are one definition with a side `d` here: `child d` reads `left` or `right`,
and `rotate .left`, `rotate .right` are `left_rotate`, `right_rotate`. The one place where the
mirror is broken (the last rotation of `insert_fixup`, guarded by `if let` on one side and by
`unwrap` on the other) is a `match` on the side.
-/

set_option autoImplicit false

namespace Allora

open Outcome

/-- `PageLink`. -/
abbrev PageLink := Option Nat

/-- `PageNode`. -/
structure PageNode where
  n : Nat
  parent : PageLink
  left : PageLink
  right : PageLink
  color : Color
  deriving DecidableEq, Repr

namespace PageNode

/-- `left` or `right`. -/
def child (nd : PageNode) : Dir → PageLink
  | .left => nd.left
  | .right => nd.right

/-- The node with one of its child links replaced. -/
def setChild (nd : PageNode) (d : Dir) (l : PageLink) : PageNode :=
  match d with
  | .left => { nd with left := l }
  | .right => { nd with right := l }

/-- The node with its parent link replaced. -/
def setParent (nd : PageNode) (p : PageLink) : PageNode := { nd with parent := p }

/-- The node painted. -/
def setColor (nd : PageNode) (c : Color) : PageNode := { nd with color := c }

end PageNode

/-- `PageTree`: the root link, and the memory the links lead into. -/
structure PageTree where
  mem : Nat → PageNode
  root : PageLink

namespace PageTree

/-- `PageTree::empty`. -/
def empty (mem : Nat → PageNode) : PageTree := ⟨mem, none⟩

/-! ## `IsPageLink` -/

/-- `link.node()`. -/
def node (t : PageTree) (l : PageLink) : Option PageNode := l.map t.mem

/-- `link.parent()`. -/
def parent (t : PageTree) (l : PageLink) : PageLink := (t.node l).bind PageNode.parent

/-- `link.left()` and `link.right()`. -/
def child (t : PageTree) (d : Dir) (l : PageLink) : PageLink := (t.node l).bind (·.child d)

/-- `link.left()`. -/
def left (t : PageTree) (l : PageLink) : PageLink := t.child .left l

/-- `link.right()`. -/
def right (t : PageTree) (l : PageLink) : PageLink := t.child .right l

/-- `link.node().map(|n| n.color)`. -/
def color? (t : PageTree) (l : PageLink) : Option Color := (t.node l).map PageNode.color

/-- `if let Some(n) = link.node_mut() { … }`. -/
def modify (t : PageTree) (l : PageLink) (f : PageNode → PageNode) : PageTree :=
  match l with
  | some a => { t with mem := Function.update t.mem a (f (t.mem a)) }
  | none => t

/-- `if let Some(n) = link.node_mut() { n.color = c }`. -/
def setColor (t : PageTree) (l : PageLink) (c : Color) : PageTree :=
  t.modify l (·.setColor c)

/-- `if let Some(n) = link.node_mut() { n.parent = p }`. -/
def setParent (t : PageTree) (l p : PageLink) : PageTree :=
  t.modify l (·.setParent p)

/-- `if let Some(n) = link.node_mut() { n.left = k }`, or `n.right = k`. -/
def setChild (t : PageTree) (d : Dir) (l k : PageLink) : PageTree :=
  t.modify l (·.setChild d k)

/-! ## Rotations and splicing -/

/-- The child link of `a`'s parent that leads to `a` — or the root link — is made to lead to `b`.
The tail that `left_rotate`, `right_rotate` and `transplant` share. -/
def replaceChild (t : PageTree) (a b : PageLink) : PageTree :=
  match t.parent a with
  | some p =>
      if a = t.left (some p) then t.setChild .left (some p) b else t.setChild .right (some p) b
  | none => { t with root := b }

/-- `left_rotate(a)` for `.left`, `right_rotate(a)` for `.right`: the child on the far side is
lifted above `a`. -/
def rotate (d : Dir) (t : PageTree) (a : Nat) : Outcome PageTree := do
  let bPtr := t.child d.flip (some a)
  let b ← unwrap bPtr
  let t := t.setChild d.flip (some a) (t.child d (some b))
  let t := t.setParent (t.child d (some b)) (some a)
  let t := t.setParent (some b) (t.parent (some a))
  let t := t.replaceChild (some a) bPtr
  let t := t.setChild d (some b) (some a)
  pure (t.setParent (some a) bPtr)

/-- `transplant`. -/
def transplant (t : PageTree) (alink blink : PageLink) : PageTree :=
  let t := t.replaceChild alink blink
  t.setParent blink (t.parent alink)

/-! ## Walking -/

/-- `min_link`. -/
def minLink (t : PageTree) : Nat → PageLink → Outcome PageLink
  | 0, _ => timeout
  | fuel + 1, cur => if (t.left cur).isSome then minLink t fuel (t.left cur) else ok cur

/-- The climb of `next_link`: `while cur == cur.parent().right()`. -/
def climb (t : PageTree) : Nat → PageLink → Outcome PageLink
  | 0, _ => timeout
  | fuel + 1, cur =>
      if cur = t.right (t.parent cur) then climb t fuel (t.parent cur) else ok (t.parent cur)

/-- `next_link`. -/
def nextLink (t : PageTree) (fuel : Nat) (start : PageLink) : Outcome PageLink :=
  if (t.right start).isSome then t.minLink fuel (t.right start) else t.climb fuel start

/-- The loop of `is_n_consecutive_link`, at its `i`-th round with `k` rounds to go. -/
def consecutiveFrom (t : PageTree) (fuel : Nat) (start : PageLink) :
    Nat → Nat → PageLink → Outcome Bool
  | _, 0, _ => ok true
  | i, k + 1, cur => do
      let next ← t.nextLink fuel cur
      if (t.node next).map PageNode.n = (t.node start).map fun nd => nd.n + i then
        consecutiveFrom t fuel start (i + 1) k next
      else
        ok false

/-- `is_n_consecutive_link`: rounds `1..npages`. -/
def isNConsecutiveLink (t : PageTree) (fuel : Nat) (start : PageLink) (npages : Nat) :
    Outcome Bool :=
  t.consecutiveFrom fuel start 1 (npages - 1) start

/-! ## Insertion -/

/-- The descent of `insert`, on the pair `(curr, prev)`; the result is the last `prev`. -/
def insertDescend (t : PageTree) (n : Nat) : Nat → PageLink → PageLink → Outcome PageLink
  | 0, _, _ => timeout
  | fuel + 1, curr, prev =>
      match t.node curr with
      | some current =>
          insertDescend t n fuel (if n < current.n then current.left else current.right) curr
      | none => ok prev

/-- The end of a round of `insert_fixup`: repaint the parent and the grandparent, and rotate the
latter. -/
def insertFixupRotate (d : Dir) (t : PageTree) (clink : PageLink) :
    Outcome (PageTree × PageLink) :=
  let t := t.setColor (t.parent clink) .black
  let t := t.setColor (t.parent (t.parent clink)) .red
  match d, t.parent (t.parent clink) with
  | .left, none => pure (t, clink)
  | .left, some g => do
      let t ← t.rotate .right g
      pure (t, clink)
  | .right, g? => do
      let g ← unwrap g?
      let t ← t.rotate .left g
      pure (t, clink)

/-- One round of `insert_fixup`, where `clink`'s parent is the child on side `d` of its own
parent. -/
def insertFixupBody (d : Dir) (t : PageTree) (clink : PageLink) :
    Outcome (PageTree × PageLink) := do
  let blink := t.child d.flip (t.parent (t.parent clink))
  if t.color? blink = some .red then
    let t := t.setColor (t.parent clink) .black
    let t := t.setColor blink .black
    let t := t.setColor (t.parent (t.parent clink)) .red
    pure (t, t.parent (t.parent clink))
  else if clink = t.child d.flip (t.parent clink) then
    let clink := t.parent clink
    let c ← unwrap clink
    let t ← t.rotate d c
    insertFixupRotate d t clink
  else
    insertFixupRotate d t clink

/-- `insert_fixup`. -/
def insertFixup : Nat → PageTree → PageLink → Outcome PageTree
  | 0, _, _ => timeout
  | fuel + 1, t, clink =>
      if t.color? (t.parent clink) = some .red then do
        let d := if t.parent clink = t.left (t.parent (t.parent clink)) then .left else .right
        let (t, clink) ← insertFixupBody d t clink
        insertFixup fuel t clink
      else do
        let r ← unwrap t.root
        pure (t.setColor (some r) .black)

/-- The middle of `insert`: the new node is written to its page and linked below `parent`. -/
def writeLeaf (t : PageTree) (n : Nat) (parent : PageLink) : PageTree :=
  let t := { t with mem := Function.update t.mem n ⟨n, parent, none, none, .red⟩ }
  match parent with
  | some p =>
      if n < (t.mem p).n then t.setChild .left (some p) (some n)
      else t.setChild .right (some p) (some n)
  | none => { t with root := some n }

/-- `insert`. -/
def insert (fuel : Nat) (t : PageTree) (n : Nat) : Outcome PageTree := do
  let parent ← t.insertDescend n fuel t.root none
  insertFixup fuel (t.writeLeaf n parent) (some n)

/-! ## Deletion -/

/-- The start of a round of `delete_fixup`: the sibling of `alink`, after a rotation that lifts it
if it is red. -/
def deleteFixupSibling (d : Dir) (t : PageTree) (alink : PageLink) :
    Outcome (PageTree × PageLink) := do
  let blink := t.child d.flip (t.parent alink)
  if t.color? blink = some .red then
    let t := t.setColor blink .black
    let t := t.setColor (t.parent alink) .red
    let p ← unwrap (t.parent alink)
    let t ← t.rotate d p
    pure (t, t.child d.flip (t.parent alink))
  else
    pure (t, blink)

/-- The end of a round of `delete_fixup`: repaint and rotate the parent; the loop is over. -/
def deleteFixupRotate (d : Dir) (t : PageTree) (alink blink : PageLink) :
    Outcome (PageTree × PageLink) := do
  let t ←
    match blink with
    | some b => do
        let c ← unwrap (t.color? (t.parent alink))
        pure (t.setColor (some b) c)
    | none => pure t
  let t := t.setColor (t.parent alink) .black
  let t := t.setColor (t.child d.flip blink) .black
  let p ← unwrap (t.parent alink)
  let t ← t.rotate d p
  pure (t, t.root)

/-- The branch of `delete_fixup` where the sibling `blink` has a red child. -/
def deleteFixupRed (d : Dir) (t : PageTree) (alink blink : PageLink) :
    Outcome (PageTree × PageLink) := do
  let far ← unwrap (t.color? (t.child d.flip blink))
  if far = .black then
    let t := t.setColor (t.child d blink) .black
    let t := t.setColor blink .red
    let b ← unwrap blink
    let t ← t.rotate d.flip b
    deleteFixupRotate d t alink (t.child d.flip (t.parent alink))
  else
    deleteFixupRotate d t alink blink

/-- A round of `delete_fixup` once the sibling `blink` is known. The source tests
`blink.left().node().unwrap().color == Black && blink.right().node().unwrap().color == Black`
(mirrored on the other side), so the second child is only unwrapped after a black first one. -/
def deleteFixupRest (d : Dir) (t : PageTree) (alink blink : PageLink) :
    Outcome (PageTree × PageLink) := do
  let near ← unwrap (t.color? (t.child d blink))
  if near = .black then
    let far ← unwrap (t.color? (t.child d.flip blink))
    if far = .black then
      let t := t.setColor blink .red
      pure (t, t.parent alink)
    else
      deleteFixupRed d t alink blink
  else
    deleteFixupRed d t alink blink

/-- One round of `delete_fixup`, where `alink` is the child on side `d` of its parent. -/
def deleteFixupBody (d : Dir) (t : PageTree) (alink : PageLink) :
    Outcome (PageTree × PageLink) := do
  let (t, blink) ← deleteFixupSibling d t alink
  deleteFixupRest d t alink blink

/-- `delete_fixup`. -/
def deleteFixup : Nat → PageTree → PageLink → Outcome PageTree
  | 0, _, _ => timeout
  | fuel + 1, t, alink =>
      if alink ≠ t.root ∧ t.color? alink = some .black then do
        let d := if alink = t.left (t.parent alink) then .left else .right
        let (t, alink) ← deleteFixupBody d t alink
        deleteFixup fuel t alink
      else
        pure (t.setColor alink .black)

/-- `NonNull::new((PAGE_SIZE * n) as *mut PageNode)`: page zero is the null pointer. -/
def pagePtr (n : Nat) : PageLink := if n = 0 then none else some n

/-- In the last branch of `delete`, the successor `blink` of `clink` is taken out of `clink`'s
right subtree and put above what is left of it. -/
def detachSuccessor (t : PageTree) (clink blink : PageLink) : PageTree :=
  if blink ≠ t.right clink then
    let t := t.transplant blink (t.right blink)
    let t := t.setChild .right blink (t.right clink)
    t.setParent (t.right blink) blink
  else
    t.setParent (t.right blink) blink

/-- The end of that branch: `blink` takes the place, the left subtree and the colour of `clink`. -/
def takePlace (t : PageTree) (clink blink : PageLink) : Outcome PageTree := do
  let t := t.transplant clink blink
  let t ←
    match blink with
    | some b => do
        let t := t.setChild .left (some b) (t.left clink)
        let c ← unwrap (t.color? clink)
        pure (t.setColor (some b) c)
    | none => pure t
  pure (t.setParent (t.left blink) blink)

/-- The last branch of `delete`: `clink` has two children. The result is the tree, the link handed
to the fixup and the colour that was taken out. -/
def deleteSplice (fuel : Nat) (t : PageTree) (clink : PageLink) (bcolor : Color) :
    Outcome (PageTree × PageLink × Color) := do
  let blink ← t.minLink fuel (t.right clink)
  let bcolor := (t.color? blink).getD bcolor
  let alink := t.right blink
  let t ← (t.detachSuccessor clink blink).takePlace clink blink
  pure (t, alink, bcolor)

/-- `delete`. -/
def delete (fuel : Nat) (t : PageTree) (n : Nat) : Outcome PageTree := do
  let clink := pagePtr n
  let bcolor := (t.color? clink).getD .red
  let (t, alink, bcolor) ←
    if (t.left clink).isNone then
      pure (t.transplant clink (t.right clink), t.right clink, bcolor)
    else if (t.right clink).isNone then
      pure (t.transplant clink (t.left clink), t.left clink, bcolor)
    else
      t.deleteSplice fuel clink bcolor
  if bcolor = .black then deleteFixup fuel t alink else pure t

/-! ## The public operations -/

/-- The search of `get_multiple`: the first node, in order, that starts a run. -/
def findRun (t : PageTree) (fuel npages : Nat) : Nat → PageLink → Outcome PageLink
  | 0, _ => timeout
  | k + 1, cur =>
      if cur.isSome then do
        let found ← t.isNConsecutiveLink fuel cur npages
        if found then
          ok cur
        else do
          let next ← t.nextLink fuel cur
          findRun t fuel npages k next
      else
        ok cur

/-- `get_multiple`. -/
def getMultiple (fuel : Nat) (t : PageTree) (npages : Nat) :
    Outcome (PageTree × Option Nat) := do
  let first ← t.minLink fuel t.root
  let cur ← t.findRun fuel npages fuel first
  match (t.node cur).map PageNode.n with
  | some start => do
      let t ← (List.range' start npages).foldlM (delete fuel) t
      pure (t, some start)
  | none => pure (t, none)

/-- `init`. -/
def init (fuel : Nat) (t : PageTree) (start size : Nat) : Outcome PageTree :=
  let base := pageAlignUp start / PAGE_SIZE
  let npages := pageAlignDown size / PAGE_SIZE
  (List.range' base npages).foldlM (insert fuel) t

/-- `PageTree::new`. -/
def new (fuel : Nat) (mem : Nat → PageNode) (start size : Nat) : Outcome PageTree :=
  init fuel (empty mem) start size

/-! ## `traverse` -/

/-- The capacity of the stack, of the list of items and of the map of visited nodes. -/
def TRAVERSE_LEN : Nat := 1024

/-- `unwrap` of what a full container answers with. -/
def expectRoom {α : Type} (o : Option α) : Outcome α :=
  expect "called `Result::unwrap()` on an `Err` value" o

/-- The loop of `traverse`. -/
def traverseLoop (t : PageTree) : Nat → Bounded PageLink TRAVERSE_LEN → Bounded Nat TRAVERSE_LEN →
    Bounded (PageLink × Unit) TRAVERSE_LEN → Outcome (Bounded Nat TRAVERSE_LEN)
  | 0, _, _, _ => timeout
  | fuel + 1, stack, items, visited =>
      match stack.pop with
      | none => ok items
      | some (link, stack) =>
          if (t.left link).isSome ∧ ¬ visited.containsKey (t.left link) then do
            let stack ← expectRoom (stack.push link)
            let stack ← expectRoom (stack.push (t.left link))
            traverseLoop t fuel stack items visited
          else if (t.left link).isNone ∨ visited.containsKey (t.left link) then do
            let nd ← unwrap (t.node link)
            let items ← expectRoom (items.push nd.n)
            let visited ← expectRoom (visited.insert link ())
            let stack ←
              if (t.right link).isSome then expectRoom (stack.push (t.right link)) else pure stack
            traverseLoop t fuel stack items visited
          else
            traverseLoop t fuel stack items visited

/-- `traverse`. -/
def traverse (fuel : Nat) (t : PageTree) : Outcome (Bounded Nat TRAVERSE_LEN) := do
  let stack ← if t.root.isSome then expectRoom (Bounded.empty.push t.root) else pure Bounded.empty
  t.traverseLoop fuel stack .empty .empty

end PageTree

end Allora
