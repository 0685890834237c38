import Allora.Lib.Bytes
import Allora.Lib.Iter

/-!
# The flattened device tree

The boot loader leaves a tree of nodes and properties in memory as one stream of tokens. Nothing
is copied: a node is a pointer to the tokens after its name, and two cursors walk the stream from
there, one over the node's own properties and one over its children. The second has to step over
whole subtrees, which it does by counting begin and end tokens.

Pointers are addresses into byte memory. The loops of the source are on fuel: `scan` for the bytes
of a string, `fuel` for the tokens of the stream.
-/

set_option autoImplicit false

namespace Allora
namespace DeviceTree

open Outcome Bytes

/-! ## Properties -/

/-- A property, its name and its value. -/
structure Property where
  name : List UInt8
  value : List UInt8

/-- `PropIterator`. -/
structure PropIterator where
  structBase : Nat
  stringsBase : Nat

/-- The loop of `PropIterator::next`. -/
def PropIterator.loop (mem : Memory) (scan : Nat) :
    Nat → PropIterator → Outcome (PropIterator × Option Property)
  | 0, _ => timeout
  | fuel + 1, it =>
    let val := be32 mem it.structBase
    let it := { it with structBase := it.structBase + 4 }
    match val with
    | 0x4 => PropIterator.loop mem scan fuel it
    | 0x1 => ok (it, none)
    | 0x2 => ok (it, none)
    | 0x9 => ok (it, none)
    | 0x3 => do
      -- `PropHeader`: the length of the value, and where the name is in the strings block
      let len := be32 mem it.structBase
      let nameoff := be32 mem (it.structBase + 4)
      let valBase := it.structBase + 8
      let stringBase := it.stringsBase + nameoff
      let stringLen ← strlen mem scan stringBase
      ok ({ it with structBase := pad4 (valBase + len) },
        some ⟨slice mem stringBase stringLen, slice mem valBase len⟩)
    | _ => .panic "WTF"

/-- `PropIterator::next`. -/
def PropIterator.next (mem : Memory) (fuel : Nat) (it : PropIterator) :
    Outcome (PropIterator × Option Property) :=
  it.loop mem fuel fuel

/-! ## Nodes -/

/-- `Node`: `base` is past the name. -/
structure Node where
  stringsBase : Nat
  base : Nat
  name : List UInt8
  depth : Nat

/-- `NodeIterator`. -/
structure NodeIterator where
  structBase : Nat
  stringsBase : Nat
  depth : Nat
  searchDepth : Nat

/-- `{:#x}`. -/
def hex (n : Nat) : String := "0x" ++ String.ofList (Nat.toDigits 16 n)

/-- The loop of `NodeIterator::next`. -/
def NodeIterator.loop (mem : Memory) (scan : Nat) :
    Nat → NodeIterator → Outcome (NodeIterator × Option Node)
  | 0, _ => timeout
  | fuel + 1, it =>
    let val := be32 mem it.structBase
    if val = 0x9 then
      ok (it, none)
    else
      let it := { it with structBase := it.structBase + 4 }
      match val with
      | 0x1 => do
        let nameBase := it.structBase
        let nameLen ← strlen mem scan nameBase
        let it := { it with
          -- one past the null byte
          structBase := pad4 (nameBase + nameLen + 1)
          searchDepth := it.searchDepth + 1 }
        if it.searchDepth = 1 then
          ok (it, some ⟨it.stringsBase, it.structBase, slice mem nameBase nameLen, it.depth + 1⟩)
        else
          NodeIterator.loop mem scan fuel it
      | 0x2 =>
        if it.searchDepth = 0 then
          ok (it, none)
        else
          NodeIterator.loop mem scan fuel { it with searchDepth := it.searchDepth - 1 }
      | 0x3 =>
        let len := be32 mem it.structBase
        NodeIterator.loop mem scan fuel { it with structBase := pad4 (it.structBase + 8 + len) }
      | 0x4 => NodeIterator.loop mem scan fuel it
      | e => .panic ("fdt field " ++ hex e ++ " @" ++ hex (it.structBase - 4))

/-- `NodeIterator::next`. -/
def NodeIterator.next (mem : Memory) (fuel : Nat) (it : NodeIterator) :
    Outcome (NodeIterator × Option Node) :=
  it.loop mem fuel fuel

/-- `b'/'`. -/
def SLASH : UInt8 := 0x2f

namespace Node

/-- `Node::props`. -/
def props (node : Node) : PropIterator := ⟨node.base, node.stringsBase⟩

/-- `Node::children`. -/
def children (node : Node) : NodeIterator := ⟨node.base, node.stringsBase, node.depth, 0⟩

variable (mem : Memory) (fuel : Nat)

/-- `Node::prop_by_name`. -/
def propByName (node : Node) (name : List UInt8) : Outcome (Option Property) :=
  Iter.find (PropIterator.next mem fuel) (fun prop => prop.name = name) fuel node.props

/-- `Node::child_by_name`. -/
def childByName (node : Node) (name : List UInt8) : Outcome (Option Node) :=
  Iter.find (NodeIterator.next mem fuel) (fun child => child.name = name) fuel node.children

/-- `Node::children_by_prop`, collected. -/
def childrenByProp (node : Node) (name : List UInt8) (test : Property → Bool) :
    Outcome (List Node) := do
  let children ← Iter.collect (NodeIterator.next mem fuel) fuel node.children
  children.filterM fun child => do
    match ← child.propByName mem fuel name with
    | some prop => ok (test prop)
    | none => ok false

/-- `Node::child_by_path_helper`, with what is left of the path. -/
def childByPathHelper : List (List UInt8) → Node → Outcome (Option Node)
  | [], node => ok ((none : Option Node).or (some node))
  | cur :: path, node => do
    let child ← Iter.find (NodeIterator.next mem fuel) (fun child => child.name = cur) fuel
      node.children
    let found ←
      match child with
      | some next => childByPathHelper path next
      | none => ok none
    ok (found.or (some node))

/-- `Node::child_by_path`. -/
def childByPath (node : Node) (name : List UInt8) : Outcome (Option Node) :=
  let path := name.splitOn SLASH
  if name.head? = some SLASH then
    -- what stands before the leading slash
    childByPathHelper mem fuel path.tail node
  else
    childByPathHelper mem fuel path node

end Node

/-! ## The header -/

/-- `DeviceTree::nodes`: the offsets of the structure block and of the strings block are the third
and the fourth word of the header. -/
def nodes (mem : Memory) (base : Nat) : NodeIterator :=
  ⟨base + be32 mem (base + 8), base + be32 mem (base + 12), 0, 0⟩

/-- `DeviceTree::root`. -/
def root (mem : Memory) (fuel base : Nat) : Outcome (Option Node) := do
  let (_, r) ← (nodes mem base).next mem fuel
  ok r

end DeviceTree
end Allora
