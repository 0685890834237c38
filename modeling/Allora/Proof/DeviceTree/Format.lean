import Allora.DeviceTree
import Mathlib.Algebra.Order.BigOperators.Group.List
import Mathlib.Algebra.Order.Ring.Nat

/-!
# Trees as tokens

The format that the cursors read. A tree is a begin token with the name, the properties, the
children, and an end token; any number of no-op tokens may stand before each of these. Names of
properties are in a block of their own, and several properties may share one, or the end of one.

`Nodes` is a list of siblings with everything below them, so that one induction goes through
both the children of a node and the nodes after it.
-/

set_option autoImplicit false

namespace Allora
namespace DeviceTree

open Bytes

/-! ## Encoding -/

/-- `k` no-op tokens. -/
def nops (k : Nat) : List UInt8 := (List.replicate k (word 0x4)).flatten

/-- A property, with the no-ops before it and the place of its name. -/
structure PropToken where
  nops : Nat
  nameoff : Nat
  prop : Property

/-- Sibling nodes, with the no-ops before each begin and end token. -/
inductive Nodes
  | nil
  | cons (before : Nat) (name : List UInt8) (props : List PropToken) (kids : Nodes)
      (beforeEnd : Nat) (rest : Nodes)

/-- A property token. -/
def PropToken.encode (p : PropToken) : List UInt8 :=
  DeviceTree.nops p.nops ++ (word 0x3 ++ (word p.prop.value.length ++ (word p.nameoff ++
    (p.prop.value ++ padding p.prop.value.length))))

/-- The properties of a node. -/
def encodeProps (ps : List PropToken) : List UInt8 := ps.flatMap PropToken.encode

/-- A begin token. -/
def encodeBegin (name : List UInt8) : List UInt8 :=
  word 0x1 ++ (name ++ [0] ++ padding (name.length + 1))

/-- Nodes with everything below them. -/
def Nodes.encode : Nodes → List UInt8
  | .nil => []
  | .cons before name props kids beforeEnd rest =>
    nops before ++ (encodeBegin name ++
      ((encodeProps props ++ (kids.encode ++ (nops beforeEnd ++ word 0x2))) ++ rest.encode))

/-- What follows the begin token of a node, up to its end token. -/
def encodeBody (props : List PropToken) (kids : Nodes) (beforeEnd : Nat) : List UInt8 :=
  encodeProps props ++ (kids.encode ++ (nops beforeEnd ++ word 0x2))

/-! ## Well-formed trees -/

/-- The lengths fit their fields, and the name is in the strings block at `strings`. -/
structure PropToken.Ok (mem : Memory) (strings : Nat) (p : PropToken) : Prop where
  value_lt : p.prop.value.length < 2 ^ 32
  nameoff_lt : p.nameoff < 2 ^ 32
  name_ne : ∀ b ∈ p.prop.name, b ≠ 0
  name_at : At mem (strings + p.nameoff) (p.prop.name ++ [0])

/-- Every property is well formed, and no name of a node holds a NUL. -/
def Nodes.Ok (mem : Memory) (strings : Nat) : Nodes → Prop
  | .nil => True
  | .cons _ name props kids _ rest =>
    (∀ b ∈ name, b ≠ 0) ∧ (∀ p ∈ props, p.Ok mem strings) ∧ kids.Ok mem strings ∧
      rest.Ok mem strings

/-- **A flattened device tree at `base`**: aligned, with one root node, and the end token. -/
structure WellFormed (mem : Memory) (base structOff stringsOff : Nat) (tree : Nodes)
    (beforeEnd : Nat) : Prop where
  base_aligned : 4 ∣ base
  struct_aligned : 4 ∣ structOff
  struct_lt : structOff < 2 ^ 32
  strings_lt : stringsOff < 2 ^ 32
  struct_at : At mem (base + 8) (word structOff)
  strings_at : At mem (base + 12) (word stringsOff)
  one_root : ∃ before name props kids e, tree = .cons before name props kids e .nil
  ok : tree.Ok mem (base + stringsOff)
  tokens : At mem (base + structOff) (tree.encode ++ (nops beforeEnd ++ word 0x9))

/-! ## Sizes -/

@[simp] theorem length_nops (k : Nat) : (nops k).length = 4 * k := by
  simp [nops, List.map_replicate, Nat.mul_comm]

theorem nops_succ (k : Nat) : nops (k + 1) = word 0x4 ++ nops k := by
  simp [nops, List.replicate_succ]

theorem dvd_encodeBegin (name : List UInt8) : 4 ∣ (encodeBegin name).length := by
  have h := dvd_padded (name.length + 1)
  simp only [encodeBegin, List.length_append, length_word, List.length_singleton]
  omega

theorem PropToken.dvd_encode (p : PropToken) : 4 ∣ p.encode.length := by
  have h := dvd_padded p.prop.value.length
  simp only [PropToken.encode, List.length_append, length_word, length_nops]
  omega

theorem dvd_encodeProps (ps : List PropToken) : 4 ∣ (encodeProps ps).length := by
  induction ps with
  | nil => simp [encodeProps]
  | cons p ps ih =>
    rw [encodeProps, List.flatMap_cons, List.length_append]
    exact Nat.dvd_add p.dvd_encode ih

theorem Nodes.dvd_encode (ns : Nodes) : 4 ∣ ns.encode.length := by
  induction ns with
  | nil => simp [Nodes.encode]
  | cons before name props kids beforeEnd rest ihk ihr =>
    have h1 := dvd_encodeBegin name
    have h2 := dvd_encodeProps props
    simp only [Nodes.encode, List.length_append, length_word, length_nops]
    omega

theorem dvd_encodeBody (props : List PropToken) (kids : Nodes) (beforeEnd : Nat) :
    4 ∣ (encodeBody props kids beforeEnd).length := by
  have h1 := dvd_encodeProps props
  have h2 := kids.dvd_encode
  simp only [encodeBody, List.length_append, length_word, length_nops]
  omega

/-- The tokens of the properties. -/
def propSteps (ps : List PropToken) : Nat := (ps.map fun p => p.nops + 1).sum

/-- The tokens of the nodes, which are the rounds of the loop that steps over them. -/
def Nodes.steps : Nodes → Nat
  | .nil => 0
  | .cons before _ props kids beforeEnd rest =>
    before + 1 + propSteps props + kids.steps + beforeEnd + 1 + rest.steps

/-- How many siblings there are. -/
def Nodes.count : Nodes → Nat
  | .nil => 0
  | .cons _ _ _ _ _ rest => rest.count + 1

/-- Fuel that is enough: longer than every name, and than the tokens below every node. -/
def Nodes.Fits (n : Nat) : Nodes → Prop
  | .nil => True
  | .cons _ name props kids beforeEnd rest =>
    name.length < n ∧ (∀ p ∈ props, p.prop.name.length < n) ∧
      propSteps props + kids.steps + beforeEnd + 1 ≤ n ∧ kids.Fits n ∧ rest.Fits n

theorem Nodes.exists_fits (ns : Nodes) : ∃ m, ∀ n, m ≤ n → ns.Fits n := by
  induction ns with
  | nil => exact ⟨0, fun _ _ => trivial⟩
  | cons before name props kids beforeEnd rest ihk ihr =>
    obtain ⟨m₁, h₁⟩ := ihk
    obtain ⟨m₂, h₂⟩ := ihr
    have hprops : ∀ p ∈ props, p.prop.name.length ≤ (props.map fun p => p.prop.name.length).sum :=
      fun p hp => List.le_sum_of_mem (List.mem_map_of_mem hp)
    refine ⟨name.length + 1 + (props.map fun p => p.prop.name.length).sum +
      (propSteps props + kids.steps + beforeEnd + 1) + m₁ + m₂, fun n hn => ?_⟩
    refine ⟨by omega, fun p hp => ?_, by omega, h₁ n (by omega), h₂ n (by omega)⟩
    have := hprops p hp
    omega

/-- The encoding of a node, taken apart. -/
theorem Nodes.at_cons {mem : Memory} {p before beforeEnd : Nat} {name : List UInt8}
    {props : List PropToken} {kids rest : Nodes}
    (h : At mem p (Nodes.cons before name props kids beforeEnd rest).encode) :
    ∃ base p', base = p + (nops before).length + (encodeBegin name).length ∧
      p' = base + (encodeBody props kids beforeEnd).length ∧
      p' + rest.encode.length = p + (Nodes.cons before name props kids beforeEnd rest).encode.length ∧
      At mem p (nops before) ∧ At mem (p + (nops before).length) (encodeBegin name) ∧
      At mem base (encodeBody props kids beforeEnd) ∧ At mem p' rest.encode := by
  rw [Nodes.encode, at_append, at_append, at_append] at h
  obtain ⟨h₁, h₂, h₃, h₄⟩ := h
  refine ⟨_, _, rfl, rfl, ?_, h₁, h₂, h₃, h₄⟩
  simp only [Nodes.encode, encodeBody, List.length_append]
  omega

theorem count_le_steps (ns : Nodes) : ns.count ≤ ns.steps := by
  induction ns with
  | nil => exact Nat.le_refl _
  | cons before name props kids beforeEnd rest ihk ihr =>
    simp only [Nodes.count, Nodes.steps]
    omega

theorem length_le_propSteps (ps : List PropToken) : ps.length ≤ propSteps ps := by
  induction ps with
  | nil => exact Nat.le_refl _
  | cons p ps ih =>
    simp only [propSteps, List.map_cons, List.sum_cons, List.length_cons] at ih ⊢
    omega

end DeviceTree
end Allora
