import Allora.Boot
import Allora.Lib.Related
import Allora.Proof.DeviceTree.Enumerate
import Allora.Proof.DeviceTree.Interrupts

/-!
# The device tree, as the boot code reads it

The boot code is read on the tree that the bytes stand for: a node is its name and its properties,
and what the cursors answer is what is written there.
-/

set_option autoImplicit false

namespace Allora
namespace Boot

open Outcome Bytes DeviceTree

/-! ## Nodes as they are written -/

/-- A node's name, and its properties in order. -/
structure Entry where
  name : List UInt8
  props : List Property

/-- The first property of that name. -/
def Entry.prop (e : Entry) (name : List UInt8) : Option Property :=
  e.props.find? fun prop => prop.name = name

/-- A list of siblings, without what is below them. -/
def entries : Nodes → List Entry
  | .nil => []
  | .cons _ name props _ _ rest => ⟨name, props.map PropToken.prop⟩ :: entries rest

/-- The code finds in `node` what is written in `e`. -/
structure Stands (mem : Memory) (fuel : Nat) (node : Node) (e : Entry) : Prop where
  name : node.name = e.name
  prop : ∀ name, node.propByName mem fuel name = ok (e.prop name)

section Read

variable {mem : Memory} {fuel : Nat}

theorem stands_of_shows {depth : Nat} {tree : Nodes} : ∀ {ns : List Node},
    Shows mem fuel depth tree ns → List.Forall₂ (Stands mem fuel) ns (entries tree) := by
  induction tree with
  | nil =>
    intro ns h
    rw [show ns = [] from h]
    exact .nil
  | cons before name props kids beforeEnd rest _ ih =>
    intro ns h
    obtain ⟨node, ns', rfl, hname, hdepth, hprops, hkids, hrest⟩ := h
    exact .cons ⟨hname, fun nm => Iter.find_of_collect _ hprops⟩ (ih hrest)

/-- The root and its children, with enough fuel. -/
theorem read_root {base structOff stringsOff before e beforeEnd : Nat} {name : List UInt8}
    {props : List PropToken} {kids : Nodes}
    (h : WellFormed mem base structOff stringsOff (.cons before name props kids e .nil)
      beforeEnd) :
    ∃ m, ∀ fuel, m ≤ fuel → ∃ node children, root mem fuel base = ok (some node) ∧
      Stands mem fuel node ⟨name, props.map PropToken.prop⟩ ∧
      Iter.collect (NodeIterator.next mem fuel) fuel node.children = ok children ∧
      Shows mem fuel 2 kids children := by
  obtain ⟨m, hm⟩ := root_shows h
  refine ⟨m, fun fuel hfuel => ?_⟩
  obtain ⟨node, hroot, hshows⟩ := hm fuel hfuel
  obtain ⟨node', ns', heq, hname, -, hprops, ⟨children, hchildren, hkids⟩, -⟩ := hshows
  cases heq
  exact ⟨node, children, hroot, ⟨hname, fun nm => Iter.find_of_collect _ hprops⟩, hchildren, hkids⟩

end Read

/-! ## Cells -/

/-- Big-endian cells of 32 bits. -/
def encodeCells (cs : List UInt32) : List UInt8 := cs.flatMap fun c => word c.toNat

/-- The number they are, in 64 bits. -/
def number (cs : List UInt32) : Nat :=
  cs.foldl (fun n c => (n * 2 ^ 32 + c.toNat) % 2 ^ 64) 0

@[simp] theorem length_encodeCells (cs : List UInt32) :
    (encodeCells cs).length = 4 * cs.length := by
  induction cs with
  | nil => exact rfl
  | cons c cs ih =>
    rw [encodeCells, List.flatMap_cons, List.length_append, length_word, List.length_cons]
    have ih' : (cs.flatMap fun c => word c.toNat).length = 4 * cs.length := ih
    omega

theorem chunks4_word (n : Nat) (rest : List UInt8) :
    chunks4 (word n ++ rest) = word n :: chunks4 rest := by
  have hlen : ((word n ++ rest).length + 3) / 4 = (rest.length + 3) / 4 + 1 := by
    rw [List.length_append, length_word]
    omega
  rw [chunks4, hlen, List.range_succ_eq_map, List.map_cons, List.map_map, chunks4]
  refine congrArg₂ List.cons rfl (List.map_congr_left fun i _ => ?_)
  have hdrop : 4 * (i + 1) = (word n).length + 4 * i := by
    rw [length_word]
    omega
  show ((word n ++ rest).drop (4 * (i + 1))).take 4 = _
  rw [hdrop, List.drop_length_add_append]

/-- A cell more at the end of the number. -/
theorem shift_or (n : Nat) (c : UInt32) :
    (n <<< 32) % 2 ^ 64 ||| c.toNat = (n * 2 ^ 32 + c.toNat) % 2 ^ 64 := by
  have hc := c.toNat_lt
  have hshift : (n <<< 32) % 2 ^ 64 = 2 ^ 32 * (n % 2 ^ 32) := by
    rw [Nat.shiftLeft_eq]
    omega
  rw [hshift, ← Nat.two_pow_add_eq_or_of_lt hc]
  omega

/-- `regs_to_usize` takes as many cells off as it is told. -/
theorem regsToUsize_cells {cs : List UInt32} (hlen : cs.length * 4 < 2 ^ 64) (rest : List UInt8) :
    regsToUsize (encodeCells cs ++ rest) cs.length = ok (number cs, rest) := by
  have hmid : mulChecked 64 cs.length 4 = ok (cs.length * 4) := if_pos hlen
  have hsplit : splitAt (encodeCells cs ++ rest) (cs.length * 4) = ok (encodeCells cs, rest) := by
    have hcells : cs.length * 4 = (encodeCells cs).length := by
      rw [length_encodeCells]
      omega
    rw [splitAt, hcells, if_pos (by simp), List.take_left, List.drop_left]
  have hfold : ∀ n, (chunks4 (encodeCells cs)).foldlM (fun result chunk => do
      let c ← copyFromSlice chunk
      pure ((result <<< 32) % 2 ^ 64 ||| fromBeBytes c)) n =
      ok (cs.foldl (fun n c => (n * 2 ^ 32 + c.toNat) % 2 ^ 64) n) := by
    clear hlen hmid hsplit
    induction cs with
    | nil => exact fun n => rfl
    | cons c cs ih =>
      intro n
      have hcopy : copyFromSlice (word c.toNat) = ok (word c.toNat) := rfl
      rw [encodeCells, List.flatMap_cons, chunks4_word, List.foldlM_cons, hcopy, ok_bind,
        pure_eq_ok, ok_bind, fromBeBytes_word c.toNat_lt, shift_or]
      exact ih _
  rw [regsToUsize, hmid, ok_bind, hsplit, ok_bind]
  simp only [hfold, ok_bind]
  rfl

/-- The address and the size in a `reg`. -/
theorem readReg_cells {addr size : List UInt32} {rest : List UInt8} (ha : addr.length < 2 ^ 32)
    (hs : size.length < 2 ^ 32) :
    readReg addr.length size.length (encodeCells addr ++ (encodeCells size ++ rest)) =
      ok (number addr, number size) := by
  have ha' : addr.length * 4 < 2 ^ 64 := by omega
  have hs' : size.length * 4 < 2 ^ 64 := by omega
  rw [readReg, regsToUsize_cells ha', ok_bind]
  simp only [regsToUsize_cells hs', ok_bind]

/-- The root says that a number has `c` cells, or does not say and it has two. -/
def Entry.Cells (e : Entry) (name : List UInt8) (c : Nat) : Prop :=
  match e.prop name with
  | some prop => c < 2 ^ 32 ∧ prop.value = word c
  | none => c = 2

/-- It fits into one cell. -/
theorem Entry.Cells.lt {e : Entry} {name : List UInt8} {c : Nat} (h : e.Cells name c) :
    c < 2 ^ 32 := by
  rw [Entry.Cells] at h
  cases hprop : e.prop name with
  | none =>
    rw [hprop] at h
    rw [h]
    decide
  | some prop =>
    rw [hprop] at h
    exact h.1

/-- The `reg` of an entry that has a property with that value. -/
def Entry.regIf (e : Entry) (name value : List UInt8) : Option (List UInt8) :=
  match e.prop name with
  | some prop => if prop.value = value then (e.prop REG).map Property.value else none
  | none => none

section Stands

variable {mem : Memory} {fuel : Nat} {node : Node} {e : Entry}

theorem cells_eq {name : List UInt8} {c : Nat} (h : Stands mem fuel node e)
    (hc : e.Cells name c) : cells mem fuel node name = ok c := by
  rw [cells, h.prop name, ok_bind]
  rw [Entry.Cells] at hc
  cases hprop : e.prop name with
  | none =>
    rw [hprop] at hc
    exact congrArg ok hc.symm
  | some prop =>
    rw [hprop] at hc
    obtain ⟨hlt, hvalue⟩ := hc
    have hcopy : copyFromSlice prop.value = ok (word c) := by
      rw [hvalue]
      rfl
    show (copyFromSlice prop.value >>= fun buf => ok (fromBeBytes buf)) = ok c
    rw [hcopy, ok_bind, fromBeBytes_word hlt]

theorem hasProp_eq {name value : List UInt8} (h : Stands mem fuel node e) :
    hasProp mem fuel name value node =
      ok ((e.prop name).any fun prop => decide (prop.value = value)) := by
  rw [hasProp, h.prop name, ok_bind]
  cases e.prop name with
  | none => exact rfl
  | some prop => exact rfl

/-- An entry is passed over because it has not that property, or because it has no `reg`. -/
theorem Stands.regIf_none {name value : List UInt8} (h : Stands mem fuel node e)
    (hnone : e.regIf name value = none) :
    hasProp mem fuel name value node = ok false ∨
      hasProp mem fuel name value node = ok true ∧ node.propByName mem fuel REG = ok none := by
  rw [hasProp_eq h, h.prop REG]
  rw [Entry.regIf] at hnone
  cases hprop : e.prop name with
  | none => exact .inl rfl
  | some prop =>
    rw [hprop] at hnone
    by_cases hvalue : prop.value = value
    · refine .inr ⟨congrArg ok (decide_eq_true hvalue), congrArg ok ?_⟩
      simpa [hvalue] using hnone
    · exact .inl (congrArg ok (decide_eq_false hvalue))

theorem Stands.regIf_some {name value bytes : List UInt8} (h : Stands mem fuel node e)
    (hsome : e.regIf name value = some bytes) :
    hasProp mem fuel name value node = ok true ∧
      ∃ reg, node.propByName mem fuel REG = ok (some reg) ∧ reg.value = bytes := by
  rw [hasProp_eq h, h.prop REG]
  rw [Entry.regIf] at hsome
  cases hprop : e.prop name with
  | none =>
    rw [hprop] at hsome
    cases hsome
  | some prop =>
    rw [hprop] at hsome
    by_cases hvalue : prop.value = value
    · have hreg : (e.prop REG).map Property.value = some bytes := by simpa [hvalue] using hsome
      obtain ⟨reg, hreg, hbytes⟩ := Option.map_eq_some_iff.mp hreg
      exact ⟨congrArg ok (decide_eq_true hvalue), reg, congrArg ok hreg, hbytes⟩
    · simp [hvalue] at hsome

end Stands
end Boot
end Allora
