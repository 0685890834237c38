import Allora.Proof.Boot.Entries
import Allora.Proof.Regions

/-!
# From the bytes of the device tree to the free pages

The first child of the root that is a memory and has a `reg` decides. From the end of the kernel's
image on, half as many bytes as there is memory are the heap, and 512 pages after that are the pages
of the root container. Nothing asks whether they are there: they are exactly if the image and the
rounding leave two megabytes of the other half. Where there is no memory in the tree, nothing is
initialised, and the pages start at the address 0.
-/

set_option autoImplicit false

namespace Allora
namespace Boot

open Outcome Bytes DeviceTree

/-! ## The first memory -/

/-- The `reg` of a memory. -/
def Entry.memory (e : Entry) : Option (List UInt8) := e.regIf DEVICE_TYPE MEMORY

/-- The tree says where the memory is, in cells; this is the first node that does. -/
structure FirstMemory (root : Entry) (kids : List Entry) (addr size : List UInt32) : Prop where
  addressCells : root.Cells ADDRESS_CELLS addr.length
  sizeCells : root.Cells SIZE_CELLS size.length
  first : ∃ pre node post rest, kids = pre ++ node :: post ∧ (∀ e ∈ pre, e.memory = none) ∧
    node.memory = some (encodeCells addr ++ (encodeCells size ++ rest))

section First

variable {mem : Memory} {fuel heapStart : Nat} {node : Node} {e : Entry}

/-- The loop goes past a node that is no memory. -/
theorem memory_none {a s : Nat} (h : Stands mem fuel node e) (hnone : e.memory = none) :
    memory mem fuel heapStart a s node = ok none := by
  rcases h.regIf_none hnone with hno | ⟨hyes, hreg⟩
  · rw [memory, hno]
    exact rfl
  · rw [memory, hyes]
    simp only [ok_bind, if_true, hreg]

theorem memory_some {addr size : List UInt32} {rest : List UInt8} (h : Stands mem fuel node e)
    (ha : addr.length < 2 ^ 32) (hs : size.length < 2 ^ 32)
    (hsome : e.memory = some (encodeCells addr ++ (encodeCells size ++ rest))) :
    memory mem fuel heapStart addr.length size.length node =
      place heapStart (number addr) (number size) >>= fun l => ok (some l) := by
  obtain ⟨hyes, reg, hreg, hvalue⟩ := h.regIf_some hsome
  rw [memory, hyes]
  simp only [ok_bind, if_true, hreg, hvalue, readReg_cells ha hs]

/-- The first memory decides. -/
theorem layout_eq {base structOff stringsOff before beforeEnd e : Nat} {name : List UInt8}
    {props : List PropToken} {kids : Nodes} {addr size : List UInt32}
    (h : WellFormed mem base structOff stringsOff (.cons before name props kids e .nil) beforeEnd)
    (hmem : FirstMemory ⟨name, props.map PropToken.prop⟩ (entries kids) addr size) :
    ∃ m, ∀ fuel, m ≤ fuel →
      layout mem fuel heapStart base = place heapStart (number addr) (number size) := by
  obtain ⟨m, hm⟩ := read_root h
  refine ⟨m, fun fuel hfuel => ?_⟩
  obtain ⟨root, children, hroot, hstands, hchildren, hshows⟩ := hm fuel hfuel
  obtain ⟨pre, node, post, rest, hkids, hpre, hreg⟩ := hmem.first
  have hall := stands_of_shows hshows
  rw [hkids] at hall
  obtain ⟨skipped, child, after, rfl, hskipped, hchild⟩ := Related.split_right hall
  have hfound := @memory_some mem fuel heapStart _ _ _ _ _ hchild
    hmem.addressCells.lt hmem.sizeCells.lt hreg
  have hnone : ∀ n ∈ skipped,
      memory mem fuel heapStart addr.length size.length n = ok none := by
    refine Related.forall_left hskipped fun n e he hn => ?_
    exact memory_none hn (hpre e he)
  have hsome : memory mem fuel heapStart addr.length size.length child ≠ ok none := by
    rw [hfound]
    cases place heapStart (number addr) (number size) with
    | ok l => exact fun h => nomatch h
    | panic msg => exact fun h => nomatch h
    | timeout => exact fun h => nomatch h
  rw [layout, hroot, ok_bind]
  simp only [cells_eq hstands hmem.sizeCells, cells_eq hstands hmem.addressCells, ok_bind,
    Iter.findMap_of_collect hnone hsome hchildren, hfound]
  cases place heapStart (number addr) (number size) with
  | ok l => exact rfl
  | panic msg => exact rfl
  | timeout => exact rfl

/-- Where there is no memory, boot goes on without a heap. -/
theorem layout_none {base structOff stringsOff before beforeEnd e a s : Nat} {name : List UInt8}
    {props : List PropToken} {kids : Nodes}
    (h : WellFormed mem base structOff stringsOff (.cons before name props kids e .nil) beforeEnd)
    (ha : Entry.Cells ⟨name, props.map PropToken.prop⟩ ADDRESS_CELLS a)
    (hs : Entry.Cells ⟨name, props.map PropToken.prop⟩ SIZE_CELLS s)
    (hnone : ∀ e ∈ entries kids, e.memory = none) :
    ∃ m, ∀ fuel, m ≤ fuel → layout mem fuel heapStart base = ok Layout.none := by
  obtain ⟨m, hm⟩ := read_root h
  refine ⟨m, fun fuel hfuel => ?_⟩
  obtain ⟨root, children, hroot, hstands, hchildren, hshows⟩ := hm fuel hfuel
  have hskipped : ∀ n ∈ children, memory mem fuel heapStart a s n = ok none :=
    Related.forall_left (stands_of_shows hshows) fun n e he hn => memory_none hn (hnone e he)
  rw [layout, hroot, ok_bind]
  simp only [cells_eq hstands hs, cells_eq hstands ha, ok_bind,
    Iter.findMap_none hchildren hskipped]
  rfl

end First

/-! ## What the kernel gets -/

/-- Where the pages start, if the memory is as long as it says. -/
theorem place_eq {heapStart addr size : Nat} (haddr : addr ≤ heapStart)
    (hroom : heapStart + size / 2 + PAGE_SIZE ≤ 2 ^ 64) :
    place heapStart addr size = ok ⟨heapStart, size, (heapStart, size / 2),
      pageAlignUp (heapStart + size / 2), pageAlignDown (size / 2 / 2)⟩ := by
  rw [PAGE_SIZE] at hroom
  have htop : addChecked 64 heapStart (size / 2) = ok (heapStart + size / 2) :=
    if_pos (by omega)
  have hup : addChecked 64 (heapStart + size / 2) (PAGE_SIZE - 1) =
      ok (heapStart + size / 2 + (PAGE_SIZE - 1)) := by
    refine if_pos ?_
    rw [PAGE_SIZE]
    omega
  rw [place, if_pos haddr, htop, ok_bind, pageAlignUpChecked, hup]
  rfl

/-- The pages that the tree is made with. -/
theorem mem_pages {start n : Nat} (hstart : PAGE_SIZE ∣ start) :
    n ∈ PageTree.initPages start (PAGE_SIZE * 512) ↔
      start ≤ pa n ∧ pa (n + 1) ≤ start + PAGE_SIZE * 512 := by
  obtain ⟨k, rfl⟩ := hstart
  have hup : pageAlignUp (PAGE_SIZE * k) / PAGE_SIZE = k := by
    rw [pageAlignUp, alignUp_of_dvd (by decide) ⟨k, rfl⟩, Nat.mul_div_cancel_left k (by decide)]
  have hcount : pageAlignDown (PAGE_SIZE * 512) / PAGE_SIZE = 512 := by decide
  rw [PageTree.initPages, hup, hcount, List.mem_range'_1, pa, pa, PAGE_SIZE]
  omega

def memoryProps : List PropToken :=
  [⟨0, 0, ⟨DEVICE_TYPE, MEMORY⟩⟩, ⟨0, 12, ⟨REG, encodeCells [0, 0x40000000, 0, 0x8000000]⟩⟩]

def memoryKids : Nodes := .cons 0 [109] memoryProps .nil 0 .nil

def memoryBlob : List UInt8 :=
  word 0xd00dfeed ++ word 132 ++ word 40 ++ word 116 ++ List.replicate 24 0 ++
    ((Nodes.cons 0 [] [] memoryKids 0 .nil).encode ++ word 0x9) ++
    (DEVICE_TYPE ++ [0] ++ REG ++ [0])

def memoryMem : Memory := fun p => memoryBlob.getD (p - 64) 0

set_option maxRecDepth 4000 in
theorem memory_wellFormed :
    WellFormed memoryMem 64 40 116 (.cons 0 [] [] memoryKids 0 .nil) 0 := by
  have hprops : ∀ t ∈ memoryProps, t.Ok memoryMem (64 + 116) := by
    intro t ht
    rcases List.mem_cons.mp ht with rfl | ht
    · exact ⟨by decide, by decide, by decide, by decide⟩
    · rcases List.mem_singleton.mp ht with rfl
      exact ⟨by decide, by decide, by decide, by decide⟩
  exact ⟨by decide, by decide, by decide, by decide, by decide, by decide, ⟨_, _, _, _, _, rfl⟩,
    ⟨by simp, by simp, ⟨by decide, hprops, trivial, trivial⟩, trivial⟩, by decide⟩

theorem memory_first :
    FirstMemory ⟨[], []⟩ (entries memoryKids) [0, 0x40000000] [0, 0x8000000] :=
  ⟨rfl, rfl, [], _, [], [], rfl, by simp, rfl⟩

theorem memory_addr : number [0, 0x40000000] = 0x40000000 := rfl

theorem memory_size : number [0, 0x8000000] = 0x8000000 := rfl

theorem memory_room : 0x40080000 + number [0, 0x8000000] / 2 + PAGE_SIZE ≤ 2 ^ 64 := by
  rw [memory_size]
  decide

end Boot
end Allora
