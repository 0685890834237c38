import Allora.Proof.Boot.Layout
import Allora.Proof.Kobject.Region
import Allora.Proof.Kobject.Runs

/-!
# From the bytes of the device tree to every run of the kernel

The pages that boot makes its tree of are all that the kernel ever gives out. So wherever a run of
the kernel stands, its objects are in the region behind the heap, each on pages of its own; and what
the arenas of labels and containers hand out stays on these. The arenas of threads do not keep to
their pages, and nothing is said of them.
-/

set_option autoImplicit false

namespace Allora

open Outcome

/-! ## Pages and addresses -/

/-- The addresses of an object's pages. -/
theorem has_pagesOf {kind : KObjectKind} {page x : Nat} :
    (pagesOf kind page).Has x ↔ x / PAGE_SIZE ∈ pageList (page, kind) := by
  rw [pageList, List.mem_range'_1]
  show page * 4096 ≤ x ∧ x < page * 4096 + reservedPages kind * 4096 ↔
    page ≤ x / PAGE_SIZE ∧ x / PAGE_SIZE < page + reservedPages kind
  rw [PAGE_SIZE]
  omega

/-- Objects without a page in common are apart. -/
theorem apart_pagesOf {o o' : Nat × KObjectKind} (h : List.Disjoint (pageList o) (pageList o')) :
    (pagesOf o.2 o.1).Apart (pagesOf o'.2 o'.1) :=
  fun _ hx hx' => h (has_pagesOf.mp hx) (has_pagesOf.mp hx')

namespace Boot

open Kernel DeviceTree Bytes

theorem bootPool_eq (memStart : Nat) :
    bootPool memStart = PageTree.initPages memStart (PAGE_SIZE * 512) := rfl

/-- The objects of a kernel lie behind the heap, each on pages of its own, and the arenas of labels
and containers keep to these. -/
structure Separate (sz : Sizes) (l : Layout) (objs : List (Nat × KObjectKind)) : Prop where
  within : ∀ o ∈ objs, (pagesOf o.2 o.1).Within ⟨l.memStart, PAGE_SIZE * 512⟩
  heap : ∀ o ∈ objs, (pagesOf o.2 o.1).Apart ⟨l.heap.1, l.heap.2⟩
  apart : objs.Pairwise fun o o' => (pagesOf o.2 o.1).Apart (pagesOf o'.2 o'.1)
  arenas : ∀ o ∈ objs, o.2 = .label ∨ o.2 = .container → KeepsToPages sz o.2 o.1

section Runs

variable {Buckle : Type} {lb : Labeled Buckle} {sz : Sizes} {l : Layout} {k : Kernel Buckle}
  {cts : List Nat} {objs : List (Nat × KObjectKind)}

/-- Whatever the layout is, as long as the heap is before the pages. -/
theorem separate_of_reaches (hsz : sz.Ok) (hstart : 0 < l.memStart) (hdvd : PAGE_SIZE ∣ l.memStart)
    (hheap : l.heap.1 + l.heap.2 ≤ l.memStart)
    (h : Reaches lb sz l.memStart (FitsAtLanding sz.thread) k cts objs) : Separate sz l objs := by
  obtain ⟨tree, ho⟩ := h.owned hsz hstart
  have hparts := ho.parts
  rw [List.append_nil] at hparts
  have hnd : (objs.flatMap pageList).Nodup :=
    (List.nodup_append.mp (hparts.nodup_iff.mpr (nodup_bootPool _))).2.1
  have hwithin : ∀ o ∈ objs, (pagesOf o.2 o.1).Within ⟨l.memStart, PAGE_SIZE * 512⟩ := by
    intro o ho x hx
    have hpage : x / PAGE_SIZE ∈ bootPool l.memStart :=
      hparts.mem_iff.mp (List.mem_append_right _
        (List.mem_flatMap.mpr ⟨o, ho, has_pagesOf.mp hx⟩))
    rw [bootPool_eq, mem_pages hdvd, pa, pa, PAGE_SIZE] at hpage
    show l.memStart ≤ x ∧ x < l.memStart + 4096 * 512
    omega
  refine ⟨hwithin, fun o ho x hx hx' => ?_, ?_, fun o _ hkind => keepsToPages_pair hsz hkind o.1⟩
  · -- the heap ends where the region starts
    have h₁ := (hwithin o ho x hx).1
    have h₂ := hx'.2
    exact absurd (Nat.lt_of_lt_of_le h₂ hheap) (Nat.not_lt_of_le h₁)
  · exact (List.nodup_flatMap.mp hnd).2.imp fun hdisjoint => apart_pagesOf hdisjoint

end Runs

/-- **Whatever the kernel does, its objects keep to the memory in the device tree.** For any
well-formed tree, any kernel that ends in its first memory, any labels and any run of the kernel
from that boot: the objects lie behind the heap, each on pages of its own, and if the memory is long
enough for the region, all of it is memory. -/
theorem runs_keep_to_memory {Buckle : Type} (lb : Labeled Buckle) {sz : Sizes} {mem : Memory}
    {heapStart base structOff stringsOff before beforeEnd e : Nat} {name : List UInt8}
    {props : List PropToken} {kids : Nodes} {addr size : List UInt32}
    (h : WellFormed mem base structOff stringsOff (.cons before name props kids e .nil) beforeEnd)
    (hmem : FirstMemory ⟨name, props.map PropToken.prop⟩ (entries kids) addr size)
    (hstart : 0 < heapStart) (haddr : number addr ≤ heapStart)
    (hroom : heapStart + number size / 2 + PAGE_SIZE ≤ 2 ^ 64) (hsz : sz.Ok) :
    ∃ m, ∀ fuel, m ≤ fuel → ∃ l, layout mem fuel heapStart base = ok l ∧
      ∀ k cts objs, Reaches lb sz l.memStart (FitsAtLanding sz.thread) k cts objs →
        Separate sz l objs ∧
        (pageAlignUp (heapStart + number size / 2) + PAGE_SIZE * 512 ≤
            number addr + number size →
          ∀ o ∈ objs, (pagesOf o.2 o.1).Within ⟨number addr, number size⟩) := by
  obtain ⟨m, hm⟩ := @layout_eq mem heapStart _ _ _ _ _ _ _ _ _ _ _ h hmem
  obtain ⟨l, hplace, hheap, hpages⟩ : ∃ l, place heapStart (number addr) (number size) = ok l ∧
      l.heap = (heapStart, number size / 2) ∧
      l.memStart = pageAlignUp (heapStart + number size / 2) :=
    ⟨_, place_eq haddr hroom, rfl, rfl⟩
  refine ⟨m, fun fuel hfuel => ⟨l, (hm fuel hfuel).trans hplace, ?_⟩⟩
  intro k cts objs hreach
  have hbelow : heapStart + number size / 2 ≤ l.memStart := by
    rw [hpages]
    exact le_alignUp _ (by decide)
  have hdvd : PAGE_SIZE ∣ l.memStart := by
    rw [hpages]
    exact dvd_alignUp _ _
  have hsep : Separate sz l objs := by
    refine separate_of_reaches hsz (by omega) hdvd ?_ hreach
    rw [hheap]
    exact hbelow
  refine ⟨hsep, fun henough o ho x hx => ?_⟩
  obtain ⟨hlow, hhigh⟩ := hsep.within o ho x hx
  rw [← hpages] at henough
  have hbehind : heapStart ≤ x := Nat.le_trans (Nat.le_trans (Nat.le_add_right ..) hbelow) hlow
  exact ⟨Nat.le_trans haddr hbehind, Nat.lt_of_lt_of_le hhigh henough⟩

/-- The tree over the 512 pages from `0x44080000` on. -/
def behindHeap : Option (Tree Nat) :=
  (bootPool 0x44080000).foldlM (fun s n => PageTree.insertTree n s) .nil

/-- The pages for boot, the main thread, a label and a container, and 18 more. -/
theorem stages_behindHeap :
    stages (behindHeap.getD .nil) [(2, 278656), (2, 278658), (2, 278660), (16, 278662),
      (2, 278678), (2, 278680), (18, 278682)] = true := by
  decide +kernel

theorem threadTop_behindHeap :
    ∃ top, threadTop 600 278662 sizes64.thread ⟨0, 1, ⟨0, rfl⟩, by decide⟩ = ok top ∧
      top ≤ pa (278662 + THREAD_NPAGES) :=
  ⟨_, rfl, by decide⟩

/-- A kernel whose pages start at `0x44080000`: it has booted, its main thread has created a
container and moved 18 pages to it. -/
theorem reaches_0x44080000 : ∃ k : Kernel Unit,
    Reaches anyLabel sizes64 0x44080000 (FitsAtLanding sizes64.thread) k [278680, 278658]
      [(278680, .container), (278678, .label), (278662, .thread), (278660, .label),
        (278658, .container), (278656, .label)] := by
  have hb : anyLabel.parse "T,F" = some () := rfl
  have hsome : behindHeap.isSome = true := by decide +kernel
  have hstages := stages_behindHeap
  obtain ⟨s, hs⟩ := Option.isSome_iff_exists.mp hsome
  rw [hs, Option.getD_some] at hstages
  have hfuel : 513 < 600 := by decide
  obtain ⟨k₀, hand₀, hboot, hseen₀, hst₀⟩ := boot_returns sizes64 zeroed zeroed
    (fun _ => kobjectCreate .none 0 0 []) (by decide) hfuel hb hs hstages
  obtain ⟨top, htop, hle⟩ := threadTop_behindHeap
  obtain ⟨k₁, hand₁, hmain, hseen₁, hst₁⟩ := initMain_returns zeroed hseen₀ hst₀ (by decide)
    (by decide) (by decide) hb htop hle
  have hreach₁ : Reaches anyLabel sizes64 0x44080000 (FitsAtLanding sizes64.thread) k₁ [278658] _ :=
    .initMain (.boot hboot) (by simp) hmain (hseen₁.labels (278662, 278660) (by simp))
  obtain ⟨k₂, hand₂, hcreate, hseen₂, hst₂, hslots, hfree⟩ := create_returns sizes64 zeroed 278662
    278660 hseen₁ hst₁ (by decide) (by decide) (by decide) hb rfl (by decide)
    (checkLabel_returns hseen₁ (fun _ _ => rfl) (by decide)
      (show (278658, 278656) ∈ _ by decide) (by decide))
  have hreach₂ := hreach₁.create (by simp) hcreate (hseen₂.labels (278680, 278678) (by simp))
  obtain ⟨s', hs'⟩ : ∃ s', (List.range' 278682 18).foldlM
      (fun s n => PageTree.insertTree n s) .nil = some s' := ⟨_, rfl⟩
  have hseen₂' : Seen 278680 k₂ ⟨[], _, _, _⟩ :=
    ⟨by simp, hslots, hseen₂.labels, hseen₂.parsed, hseen₂.current⟩
  obtain ⟨k₃, hmove, -, -⟩ := moveNpages_returns hseen₂' hst₂ hfree (by decide) (by decide)
    (by decide) hs' (show stages s' [] = true by rfl)
  exact ⟨k₃, hreach₂.moveNpages (show 278658 ∈ [278680, 278658] by simp)
    (show 278680 ∈ [278680, 278658] by simp) hmove⟩

/-- The kernel of half a megabyte, in 128 megabytes of memory, after that run. -/
theorem runs_keep_to_memory_moved : ∃ fuel l, layout memoryMem fuel 0x40080000 64 = ok l ∧
    ∃ (k : Kernel Unit) (objs : List (Nat × KObjectKind)),
      Reaches anyLabel sizes64 l.memStart (FitsAtLanding sizes64.thread) k [278680, 278658] objs ∧
        Separate sizes64 l objs ∧
        ∀ o ∈ objs, (pagesOf o.2 o.1).Within ⟨0x40000000, 0x8000000⟩ := by
  have hbelow : number [0, 0x40000000] ≤ 0x40080000 := by
    rw [memory_addr]
    decide
  have henough : pageAlignUp (0x40080000 + number [0, 0x8000000] / 2) + PAGE_SIZE * 512 ≤
      number [0, 0x40000000] + number [0, 0x8000000] := by
    rw [memory_addr, memory_size]
    decide
  have hpages : pageAlignUp (0x40080000 + number [0, 0x8000000] / 2) = 0x44080000 := by
    rw [memory_size]
    decide
  obtain ⟨m₁, hm₁⟩ := runs_keep_to_memory anyLabel memory_wellFormed memory_first
    (by decide) hbelow memory_room sizes64_ok
  obtain ⟨m₂, hm₂⟩ := layout_eq memory_wellFormed memory_first
  obtain ⟨l, hl, hruns⟩ := hm₁ (max m₁ m₂) (Nat.le_max_left ..)
  have hplace := hm₂ (max m₁ m₂) (Nat.le_max_right ..)
  rw [hl, place_eq hbelow memory_room, hpages] at hplace
  obtain ⟨k, hreach⟩ := reaches_0x44080000
  have hreach' : Reaches anyLabel sizes64 l.memStart (FitsAtLanding sizes64.thread) k
      [278680, 278658] [(278680, .container), (278678, .label), (278662, .thread),
        (278660, .label), (278658, .container), (278656, .label)] := by
    rw [Outcome.ok.inj hplace]
    exact hreach
  obtain ⟨hsep, hall⟩ := hruns _ _ _ hreach'
  exact ⟨_, l, hl, k, _, hreach', hsep, hall henough⟩

end Boot
end Allora
