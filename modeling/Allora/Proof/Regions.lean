import Allora.Proof.Arena.Links
import Allora.Proof.PageTree.Invariant

/-!
# The region an initialiser is given

`init_chunk` and `PageTree::init` both round the start of their region up and its size down, and
neither takes from the size what the start has lost. A region that starts off the boundary is left
at its other end, unless the part of the size that is rounded away makes up for it.
-/

set_option autoImplicit false

namespace Allora

open Outcome

/-- The chunk that `init_chunk` writes lies inside the region. -/
def ChunkInside (start size : Nat) : Prop :=
  ∀ (cl : ChunkList) (next : Option Nat),
    start ≤ (cl.initChunk start size next).2 ∧
      (cl.initChunk start size next).2 +
        ((cl.initChunk start size next).1.chunk (cl.initChunk start size next).2).size ≤ start + size

namespace PageTree

/-- The pages that `init` inserts, in order. -/
def initPages (start size : Nat) : List Nat :=
  List.range' (pageAlignUp start / PAGE_SIZE) (pageAlignDown size / PAGE_SIZE)

/-- The pages that `init` inserts lie inside the region. -/
def PagesInside (start size : Nat) : Prop :=
  ∀ n ∈ initPages start size, start ≤ pa n ∧ pa (n + 1) ≤ start + size

/-- They are the pages of the tree that `new` makes, except that page zero has no address. -/
theorem new_holds {start size fuel : Nat} (mem : Nat → PageNode) (hstart : 0 < start)
    (hfuel : (initPages start size).length + 1 < fuel) :
    ∃ t s, PageTree.new fuel mem start size = ok t ∧ Holds t s ∧
      ∀ n, n ∈ s.toList ↔ n ∈ initPages start size := by
  have hbase : 0 < pageAlignUp start / PAGE_SIZE := by
    have hup : start ≤ pageAlignUp start := le_alignUp start (by decide)
    have hle : PAGE_SIZE ≤ pageAlignUp start :=
      Nat.le_of_dvd (by omega) (dvd_alignUp start PAGE_SIZE)
    exact Nat.div_pos hle (by decide)
  have h0 : 0 ∉ initPages start size := by
    rw [initPages, List.mem_range'_1]
    omega
  obtain ⟨t, s, hrun, -, hholds, hperm⟩ := inserts_hold (holds_empty mem)
    (show (initPages start size ++ _).Nodup by simpa [initPages] using List.nodup_range') h0
    (by simpa using hfuel)
  refine ⟨t, s, hrun, hholds, fun n => ?_⟩
  rw [hperm.mem_iff]
  simp

end PageTree

open PageTree

/-! ## Where it stays inside -/

theorem chunkInside_iff (start size : Nat) :
    ChunkInside start size ↔ start % 8 = 0 ∨ 8 ≤ start % 8 + size % 8 := by
  rw [← alignUp_add_alignDown_le (show 0 < 8 by decide)]
  have hup : start ≤ alignUp start CHUNK_ALIGN := le_alignUp start (by decide)
  have hsize : ∀ (cl : ChunkList) (next : Option Nat),
      ((cl.initChunk start size next).1.chunk (alignUp start CHUNK_ALIGN)).size =
        alignDown size CHUNK_ALIGN := by
    intro cl next
    simp [ChunkList.initChunk, ChunkList.chunk, Word.toUsize]
  constructor
  · intro h
    have hend := (h (ChunkList.empty fun _ => .usize 0) none).2
    rwa [show (ChunkList.initChunk _ start size none).2 = alignUp start CHUNK_ALIGN from rfl,
      hsize] at hend
  · intro h cl next
    rw [show (cl.initChunk start size next).2 = alignUp start CHUNK_ALIGN from rfl, hsize]
    exact ⟨hup, h⟩

theorem pa_div {addr : Nat} (h : PAGE_SIZE ∣ addr) : pa (addr / PAGE_SIZE) = addr :=
  Nat.div_mul_cancel h

/-- No page at all is inserted, or the last one ends inside. -/
theorem pagesInside_iff (start size : Nat) :
    PagesInside start size ↔
      size < PAGE_SIZE ∨ start % PAGE_SIZE = 0 ∨ PAGE_SIZE ≤ start % PAGE_SIZE + size % PAGE_SIZE := by
  have hpos : 0 < PAGE_SIZE := by decide
  have hup : pa (pageAlignUp start / PAGE_SIZE) = pageAlignUp start := pa_div (dvd_alignUp _ _)
  have hdown : pa (pageAlignDown size / PAGE_SIZE) = pageAlignDown size := pa_div (dvd_alignDown _ _)
  have hadd : ∀ m n, pa (m + n) = pa m + pa n := fun m n => Nat.add_mul m n PAGE_SIZE
  have hmono : ∀ {m n}, m ≤ n → pa m ≤ pa n := fun h => Nat.mul_le_mul_right PAGE_SIZE h
  have hle : start ≤ pageAlignUp start := le_alignUp start hpos
  rw [← alignUp_add_alignDown_le hpos]
  constructor
  · intro h
    by_cases hsize : size < PAGE_SIZE
    · exact Or.inl hsize
    · refine Or.inr ?_
      have hone : PAGE_SIZE ≤ pageAlignDown size := by
        have hlt := lt_alignDown_add size hpos
        exact Nat.le_of_dvd (by rw [pageAlignDown]; omega) (dvd_alignDown size PAGE_SIZE)
      have hcount : 0 < pageAlignDown size / PAGE_SIZE := Nat.div_pos hone hpos
      -- the last page
      have hlast := (h (pageAlignUp start / PAGE_SIZE + (pageAlignDown size / PAGE_SIZE - 1)) (by
        rw [initPages, List.mem_range'_1]
        omega)).2
      rw [show pageAlignUp start / PAGE_SIZE + (pageAlignDown size / PAGE_SIZE - 1) + 1 =
        pageAlignUp start / PAGE_SIZE + pageAlignDown size / PAGE_SIZE by omega, hadd, hup,
        hdown] at hlast
      exact hlast
  · intro h n hn
    rw [initPages, List.mem_range'_1] at hn
    refine ⟨hle.trans (hup ▸ hmono hn.1), ?_⟩
    rcases h with hsize | hend
    · rw [pageAlignDown, alignDown, Nat.mod_eq_of_lt hsize, Nat.sub_self, Nat.zero_div] at hn
      omega
    · have hlast := hmono (show n + 1 ≤ _ from hn.2)
      rw [hadd (pageAlignUp start / PAGE_SIZE), hup, hdown] at hlast
      exact hlast.trans hend

/-- **The initialisers stay inside their region exactly where the residues allow it**: the chunk
where the start is aligned or the two residues make up 8 bytes, the pages where there are none, or
the same holds of whole pages. These are the pages of the tree. -/
theorem regions_inside_iff (start size : Nat) :
    (ChunkInside start size ↔ start % 8 = 0 ∨ 8 ≤ start % 8 + size % 8) ∧
      (PagesInside start size ↔ size < PAGE_SIZE ∨ start % PAGE_SIZE = 0 ∨
        PAGE_SIZE ≤ start % PAGE_SIZE + size % PAGE_SIZE) ∧
      (0 < start → ∀ mem fuel, (initPages start size).length + 1 < fuel →
        ∃ t s, PageTree.new fuel mem start size = ok t ∧ Holds t s ∧
          ∀ n, n ∈ s.toList ↔ n ∈ initPages start size) :=
  ⟨chunkInside_iff start size, pagesInside_iff start size,
    fun hstart mem _ hfuel => new_holds mem hstart hfuel⟩

/-- Sixteen bytes from address 4 are a chunk from 8 to 24, and a page of memory from address 100
is the page from 4096 to 8192. -/
theorem regions_overrun : ¬ ChunkInside 4 16 ∧ ¬ PagesInside 100 4096 := by
  constructor
  · rw [chunkInside_iff]
    decide
  · rw [pagesInside_iff]
    decide

end Allora
