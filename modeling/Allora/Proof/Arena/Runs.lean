import Allora.Proof.Arena.Alloc
import Mathlib.Data.List.Basic

/-!
# Runs of an arena

A run allocates and frees in any order, and between two calls the owners of live blocks write
whatever they like into them. `Inv` is what every run keeps: the headers in memory spell out a
finite free list of aligned chunks, and the free chunks with the live blocks cut the region of the
arena up exactly.
-/

set_option autoImplicit false

namespace Allora
namespace Arena

open Outcome

/-- A live block: the pointer, and the layout it was asked for with. -/
abbrev Live := Nat × Layout

/-- The size `align_layout` gives to a layout. -/
def paddedSize (l : Layout) : Nat :=
  match ChunkList.alignLayout l with
  | ok l' => l'.size
  | _ => 0

/-- The memory of a live block. -/
def block (e : Live) : Block := ⟨e.1, paddedSize e.2⟩

/-- The states of an arena made by `Arena::new(start, size)`, with its live blocks. -/
inductive Reaches (start size : Nat) : Arena → List Live → Prop
  | new (mem : Nat → Word) : Reaches start size (Arena.new mem start size) []
  | allocate {A A' : Arena} {live : List Live} {fuel p : Nat} {l : Layout} :
      Reaches start size A live → A.allocate fuel l = ok (A', some p) →
      Reaches start size A' ((p, l) :: live)
  | refuse {A A' : Arena} {live : List Live} {fuel : Nat} {l : Layout} :
      Reaches start size A live → A.allocate fuel l = ok (A', none) → Reaches start size A' live
  | deallocate {A A' : Arena} {live : List Live} {p : Nat} {l : Layout} :
      Reaches start size A live → (p, l) ∈ live → A.deallocate p l = ok A' →
      Reaches start size A' (live.erase (p, l))
  | write {A : Arena} {live : List Live} (mem : Nat → Word) :
      Reaches start size A live →
      (∀ x, (∀ e ∈ live, ¬ (block e).Has x) → mem x = A.chunks.mem x) →
      Reaches start size ⟨{ A.chunks with mem := mem }⟩ live

/-- What a run keeps. -/
structure Inv (lo hi : Nat) (A : Arena) (live : List Live) (free : List Block) : Prop where
  links : ChunkList.Seg A.chunks.mem A.chunks.head free none
  chunks : ∀ b ∈ free, ChunkList.ChunkOk b
  tiles : Tiles lo hi (free ++ live.map block)
  live : ∀ e ∈ live, e.2.align ∣ e.1 ∧ 8 ∣ e.1 ∧ ∃ l', ChunkList.alignLayout e.2 = ok l'

section Steps

variable {lo hi : Nat} {A A' : Arena} {live : List Live} {free : List Block}

theorem inv_new (mem : Nat → Word) {start size : Nat} (hstart : 8 ∣ start) (hsize : 16 ≤ size) :
    Inv start (start + alignDown size 8) (Arena.new mem start size) []
      [⟨start, alignDown size 8⟩] := by
  have haligned : alignUp start CHUNK_ALIGN = start := alignUp_of_dvd (by decide) hstart
  refine ⟨?_, ?_, Tiles.single _ _, by simp⟩
  · have hnew : Arena.new mem start size =
        ⟨⟨((ChunkList.empty mem).writeChunk start ⟨alignDown size CHUNK_ALIGN, none⟩).mem,
          some start⟩⟩ := by
      simp [Arena.new, ChunkList.new, ChunkList.initChunk, haligned]
    rw [hnew]
    exact ⟨rfl, by simp [CHUNK_ALIGN], none, by simp, rfl⟩
  · intro b hb
    rw [List.mem_singleton] at hb
    subst hb
    have h1 := lt_alignDown_add size (show 0 < 8 by decide)
    have h2 := dvd_alignDown size 8
    refine ⟨hstart, h2, ?_⟩
    show 16 ≤ alignDown size 8
    omega

theorem Inv.aligned (h : Inv lo hi A live free) : ∀ b ∈ free, 8 ∣ b.start ∧ 8 ∣ b.size :=
  fun b hb => ⟨(h.chunks b hb).1, (h.chunks b hb).2.1⟩

theorem Inv.roomsApart (h : Inv lo hi A live free) : ChunkList.RoomsApart free :=
  ChunkList.roomsApart_of_ok h.chunks (List.pairwise_append.mp h.tiles.apart).1

/-- **What an allocation did, when it answered**: every chunk has refused, or the first one that did
not is cut. -/
theorem allocate_cases {fuel : Nat} {l : Layout} {r : Option Nat}
    (hlinks : ChunkList.Seg A.chunks.mem A.chunks.head free none)
    (haligned : ∀ b ∈ free, 8 ∣ b.start ∧ 8 ∣ b.size) (hap : ChunkList.RoomsApart free)
    (hrun : A.allocate fuel l = ok (A', r)) :
    ∃ l', ChunkList.alignLayout l = ok l' ∧ ChunkList.Padded l' ∧
      (r = none ∧ A' = A ∧ (∀ b ∈ free, ChunkList.Refuses b l') ∨
      ∃ pre s post a info, free = pre ++ ⟨a, s⟩ :: post ∧ (∀ b ∈ pre, ChunkList.Refuses b l') ∧
        ChunkList.ChunkOk ⟨a, s⟩ ∧ ChunkList.Fit a s l' info ∧
        r = some (a + info.allocStartOffset) ∧
        ChunkList.Seg A'.chunks.mem A'.chunks.head
          (pre ++ (leftover a s info.allocStartOffset l'.size ++ post)) none ∧
        (∀ x, ¬ Block.Has ⟨a, s⟩ x → (∀ q, ChunkList.lastOf none pre = some q → x ≠ q + 8) →
          A'.chunks.mem x = A.chunks.mem x) ∧ a + s < 2 ^ 64) := by
  simp only [Arena.allocate, bind_eq_ok] at hrun
  obtain ⟨l', hl', ⟨chunks, p⟩, hpop, heq⟩ := hrun
  cases heq
  have hpad := (ChunkList.alignLayout_padded hl').1
  refine ⟨l', hl', hpad, ?_⟩
  simp only [ChunkList.popFirstFit, bind_eq_ok] at hpop
  obtain ⟨found, hfound, hpop⟩ := hpop
  cases found with
  | none =>
    cases hpop
    exact Or.inl ⟨rfl, rfl, ChunkList.firstFit_none hlinks hfound⟩
  | some q =>
    obtain ⟨prev, a, info⟩ := q
    obtain ⟨pre, s, post, rfl, rfl, hpre, hcan⟩ := ChunkList.firstFit_some hlinks hfound
    obtain ⟨ha, hs⟩ := haligned ⟨a, s⟩ (by simp)
    have hfit := ChunkList.canAllocate_fit ha hpad hcan
    have hc : ChunkList.ChunkOk ⟨a, s⟩ :=
      ⟨ha, hs, Nat.le_trans hpad.min (Nat.le_trans (Nat.le_add_left ..) hfit.room)⟩
    obtain ⟨cl', hcarve, hseg, hmem⟩ := ChunkList.carve_links hlinks hc hap hpad hfit
    simp only [hcarve] at hpop
    cases hpop
    exact Or.inr ⟨pre, s, post, a, info, rfl, hpre, hc, hfit, rfl, hseg, hmem,
      ChunkList.canAllocate_end hcan⟩

/-- Inside the address space an allocation returns. -/
theorem allocate_returns {l l' : Layout} {fuel : Nat}
    (hlinks : ChunkList.Seg A.chunks.mem A.chunks.head free none)
    (haligned : ∀ b ∈ free, 8 ∣ b.start) (hbound : ∀ b ∈ free, b.start + b.size < 2 ^ 64)
    (hl' : ChunkList.alignLayout l = ok l') (hfuel : free.length < fuel) :
    ∃ r, A.allocate fuel l = ok r := by
  have hpad := (ChunkList.alignLayout_padded hl').1
  have hnext : ChunkList.Seg A.chunks.mem (A.chunks.next none) free none := hlinks
  obtain ⟨found, hfound⟩ := ChunkList.firstFit_returns hpad hnext haligned hbound hfuel
  simp only [Arena.allocate, ChunkList.popFirstFit, hl', hfound, ok_bind]
  cases found with
  | none => exact ⟨_, rfl⟩
  | some q => exact ⟨_, rfl⟩

theorem inv_allocate {fuel p : Nat} {l : Layout} (h : Inv lo hi A live free)
    (hrun : A.allocate fuel l = ok (A', some p)) :
    ∃ l' pre s post a info, ChunkList.alignLayout l = ok l' ∧ free = pre ++ ⟨a, s⟩ :: post ∧
      ChunkList.Fit a s l' info ∧ p = a + info.allocStartOffset ∧
      Inv lo hi A' ((p, l) :: live)
        (pre ++ (leftover a s info.allocStartOffset l'.size ++ post)) := by
  obtain ⟨l', hl', hpad, ⟨hr, -⟩ | ⟨pre, s, post, a, info, rfl, -, -, hfit, hr, hseg, -⟩⟩ :=
    allocate_cases h.links h.aligned h.roomsApart hrun
  · cases hr
  cases hr
  refine ⟨l', pre, s, post, a, info, hl', rfl, hfit, rfl, ?_⟩
  have hleft := ChunkList.leftover_ok (h.chunks ⟨a, s⟩ (by simp)) hpad hfit
  have hblock : block (a + info.allocStartOffset, l) = ⟨a + info.allocStartOffset, l'.size⟩ := by
    simp [block, paddedSize, hl']
  refine ⟨hseg, ?_, ?_, ?_⟩
  · intro b hb
    simp only [List.mem_append] at hb
    rcases hb with hb | hb | hb
    · exact h.chunks b (by simp [hb])
    · exact (hleft b hb).1
    · exact h.chunks b (by simp [hb])
  · -- bring the chunk to the front, cut it, and put the pieces in their places
    have h1 : Tiles lo hi (⟨a, s⟩ :: (pre ++ post ++ live.map block)) := by
      refine h.tiles.perm ?_
      simp only [List.append_assoc, List.cons_append]
      exact List.perm_middle
    refine (h1.carve hfit.room).perm ?_
    rw [List.map_cons, hblock]
    refine List.Perm.trans ?_ List.perm_middle.symm
    refine List.Perm.cons _ ?_
    simp only [List.append_assoc]
    rw [← List.append_assoc, ← List.append_assoc pre]
    exact List.perm_append_comm.append_right _
  · intro e he
    rcases List.mem_cons.mp he with rfl | he
    · have hdvd := (ChunkList.alignLayout_padded hl').2.1
      exact ⟨hdvd.trans hfit.aligned, hpad.align.trans hfit.aligned, l', hl'⟩
    · exact h.live e he

/-- A block that is given back is a chunk. -/
theorem block_ok {p : Nat} {l l' : Layout} (hp : 8 ∣ p) (hl' : ChunkList.alignLayout l = ok l') :
    ChunkList.ChunkOk (block (p, l)) := by
  have hpad := (ChunkList.alignLayout_padded hl').1
  have hblock : block (p, l) = ⟨p, l'.size⟩ := by simp [block, paddedSize, hl']
  exact hblock ▸ ⟨hp, hpad.align.trans hpad.size, hpad.min⟩

/-- **It comes first in the free list.** -/
theorem deallocate_links {p : Nat} {l : Layout}
    (hlinks : ChunkList.Seg A.chunks.mem A.chunks.head free none) (hp : 8 ∣ p)
    (hap : ∀ b ∈ free, (block (p, l)).Apart (ChunkList.room b))
    (hrun : A.deallocate p l = ok A') :
    ChunkList.Seg A'.chunks.mem A'.chunks.head (block (p, l) :: free) none := by
  simp only [Arena.deallocate, bind_eq_ok] at hrun
  obtain ⟨l', hl', heq⟩ := hrun
  cases heq
  have hbok := block_ok hp hl'
  have hblock : block (p, l) = ⟨p, l'.size⟩ := by simp [block, paddedSize, hl']
  have hsize8 : 8 ∣ l'.size := by
    have hsize := hbok.2.1
    rwa [hblock] at hsize
  have hpush : A.chunks.push p l'.size =
      ⟨(A.chunks.writeChunk p ⟨l'.size, A.chunks.head⟩).mem, some p⟩ := by
    have h1 : alignUp p CHUNK_ALIGN = p := alignUp_of_dvd (by decide) hp
    have h2 : alignDown l'.size CHUNK_ALIGN = l'.size := alignDown_of_dvd hsize8
    simp [ChunkList.push, ChunkList.initChunk, h1, h2]
  rw [hpush, hblock]
  refine ⟨rfl, by simp, A.chunks.head, by simp, ?_⟩
  refine hlinks.frame hap fun x hx => ?_
  have hh := hbok.header
  rw [hblock] at hh hx
  exact ChunkList.writeChunk_frame _ _ hh.1 hh.2 hx

theorem inv_deallocate {p : Nat} {l : Layout} (h : Inv lo hi A live free) (hp : (p, l) ∈ live)
    (hrun : A.deallocate p l = ok A') :
    Inv lo hi A' (live.erase (p, l)) (block (p, l) :: free) := by
  obtain ⟨-, hp8, l', hl'⟩ := h.live _ hp
  have hperm : List.Perm (free ++ live.map block)
      (block (p, l) :: (free ++ (live.erase (p, l)).map block)) :=
    (((List.perm_cons_erase hp).map block).append_left free).trans List.perm_middle
  have htiles := h.tiles.perm hperm
  refine ⟨?_, ?_, htiles, fun e he => h.live e (List.erase_subset he)⟩
  · refine deallocate_links h.links hp8 (fun b hb => ?_) hrun
    rw [(h.chunks b hb).room_eq]
    exact htiles.apart_of_mem (by simp [hb])
  · exact List.forall_mem_cons.mpr ⟨block_ok hp8 hl', h.chunks⟩

theorem inv_write (h : Inv lo hi A live free) {mem : Nat → Word}
    (hmem : ∀ x, (∀ e ∈ live, ¬ (block e).Has x) → mem x = A.chunks.mem x) :
    Inv lo hi ⟨{ A.chunks with mem := mem }⟩ live free := by
  have hcross := (List.pairwise_append.mp h.tiles.apart).2.2
  refine ⟨h.links.congr fun b hb => ⟨?_, ?_⟩, h.chunks, h.tiles, h.live⟩
  · exact hmem _ fun e he hx =>
      hcross b hb (block e) (List.mem_map_of_mem he) _ (h.chunks b hb).header.1 hx
  · exact hmem _ fun e he hx =>
      hcross b hb (block e) (List.mem_map_of_mem he) _ (h.chunks b hb).header.2 hx

end Steps

/-- The invariant over a whole run. -/
theorem Reaches.inv {start size : Nat} (hstart : 8 ∣ start) (hsize : 16 ≤ size) {A : Arena}
    {live : List Live} (h : Reaches start size A live) :
    ∃ free, Inv start (start + alignDown size 8) A live free := by
  induction h with
  | new mem => exact ⟨_, inv_new mem hstart hsize⟩
  | allocate _ hrun ih =>
    obtain ⟨free, hi⟩ := ih
    obtain ⟨l', pre, s, post, a, info, -, -, -, -, hi'⟩ := inv_allocate hi hrun
    exact ⟨_, hi'⟩
  | refuse _ hrun ih =>
    obtain ⟨free, hi⟩ := ih
    obtain ⟨l', -, -, ⟨-, rfl, -⟩ | ⟨pre, s, post, a, info, -, -, -, -, hr, -⟩⟩ :=
      allocate_cases hi.links hi.aligned hi.roomsApart hrun
    · exact ⟨free, hi⟩
    · cases hr
  | deallocate _ hp hrun ih =>
    obtain ⟨free, hi⟩ := ih
    exact ⟨_, inv_deallocate hi hp hrun⟩
  | write mem _ hmem ih =>
    obtain ⟨free, hi⟩ := ih
    exact ⟨free, inv_write hi hmem⟩

/-- Chunks that keep apart start at different addresses. -/
theorem nodup_starts {free : List Block} (hap : free.Pairwise Block.Apart)
    (hok : ∀ b ∈ free, ChunkList.ChunkOk b) : (free.map Block.start).Nodup := by
  rw [List.Nodup, List.pairwise_map]
  refine hap.imp_of_mem fun {b c} hb hc hbc he => ?_
  exact hbc _ (hok b hb).header.1 (he ▸ (hok c hc).header.1)

/-- **An arena neither loses nor shares a byte.** In every state of a run the free list is finite
and acyclic, its chunks are aligned, they and the live blocks cut the arena up exactly, and every
live pointer is aligned as it was asked to be. Inside the address space every allocation returns. -/
theorem arena_tiles {start size : Nat} (hstart : 8 ∣ start) (hsize : 16 ≤ size) {A : Arena}
    {live : List Live} (h : Reaches start size A live) :
    ∃ free : List Block, ChunkList.Seg A.chunks.mem A.chunks.head free none ∧
      (free.map Block.start).Nodup ∧
      (∀ b ∈ free, 8 ∣ b.start ∧ 8 ∣ b.size ∧ 16 ≤ b.size) ∧
      Tiles start (start + alignDown size 8) (free ++ live.map block) ∧
      (∀ e ∈ live, e.2.align ∣ e.1) ∧
      (start + size < 2 ^ 64 → ∀ l l', ChunkList.alignLayout l = ok l' →
        ∀ fuel, free.length < fuel → ∃ r, A.allocate fuel l = ok r) := by
  obtain ⟨free, hi⟩ := h.inv hstart hsize
  have hap := (List.pairwise_append.mp hi.tiles.apart).1
  refine ⟨free, hi.links, nodup_starts hap hi.chunks, hi.chunks, hi.tiles,
    fun e he => (hi.live e he).1, ?_⟩
  intro hfits l l' hl' fuel hf
  have hbound : ∀ b ∈ free, b.start + b.size < 2 ^ 64 := by
    intro b hb
    have h16 := (hi.chunks b hb).2.2
    have h1 := (hi.tiles.bounds (List.mem_append_left _ hb) (by omega)).2
    have h2 := alignDown_le size 8
    omega
  exact allocate_returns hi.links (fun b hb => (hi.chunks b hb).1) hbound hl' hf

/-- A layout of 24 bytes at a 32-byte boundary. -/
def layout24 : Layout := ⟨24, 32, ⟨5, rfl⟩, by decide⟩

/-- The owner of the block at 4160 writes into it. -/
def written (A : Arena) : Arena :=
  ⟨{ A.chunks with mem := Function.update A.chunks.mem 4168 (.usize 7) }⟩

/-- Two blocks in an arena that does not start on their boundary. The owner of the second writes into
it, the first is given back, and its memory is given out again. -/
theorem arena_tiles_reuse : ∃ A, Reaches 4104 4000 A [(4128, layout24), (4160, layout24)] ∧
    ∃ free : List Block, ChunkList.Seg A.chunks.mem A.chunks.head free none ∧
      Tiles 4104 8104 (free ++ [⟨4128, 32⟩, ⟨4160, 32⟩]) := by
  obtain ⟨A₁, A₂, A₃, A₄, h₁, h₂, h₃, h₄⟩ : ∃ A₁ A₂ A₃ A₄,
      (Arena.new (fun _ => .usize 0) 4104 4000).allocate 2 layout24 = ok (A₁, some 4128) ∧
      A₁.allocate 3 layout24 = ok (A₂, some 4160) ∧
      (written A₂).deallocate 4128 layout24 = ok A₃ ∧
      A₃.allocate 4 layout24 = ok (A₄, some 4128) :=
    ⟨_, _, _, _, rfl, rfl, rfl, rfl⟩
  have hreach₂ : Reaches 4104 4000 A₂ [(4160, layout24), (4128, layout24)] :=
    .allocate (.allocate (.new _) h₁) h₂
  have hwritten : Reaches 4104 4000 (written A₂) [(4160, layout24), (4128, layout24)] := by
    apply hreach₂.write
    intro x hx
    apply Function.update_of_ne
    intro heq
    apply hx (4160, layout24) List.mem_cons_self
    rw [heq]
    exact ⟨by decide, by decide⟩
  have hreach₃ : Reaches 4104 4000 A₃ [(4160, layout24)] :=
    hwritten.deallocate (List.mem_cons_of_mem _ List.mem_cons_self) h₃
  have hreach : Reaches 4104 4000 A₄ [(4128, layout24), (4160, layout24)] := hreach₃.allocate h₄
  obtain ⟨free, hlinks, -, -, htiles, -⟩ := arena_tiles (by decide) (by decide) hreach
  exact ⟨A₄, hreach, free, hlinks, htiles⟩

end Arena
end Allora
