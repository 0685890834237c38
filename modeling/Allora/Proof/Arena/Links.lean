import Allora.Lib.Tiling
import Allora.Mm.ChunkList

/-!
# The free list in memory

`Seg mem l bs r`: starting from the link `l`, the headers in memory name the chunks of `bs` one
after another, and the link after the last of them is `r`. The whole free list is a segment from
the head that ends in `none`. Two edits of a segment are all that the allocator makes: headers are
written somewhere inside one block (`Seg.congr` for the others), and the link out of a segment is
redirected (`setNext_seg`).
-/

set_option autoImplicit false

namespace Allora
namespace ChunkList

open Outcome

/-- The headers in memory lead from `l` through the blocks and out to `r`. -/
def Seg (mem : Nat → Word) : Option Nat → List Block → Option Nat → Prop
  | l, [], r => l = r
  | l, b :: bs, r =>
      l = some b.start ∧ mem b.start = .usize b.size ∧
        ∃ k, mem (b.start + 8) = .link k ∧ Seg mem k bs r

theorem seg_append {mem : Nat → Word} {bs cs : List Block} {l r : Option Nat} :
    Seg mem l (bs ++ cs) r ↔ ∃ k, Seg mem l bs k ∧ Seg mem k cs r := by
  induction bs generalizing l with
  | nil => simp [Seg]
  | cons b bs ih =>
    simp only [List.cons_append, Seg, ih]
    constructor
    · rintro ⟨hl, hs, k, hk, m, hm, hc⟩
      exact ⟨m, ⟨hl, hs, k, hk, hm⟩, hc⟩
    · rintro ⟨m, ⟨hl, hs, k, hk, hm⟩, hc⟩
      exact ⟨hl, hs, k, hk, m, hm, hc⟩

/-- A segment depends on its headers only. -/
theorem Seg.congr {mem mem' : Nat → Word} {bs : List Block} {r : Option Nat} :
    ∀ {l : Option Nat}, Seg mem l bs r →
      (∀ b ∈ bs, mem' b.start = mem b.start ∧ mem' (b.start + 8) = mem (b.start + 8)) →
      Seg mem' l bs r := by
  induction bs with
  | nil => exact fun h _ => h
  | cons b bs ih =>
    rintro l ⟨hl, hs, k, hk, hr⟩ heq
    have hb := heq b (by simp)
    exact ⟨hl, hb.1.trans hs, k, hb.2.trans hk, ih hr fun c hc => heq c (by simp [hc])⟩

/-- A chunk of the free list: aligned, and large enough for its header. -/
def ChunkOk (b : Block) : Prop := 8 ∣ b.start ∧ 8 ∣ b.size ∧ 16 ≤ b.size

/-- The header of a chunk lies in the chunk. -/
theorem ChunkOk.header {b : Block} (h : ChunkOk b) : b.Has b.start ∧ b.Has (b.start + 8) := by
  obtain ⟨-, -, hs⟩ := h
  simp only [Block.Has]
  omega

/-- What a chunk takes up: its bytes, but at least its header. -/
def room (b : Block) : Block := ⟨b.start, max b.size CHUNK_SIZE⟩

theorem has_room_start (b : Block) : (room b).Has b.start := by
  simp only [room, Block.Has, CHUNK_SIZE]
  omega

theorem has_room_next (b : Block) : (room b).Has (b.start + 8) := by
  simp only [room, Block.Has, CHUNK_SIZE]
  omega

/-- The rooms of the chunks keep apart. -/
def RoomsApart (bs : List Block) : Prop := bs.Pairwise fun b c => (room b).Apart (room c)

theorem ChunkOk.room_eq {b : Block} (h : ChunkOk b) : room b = b := by
  rw [room, CHUNK_SIZE, Nat.max_eq_left h.2.2]

theorem roomsApart_of_ok {bs : List Block} (hok : ∀ b ∈ bs, ChunkOk b)
    (hap : bs.Pairwise Block.Apart) : RoomsApart bs :=
  hap.imp_of_mem fun {b c} hb hc hbc => by
    rwa [(hok b hb).room_eq, (hok c hc).room_eq]

/-- Writes inside a block do not reach the headers of chunks apart from it. -/
theorem Seg.frame {mem mem' : Nat → Word} {bs : List Block} {l r : Option Nat} {c : Block}
    (h : Seg mem l bs r) (hap : ∀ b ∈ bs, c.Apart (room b))
    (hm : ∀ x, ¬ c.Has x → mem' x = mem x) : Seg mem' l bs r :=
  h.congr fun b hb =>
    ⟨hm _ fun hc => hap b hb _ hc (has_room_start b),
      hm _ fun hc => hap b hb _ hc (has_room_next b)⟩

/-- The chunk whose `next` leads out of a segment that starts at the head. -/
def lastOf (cur : Option Nat) (bs : List Block) : Option Nat :=
  (bs.getLast?.map Block.start).or cur

theorem lastOf_cons (cur : Option Nat) (b : Block) (bs : List Block) :
    lastOf cur (b :: bs) = lastOf (some b.start) bs := by
  simp only [lastOf, List.getLast?_cons]
  cases bs.getLast? <;> rfl

/-- Redirecting the link out of a segment. -/
theorem setNext_seg {cl : ChunkList} {bs : List Block} {r : Option Nat} (k : Option Nat)
    (h : Seg cl.mem cl.head bs r) (hap : RoomsApart bs) :
    Seg (cl.setNext (lastOf none bs) k).mem (cl.setNext (lastOf none bs) k).head bs k := by
  rcases List.eq_nil_or_concat bs with rfl | ⟨pre, b, rfl⟩
  · exact rfl
  rw [List.concat_eq_append] at h hap ⊢
  have hlast : lastOf none (pre ++ [b]) = some b.start := by simp [lastOf]
  obtain ⟨m, hpre, hb⟩ := seg_append.mp h
  obtain ⟨hm, hsize, -, -, -⟩ := hb
  rw [RoomsApart, List.pairwise_append] at hap
  rw [hlast, seg_append]
  refine ⟨m, ?_, hm, ?_, k, ?_, rfl⟩
  · refine hpre.frame (fun c hc => (hap.2.2 c hc b (by simp)).symm) fun x hx => ?_
    refine Function.update_of_ne ?_ _ _
    rintro rfl
    exact hx (has_room_next b)
  · rw [← hsize]
    exact Function.update_of_ne (by omega) _ _
  · exact Function.update_self ..

/-! ## Reading and writing -/

theorem writeChunk_mem_ne (cl : ChunkList) (a : Nat) (c : Chunk) {x : Nat} (h1 : x ≠ a)
    (h2 : x ≠ a + 8) : (cl.writeChunk a c).mem x = cl.mem x := by
  simp [writeChunk, h1, h2]

@[simp] theorem writeChunk_size (cl : ChunkList) (a : Nat) (c : Chunk) :
    (cl.writeChunk a c).mem a = .usize c.size := by
  simp [writeChunk]

@[simp] theorem writeChunk_next (cl : ChunkList) (a : Nat) (c : Chunk) :
    (cl.writeChunk a c).mem (a + 8) = .link c.next := by
  simp [writeChunk]

@[simp] theorem writeChunk_head (cl : ChunkList) (a : Nat) (c : Chunk) :
    (cl.writeChunk a c).head = cl.head := rfl

/-- A header written inside a block changes nothing outside it. -/
theorem writeChunk_frame (cl : ChunkList) {a : Nat} (c : Chunk) {b : Block} (h1 : b.Has a)
    (h2 : b.Has (a + 8)) {x : Nat} (hx : ¬ b.Has x) : (cl.writeChunk a c).mem x = cl.mem x :=
  writeChunk_mem_ne cl a c (fun h => hx (h ▸ h1)) (fun h => hx (h ▸ h2))

/-- Redirecting a link changes nothing but the link. -/
theorem setNext_mem_ne (cl : ChunkList) {prev : Option Nat} (k : Option Nat) {x : Nat}
    (hx : ∀ a, prev = some a → x ≠ a + 8) : (cl.setNext prev k).mem x = cl.mem x := by
  cases prev with
  | none => rfl
  | some a => exact Function.update_of_ne (hx a rfl) _ _

theorem mem_of_lastOf {bs : List Block} {a : Nat} (h : lastOf none bs = some a) :
    ∃ b ∈ bs, b.start = a := by
  simp only [lastOf, Option.or_none, Option.map_eq_some_iff] at h
  obtain ⟨b, hb, rfl⟩ := h
  exact ⟨b, List.mem_of_getLast? hb, rfl⟩

theorem setNext_frame (cl : ChunkList) {bs : List Block} (k : Option Nat) {x : Nat}
    (hx : ∀ b ∈ bs, ¬ (room b).Has x) : (cl.setNext (lastOf none bs) k).mem x = cl.mem x := by
  refine setNext_mem_ne cl k fun a ha => ?_
  obtain ⟨b, hb, rfl⟩ := mem_of_lastOf ha
  rintro rfl
  exact hx b hb (has_room_next b)

/-- A redirection that is overwritten does not count. -/
theorem setNext_setNext (cl : ChunkList) (prev k k' : Option Nat) :
    (cl.setNext prev k).setNext prev k' = cl.setNext prev k' := by
  cases prev with
  | none => rfl
  | some a => simp [setNext]

theorem setNext_writeChunk (cl : ChunkList) (prev k : Option Nat) (a : Nat) (c : Chunk)
    (h : ∀ p, prev = some p → p + 8 ≠ a ∧ p + 8 ≠ a + 8) :
    (cl.setNext prev k).writeChunk a c = (cl.writeChunk a c).setNext prev k := by
  cases prev with
  | none => rfl
  | some p =>
    obtain ⟨h1, h2⟩ := h p rfl
    simp only [setNext, writeChunk, mk.injEq, and_true]
    rw [Function.update_comm h1, Function.update_comm h2]

end ChunkList
end Allora
