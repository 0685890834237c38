import Allora.Proof.Arena.Runs

/-!
# First fit

`can_allocate` looks at one address of a chunk only. It is the lowest that leaves room for a header
before it, or nothing; and where it leaves 8 bytes behind it, no other address of the chunk does any
better, so that the chunk has no place for the layout at all (`refuses_iff`).

The states here are those of arenas that may be given more memory by `append`, in as many regions
as there are calls, of any size. A chunk takes up its header even where it is smaller than that.
-/

set_option autoImplicit false

namespace Allora

open Outcome

/-! ## Legal places -/

namespace ChunkList

/-- `x` is a legal place for the layout in the chunk `b`: before and behind it there is nothing, or
room for a header. -/
structure Legal (l : Layout) (b : Block) (x : Nat) : Prop where
  aligned : l.align ∣ x
  low : b.start ≤ x
  high : x + l.size ≤ b.start + b.size
  front : x = b.start ∨ b.start + 16 ≤ x
  back : x + l.size = b.start + b.size ∨ x + l.size + 16 ≤ b.start + b.size

variable {l : Layout} {b : Block} {x : Nat}

/-- No legal place is below the one that `can_allocate` looks at. -/
theorem Legal.placement_le (h : Legal l b x) : placement b.start l ≤ x := by
  have hpos : 0 < l.align := Nat.pos_of_isPowerOfTwo l.pow
  rw [placement]
  by_cases hstart : b.start = alignUp b.start l.align
  · rw [if_pos hstart]
    exact h.low
  · rw [if_neg hstart]
    rcases h.front with rfl | hfront
    · exact absurd ((alignUp_eq_self hpos).mpr h.aligned) hstart
    · exact alignUp_le hpos hfront h.aligned

/-- **If any place is legal, this one is.** One that leaves 8 bytes behind it would be followed, for
an alignment of 8, by a place that leaves 8 bytes before it. -/
theorem Legal.placement_legal (ha : 8 ∣ b.start) (hl : Padded l) (h : Legal l b x) :
    Legal l b (placement b.start l) := by
  have hle := h.placement_le
  obtain ⟨haligned, -, hfront⟩ := placement_spec ha hl
  obtain ⟨hx, -, hhigh, hxfront, hxback⟩ := h
  refine ⟨haligned, by omega, by omega, hfront, ?_⟩
  have hdvd : l.align ∣ x - placement b.start l := Nat.dvd_sub hx haligned
  have h8 : 8 ∣ x - placement b.start l := hl.align.trans hdvd
  by_cases hgap : x - placement b.start l = 8
  · have h8align : l.align = 8 := Nat.dvd_antisymm (hgap ▸ hdvd) hl.align
    have hstart : placement b.start l = b.start := by
      rw [placement, if_pos]
      rw [h8align]
      exact (alignUp_eq_self (by decide)).mpr ha
    omega
  · omega

/-- **A chunk refuses a layout exactly if it has no legal place for it.** -/
theorem refuses_iff (ha : 8 ∣ b.start) (hl : Padded l) (hend : b.start + b.size < 2 ^ 64) :
    Refuses b l ↔ ∀ x, ¬ Legal l b x := by
  obtain ⟨haligned, -, hfront⟩ := placement_spec ha hl
  rw [Refuses, canAllocate_eq none ha hl hend, Outcome.ok.injEq]
  constructor
  · intro h x hx
    obtain ⟨-, -, hhigh, -, hback⟩ := hx.placement_legal ha hl
    rw [if_neg (by omega), if_pos (hback.imp_left Eq.symm)] at h
    cases h
  · intro h
    by_cases hhigh : b.start + b.size < placement b.start l + l.size
    · rw [if_pos hhigh]
    · rw [if_neg hhigh, if_neg]
      exact fun hback =>
        h _ ⟨haligned, by omega, by omega, hfront, hback.imp_left Eq.symm⟩

theorem Fit.legal {a s : Nat} {info : CanAllocInfo} (h : Fit a s l info) :
    Legal l ⟨a, s⟩ (a + info.allocStartOffset) := by
  have hroom := h.room
  have hfront := h.front
  have hback := h.back
  refine ⟨h.aligned, Nat.le_add_right .., ?_, ?_, ?_⟩
  · show a + info.allocStartOffset + l.size ≤ a + s
    omega
  · show a + info.allocStartOffset = a ∨ a + 16 ≤ a + info.allocStartOffset
    omega
  · show a + info.allocStartOffset + l.size = a + s ∨
      a + info.allocStartOffset + l.size + 16 ≤ a + s
    omega

end ChunkList

/-! ## Arenas that are given more memory -/

namespace Arena

open ChunkList

/-- The chunk that `init_chunk` makes. -/
def initial (start size : Nat) : Block := ⟨alignUp start CHUNK_ALIGN, alignDown size CHUNK_ALIGN⟩

/-- The states of an arena made by `Arena::new` and extended by `append`, with the memory it was
given, which nothing else uses, and its live blocks. -/
inductive Grown : List Block → Arena → List Live → Prop
  | new (mem : Nat → Word) (start size : Nat) :
      Grown [room (initial start size)] (Arena.new mem start size) []
  | append {regions : List Block} {A A' : Arena} {live : List Live} {fuel start size : Nat} :
      Grown regions A live → (∀ r ∈ regions, (room (initial start size)).Apart r) →
      A.append fuel start size = ok A' → Grown (room (initial start size) :: regions) A' live
  | allocate {regions : List Block} {A A' : Arena} {live : List Live} {fuel p : Nat} {l : Layout} :
      Grown regions A live → A.allocate fuel l = ok (A', some p) →
      Grown regions A' ((p, l) :: live)
  | refuse {regions : List Block} {A A' : Arena} {live : List Live} {fuel : Nat} {l : Layout} :
      Grown regions A live → A.allocate fuel l = ok (A', none) → Grown regions A' live
  | deallocate {regions : List Block} {A A' : Arena} {live : List Live} {p : Nat} {l : Layout} :
      Grown regions A live → (p, l) ∈ live → A.deallocate p l = ok A' →
      Grown regions A' (live.erase (p, l))
  | write {regions : List Block} {A : Arena} {live : List Live} (mem : Nat → Word) :
      Grown regions A live →
      (∀ x, (∀ e ∈ live, ¬ (block e).Has x) → mem x = A.chunks.mem x) →
      Grown regions ⟨{ A.chunks with mem := mem }⟩ live

/-- A run without `append` is one of these. -/
theorem Reaches.grown {start size : Nat} {A : Arena} {live : List Live}
    (h : Reaches start size A live) : Grown [room (initial start size)] A live := by
  induction h with
  | new mem => exact .new mem start size
  | allocate _ hrun ih => exact .allocate ih hrun
  | refuse _ hrun ih => exact .refuse ih hrun
  | deallocate _ hp hrun ih => exact .deallocate ih hp hrun
  | write mem _ hmem ih => exact .write mem ih hmem

/-- What such a run keeps. -/
structure Kept (regions : List Block) (A : Arena) (live : List Live) (free : List Block) :
    Prop where
  links : Seg A.chunks.mem A.chunks.head free none
  aligned : ∀ b ∈ free, 8 ∣ b.start ∧ 8 ∣ b.size
  placed : Placed regions (free.map room ++ live.map block)
  live : ∀ e ∈ live, 8 ∣ e.1 ∧ ∃ l', alignLayout e.2 = ok l'

section Steps

variable {regions : List Block} {A A' : Arena} {live : List Live} {free : List Block}

theorem Kept.roomsApart (h : Kept regions A live free) : RoomsApart free :=
  List.pairwise_map.mp (List.pairwise_append.mp h.placed.apart).1

theorem initial_aligned (start size : Nat) :
    8 ∣ (initial start size).start ∧ 8 ∣ (initial start size).size :=
  ⟨dvd_alignUp start 8, dvd_alignDown size 8⟩

theorem kept_new (mem : Nat → Word) (start size : Nat) :
    Kept [room (initial start size)] (Arena.new mem start size) [] [initial start size] := by
  refine ⟨?_, ?_, ⟨?_, ?_⟩, by simp⟩
  · show Seg ((ChunkList.empty mem).writeChunk (initial start size).start
      ⟨(initial start size).size, none⟩).mem (some (initial start size).start) _ none
    exact ⟨rfl, by simp, none, by simp, rfl⟩
  · intro b hb
    rw [List.mem_singleton] at hb
    exact hb ▸ initial_aligned start size
  · simp
  · intro b hb
    exact ⟨b, by simpa using hb, fun x hx => hx⟩

/-- The new chunk comes last: its header is written, and the link out of the list is redirected. -/
theorem kept_append {fuel start size : Nat} (h : Kept regions A live free)
    (hap : ∀ r ∈ regions, (room (initial start size)).Apart r)
    (hrun : A.append fuel start size = ok A') :
    Kept (room (initial start size) :: regions) A' live (free ++ [initial start size]) := by
  simp only [Arena.append, ChunkList.append, bind_eq_ok, pure_eq_ok, Outcome.ok.injEq] at hrun
  obtain ⟨chunks, ⟨prev, hlast, rfl⟩, rfl⟩ := hrun
  have hplaced := h.placed.add hap
  have hfree : ∀ b ∈ free, (room (initial start size)).Apart (room b) := fun b hb =>
    (List.pairwise_cons.mp hplaced.apart).1 _ (List.mem_append_left _ (List.mem_map_of_mem hb))
  -- the header of the new chunk lies outside of all the others
  have hseg : Seg (A.chunks.initChunk start size none).1.mem
      (A.chunks.initChunk start size none).1.head free none :=
    h.links.frame hfree fun x hx =>
      writeChunk_frame _ _ (has_room_start (initial start size)) (has_room_next _) hx
  obtain rfl := ChunkList.last_seg hseg hlast
  refine ⟨?_, ?_, ?_, h.live⟩
  · rw [seg_append]
    refine ⟨_, setNext_seg _ hseg h.roomsApart, rfl, ?_, none, ?_, rfl⟩
    · rw [setNext_frame _ _ fun b hb hx => hfree b hb _ (has_room_start _) hx]
      exact writeChunk_size _ _ _
    · rw [setNext_frame _ _ fun b hb hx => hfree b hb _ (has_room_next _) hx]
      exact writeChunk_next _ _ _
  · intro b hb
    rcases List.mem_append.mp hb with hb | hb
    · exact h.aligned b hb
    · rw [List.mem_singleton] at hb
      exact hb ▸ initial_aligned start size
  · refine hplaced.perm ?_
    rw [List.map_append, List.map_singleton, List.append_assoc, List.singleton_append]
    exact List.perm_middle.symm

theorem kept_allocate {fuel p : Nat} {l : Layout} (h : Kept regions A live free)
    (hrun : A.allocate fuel l = ok (A', some p)) :
    ∃ free', Kept regions A' ((p, l) :: live) free' := by
  obtain ⟨l', hl', hpad, ⟨hr, -⟩ | ⟨pre, s, post, a, info, rfl, -, hc, hfit, hr, hseg, -⟩⟩ :=
    allocate_cases h.links h.aligned h.roomsApart hrun
  · cases hr
  cases hr
  have hleft := leftover_ok hc hpad hfit
  have hblock : block (a + info.allocStartOffset, l) = ⟨a + info.allocStartOffset, l'.size⟩ := by
    simp [block, paddedSize, hl']
  have hrooms : (leftover a s info.allocStartOffset l'.size).map room =
      leftover a s info.allocStartOffset l'.size :=
    (List.map_congr_left fun b hb => (hleft b hb).1.room_eq).trans (List.map_id _)
  refine ⟨_, hseg, ?_, ?_, ?_⟩
  · intro b hb
    simp only [List.mem_append] at hb
    rcases hb with hb | hb | hb
    · exact h.aligned b (by simp [hb])
    · exact ⟨(hleft b hb).1.1, (hleft b hb).1.2.1⟩
    · exact h.aligned b (by simp [hb])
  · have hfront : Placed regions (⟨a, s⟩ :: (pre.map room ++ post.map room ++ live.map block)) := by
      refine h.placed.perm ?_
      rw [List.map_append, List.map_cons, hc.room_eq, List.append_assoc, List.append_assoc,
        List.cons_append]
      exact List.perm_middle
    refine (hfront.carve hfit.room).perm ?_
    rw [List.map_cons, hblock, List.map_append, List.map_append, hrooms]
    refine List.Perm.trans (List.Perm.cons _ ?_) List.perm_middle.symm
    simp only [List.append_assoc]
    rw [← List.append_assoc, ← List.append_assoc (pre.map room)]
    exact List.perm_append_comm.append_right _
  · intro e he
    rcases List.mem_cons.mp he with rfl | he
    · exact ⟨hpad.align.trans hfit.aligned, l', hl'⟩
    · exact h.live e he

theorem kept_deallocate {p : Nat} {l : Layout} (h : Kept regions A live free) (hp : (p, l) ∈ live)
    (hrun : A.deallocate p l = ok A') :
    Kept regions A' (live.erase (p, l)) (block (p, l) :: free) := by
  obtain ⟨hp8, l', hl'⟩ := h.live _ hp
  have hbok := block_ok hp8 hl'
  have hplaced : Placed regions
      (block (p, l) :: (free.map room ++ (live.erase (p, l)).map block)) :=
    h.placed.perm
      ((((List.perm_cons_erase hp).map block).append_left (free.map room)).trans List.perm_middle)
  refine ⟨?_, ?_, ?_, fun e he => h.live e (List.erase_subset he)⟩
  · refine deallocate_links h.links hp8 (fun b hb => ?_) hrun
    exact (List.pairwise_cons.mp hplaced.apart).1 _
      (List.mem_append_left _ (List.mem_map_of_mem hb))
  · exact List.forall_mem_cons.mpr ⟨⟨hbok.1, hbok.2.1⟩, h.aligned⟩
  · rwa [List.map_cons, hbok.room_eq]

theorem kept_write (h : Kept regions A live free) {mem : Nat → Word}
    (hmem : ∀ x, (∀ e ∈ live, ¬ (block e).Has x) → mem x = A.chunks.mem x) :
    Kept regions ⟨{ A.chunks with mem := mem }⟩ live free := by
  have hcross := (List.pairwise_append.mp h.placed.apart).2.2
  have hout : ∀ b ∈ free, ∀ x, (room b).Has x → mem x = A.chunks.mem x := fun b hb x hx =>
    hmem x fun e he hex => hcross _ (List.mem_map_of_mem hb) _ (List.mem_map_of_mem he) x hx hex
  refine ⟨h.links.congr fun b hb => ⟨?_, ?_⟩, h.aligned, h.placed, h.live⟩
  · exact hout b hb _ (has_room_start b)
  · exact hout b hb _ (has_room_next b)

end Steps

theorem Grown.kept {regions : List Block} {A : Arena} {live : List Live}
    (h : Grown regions A live) : ∃ free, Kept regions A live free := by
  induction h with
  | new mem start size => exact ⟨_, kept_new mem start size⟩
  | append _ hap hrun ih =>
    obtain ⟨free, hk⟩ := ih
    exact ⟨_, kept_append hk hap hrun⟩
  | allocate _ hrun ih =>
    obtain ⟨free, hk⟩ := ih
    exact kept_allocate hk hrun
  | refuse _ hrun ih =>
    obtain ⟨free, hk⟩ := ih
    obtain ⟨l', -, -, ⟨-, rfl, -⟩ | ⟨pre, s, post, a, info, -, -, -, -, hr, -⟩⟩ :=
      allocate_cases hk.links hk.aligned hk.roomsApart hrun
    · exact ⟨free, hk⟩
    · cases hr
  | deallocate _ hp hrun ih =>
    obtain ⟨free, hk⟩ := ih
    exact ⟨_, kept_deallocate hk hp hrun⟩
  | write mem _ hmem ih =>
    obtain ⟨free, hk⟩ := ih
    exact ⟨free, kept_write hk hmem⟩

/-! ## The answer of `allocate` -/

/-- What `allocate` did to the free list when it answered with `p`: it took the first chunk with a
legal place, at its lowest one, and nothing but this chunk and the link to it was written. -/
structure FirstFit (A A' : Arena) (free : List Block) (l : Layout) (p : Nat) (pre : List Block)
    (c : Block) (post : List Block) : Prop where
  split : free = pre ++ c :: post
  first : ∀ b ∈ pre, ∀ x, ¬ Legal l b x
  legal : Legal l c p
  lowest : ∀ x, Legal l c x → p ≤ x
  links : Seg A'.chunks.mem A'.chunks.head
    (pre ++ (leftover c.start c.size (p - c.start) l.size ++ post)) none
  frame : ∀ x, ¬ c.Has x → (∀ q, lastOf none pre = some q → x ≠ q + 8) →
    A'.chunks.mem x = A.chunks.mem x

theorem Kept.bounded {regions : List Block} {A : Arena} {live : List Live} {free : List Block}
    (h : Kept regions A live free) (hfits : ∀ r ∈ regions, r.start + r.size < 2 ^ 64) :
    ∀ b ∈ free, b.start + b.size < 2 ^ 64 := by
  intro b hb
  obtain ⟨r, hr, hin⟩ := h.placed.inside (room b) (List.mem_append_left _ (List.mem_map_of_mem hb))
  have hend := hfits r hr
  have hlast := (hin (b.start + max b.size CHUNK_SIZE - 1)
    ⟨by simp only [room, CHUNK_SIZE]; omega, by simp only [room, CHUNK_SIZE]; omega⟩).2
  simp only [CHUNK_SIZE] at hlast
  omega

/-- **`allocate` finds a legal place where there is one.** In every state of a run it answers with
nothing exactly if no chunk has a legal place for the padded layout, and otherwise takes the lowest
one in the first chunk that has any. -/
theorem allocate_firstFit {regions : List Block} {A : Arena} {live : List Live}
    (h : Grown regions A live) (hfits : ∀ r ∈ regions, r.start + r.size < 2 ^ 64)
    {l l' : Layout} (hl : alignLayout l = ok l') :
    ∃ free, Seg A.chunks.mem A.chunks.head free none ∧
      ∀ fuel, free.length < fuel → ∃ A' r, A.allocate fuel l = ok (A', r) ∧
        (r = none ↔ ∀ b ∈ free, ∀ x, ¬ Legal l' b x) ∧ (r = none → A' = A) ∧
        ∀ p, r = some p → ∃ pre c post, FirstFit A A' free l' p pre c post := by
  obtain ⟨free, hk⟩ := h.kept
  have hpad := (alignLayout_padded hl).1
  have hbound := hk.bounded hfits
  refine ⟨free, hk.links, fun fuel hfuel => ?_⟩
  obtain ⟨⟨A', r⟩, hrun⟩ :=
    allocate_returns hk.links (fun b hb => (hk.aligned b hb).1) hbound hl hfuel
  have hrefuses : ∀ b ∈ free, Refuses b l' ↔ ∀ x, ¬ Legal l' b x := fun b hb =>
    refuses_iff (hk.aligned b hb).1 hpad (hbound b hb)
  refine ⟨A', r, hrun, ?_⟩
  obtain ⟨l₁, hl₁, -, hcases⟩ := allocate_cases hk.links hk.aligned hk.roomsApart hrun
  cases Outcome.ok.inj (hl.symm.trans hl₁)
  rcases hcases with
    ⟨rfl, rfl, hall⟩ | ⟨pre, s, post, a, info, rfl, hpre, hc, hfit, rfl, hseg, hmem, -⟩
  · exact ⟨iff_of_true rfl fun b hb => (hrefuses b hb).mp (hall b hb), fun _ => rfl,
      fun _ h => nomatch h⟩
  · have hlegal := hfit.legal
    refine ⟨iff_of_false nofun fun hnone => hnone ⟨a, s⟩ (by simp) _ hlegal, nofun, ?_⟩
    rintro p ⟨⟩
    refine ⟨pre, ⟨a, s⟩, post, rfl, ?_, hlegal, ?_, ?_, hmem⟩
    · exact fun b hb => (hrefuses b (by simp [hb])).mp (hpre b hb)
    · intro x hx
      rw [hfit.place]
      exact hx.placement_le
    · rw [Nat.add_sub_cancel_left]
      exact hseg

/-- An arena made from no memory but that of a header, and then given a page. -/
theorem allocate_firstFit_appended : ∃ A l' free,
    (Arena.new (fun _ => .usize 0) 4104 0).append 2 8192 4096 = ok A ∧
    alignLayout layout24 = ok l' ∧ Seg A.chunks.mem A.chunks.head free none ∧
    ∀ fuel, free.length < fuel → ∃ A' r, A.allocate fuel layout24 = ok (A', r) ∧
      (r = none ↔ ∀ b ∈ free, ∀ x, ¬ Legal l' b x) := by
  obtain ⟨A, hA⟩ : ∃ A, (Arena.new (fun _ => .usize 0) 4104 0).append 2 8192 4096 = ok A :=
    ⟨_, rfl⟩
  obtain ⟨l', hl'⟩ : ∃ l', alignLayout layout24 = ok l' := ⟨_, rfl⟩
  have hfirst : room (initial 4104 0) = ⟨4104, 16⟩ := rfl
  have hpage : room (initial 8192 4096) = ⟨8192, 4096⟩ := rfl
  have hgrown : Grown [⟨8192, 4096⟩, ⟨4104, 16⟩] A [] := by
    rw [← hfirst, ← hpage]
    refine .append (.new _ 4104 0) ?_ hA
    intro r hr x hx hrx
    rw [List.mem_singleton.mp hr, hfirst] at hrx
    rw [hpage] at hx
    simp only [Block.Has] at hx hrx
    omega
  obtain ⟨free, hlinks, hall⟩ := allocate_firstFit hgrown (by decide) hl'
  refine ⟨A, l', free, hA, hl', hlinks, fun fuel hfuel => ?_⟩
  obtain ⟨A', r, hrun, hiff, -⟩ := hall fuel hfuel
  exact ⟨A', r, hrun, hiff⟩

end Arena
end Allora
