import Allora.Proof.Arena.FirstFit

/-!
# Rounds of one layout

A block that is given back is the first chunk of the free list, and of the very size that was cut
out for it: `deallocate` pads the layout as `allocate` does. So the next `allocate` of the layout
takes this chunk, the whole of it, and the list behind it is the one there was before. What the
owner has left in the block does not matter, as `deallocate` writes the header anew.
-/

set_option autoImplicit false

namespace Allora
namespace Arena

open Outcome ChunkList

/-- The owner of a live block leaves `w` in it. -/
def fill (A : Arena) (e : Live) (w : Nat → Word) : Arena :=
  ⟨{ A.chunks with
      mem := fun x =>
        if (block e).start ≤ x ∧ x < (block e).start + (block e).size then w x
        else A.chunks.mem x }⟩

/-- A block is given back and its layout asked for again, as often as there are contents that its
owners leave in it. -/
def rounds (fuel : Nat) (l : Layout) :
    List (Nat → Word) → Arena → Nat → Outcome (Arena × Option Nat)
  | [], A, p => ok (A, some p)
  | w :: ws, A, p => do
      let A ← (A.fill (p, l) w).deallocate p l
      match ← A.allocate fuel l with
      | (A, some p) => rounds fuel l ws A p
      | (A, none) => ok (A, none)

/-- The headers in memory name one list only. -/
theorem seg_unique {mem : Nat → Word} {bs : List Block} :
    ∀ {l : Option Nat} {cs : List Block}, Seg mem l bs none → Seg mem l cs none → bs = cs := by
  induction bs with
  | nil =>
    intro l cs hb hc
    cases cs with
    | nil => rfl
    | cons c cs =>
      have hnone : l = none := hb
      exact absurd (hnone.symm.trans hc.1) nofun
  | cons b bs ih =>
    intro l cs hb hc
    obtain ⟨hl, hsize, k, hk, hrest⟩ := hb
    cases cs with
    | nil =>
      have hnone : l = none := hc
      exact absurd (hl.symm.trans hnone) nofun
    | cons c cs =>
      obtain ⟨hl', hsize', k', hk', hrest'⟩ := hc
      have hstart : b.start = c.start := Option.some.inj (hl.symm.trans hl')
      have hb : b.size = c.size := Word.usize.inj (hsize.symm.trans (hstart ▸ hsize'))
      have hlink : k = k' := Word.link.inj (hk.symm.trans (hstart ▸ hk'))
      rw [show b = c from congrArg₂ Block.mk hstart hb, ih hrest (hlink ▸ hrest')]

section Round

variable {regions : List Block} {A A' : Arena} {live : List Live} {free : List Block}
  {l l' : Layout} {p fuel : Nat}

/-- Where an allocation has put its block. -/
theorem allocate_place (h : Kept regions A live free)
    (hrun : A.allocate fuel l = ok (A', some p)) (hl : alignLayout l = ok l') :
    l'.align ∣ p ∧ p + l'.size < 2 ^ 64 := by
  obtain ⟨l₁, hl₁, -, ⟨hr, -⟩ | ⟨pre, s, post, a, info, -, -, -, hfit, hr, -, -, hend⟩⟩ :=
    allocate_cases h.links h.aligned h.roomsApart hrun
  · cases hr
  cases Outcome.ok.inj (hl.symm.trans hl₁)
  cases hr
  have hroom := hfit.room
  exact ⟨hfit.aligned, by omega⟩

theorem kept_fill (h : Kept regions A ((p, l) :: live) free) (w : Nat → Word) :
    Kept regions (A.fill (p, l) w) ((p, l) :: live) free := by
  refine kept_write h fun x hx => ?_
  exact if_neg fun hin => hx (p, l) (List.mem_cons_self ..) hin

/-- The front chunk is the layout's own: the search stops there, and all of it is taken. -/
theorem allocate_front (h : Kept regions A live (block (p, l) :: free))
    (hl : alignLayout l = ok l') (hp : l'.align ∣ p) (hend : p + l'.size < 2 ^ 64)
    (hfuel : 0 < fuel) :
    ∃ A', A.allocate fuel l = ok (A', some p) ∧ Kept regions A' ((p, l) :: live) free := by
  obtain ⟨hpad, -, -⟩ := alignLayout_padded hl
  have hp8 : 8 ∣ p := hpad.align.trans hp
  have hblock : block (p, l) = ⟨p, l'.size⟩ := by simp [block, paddedSize, hl]
  have hroom := (block_ok hp8 hl).room_eq
  have hplaced := h.placed
  rw [List.map_cons, hroom, List.cons_append] at hplaced
  obtain ⟨fuel, rfl⟩ := Nat.exists_eq_succ_of_ne_zero (Nat.ne_of_gt hfuel)
  have hnext : Seg A.chunks.mem (A.chunks.next none) (block (p, l) :: free) none := h.links
  have hround : A.chunks.firstFit l' (fuel + 1) none = _ := (firstFit_cons hnext).2
  -- `p` is where `can_allocate` looks, and nothing is left behind the block
  have hplacement : placement p l' = p :=
    if_pos ((alignUp_eq_self (Nat.pos_of_isPowerOfTwo l'.pow)).mpr hp)
  have hcan : Chunk.canAllocate ⟨l'.size, none⟩ p l' = ok (some ⟨p, p + l'.size, 0, l'.size⟩) := by
    rw [canAllocate_eq none hp8 hpad hend, hplacement, if_neg (Nat.lt_irrefl _),
      if_pos (Or.inl rfl), Nat.sub_self, Nat.add_sub_cancel_left]
  obtain ⟨-, hsize, k, hk, hrest⟩ := h.links
  rw [hblock] at hsize hk hround
  have hchunk : A.chunks.chunk p = ⟨l'.size, k⟩ := by
    simp only [chunk, show A.chunks.mem p = .usize l'.size from hsize,
      show A.chunks.mem (p + 8) = .link k from hk]
    rfl
  have hcarve : A.chunks.carve none p ⟨p, p + l'.size, 0, l'.size⟩ =
      ({ A.chunks with head := k }, p) := by
    rw [carve, hchunk, if_pos rfl, if_pos rfl]
    rfl
  refine ⟨⟨{ A.chunks with head := k }⟩, ?_, hrest, ?_, ?_, ?_⟩
  · simp only [Arena.allocate, hl, ok_bind, popFirstFit, hround, hcan, hcarve]
    rfl
  · exact fun b hb => h.aligned b (List.mem_cons_of_mem _ hb)
  · exact hplaced.perm List.perm_middle.symm
  · exact List.forall_mem_cons.mpr ⟨⟨hp8, l', hl⟩, h.live⟩

/-- **One round**: the block that is given back is the answer to the next call. -/
theorem round_kept (h : Kept regions A ((p, l) :: live) free) (hl : alignLayout l = ok l')
    (hp : l'.align ∣ p) (hend : p + l'.size < 2 ^ 64) :
    ∃ A₂, A.deallocate p l = ok A₂ ∧ ∀ fuel, 0 < fuel →
      ∃ A₃, A₂.allocate fuel l = ok (A₃, some p) ∧ Kept regions A₃ ((p, l) :: live) free := by
  obtain ⟨A₂, hdealloc⟩ : ∃ A₂, A.deallocate p l = ok A₂ := by
    simp only [Arena.deallocate, hl, ok_bind]
    exact ⟨_, rfl⟩
  have hfreed := kept_deallocate h (List.mem_cons_self ..) hdealloc
  rw [List.erase_cons_head] at hfreed
  exact ⟨A₂, hdealloc, fun fuel hfuel => allocate_front hfreed hl hp hend hfuel⟩

/-- Any number of rounds, whatever is left in the block before each. -/
theorem rounds_kept (hl : alignLayout l = ok l') (hp : l'.align ∣ p) (hend : p + l'.size < 2 ^ 64)
    (hfuel : 0 < fuel) (ws : List (Nat → Word)) :
    ∀ {A : Arena}, Kept regions A ((p, l) :: live) free →
      ∃ A', rounds fuel l ws A p = ok (A', some p) ∧ Kept regions A' ((p, l) :: live) free := by
  induction ws with
  | nil => exact fun {A} h => ⟨A, rfl, h⟩
  | cons w ws ih =>
    intro A h
    obtain ⟨A₂, hdealloc, hround⟩ := round_kept (kept_fill h w) hl hp hend
    obtain ⟨A₃, halloc, hkept⟩ := hround fuel hfuel
    obtain ⟨A', hrun, hkept'⟩ := ih hkept
    refine ⟨A', ?_, hkept'⟩
    rw [rounds, hdealloc, ok_bind, halloc, ok_bind]
    exact hrun

end Round

/-- **Giving a block back and asking for it again changes nothing.** If `allocate` has answered with
`p` and left a free list, then `deallocate` and `allocate` of the layout answer with `p` again and
leave that very list, and so does any number of such rounds. -/
theorem rounds_exact {regions : List Block} {A A₁ : Arena} {live : List Live}
    (h : Grown regions A live) {n p : Nat} {l : Layout}
    (hrun : A.allocate n l = ok (A₁, some p)) :
    ∃ free, Seg A₁.chunks.mem A₁.chunks.head free none ∧
      (∃ A₂, A₁.deallocate p l = ok A₂ ∧ ∀ fuel, 0 < fuel → ∃ A₃,
        A₂.allocate fuel l = ok (A₃, some p) ∧
        ∀ free', Seg A₃.chunks.mem A₃.chunks.head free' none ↔ free' = free) ∧
      ∀ fuel, 0 < fuel → ∀ ws, ∃ A₃, rounds fuel l ws A₁ p = ok (A₃, some p) ∧
        ∀ free', Seg A₃.chunks.mem A₃.chunks.head free' none ↔ free' = free := by
  obtain ⟨before, hbefore⟩ := h.kept
  obtain ⟨free, hkept⟩ := kept_allocate hbefore hrun
  obtain ⟨-, l', hl⟩ := hkept.live (p, l) (List.mem_cons_self ..)
  obtain ⟨hp, hend⟩ := allocate_place hbefore hrun hl
  have hlist : ∀ {A₃ : Arena}, Kept regions A₃ ((p, l) :: live) free →
      ∀ free', Seg A₃.chunks.mem A₃.chunks.head free' none ↔ free' = free := by
    intro A₃ hk free'
    constructor
    · exact fun hseg => seg_unique hseg hk.links
    · rintro rfl
      exact hk.links
  refine ⟨free, hkept.links, ?_, ?_⟩
  · obtain ⟨A₂, hdealloc, hround⟩ := round_kept hkept hl hp hend
    refine ⟨A₂, hdealloc, fun fuel hfuel => ?_⟩
    obtain ⟨A₃, halloc, hk⟩ := hround fuel hfuel
    exact ⟨A₃, halloc, hlist hk⟩
  · intro fuel hfuel ws
    obtain ⟨A₃, hrounds, hk⟩ := rounds_kept hl hp hend hfuel ws hkept
    exact ⟨A₃, hrounds, hlist hk⟩

/-- Ten thousand rounds in an arena that does not start on the boundary of the layout. -/
theorem rounds_exact_loop : ∃ A₁ A₃,
    (Arena.new (fun _ => .usize 0) 4104 4000).allocate 2 layout24 = ok (A₁, some 4128) ∧
    rounds 2 layout24 (List.replicate 10000 fun x => .usize x) A₁ 4128 = ok (A₃, some 4128) := by
  obtain ⟨A₁, hA⟩ : ∃ A, (Arena.new (fun _ => .usize 0) 4104 4000).allocate 2 layout24 =
      ok (A, some 4128) := ⟨_, rfl⟩
  obtain ⟨free, -, -, hall⟩ := rounds_exact (.new _ 4104 4000) hA
  obtain ⟨A₃, hrun, -⟩ := hall 2 (by decide) (List.replicate 10000 fun x => .usize x)
  exact ⟨A₁, A₃, hA, hrun⟩

end Arena
end Allora
