import Mathlib.Data.List.Perm.Basic
import Mathlib.Tactic.Common

/-!
# Tilings of an interval

A `Block` is a run of addresses. `Tiles lo hi bs` says that the blocks of `bs` cut the interval
`[lo, hi)` up exactly: no two of them share an address, and together they have every address of
the interval and no other. An allocator is a sequence of cuts (`Tiles.split`) and of moves of a
block from one list to another (`Tiles.perm`), so both are kept here once. Where the memory comes in
several pieces, `Placed` is what remains of it: the blocks keep apart and to the regions.
-/

set_option autoImplicit false

namespace Allora

/-- A run of `size` addresses. -/
structure Block where
  start : Nat
  size : Nat
  deriving DecidableEq, Repr

namespace Block

/-- The address lies in the block. -/
def Has (b : Block) (x : Nat) : Prop := b.start ≤ x ∧ x < b.start + b.size

/-- The blocks share no address. -/
def Apart (b c : Block) : Prop := ∀ x, b.Has x → ¬ c.Has x

theorem Apart.symm {b c : Block} (h : Apart b c) : Apart c b := fun x hc hb => h x hb hc

end Block

/-- The blocks cut `[lo, hi)` up. -/
structure Tiles (lo hi : Nat) (bs : List Block) : Prop where
  apart : bs.Pairwise Block.Apart
  cover : ∀ x, (∃ b ∈ bs, b.Has x) ↔ lo ≤ x ∧ x < hi

namespace Tiles

variable {lo hi : Nat} {b : Block} {bs cs : List Block}

theorem single (a s : Nat) : Tiles a (a + s) [⟨a, s⟩] :=
  ⟨by simp, fun x => by simp [Block.Has]⟩

theorem perm (h : Tiles lo hi bs) (hp : List.Perm bs cs) : Tiles lo hi cs :=
  ⟨(hp.pairwise_iff fun h => h.symm).mp h.apart, fun x => by
    rw [← h.cover x]
    exact ⟨fun ⟨b, hb, hx⟩ => ⟨b, hp.mem_iff.mpr hb, hx⟩,
      fun ⟨b, hb, hx⟩ => ⟨b, hp.mem_iff.mp hb, hx⟩⟩⟩

/-- The other blocks keep out of the first. -/
theorem apart_of_mem (h : Tiles lo hi (b :: bs)) {c : Block} (hc : c ∈ bs) : b.Apart c :=
  (List.pairwise_cons.mp h.apart).1 c hc

theorem within (h : Tiles lo hi bs) (hb : b ∈ bs) {x : Nat} (hx : b.Has x) : lo ≤ x ∧ x < hi :=
  (h.cover x).mp ⟨b, hb, hx⟩

/-- A block with something in it lies inside the interval. -/
theorem bounds (h : Tiles lo hi bs) (hb : b ∈ bs) (hpos : 0 < b.size) :
    lo ≤ b.start ∧ b.start + b.size ≤ hi := by
  have h1 := h.within hb (x := b.start) ⟨Nat.le_refl _, by omega⟩
  have h2 := h.within hb (x := b.start + b.size - 1) ⟨by omega, by omega⟩
  omega

/-- Cut the first block in two. -/
theorem split {a s k : Nat} (h : Tiles lo hi (⟨a, s⟩ :: bs)) (hk : k ≤ s) :
    Tiles lo hi (⟨a, k⟩ :: ⟨a + k, s - k⟩ :: bs) := by
  have hcut : ∀ x, Block.Has ⟨a, s⟩ x ↔ Block.Has ⟨a, k⟩ x ∨ Block.Has ⟨a + k, s - k⟩ x := by
    intro x
    simp only [Block.Has]
    omega
  obtain ⟨hap, hbs⟩ := List.pairwise_cons.mp h.apart
  refine ⟨?_, fun x => ?_⟩
  · rw [List.pairwise_cons, List.pairwise_cons]
    refine ⟨fun c hc => ?_, fun c hc x hx => hap c hc x ((hcut x).mpr (Or.inr hx)), hbs⟩
    rcases List.mem_cons.mp hc with rfl | hc
    · intro x h1 h2
      simp only [Block.Has] at h1 h2
      omega
    · exact fun x hx => hap c hc x ((hcut x).mpr (Or.inl hx))
  · rw [← h.cover x]
    simp only [List.mem_cons, exists_eq_or_imp, hcut, or_assoc]

/-- An empty block may go. -/
theorem drop_empty {a : Nat} (h : Tiles lo hi (⟨a, 0⟩ :: bs)) : Tiles lo hi bs := by
  refine ⟨(List.pairwise_cons.mp h.apart).2, fun x => ?_⟩
  rw [← h.cover x]
  constructor
  · rintro ⟨b, hb, hx⟩
    exact ⟨b, List.mem_cons_of_mem _ hb, hx⟩
  · rintro ⟨b, hb, hx⟩
    rcases List.mem_cons.mp hb with rfl | hb
    · simp only [Block.Has] at hx
      omega
    · exact ⟨b, hb, hx⟩

end Tiles

/-- What is left of the block `⟨a, s⟩` when `z` addresses are taken out of it at `a + off`. -/
def leftover (a s off z : Nat) : List Block :=
  (if off = 0 then [] else [⟨a, off⟩]) ++
    (if s = off + z then [] else [⟨a + (off + z), s - (off + z)⟩])

/-- Take the middle out of the first block. -/
theorem Tiles.carve {lo hi a s off z : Nat} {bs : List Block} (h : Tiles lo hi (⟨a, s⟩ :: bs))
    (hz : off + z ≤ s) : Tiles lo hi (⟨a + off, z⟩ :: (leftover a s off z ++ bs)) := by
  have h1 : Tiles lo hi (⟨a, off⟩ :: ⟨a + off, z⟩ :: ⟨a + (off + z), s - (off + z)⟩ :: bs) := by
    have h2 := ((h.split (k := off) (by omega)).perm (List.Perm.swap ..)).split (k := z) (by omega)
    have h3 : Tiles lo hi (⟨a, off⟩ :: ⟨a + off, z⟩ :: ⟨a + off + z, s - off - z⟩ :: bs) :=
      h2.perm (by
        refine List.Perm.trans ?_ (List.Perm.swap ..)
        exact List.Perm.cons _ (List.Perm.swap ..))
    rwa [Nat.add_assoc, Nat.sub_sub] at h3
  -- front piece
  have hfront : Tiles lo hi ((if off = 0 then [] else [⟨a, off⟩]) ++
      ⟨a + off, z⟩ :: ⟨a + (off + z), s - (off + z)⟩ :: bs) := by
    split
    · rename_i h0
      rw [h0] at h1
      simpa [h0] using h1.drop_empty
    · exact h1
  have hmid := hfront.perm List.perm_middle
  rw [leftover, List.append_assoc]
  by_cases hs : s = off + z
  · rw [if_pos hs, List.nil_append]
    have hback := hmid.perm ((List.perm_middle.cons _).trans (List.Perm.swap ..))
    rw [hs, Nat.sub_self] at hback
    exact hback.drop_empty
  · rw [if_neg hs]
    exact hmid

/-! ## Blocks in regions -/

/-- The blocks keep apart, and each of them lies in one of the regions. -/
structure Placed (regions bs : List Block) : Prop where
  apart : bs.Pairwise Block.Apart
  inside : ∀ b ∈ bs, ∃ r ∈ regions, ∀ x, b.Has x → r.Has x

namespace Placed

variable {b r : Block} {regions bs cs new : List Block}

theorem perm (h : Placed regions bs) (hp : List.Perm bs cs) : Placed regions cs where
  apart := (hp.pairwise_iff fun h => h.symm).mp h.apart
  inside c hc := h.inside c (hp.mem_iff.mpr hc)

/-- A block is replaced by blocks inside it. -/
theorem replace (h : Placed regions (b :: bs)) (hap : new.Pairwise Block.Apart)
    (hin : ∀ c ∈ new, ∀ x, c.Has x → b.Has x) : Placed regions (new ++ bs) := by
  obtain ⟨hb, hbs⟩ := List.pairwise_cons.mp h.apart
  constructor
  · rw [List.pairwise_append]
    exact ⟨hap, hbs, fun c hc d hd x hx => hb d hd x (hin c hc x hx)⟩
  · intro c hc
    rcases List.mem_append.mp hc with hc | hc
    · obtain ⟨r, hr, hbr⟩ := h.inside b List.mem_cons_self
      exact ⟨r, hr, fun x hx => hbr x (hin c hc x hx)⟩
    · exact h.inside c (List.mem_cons_of_mem b hc)

/-- A new region is a block as well. -/
theorem add (h : Placed regions bs) (hr : ∀ c ∈ regions, r.Apart c) :
    Placed (r :: regions) (r :: bs) := by
  constructor
  · refine List.pairwise_cons.mpr ⟨fun b hb x hx hbx => ?_, h.apart⟩
    obtain ⟨c, hc, hbc⟩ := h.inside b hb
    exact hr c hc x hx (hbc x hbx)
  · intro b hb
    rcases List.mem_cons.mp hb with rfl | hb
    · exact ⟨b, List.mem_cons_self, fun x hx => hx⟩
    · obtain ⟨c, hc, hbc⟩ := h.inside b hb
      exact ⟨c, List.mem_cons_of_mem r hc, hbc⟩

/-- The middle of a block is taken out of it. -/
theorem carve {a s off z : Nat} (h : Placed regions (⟨a, s⟩ :: bs)) (hz : off + z ≤ s) :
    Placed regions (⟨a + off, z⟩ :: (leftover a s off z ++ bs)) := by
  have htiles : Tiles a (a + s) (⟨a + off, z⟩ :: leftover a s off z) := by
    have hsingle := (Tiles.single a s).carve hz
    rwa [List.append_nil] at hsingle
  exact h.replace htiles.apart fun c hc x hx => htiles.within hc hx

end Placed

end Allora
