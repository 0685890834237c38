import Allora.Kobject
import Allora.Proof.Arena.Runs

/-!
# The arena of a kernel object and the pages of the object

`create` and `spawn_raw` decide how many pages an object gets, `_kobject_create` decides where its
arena lies, and the two are in different files. They agree for labels and containers. For threads
they do not: the first of the `THREAD_NPAGES` pages holds the metadata, but the arena is made
`THREAD_NPAGES` pages long all the same, counted from the second. Its last page belongs to whoever
comes next in memory.
-/

set_option autoImplicit false

namespace Allora

open Outcome

/-- Every address of `b` is an address of `c`. -/
def Block.Within (b c : Block) : Prop := ∀ x, b.Has x → c.Has x

/-- The pages reserved for an object. -/
def pagesOf (kind : KObjectKind) (page : Nat) : Block := ⟨pa page, reservedPages kind * PAGE_SIZE⟩

/-- The size of an object of a kind. -/
def Sizes.of (sz : Sizes) : KObjectKind → Nat
  | .label => sz.label
  | .container => sz.container
  | .thread => sz.thread
  | _ => 0

/-- What is used of `size_of`: object types are aligned to words, and an object leaves room for a
chunk in its page. -/
structure Sizes.Ok (sz : Sizes) : Prop where
  aligned : ∀ kind, 8 ∣ sz.of kind
  room : ∀ kind, sz.of kind + 16 ≤ PAGE_SIZE

/-- The arena of an object keeps to the pages of the object: the region it is given lies in them,
and so does every block it hands out in any run. -/
def KeepsToPages (sz : Sizes) (kind : KObjectKind) (page : Nat) : Prop :=
  (arenaRegion kind page (sz.of kind)).Within (pagesOf kind page) ∧
    ∀ A live, Arena.Reaches (arenaRegion kind page (sz.of kind)).start
        (arenaRegion kind page (sz.of kind)).size A live →
      ∀ e ∈ live, (Arena.block e).Within (pagesOf kind page)

/-- Every block an arena hands out lies in its region. -/
theorem block_within_region {start size : Nat} (hstart : 8 ∣ start) (hsize : 16 ≤ size)
    {A : Arena} {live : List Arena.Live} (h : Arena.Reaches start size A live) :
    ∀ e ∈ live, (Arena.block e).Within ⟨start, size⟩ := by
  obtain ⟨free, hi⟩ := h.inv hstart hsize
  intro e he x hx
  have hb : Arena.block e ∈ free ++ live.map Arena.block :=
    List.mem_append_right _ (List.mem_map_of_mem he)
  have h1 := hi.tiles.within hb hx
  have h2 := alignDown_le size 8
  exact ⟨h1.1, by show x < start + size; omega⟩

theorem region_aligned {sz : Sizes} (hsz : sz.Ok) (kind : KObjectKind) (page : Nat) :
    8 ∣ (arenaRegion kind page (sz.of kind)).start := by
  have h1 : 8 ∣ pa (page + 1) := Nat.dvd_mul_left_of_dvd (by decide) _
  have h2 := Nat.dvd_add h1 (hsz.aligned kind)
  unfold arenaRegion
  split
  · exact h2
  · exact h2

/-- The arena of a label or a container ends with the second page. -/
theorem keepsToPages_pair {sz : Sizes} (hsz : sz.Ok) {kind : KObjectKind}
    (hkind : kind = .label ∨ kind = .container) (page : Nat) : KeepsToPages sz kind page := by
  have hroom := hsz.room kind
  have hpa : pa (page + 1) = pa page + PAGE_SIZE := by rw [pa, pa, Nat.add_mul, Nat.one_mul]
  have hne : kind ≠ .thread := by rcases hkind with rfl | rfl <;> decide
  have hregion : arenaRegion kind page (sz.of kind) =
      ⟨pa (page + 1) + sz.of kind, PAGE_SIZE - sz.of kind⟩ := if_neg hne
  have hpages : pagesOf kind page = ⟨pa page, 2 * PAGE_SIZE⟩ := by
    rcases hkind with rfl | rfl
    · rfl
    · rfl
  have hwithin : (arenaRegion kind page (sz.of kind)).Within (pagesOf kind page) := by
    intro x hx
    rw [hregion] at hx
    rw [hpages]
    simp only [Block.Has, hpa] at hx ⊢
    omega
  refine ⟨hwithin, fun A live hreach e he x hx => hwithin x ?_⟩
  refine block_within_region (region_aligned hsz kind page) ?_ hreach e he x hx
  rw [hregion]
  show 16 ≤ PAGE_SIZE - sz.of kind
  omega

/-- **The arenas of labels and containers keep to their pages, and those of threads do not.** -/
theorem keepsToPages_iff {sz : Sizes} (hsz : sz.Ok) {kind : KObjectKind}
    (hkind : kind = .label ∨ kind = .container ∨ kind = .thread) (page : Nat) :
    KeepsToPages sz kind page ↔ kind ≠ .thread := by
  have hroom := hsz.room kind
  have hpa : pa (page + 1) = pa page + PAGE_SIZE := by rw [pa, pa, Nat.add_mul, Nat.one_mul]
  constructor
  · rintro ⟨hregion, -⟩ rfl
    -- the last byte of the region lies past the last page
    have hlen : reservedPages .thread * PAGE_SIZE = 16 * PAGE_SIZE := rfl
    have hlast := hregion (pa page + reservedPages .thread * PAGE_SIZE) (by
      simp only [arenaRegion, if_true, Block.Has, hpa, hlen]
      have : THREAD_NPAGES * PAGE_SIZE = 16 * PAGE_SIZE := rfl
      omega)
    exact absurd hlast.2 (Nat.lt_irrefl _)
  · intro hne
    have hpair : kind = .label ∨ kind = .container := by
      rcases hkind with h | h | h
      · exact .inl h
      · exact .inr h
      · exact absurd h hne
    exact keepsToPages_pair hsz hpair page

/-- The object sizes of the 64-bit target; that of a label is one for a small formula. -/
def sizes64 : Sizes := ⟨64, 96, 56⟩

theorem sizes64_ok : sizes64.Ok :=
  ⟨fun kind => by cases kind <;> decide, fun kind => by cases kind <;> decide⟩

theorem keepsToPages_container : sizes64.Ok ∧ KeepsToPages sizes64 .container 1 :=
  ⟨sizes64_ok, (keepsToPages_iff sizes64_ok (Or.inr (Or.inl rfl)) 1).mpr (by decide)⟩

/-! ## How far `Thread::create` writes -/

/-- The closure of a thread on page `page` fits below the end of the reserved pages: it is
zero-sized, or there is room, behind the stack, for it and for the header of the chunk after it. The
page matters only to a closure that is aligned to more than a page. -/
def ClosureFits (size page : Nat) (closure : Layout) : Prop :=
  closure.size = 0 ∨ ∃ l, ChunkList.alignLayout closure = ok l ∧
    ChunkList.placement (pa (page + 1) + size + STACK_SIZE) l + l.size + CHUNK_SIZE ≤
      pa (page + THREAD_NPAGES)

theorem stackLayout_aligned {l : Layout} (h : ChunkList.alignLayout Kernel.stackLayout = ok l) :
    l.size = STACK_SIZE ∧ l.align = 8 := by
  have : ChunkList.alignLayout Kernel.stackLayout = ok Kernel.stackLayout := by decide
  rw [this] at h
  cases h
  exact ⟨rfl, rfl⟩

/-- The header behind what is left of a chunk starts no later than the block taken out ends. -/
theorem headerEnd_leftover (a s off z : Nat) :
    Kernel.headerEnd (ChunkList.lastOf none (leftover a s off z)) ≤ a + off + z + CHUNK_SIZE := by
  unfold leftover
  split <;> split <;> simp [ChunkList.lastOf, Kernel.headerEnd] <;> omega

theorem singleton_split {b c : Block} {pre post : List Block} (h : [b] = pre ++ c :: post) :
    pre = [] ∧ c = b ∧ post = [] := by
  cases pre with
  | nil =>
    rw [List.nil_append, List.cons.injEq] at h
    exact ⟨rfl, h.1.symm, h.2.symm⟩
  | cons d pre => simp at h

/-- **A closure that fits keeps `Thread::create` in the pages of the thread.** -/
theorem threadTop_le {fuel page size top : Nat} {closure : Layout} (h8 : 8 ∣ size)
    (hroom : size + 16 ≤ PAGE_SIZE) (hfits : ClosureFits size page closure)
    (h : Kernel.threadTop fuel page size closure = ok top) : top ≤ pa (page + THREAD_NPAGES) := by
  have hpages : pa (page + THREAD_NPAGES) = pa (page + 1) + 15 * PAGE_SIZE := by
    simp only [pa, THREAD_NPAGES, STACK_SIZE, PAGE_SIZE]
    omega
  have hlen : THREAD_NPAGES * PAGE_SIZE = 16 * PAGE_SIZE := rfl
  have hstack : STACK_SIZE = 4 * PAGE_SIZE := rfl
  have hps : PAGE_SIZE = 4096 := rfl
  have hregion : arenaRegion .thread page size =
      ⟨pa (page + 1) + size, THREAD_NPAGES * PAGE_SIZE - size⟩ := if_pos rfl
  have h8a : 8 ∣ pa (page + 1) + size :=
    Nat.dvd_add (Nat.dvd_mul_left_of_dvd (by decide) _) h8
  simp only [Kernel.threadTop, hregion, bind_eq_ok] at h
  obtain ⟨⟨A₁, stack⟩, hA₁, p₁, hp₁, h⟩ := h
  cases stack with
  | none => cases hp₁
  | some stack =>
    -- the stack is the front of the only chunk, and the chunk behind it is what remains
    have hnew := Arena.inv_new (fun _ => .usize 0) h8a
      (show 16 ≤ THREAD_NPAGES * PAGE_SIZE - size by omega)
    obtain ⟨l₁, pre, s₁, post, a₁, info₁, hl₁, hfree, hfit₁, -, hi₁⟩ := Arena.inv_allocate hnew hA₁
    obtain ⟨hs₁, hal₁⟩ := stackLayout_aligned hl₁
    have hdown : alignDown (THREAD_NPAGES * PAGE_SIZE - size) 8 =
        THREAD_NPAGES * PAGE_SIZE - size :=
      alignDown_of_dvd (Nat.dvd_sub (by decide) h8)
    rw [hdown] at hfree
    obtain ⟨rfl, hchunk, rfl⟩ := singleton_split hfree
    cases hchunk
    have hoff : info₁.allocStartOffset = 0 := by
      have hplace := hfit₁.place
      rw [ChunkList.placement, hal₁, if_pos ((alignUp_eq_self (by decide)).mpr h8a)] at hplace
      omega
    have hleft : leftover (pa (page + 1) + size) (THREAD_NPAGES * PAGE_SIZE - size)
        info₁.allocStartOffset l₁.size =
        [⟨pa (page + 1) + size + STACK_SIZE, THREAD_NPAGES * PAGE_SIZE - size - STACK_SIZE⟩] := by
      rw [hoff, hs₁, leftover, if_pos rfl, if_neg (by omega), Nat.zero_add]
      rfl
    rw [hleft, List.nil_append, List.append_nil] at hi₁
    split at h
    · -- no closure
      simp only [bind_eq_ok, pure_eq_ok, ok.injEq] at h
      obtain ⟨last, hlast, rfl⟩ := h
      rw [ChunkList.last_seg hi₁.links hlast]
      show pa (page + 1) + size + STACK_SIZE + 16 ≤ _
      omega
    · rename_i hne
      simp only [bind_eq_ok, pure_eq_ok, ok.injEq] at h
      obtain ⟨⟨A₂, data⟩, hA₂, d, hd, last, hlast, rfl⟩ := h
      cases data with
      | none => cases hd
      | some data =>
        cases hd
        obtain ⟨l₂, pre, s₂, post, a₂, info₂, hl₂, hfree, hfit₂, rfl, hi₂⟩ :=
          Arena.inv_allocate hi₁ hA₂
        obtain ⟨rfl, hchunk, rfl⟩ := singleton_split hfree
        cases hchunk
        obtain h0 | ⟨l, hl, hle⟩ := hfits
        · exact absurd h0 hne
        rw [hl] at hl₂
        cases hl₂
        rw [List.nil_append, List.append_nil] at hi₂
        rw [ChunkList.last_seg hi₂.links hlast]
        have hhead := headerEnd_leftover (pa (page + 1) + size + STACK_SIZE)
          (THREAD_NPAGES * PAGE_SIZE - size - STACK_SIZE) info₂.allocStartOffset l₂.size
        have hsize := (ChunkList.alignLayout_padded hl).2.2
        have hplace := hfit₂.place
        simp only [CHUNK_SIZE] at hle hhead ⊢
        omega

/-- A block as long as the arena of a thread. -/
def wholeArena : Layout := ⟨65480, 8, Kernel.stackLayout.pow, by decide⟩

/-- The arena of a thread on pages 1 to 16 hands out a block that reaches into page 17. -/
theorem thread_arena_overruns :
    ∃ A e, Arena.Reaches (arenaRegion .thread 1 56).start (arenaRegion .thread 1 56).size A [e] ∧
      (Arena.block e).Has (pa 17) ∧ ¬ (pagesOf .thread 1).Has (pa 17) := by
  obtain ⟨A, hA⟩ : ∃ A, (Arena.new (fun _ => .usize 0) (arenaRegion .thread 1 56).start
      (arenaRegion .thread 1 56).size).allocate 2 wholeArena = ok (A, some 8248) := ⟨_, rfl⟩
  refine ⟨A, (8248, wholeArena), .allocate (.new _) hA, ?_, ?_⟩
  · have hsize : Arena.paddedSize wholeArena = 65480 := rfl
    simp only [Block.Has, Arena.block, hsize, pa, PAGE_SIZE]
    omega
  · simp only [Block.Has, pagesOf, pa]
    decide

end Allora
