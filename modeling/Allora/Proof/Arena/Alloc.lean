import Allora.Proof.Arena.Links

/-!
# One allocation

`can_allocate` is read once (`Fit`): it answers with a place for the padded layout in the chunk
that leaves, before and after it, either nothing or room for a header. The four ways of splitting a
chunk are then one statement (`carve_links`): the chunk is replaced in the free list by what is
left of it.
-/

set_option autoImplicit false

namespace Allora
namespace ChunkList

open Outcome

/-! ## `align_layout` -/

/-- A layout as `align_layout` returns it. -/
structure Padded (l : Layout) : Prop where
  align : 8 ∣ l.align
  size : l.align ∣ l.size
  min : 16 ≤ l.size

theorem unwrap_eq_ok {o : Option Layout} {l : Layout} : Layout.unwrap o = ok l ↔ o = some l := by
  cases o with
  | none => simp [Layout.unwrap]
  | some l' => simp [Layout.unwrap]

theorem fromSizeAlign_eq_some {size align : Nat} {l : Layout}
    (h : Layout.fromSizeAlign size align = some l) : l.size = size ∧ l.align = align := by
  unfold Layout.fromSizeAlign at h
  split at h
  · cases h
    exact ⟨rfl, rfl⟩
  · cases h

theorem two_pow_dvd_max (k : Nat) : 8 ∣ max (2 ^ k) 8 ∧ 2 ^ k ∣ max (2 ^ k) 8 := by
  rcases Nat.le_total k 3 with hk | hk
  · have hle : 2 ^ k ≤ 8 := Nat.pow_le_pow_right (by decide) hk
    rw [Nat.max_eq_right hle]
    exact ⟨Nat.dvd_refl _, Nat.pow_dvd_pow 2 hk⟩
  · have hle : 8 ≤ 2 ^ k := Nat.pow_le_pow_right (n := 2) (by decide) hk
    rw [Nat.max_eq_left hle]
    exact ⟨Nat.pow_dvd_pow 2 hk, Nat.dvd_refl _⟩

theorem alignLayout_padded {l l' : Layout} (h : alignLayout l = ok l') :
    Padded l' ∧ l.align ∣ l'.align ∧ l.size ≤ l'.size := by
  simp only [alignLayout, bind_eq_ok, unwrap_eq_ok, pure_eq_ok, ok.injEq] at h
  obtain ⟨l₁, h₁, l₂, h₂, rfl⟩ := h
  obtain ⟨hs₁, ha₁⟩ := fromSizeAlign_eq_some h₁
  obtain ⟨hs₂, ha₂⟩ := fromSizeAlign_eq_some h₂
  obtain ⟨k, hk⟩ := l.pow
  have hmax := two_pow_dvd_max k
  rw [← hk, ← ha₁] at hmax
  have hpos : 0 < l₂.align := Nat.pos_of_isPowerOfTwo l₂.pow
  have hle := le_alignUp l₂.size hpos
  have halign : l₂.align = max l₁.align 8 := ha₂
  refine ⟨⟨?_, dvd_alignUp _ _, ?_⟩, ?_, ?_⟩
  · show 8 ∣ l₂.align
    rw [halign]
    exact hmax.1
  · show 16 ≤ alignUp l₂.size l₂.align
    have : 16 ≤ l₁.size := by rw [hs₁]; exact Nat.le_max_right ..
    omega
  · show l.align ∣ l₂.align
    rw [halign, ← ha₁]
    exact hmax.2
  · show l.size ≤ alignUp l₂.size l₂.align
    have : l.size ≤ l₁.size := by rw [hs₁]; exact Nat.le_max_left ..
    omega

/-! ## `can_allocate` -/

/-- Where `can_allocate` puts the block: at the start of the chunk, or past a header and padding. -/
def placement (a : Nat) (l : Layout) : Nat :=
  if a = alignUp a l.align then a else alignUp (a + CHUNK_SIZE) l.align

/-- The answer of `can_allocate` for a chunk of `s` bytes at `a`. -/
structure Fit (a s : Nat) (l : Layout) (info : CanAllocInfo) : Prop where
  start : info.start = a
  stop : info.stop = a + s
  place : a + info.allocStartOffset = placement a l
  ends : info.allocEndOffset = info.allocStartOffset + l.size
  room : info.allocStartOffset + l.size ≤ s
  front : info.allocStartOffset = 0 ∨ 16 ≤ info.allocStartOffset
  frontAligned : 8 ∣ info.allocStartOffset
  back : s = info.allocStartOffset + l.size ∨ info.allocStartOffset + l.size + 16 ≤ s
  aligned : l.align ∣ a + info.allocStartOffset

theorem placement_spec {a : Nat} {l : Layout} (ha : 8 ∣ a) (hl : Padded l) :
    l.align ∣ placement a l ∧ 8 ∣ placement a l ∧
      (placement a l = a ∨ a + 16 ≤ placement a l) := by
  have hpos : 0 < l.align := Nat.pos_of_isPowerOfTwo l.pow
  rw [placement]
  split
  · rename_i h
    exact ⟨(alignUp_eq_self hpos).mp h, ha, Or.inl rfl⟩
  · have hdvd := dvd_alignUp (a + CHUNK_SIZE) l.align
    exact ⟨hdvd, hl.align.trans hdvd, Or.inr (le_alignUp (a + CHUNK_SIZE) hpos)⟩

theorem canAllocate_eq {a s : Nat} (next : Option Nat) {l : Layout} (ha : 8 ∣ a) (hl : Padded l)
    (hend : a + s < 2 ^ 64) :
    Chunk.canAllocate ⟨s, next⟩ a l =
      ok (if a + s < placement a l + l.size then none
        else if a + s = placement a l + l.size ∨ placement a l + l.size + 16 ≤ a + s then
          some ⟨a, a + s, placement a l - a, placement a l + l.size - a⟩
        else none) := by
  have hp := placement_spec ha hl
  -- the block ends on an 8-byte boundary without further padding
  have hstop : alignUp (placement a l + l.size) CHUNK_ALIGN = placement a l + l.size :=
    alignUp_of_dvd (by decide) (Nat.dvd_add hp.2.1 (hl.align.trans hl.size))
  have hadd : checkedAdd a s = some (a + s) := if_pos hend
  have hplace : (if a = alignUp a l.align then a else alignUp (a + CHUNK_SIZE) l.align) =
      placement a l := rfl
  rw [Chunk.canAllocate, hadd, unwrap_some, ok_bind]
  simp only [pure_eq_ok, hplace, hstop]
  split
  · rfl
  · have hiff : (a + s - (placement a l + l.size) = 0 ∨
        CHUNK_SIZE ≤ a + s - (placement a l + l.size)) ↔
        (a + s = placement a l + l.size ∨ placement a l + l.size + 16 ≤ a + s) := by
      simp only [CHUNK_SIZE]
      omega
    rw [if_congr hiff rfl rfl, apply_ite ok]

/-- A chunk that does not end in the address space is never answered with. -/
theorem canAllocate_end {a s : Nat} {next : Option Nat} {l : Layout} {r : Option CanAllocInfo}
    (h : Chunk.canAllocate ⟨s, next⟩ a l = ok r) : a + s < 2 ^ 64 := by
  by_contra hge
  have hadd : checkedAdd a s = none := if_neg hge
  rw [Chunk.canAllocate, hadd] at h
  cases h

theorem canAllocate_fit {a s : Nat} {next : Option Nat} {l : Layout} {info : CanAllocInfo}
    (ha : 8 ∣ a) (hl : Padded l) (h : Chunk.canAllocate ⟨s, next⟩ a l = ok (some info)) :
    Fit a s l info := by
  have hend := canAllocate_end h
  rw [canAllocate_eq next ha hl hend] at h
  obtain ⟨hal, h8, hfront⟩ := placement_spec ha hl
  have hle : a ≤ placement a l := by omega
  split at h
  · cases h
  split at h
  · cases h
    refine ⟨rfl, rfl, Nat.add_sub_cancel' hle, ?_, ?_, ?_, ?_, ?_, ?_⟩
    · show placement a l + l.size - a = placement a l - a + l.size
      omega
    · show placement a l - a + l.size ≤ s
      omega
    · show placement a l - a = 0 ∨ 16 ≤ placement a l - a
      omega
    · exact Nat.dvd_sub h8 ha
    · show s = placement a l - a + l.size ∨ placement a l - a + l.size + 16 ≤ s
      omega
    · show l.align ∣ a + (placement a l - a)
      rwa [Nat.add_sub_cancel' hle]
  · cases h

/-! ## The search -/

theorem next_of_link {cl : ChunkList} {a : Nat} {k : Option Nat} (h : cl.mem (a + 8) = .link k) :
    cl.next (some a) = k := by
  simp [next, chunk, h, Word.toLink]

/-- The chunk does not take the layout. -/
def Refuses (b : Block) (l : Layout) : Prop :=
  Chunk.canAllocate ⟨b.size, none⟩ b.start l = ok none

theorem firstFit_nil {cl : ChunkList} {layout : Layout} {fuel : Nat} {cur : Option Nat}
    (h : Seg cl.mem (cl.next cur) [] none) : cl.firstFit layout (fuel + 1) cur = ok none := by
  have hcur : cl.next cur = none := h
  rw [firstFit, hcur]

/-- One round of the search. -/
theorem firstFit_cons {cl : ChunkList} {layout : Layout} {fuel : Nat} {cur : Option Nat} {b : Block}
    {cs : List Block} (h : Seg cl.mem (cl.next cur) (b :: cs) none) :
    Seg cl.mem (cl.next (some b.start)) cs none ∧
      cl.firstFit layout (fuel + 1) cur =
        (Chunk.canAllocate ⟨b.size, none⟩ b.start layout >>= fun r =>
          match r with
          | some info => ok (some (cur, b.start, info))
          | none => cl.firstFit layout fuel (some b.start)) := by
  obtain ⟨hcur, hsize, k, hk, hrest⟩ := h
  have hchunk : cl.chunk b.start = ⟨b.size, k⟩ := by
    simp [chunk, hsize, hk, Word.toUsize, Word.toLink]
  refine ⟨by rwa [next_of_link hk], ?_⟩
  rw [firstFit, hcur]
  simp only [hchunk]
  rfl

/-- **The search answers with the first chunk that takes the layout**, and the one before it. -/
theorem firstFit_some {cl : ChunkList} {layout : Layout} :
    ∀ {fuel : Nat} {cs : List Block} {cur prev : Option Nat} {a : Nat} {info : CanAllocInfo},
      Seg cl.mem (cl.next cur) cs none →
      cl.firstFit layout fuel cur = ok (some (prev, a, info)) →
      ∃ pre s post, cs = pre ++ ⟨a, s⟩ :: post ∧ prev = lastOf cur pre ∧
        (∀ b ∈ pre, Refuses b layout) ∧
        Chunk.canAllocate ⟨s, none⟩ a layout = ok (some info) := by
  intro fuel
  induction fuel with
  | zero =>
    intro cs cur prev a info _ h
    cases h
  | succ fuel ih =>
    intro cs cur prev a info hseg h
    cases cs with
    | nil =>
      rw [firstFit_nil hseg] at h
      cases h
    | cons b cs =>
      obtain ⟨hrest, hround⟩ := firstFit_cons hseg
      rw [hround] at h
      obtain ⟨r, hr, h⟩ := bind_eq_ok.mp h
      cases r with
      | some info' =>
        cases h
        exact ⟨[], b.size, cs, rfl, rfl, by simp, hr⟩
      | none =>
        obtain ⟨pre, s, post, rfl, hprev, hpre, hfit⟩ := ih hrest h
        exact ⟨b :: pre, s, post, rfl, by rw [lastOf_cons]; exact hprev,
          List.forall_mem_cons.mpr ⟨hr, hpre⟩, hfit⟩

/-- **It answers with nothing when every chunk refuses.** -/
theorem firstFit_none {cl : ChunkList} {layout : Layout} :
    ∀ {fuel : Nat} {cs : List Block} {cur : Option Nat}, Seg cl.mem (cl.next cur) cs none →
      cl.firstFit layout fuel cur = ok none → ∀ b ∈ cs, Refuses b layout := by
  intro fuel
  induction fuel with
  | zero =>
    intro cs cur _ h
    cases h
  | succ fuel ih =>
    intro cs cur hseg h
    cases cs with
    | nil => simp
    | cons b cs =>
      obtain ⟨hrest, hround⟩ := firstFit_cons hseg
      rw [hround] at h
      obtain ⟨r, hr, h⟩ := bind_eq_ok.mp h
      cases r with
      | some info => cases h
      | none => exact List.forall_mem_cons.mpr ⟨hr, ih hrest h⟩

/-- The search comes back: it stops at the end of the list if not before, and nothing it adds
overflows while the chunks lie in the address space. -/
theorem firstFit_returns {cl : ChunkList} {layout : Layout} (hl : Padded layout) :
    ∀ {fuel : Nat} {cs : List Block} {cur : Option Nat}, Seg cl.mem (cl.next cur) cs none →
      (∀ b ∈ cs, 8 ∣ b.start) → (∀ b ∈ cs, b.start + b.size < 2 ^ 64) → cs.length < fuel →
      ∃ r, cl.firstFit layout fuel cur = ok r := by
  intro fuel
  induction fuel with
  | zero => intro cs cur _ _ _ hf; omega
  | succ fuel ih =>
    intro cs cur hseg halign hbound hf
    cases cs with
    | nil => exact ⟨none, firstFit_nil hseg⟩
    | cons b cs =>
      obtain ⟨hrest, hround⟩ := firstFit_cons hseg
      rw [hround, canAllocate_eq none (halign b (by simp)) hl (hbound b (by simp)), ok_bind]
      split
      · exact ⟨_, rfl⟩
      · exact ih hrest (fun c hc => halign c (by simp [hc]))
          (fun c hc => hbound c (by simp [hc])) (by simpa using hf)

theorem last_seg {cl : ChunkList} :
    ∀ {fuel : Nat} {cs : List Block} {cur r : Option Nat}, Seg cl.mem (cl.next cur) cs none →
      cl.last fuel cur = ok r → r = lastOf cur cs := by
  intro fuel
  induction fuel with
  | zero =>
    intro cs cur r _ h
    cases h
  | succ fuel ih =>
    intro cs cur r hseg h
    cases cs with
    | nil =>
      rw [last, show cl.next cur = none from hseg] at h
      cases h
      rfl
    | cons b cs =>
      obtain ⟨hcur, -, k, hk, hrest⟩ := hseg
      rw [last, hcur] at h
      rw [lastOf_cons]
      exact ih (by rwa [next_of_link hk]) h

/-! ## The split -/

/-- A chunk `c` of the free list is replaced by chunks inside it: their headers are written, and
the link before `c` is redirected. -/
theorem relink {cl cl' : ChunkList} {pre post new : List Block} {c : Block} {m k : Option Nat}
    (hpre : Seg cl.mem cl.head pre (some c.start)) (hpost : Seg cl.mem k post none)
    (hap : RoomsApart (pre ++ c :: post)) (hhead : cl'.head = cl.head)
    (hmem : ∀ x, ¬ (room c).Has x → cl'.mem x = cl.mem x) (hnew : Seg cl'.mem m new k)
    (hin : ∀ b ∈ new, ∀ x, (room b).Has x → (room c).Has x) :
    Seg (cl'.setNext (lastOf none pre) m).mem (cl'.setNext (lastOf none pre) m).head
      (pre ++ (new ++ post)) none := by
  obtain ⟨happre, hapc, hcross⟩ := List.pairwise_append.mp hap
  rw [List.pairwise_cons] at hapc
  -- the headers before and after `c` are still there
  have hpre' : Seg cl'.mem cl'.head pre (some c.start) := by
    rw [hhead]
    exact hpre.frame (fun b hb => (hcross b hb c (by simp)).symm) hmem
  have hpost' : Seg cl'.mem k post none := hpost.frame hapc.1 hmem
  -- and the redirected link lies in a chunk before `c`
  have hkeep : ∀ {bs : List Block} {l r : Option Nat}, Seg cl'.mem l bs r →
      (∀ b ∈ bs, ∀ p ∈ pre, (room p).Apart (room b)) →
      Seg (cl'.setNext (lastOf none pre) m).mem l bs r := by
    intro bs l r hseg hsep
    refine hseg.congr fun b hb => ⟨?_, ?_⟩
    · exact setNext_frame cl' m fun p hp hx => hsep b hb p hp _ hx (has_room_start b)
    · exact setNext_frame cl' m fun p hp hx => hsep b hb p hp _ hx (has_room_next b)
  rw [seg_append]
  refine ⟨m, setNext_seg m hpre' happre, ?_⟩
  rw [seg_append]
  refine ⟨k, hkeep hnew ?_, hkeep hpost' ?_⟩
  · exact fun b hb p hp x hx hbx => hcross p hp c (by simp) x hx (hin b hb x hbx)
  · exact fun b hb p hp => hcross p hp b (by simp [hb])

/-- What is left of a chunk after a fit is a list of chunks inside it. -/
theorem leftover_ok {a s : Nat} {l : Layout} {info : CanAllocInfo} (hc : ChunkOk ⟨a, s⟩)
    (hl : Padded l) (hfit : Fit a s l info) :
    ∀ b ∈ leftover a s info.allocStartOffset l.size,
      ChunkOk b ∧ ∀ x, b.Has x → Block.Has ⟨a, s⟩ x := by
  obtain ⟨ha, hs, -⟩ := hc
  have h8 := hl.align.trans hl.size
  have hsum := Nat.dvd_add hfit.frontAligned h8
  have hfront := hfit.front
  have hback := hfit.back
  have hroom := hfit.room
  intro b hb
  simp only [leftover, List.mem_append] at hb
  rcases hb with hb | hb
  · split at hb
    · simp at hb
    · rw [List.mem_singleton] at hb
      subst hb
      refine ⟨⟨ha, hfit.frontAligned, ?_⟩, ?_⟩
      · show 16 ≤ info.allocStartOffset
        omega
      · simp only [Block.Has]
        omega
  · split at hb
    · simp at hb
    · rw [List.mem_singleton] at hb
      subst hb
      refine ⟨⟨Nat.dvd_add ha hsum, Nat.dvd_sub hs hsum, ?_⟩, ?_⟩
      · show 16 ≤ s - (info.allocStartOffset + l.size)
        omega
      · simp only [Block.Has]
        omega

/-- The link to a chunk lies outside of the chunk's header. -/
theorem prev_link_ne {pre post : List Block} {c : Block} (hc : ChunkOk c)
    (hap : RoomsApart (pre ++ c :: post)) :
    ∀ p, lastOf none pre = some p → p + 8 ≠ c.start ∧ p + 8 ≠ c.start + 8 := by
  intro p hp
  obtain ⟨b, hb, rfl⟩ := mem_of_lastOf hp
  have hbc := (List.pairwise_append.mp hap).2.2 b hb c List.mem_cons_self
  rw [hc.room_eq] at hbc
  obtain ⟨hstart, hnext⟩ := hc.header
  constructor
  · intro heq
    exact hbc _ (has_room_next b) (heq ▸ hstart)
  · intro heq
    exact hbc _ (has_room_next b) (heq ▸ hnext)

/-- `relink` for a chunk that is as large as its header, with what it leaves alone. -/
theorem replace_chunk {cl cl' : ChunkList} {pre post new : List Block} {c : Block}
    {m k : Option Nat} (hpre : Seg cl.mem cl.head pre (some c.start))
    (hpost : Seg cl.mem k post none) (hc : ChunkOk c) (hap : RoomsApart (pre ++ c :: post))
    (hin : ∀ b ∈ new, ChunkOk b ∧ ∀ x, b.Has x → c.Has x) (hhead : cl'.head = cl.head)
    (hmem : ∀ x, ¬ c.Has x → cl'.mem x = cl.mem x) (hnew : Seg cl'.mem m new k) :
    Seg (cl'.setNext (lastOf none pre) m).mem (cl'.setNext (lastOf none pre) m).head
        (pre ++ (new ++ post)) none ∧
      ∀ x, ¬ c.Has x → (∀ q, lastOf none pre = some q → x ≠ q + 8) →
        (cl'.setNext (lastOf none pre) m).mem x = cl.mem x := by
  constructor
  · refine relink hpre hpost hap hhead (fun x hx => hmem x (hc.room_eq ▸ hx)) hnew ?_
    intro b hb x hx
    obtain ⟨hbok, hbin⟩ := hin b hb
    rw [hc.room_eq]
    exact hbin x (hbok.room_eq ▸ hx)
  · intro x hx hq
    rw [setNext_mem_ne cl' m hq, hmem x hx]

/-- **The four splits are one**: the chunk is replaced in the free list by what is left of it, and
the block handed out is the middle. Outside of the chunk, only the link to it is written. -/
theorem carve_links {cl : ChunkList} {pre post : List Block} {a s : Nat} {l : Layout}
    {info : CanAllocInfo} (h : Seg cl.mem cl.head (pre ++ ⟨a, s⟩ :: post) none)
    (hc : ChunkOk ⟨a, s⟩) (hap : RoomsApart (pre ++ ⟨a, s⟩ :: post)) (hl : Padded l)
    (hfit : Fit a s l info) :
    ∃ cl', cl.carve (lastOf none pre) a info = (cl', a + info.allocStartOffset) ∧
      Seg cl'.mem cl'.head (pre ++ (leftover a s info.allocStartOffset l.size ++ post)) none ∧
      ∀ x, ¬ Block.Has ⟨a, s⟩ x → (∀ q, lastOf none pre = some q → x ≠ q + 8) →
        cl'.mem x = cl.mem x := by
  obtain ⟨m, hpre, hm, hsize, k, hk, hpost⟩ := seg_append.mp h
  rw [hm] at hpre
  have hchunk : cl.chunk a = ⟨s, k⟩ := by
    simp only [chunk, show cl.mem a = .usize s from hsize, show cl.mem (a + 8) = .link k from hk]
    rfl
  have hleft := leftover_ok hc hl hfit
  obtain ⟨hstart, hstop, -, hend, hroom, hfront, -, hback, -⟩ := hfit
  obtain ⟨start, stop, off, endOff⟩ := info
  simp only at hstart hstop hend hroom hfront hback hleft ⊢
  subst hstart hstop hend
  have hmin := hl.min
  have hz : off + l.size = s ↔ s = off + l.size := eq_comm
  -- in each split the chunk at `start` is replaced by what is left, once its headers are written
  have hin : ∀ x, start ≤ x → x < start + s → Block.Has ⟨start, s⟩ x := fun x h1 h2 => ⟨h1, h2⟩
  rw [carve]
  simp only [hchunk]
  by_cases hs : off + l.size = s
  · rw [if_pos hs]
    by_cases h0 : off = 0
    · rw [if_pos h0]
      refine ⟨_, Prod.ext rfl (by simp [h0]),
        replace_chunk hpre hpost hc hap hleft rfl (fun _ _ => rfl) ?_⟩
      rw [leftover, if_pos h0, if_pos (hz.mp hs)]
      exact rfl
    · rw [if_neg h0]
      refine ⟨_, rfl, replace_chunk hpre hpost hc hap hleft rfl (fun x hx => ?_) ?_⟩
      · exact writeChunk_frame cl _ (hin _ (by omega) (by omega)) (hin _ (by omega) (by omega)) hx
      · rw [leftover, if_neg h0, if_pos (hz.mp hs)]
        exact ⟨rfl, by simp, k, by simp, rfl⟩
  · rw [if_neg hs]
    have hrest : start + s - start - (off + l.size) = s - (off + l.size) := by omega
    rw [hrest]
    by_cases h0 : off = 0
    · rw [if_pos h0]
      refine ⟨_, Prod.ext rfl (by simp [h0]),
        replace_chunk hpre hpost hc hap hleft rfl (fun x hx => ?_) ?_⟩
      · exact writeChunk_frame cl _ (hin _ (by omega) (by omega)) (hin _ (by omega) (by omega)) hx
      · rw [leftover, if_pos h0, if_neg (mt hz.mpr hs)]
        exact ⟨rfl, by simp, k, by simp, rfl⟩
    · rw [if_neg h0]
      -- the first redirection is overwritten by the second
      have hprev : ∀ p, lastOf none pre = some p → p + 8 ≠ start ∧ p + 8 ≠ start + 8 :=
        prev_link_ne hc hap
      rw [setNext_writeChunk _ _ _ _ _ hprev, setNext_setNext]
      refine ⟨_, rfl, replace_chunk hpre hpost hc hap hleft rfl (fun x hx => ?_) ?_⟩
      · rw [writeChunk_frame _ _ (hin _ (by omega) (by omega)) (hin _ (by omega) (by omega)) hx]
        exact writeChunk_frame cl _ (hin _ (by omega) (by omega)) (hin _ (by omega) (by omega)) hx
      · rw [leftover, if_neg h0, if_neg (mt hz.mpr hs)]
        refine ⟨rfl, by simp, some (start + (off + l.size)), by simp, rfl, ?_, k, ?_, rfl⟩
        · rw [writeChunk_mem_ne _ _ _ (by show start + (off + l.size) ≠ start; omega)
            (by show start + (off + l.size) ≠ start + 8; omega)]
          exact writeChunk_size _ _ _
        · rw [writeChunk_mem_ne _ _ _ (by show start + (off + l.size) + 8 ≠ start; omega)
            (by show start + (off + l.size) + 8 ≠ start + 8; omega)]
          exact writeChunk_next _ _ _

end ChunkList
end Allora
