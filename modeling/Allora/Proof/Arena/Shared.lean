import Allora.Mm.KoArena
import Allora.Proof.Arena.Runs

/-!
# Threads share an arena

However the threads that hold clones of a `KObjectArena` are interleaved, chunk by chunk of their
searches and with the writes of the owners of live blocks in between, the blocks that it hands out
never overlap, and whenever its lock is free it is an arena that a sequential run could have made.

What carries it over the steps of one call is where the search has got to: the chunks before it have
refused, and no write of an owner can change that, because owners write into no chunk.
-/

set_option autoImplicit false

namespace Allora
namespace KObjectArena

open Outcome Monitor Arena

variable {ι : Type}

/-! ## The contract of the callers -/

/-- The live blocks after an event: a caller has a block from the return of `allocate` to the call
of `deallocate`. -/
def after (live : List Live) : Event ι Op Answer (Nat × Word) → List Live
  | .left _ (.slice layout (some (p, _))) => (p, layout) :: live
  | .entered _ (.deallocate p layout) => live.erase (p, layout)
  | _ => live

def live (es : Trace ι) : List Live := es.foldl after []

/-- Callers ask for layouts that `align_layout` takes, free only live blocks, with the layout they
asked for, and write only into live blocks. -/
def Allowed (live : List Live) : Event ι Op Answer (Nat × Word) → Prop
  | .entered _ (.allocate layout) => ∃ l, ChunkList.alignLayout layout = ok l
  | .entered _ (.deallocate p layout) => (p, layout) ∈ live
  | .entered _ _ => False
  | .touched w => ∃ e ∈ live, (block e).Has w.1
  | _ => True

def Contract : Trace ι → Prop := Always fun pre e => Allowed (live pre) e

@[simp] theorem live_concat (es : Trace ι) (e : Event ι Op Answer (Nat × Word)) :
    live (es ++ [e]) = after (live es) e := by
  rw [live, List.foldl_append]
  rfl

/-! ## A search in rounds -/

section Search

open ChunkList

variable {cl : ChunkList} {l : Layout}

/-- After some chunks of the list, the rest of it is left. -/
theorem seg_next {pre post : List Block} : ∀ {cur : Option Nat},
    Seg cl.mem (cl.next cur) (pre ++ post) none →
    Seg cl.mem (cl.next (lastOf cur pre)) post none := by
  induction pre with
  | nil => exact fun h => h
  | cons b pre ih =>
    intro cur h
    obtain ⟨-, -, k, hk, hrest⟩ := h
    rw [lastOf_cons]
    exact ih (by rwa [next_of_link hk])

/-- The search passes over chunks that refuse. -/
theorem firstFit_skip {pre post : List Block} (fuel : Nat) : ∀ {cur : Option Nat},
    Seg cl.mem (cl.next cur) (pre ++ post) none → (∀ b ∈ pre, Refuses b l) →
    cl.firstFit l (pre.length + fuel) cur = cl.firstFit l fuel (lastOf cur pre) := by
  induction pre with
  | nil =>
    intro cur _ _
    rw [List.length_nil, Nat.zero_add]
    rfl
  | cons b pre ih =>
    intro cur h hpre
    obtain ⟨hb, hpre⟩ := List.forall_mem_cons.mp hpre
    obtain ⟨hrest, hround⟩ := @firstFit_cons cl l (pre.length + fuel) _ _ _ h
    rw [List.length_cons, Nat.add_right_comm, hround, show _ = _ from hb, ok_bind, lastOf_cons]
    exact ih hrest hpre

/-- The chunk that a round looks at. -/
theorem round_chunk {cur : Option Nat} {a s : Nat} {post : List Block}
    (h : Seg cl.mem (cl.next cur) (⟨a, s⟩ :: post) none) :
    cl.next cur = some a ∧
      (cl.chunk a).canAllocate a l = Chunk.canAllocate ⟨s, none⟩ a l := by
  obtain ⟨hcur, hsize, k, hk, -⟩ := h
  refine ⟨hcur, ?_⟩
  have hchunk : cl.chunk a = ⟨s, k⟩ := by
    simp [chunk, hsize, hk, Word.toUsize, Word.toLink]
  rw [hchunk]
  rfl

end Search

/-! ## What a thread behind the lock keeps -/

section Behind

variable (start size : Nat)

/-- The blocks that are not free, beside those that are live: one that is allocated and not returned
yet, or given back and not freed yet. -/
def Op.Taken (taken live : List Live) : Op → Prop
  | .allocated layout (some p) => taken = (p, layout) :: live
  | .deallocate p layout => (p, layout) ∈ taken ∧ taken.erase (p, layout) = live
  | _ => taken = live

/-- Where in the free list it is. -/
def Op.At (free : List Block) : Op → Prop
  | .allocate layout => ∃ l, ChunkList.alignLayout layout = ok l
  | .search layout l cur => ChunkList.alignLayout layout = ok l ∧
      ∃ pre post, free = pre ++ post ∧ cur = ChunkList.lastOf none pre ∧
        ∀ b ∈ pre, ChunkList.Refuses b l
  | .carve layout prev a info => ∃ l pre s post, ChunkList.alignLayout layout = ok l ∧
      free = pre ++ ⟨a, s⟩ :: post ∧ prev = ChunkList.lastOf none pre ∧
      (∀ b ∈ pre, ChunkList.Refuses b l) ∧
      Chunk.canAllocate ⟨s, none⟩ a l = ok (some info)
  | .panicked _ => False
  | _ => True

/-- Nobody is behind the lock. -/
def Rest (A : Arena) (es : Trace ι) : Prop := Reaches start size A (live es)

/-- A thread is, and about to do `op`. -/
def Behind (_t : ι) (op : Op) (A : Arena) (es : Trace ι) : Prop :=
  ∃ taken free, Reaches start size A taken ∧
    Inv start (start + alignDown size 8) A taken free ∧ op.Taken taken (live es) ∧ op.At free

variable {start size} {A A' : Arena} {taken free : List _}

theorem Op.Taken.sublist {taken live : List Live} {op : Op} (h : op.Taken taken live) :
    live.Sublist taken := by
  cases op with
  | allocated layout ptr =>
    cases ptr with
    | none => exact h ▸ List.Sublist.refl _
    | some p => exact h ▸ List.sublist_cons_self _ _
  | deallocate p layout => exact h.2 ▸ List.erase_sublist
  | allocate => exact h ▸ List.Sublist.refl _
  | search => exact h ▸ List.Sublist.refl _
  | carve => exact h ▸ List.Sublist.refl _
  | deallocated => exact h ▸ List.Sublist.refl _
  | panicked => exact h ▸ List.Sublist.refl _

/-- All chunks lie in the address space. -/
theorem fits (hfits : start + size < 2 ^ 64) {live : List Live} {free : List Block}
    (h : Inv start (start + alignDown size 8) A live free) :
    ∀ b ∈ free, b.start + b.size < 2 ^ 64 := by
  intro b hb
  have h16 := (h.chunks b hb).2.2
  have hle := (h.tiles.bounds (List.mem_append_left _ hb) (by omega)).2
  have hdown := alignDown_le size 8
  omega

/-- What the call would have answered if it had run on its own: `AllocError`. -/
theorem allocate_none {free : List Block} {layout l : Layout}
    (hlinks : ChunkList.Seg A.chunks.mem A.chunks.head free none)
    (hl : ChunkList.alignLayout layout = ok l) (hfree : ∀ b ∈ free, ChunkList.Refuses b l) :
    A.allocate (free.length + 1) layout = ok (A, none) := by
  have hseg : ChunkList.Seg A.chunks.mem (A.chunks.next none) (free ++ []) none := by
    rw [List.append_nil]
    exact hlinks
  have hsearch : A.chunks.firstFit l (free.length + 1) none = ok none := by
    rw [firstFit_skip 1 hseg hfree]
    exact ChunkList.firstFit_nil (seg_next hseg)
  simp only [Arena.allocate, hl, ChunkList.popFirstFit, hsearch, ok_bind]
  rfl

/-- Or the block that it cuts from the chunk it has found. -/
theorem allocate_carve {pre post : List Block} {a s : Nat} {layout l : Layout}
    {info : CanAllocInfo}
    (hlinks : ChunkList.Seg A.chunks.mem A.chunks.head (pre ++ ⟨a, s⟩ :: post) none)
    (hl : ChunkList.alignLayout layout = ok l) (hpre : ∀ b ∈ pre, ChunkList.Refuses b l)
    (hcan : Chunk.canAllocate ⟨s, none⟩ a l = ok (some info)) :
    A.allocate (pre.length + 1) layout =
      ok (⟨(A.chunks.carve (ChunkList.lastOf none pre) a info).1⟩,
        some (A.chunks.carve (ChunkList.lastOf none pre) a info).2) := by
  have hseg : ChunkList.Seg A.chunks.mem (A.chunks.next none) (pre ++ ⟨a, s⟩ :: post) none :=
    hlinks
  have hsearch : A.chunks.firstFit l (pre.length + 1) none =
      ok (some (ChunkList.lastOf none pre, a, info)) := by
    rw [firstFit_skip 1 hseg hpre, (ChunkList.firstFit_cons (seg_next hseg)).2]
    simp only [hcan, ok_bind]
  simp only [Arena.allocate, hl, ChunkList.popFirstFit, hsearch, ok_bind]
  rfl

/-- **One round of the search.** -/
theorem behind_search (hfits : start + size < 2 ^ 64) {t : ι} {es : Trace ι} {layout l : Layout}
    {cur : Option Nat} {op : Op} (h : Behind start size t (.search layout l cur) A es)
    (huse : use (.search layout l cur) A = .access A' op) : Behind start size t op A' es := by
  obtain ⟨taken, free, hreach, hinv, rfl, hl, pre, post, rfl, rfl, hpre⟩ := h
  have hrest := @seg_next A.chunks pre post none hinv.links
  cases post with
  | nil =>
    have hnext : A.chunks.next (ChunkList.lastOf none pre) = none := hrest
    simp only [use, hnext] at huse
    cases huse
    rw [List.append_nil] at hinv
    have hrun := allocate_none hinv.links hl hpre
    exact ⟨_, _, .refuse hreach hrun, hinv, rfl, trivial⟩
  | cons b post =>
    obtain ⟨a, s⟩ := b
    have hb : (⟨a, s⟩ : Block) ∈ pre ++ ⟨a, s⟩ :: post := by simp
    obtain ⟨hnext, hchunk⟩ := round_chunk (l := l) hrest
    obtain ⟨r, hr⟩ : ∃ r, Chunk.canAllocate ⟨s, none⟩ a l = ok r := by
      rw [ChunkList.canAllocate_eq none (hinv.aligned _ hb).1 (ChunkList.alignLayout_padded hl).1
        (fits hfits hinv _ hb)]
      split
      · exact ⟨_, rfl⟩
      · exact ⟨_, rfl⟩
    simp only [use, hnext, hchunk, hr] at huse
    cases r with
    | none =>
      cases huse
      refine ⟨_, _, hreach, hinv, rfl, hl, pre ++ [⟨a, s⟩], post, by simp, ?_, ?_⟩
      · simp [ChunkList.lastOf]
      · intro c hc
        rcases List.mem_append.mp hc with hc | hc
        · exact hpre c hc
        · rw [List.mem_singleton.mp hc]
          exact hr
    | some info =>
      cases huse
      exact ⟨_, _, hreach, hinv, rfl, l, pre, s, post, hl, rfl, rfl, hpre, hr⟩

/-- The writes of a split. -/
theorem behind_carve (hstart : 8 ∣ start) (hsize : 16 ≤ size) {t : ι} {es : Trace ι}
    {layout : Layout} {prev : Option Nat} {a : Nat} {info : CanAllocInfo} {op : Op}
    (h : Behind start size t (.carve layout prev a info) A es)
    (huse : use (.carve layout prev a info) A = .access A' op) : Behind start size t op A' es := by
  obtain ⟨taken, free, hreach, hinv, rfl, l, pre, s, post, hl, rfl, rfl, hpre, hcan⟩ := h
  cases huse
  have hreach' := hreach.allocate (allocate_carve hinv.links hl hpre hcan)
  obtain ⟨free', hinv'⟩ := hreach'.inv hstart hsize
  exact ⟨_, free', hreach', hinv', rfl, trivial⟩

/-- The push of a chunk. -/
theorem behind_deallocate {t : ι} {es : Trace ι} {layout : Layout} {p : Nat} {op : Op}
    (h : Behind start size t (.deallocate p layout) A es)
    (huse : use (.deallocate p layout) A = .access A' op) : Behind start size t op A' es := by
  obtain ⟨taken, free, hreach, hinv, ⟨hmem, herase⟩, -⟩ := h
  obtain ⟨-, -, l, hl⟩ := hinv.live _ hmem
  have hrun : A.deallocate p layout = ok ⟨A.chunks.push p l.size⟩ := by
    rw [Arena.deallocate, hl]
    rfl
  simp only [use, hrun] at huse
  cases huse
  exact ⟨_, _, hreach.deallocate hmem hrun, inv_deallocate hinv hmem hrun, herase, trivial⟩

/-- **What an access keeps.** -/
theorem behind_access (hstart : 8 ∣ start) (hsize : 16 ≤ size) (hfits : start + size < 2 ^ 64)
    {t : ι} {es : Trace ι} {op op' : Op} (h : Behind start size t op A es)
    (huse : use op A = .access A' op') : Behind start size t op' A' es := by
  cases op with
  | allocate layout =>
    obtain ⟨taken, free, hreach, hinv, rfl, l, hl⟩ := h
    simp only [use, hl] at huse
    cases huse
    exact ⟨_, free, hreach, hinv, rfl, hl, [], free, rfl, rfl, fun b hb => nomatch hb⟩
  | search layout l cur => exact behind_search hfits h huse
  | carve layout prev a info => exact behind_carve hstart hsize h huse
  | allocated => cases huse
  | deallocate p layout => exact behind_deallocate h huse
  | deallocated => cases huse
  | panicked =>
    obtain ⟨_, _, -, -, -, hfalse⟩ := h
    exact hfalse.elim

/-- What a thread leaves behind. -/
theorem rest_left {t : ι} {es : Trace ι} {op : Op} {r : Answer} (h : Behind start size t op A es)
    (huse : use op A = .leave r) : Rest start size A (es ++ [.left t r]) := by
  obtain ⟨taken, free, hreach, -, htaken, -⟩ := h
  rw [Rest, live_concat]
  cases op with
  | allocated layout ptr =>
    cases huse
    cases ptr with
    | none => exact htaken ▸ hreach
    | some p =>
      obtain rfl : taken = (p, layout) :: live es := htaken
      exact hreach
  | deallocated =>
    cases huse
    exact htaken ▸ hreach
  | allocate layout =>
    simp only [use] at huse
    split at huse <;> cases huse
  | search layout l cur =>
    simp only [use] at huse
    split at huse
    · cases huse
    · split at huse <;> cases huse
  | carve => cases huse
  | deallocate =>
    simp only [use] at huse
    split at huse <;> cases huse
  | panicked => cases huse

/-- A write into a block that is live is one into a block that is taken. -/
theorem poke_outside {taken : List Live} {w : Nat × Word} {e : Live} (he : e ∈ taken)
    (hw : (block e).Has w.1) (x : Nat) (hx : ∀ e ∈ taken, ¬ (block e).Has x) :
    (poke w A).chunks.mem x = A.chunks.mem x := by
  have hne : x ≠ w.1 := by
    intro heq
    exact hx e he (heq ▸ hw)
  exact Function.update_of_ne hne ..

/-- **The rules of the lock.** -/
theorem rules (hstart : 8 ∣ start) (hsize : 16 ≤ size) (hfits : start + size < 2 ^ 64) :
    shared.Rules Contract (Rest start size) (Behind (ι := ι) start size) where
  spun := by
    intro t op A es u h _
    obtain ⟨taken, free, hreach, hinv, htaken, hat⟩ := h
    refine ⟨taken, free, hreach, hinv, ?_, hat⟩
    rw [live_concat]
    exact htaken
  entered := by
    intro t op A es hP hG
    obtain ⟨free, hinv⟩ := Reaches.inv hstart hsize hP
    have hallowed := Always.last hG
    refine ⟨live es, free, hP, hinv, ?_, ?_⟩
    · rw [live_concat]
      cases op with
      | allocate => exact rfl
      | deallocate p layout => exact ⟨hallowed, rfl⟩
      | search => exact hallowed.elim
      | carve => exact hallowed.elim
      | allocated => exact hallowed.elim
      | deallocated => exact hallowed.elim
      | panicked => exact hallowed.elim
    · cases op with
      | allocate => exact hallowed
      | deallocate => exact trivial
      | search => exact hallowed.elim
      | carve => exact hallowed.elim
      | allocated => exact hallowed.elim
      | deallocated => exact hallowed.elim
      | panicked => exact hallowed.elim
  access := by
    intro t op A es A' op' h huse
    exact behind_access hstart hsize hfits h huse
  left := by
    intro t op A es r h huse
    exact rest_left h huse
  touchedFree := by
    intro w A es hP hG
    obtain ⟨e, he, hw⟩ := Always.last hG
    rw [Rest, live_concat]
    exact Reaches.write _ hP (poke_outside he hw)
  touchedHeld := by
    intro t op w A es h hG
    obtain ⟨taken, free, hreach, hinv, htaken, hat⟩ := h
    obtain ⟨e, he, hw⟩ := Always.last hG
    have hout := poke_outside (A := A) (htaken.sublist.subset he) hw
    refine ⟨taken, free, .write _ hreach hout, inv_write hinv hout, ?_, hat⟩
    rw [live_concat]
    exact htaken

/-- What a `taken` list says of a part of it. -/
theorem live_apart {taken live : List Live} {free : List Block}
    (hinv : Inv start (start + alignDown size 8) A taken free) (hsub : live.Sublist taken) :
    live.Pairwise (fun e f => (block e).Apart (block f)) ∧
      ∀ e ∈ live, e.2.align ∣ e.1 ∧ start ≤ (block e).start ∧
        (block e).start + (block e).size ≤ start + alignDown size 8 ∧
        e.2.size ≤ (block e).size := by
  have hap := (List.pairwise_append.mp hinv.tiles.apart).2.1
  refine ⟨(List.pairwise_map.mp hap).sublist hsub, fun e he => ?_⟩
  have hmem := hsub.subset he
  obtain ⟨halign, -, l, hl⟩ := hinv.live e hmem
  have hpad := ChunkList.alignLayout_padded hl
  have hsize : (block e).size = l.size := by simp [block, paddedSize, hl]
  have hpos : 0 < (block e).size := by
    rw [hsize]
    exact Nat.lt_of_lt_of_le (by decide) hpad.1.min
  obtain ⟨hlo, hhi⟩ := hinv.tiles.bounds
    (List.mem_append_right _ (List.mem_map_of_mem (f := block) hmem)) hpos
  exact ⟨halign, hlo, hhi, by omega⟩

end Behind

/-! ## Runs -/

/-- **Threads never share a block.** Whatever the interleaving, at every moment, also while a thread
is in the middle of `allocate` or `deallocate`, the live blocks are disjoint, aligned, long enough
and inside the arena, and no thread has panicked with the lock. Whenever the lock is free, the free
chunks and the live blocks cut the arena up exactly. The arena lies below `2 ^ 64`; that the sum of an
address in it and the size or the alignment of a layout stays below, too, is left to the callers. -/
theorem shared_arena [DecidableEq ι] {start size : Nat} (hstart : 8 ∣ start) (hsize : 16 ≤ size)
    (hfits : start + size < 2 ^ 64) (mem : Nat → Word) (turns : List (Turn ι Op (Nat × Word)))
    (h : Contract ((shared.machine ι).run (new ι mem start size) turns).2) :
    let (s, es) := (shared.machine ι).run (new ι mem start size) turns
    (live es).Pairwise (fun e f => (block e).Apart (block f)) ∧
      (∀ e ∈ live es, e.2.align ∣ e.1 ∧ start ≤ (block e).start ∧
        (block e).start + (block e).size ≤ start + alignDown size 8 ∧
        e.2.size ≤ (block e).size) ∧
      (∀ t msg, s.inside t ≠ some (.panicked msg)) ∧
      (s.word = false → ∃ free : List Block,
        ChunkList.Seg s.data.chunks.mem s.data.chunks.head free none ∧
        Tiles start (start + alignDown size 8) (free ++ (live es).map block)) := by
  have hkept := Monitor.kept (rules hstart hsize hfits) Always.of_append (Reaches.new mem) turns h
  rcases hkept with ⟨-, hin, hP⟩ | ⟨t, op, hword, hin, taken, free, -, hinv, htaken, hat⟩
  · obtain ⟨free, hinv⟩ := Reaches.inv hstart hsize hP
    obtain ⟨hap, hlive⟩ := live_apart hinv (List.Sublist.refl _)
    refine ⟨hap, hlive, ?_, fun _ => ⟨free, hinv.links, hinv.tiles⟩⟩
    intro t msg ht
    cases (congrFun hin t).symm.trans ht
  · obtain ⟨hap, hlive⟩ := live_apart hinv htaken.sublist
    refine ⟨hap, hlive, ?_, fun hfree => ?_⟩
    · intro u msg hu
      obtain ⟨-, rfl⟩ := eq_of_alone ((congrFun hin u).symm.trans hu)
      exact hat.elim
    · cases hword.symm.trans hfree

/-- Thread 0 allocates, thread 1 finds the lock taken and asks again, and thread 0 writes into its
block in the middle of the search of thread 1. -/
def sharedTurns : List (Turn Nat Op (Nat × Word)) :=
  [.call 0 (.allocate layout24), .go 0, .call 1 (.allocate layout24), .go 0, .go 0, .go 0,
    .call 1 (.allocate layout24), .go 1, .touch (4136, .usize 7), .go 1]

theorem shared_arena_run :
    let (s, es) := (shared.machine Nat).run (new Nat (fun _ => .usize 0) 4104 4000) sharedTurns
    live es = [(4128, layout24)] ∧ s.word = true ∧
      ∀ t msg, s.inside t ≠ some (.panicked msg) := by
  have htrace : ((shared.machine Nat).run (new Nat (fun _ => .usize 0) 4104 4000)
      sharedTurns).2 = [] ++ [.entered 0 (.allocate layout24)] ++ [.spun 1] ++
        [.left 0 (.slice layout24 (some (4128, 24)))] ++ [.entered 1 (.allocate layout24)] ++
        [.touched (4136, .usize 7)] := rfl
  have hlayout : ∃ l, ChunkList.alignLayout layout24 = ok l := ⟨⟨32, 32, ⟨5, rfl⟩, by decide⟩, rfl⟩
  have hwrite : ∃ e ∈ [((4128, layout24) : Live)], (block e).Has 4136 :=
    ⟨_, List.mem_singleton_self _, by decide, by decide⟩
  have hcontract : Contract ((shared.machine Nat).run (new Nat (fun _ => .usize 0) 4104 4000)
      sharedTurns).2 := by
    rw [htrace]
    refine Always.concat (.concat (.concat (.concat (.concat .nil ?_) ?_) ?_) ?_) ?_
    · exact hlayout
    · exact trivial
    · exact trivial
    · exact hlayout
    · exact hwrite
  have h := shared_arena (by decide) (by decide) (by decide) _ sharedTurns hcontract
  exact ⟨rfl, rfl, h.2.2.1⟩

end KObjectArena
end Allora
