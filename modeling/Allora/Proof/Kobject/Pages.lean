import Allora.Proof.Kobject.Region
import Allora.Proof.PageTree.Fuel
import Allora.Proof.PageTree.Invariant
import Mathlib.Data.List.Nodup
import Mathlib.Data.List.Perm.Lattice

/-!
# Who owns a page

Every page of the pool is in the free tree of one container or in the run of pages reserved for one
object. `Owned` says so of a kernel, with one more place: `limbo`, the pages that a call has taken
out of a tree and not yet put anywhere. Each step of a call moves pages from one place to another,
so each is one lemma about `Owned`, and a call is their composition.

A step also writes memory, and the free trees live in memory. Tree operations write only to the
pages of the tree they work on. Creating an object writes to the pages of the object — as long as
it keeps to them: `ClosureFits` is where that is needed, for threads.
-/

set_option autoImplicit false

namespace Allora

open Outcome PageTree

/-! ## The tree operations, at whatever fuel they returned -/

section TreeOps

variable {t t' : PageTree} {s : Tree Nat} {fuel n page : Nat}

/-- The tree after a `get_multiple(n)` that goes through. -/
def Kernel.taken (s : Tree Nat) (n : Nat) : Tree Nat := (deleteTrees (takes s.toList n) s).getD .nil

/-- `get_multiple(n)` goes through and answers `page`. -/
def Kernel.takesOk (s : Tree Nat) (n page : Nat) : Bool :=
  (deleteTrees (takes s.toList n) s).isSome && firstRun s.toList n = some page

theorem getMultiple_perm (h : Holds t s) (hrun : t.getMultiple fuel n = ok (t', some page)) :
    Kernel.takesOk s n page = true ∧ Holds t' (Kernel.taken s n) ∧
      List.Perm s.toList (List.range' page n ++ (Kernel.taken s n).toList) ∧
      Framed s.toList t t' := by
  have hget := getMultiple_holds (k := n) h
    (show _ < max fuel (s.toList.length + 1) by omega)
  rw [(getMultiple_mono (Nat.le_max_left _ _) t n).eq_ok hrun] at hget
  cases hd : deleteTrees (takes s.toList n) s with
  | none =>
    rw [hd] at hget
    exact absurd hget (not_panics_ok _)
  | some s' =>
    rw [hd] at hget
    obtain ⟨t₁, heq, h', hseq, hfr, -⟩ := hget
    simp only [ok.injEq, Prod.mk.injEq] at heq
    obtain ⟨rfl, hrun'⟩ := heq
    have htakes : takes s.toList n = List.range' page n := by rw [takes, ← hrun']
    have htaken : Kernel.taken s n = s' := by rw [Kernel.taken, hd, Option.getD_some]
    have hok : Kernel.takesOk s n page = true := by
      rw [Kernel.takesOk, hd, ← hrun']
      simp
    rw [htaken]
    refine ⟨hok, h', ?_, hfr⟩
    rw [hseq, htakes]
    refine (List.subperm_append_diff_self_of_count_le fun m hm => ?_).symm
    rw [List.count_eq_one_of_mem (List.nodup_range') hm]
    exact List.one_le_count_iff.mpr (takes_subset s.toList n m (htakes ▸ hm))

theorem insert_perm (h : Holds t s) (hn : n ≠ 0) (hns : n ∉ s.toList)
    (hrun : t.insert fuel n = ok t') :
    ∃ s', Holds t' s' ∧ List.Perm s'.toList (n :: s.toList) ∧ Framed (n :: s.toList) t t' := by
  obtain ⟨t₁, s', hok, h', -, hperm, hfr⟩ := insert_holds h hn hns
    (show _ < max fuel (s.toList.length + 2) by omega)
  rw [(insert_mono (Nat.le_max_left _ _) t n).eq_ok hrun] at hok
  cases hok
  exact ⟨s', h', hperm, hfr⟩

theorem inserts_perm :
    ∀ {ns : List Nat} {t t' : PageTree} {s : Tree Nat}, Holds t s → (ns ++ s.toList).Nodup →
      0 ∉ ns → ns.foldlM (insert fuel) t = ok t' →
      ∃ s', Holds t' s' ∧ List.Perm s'.toList (ns ++ s.toList)
  | [], t, t', s, h, _, _, hrun => by
    cases hrun
    exact ⟨s, h, List.Perm.refl _⟩
  | n :: ns, t, t', s, h, hnd, h0, hrun => by
    rw [List.foldlM_cons, bind_eq_ok] at hrun
    obtain ⟨t₁, h₁, hrest⟩ := hrun
    rw [List.cons_append, List.nodup_cons, List.mem_append, not_or] at hnd
    rw [List.mem_cons, not_or] at h0
    obtain ⟨s₁, hs₁, hperm₁, -⟩ := insert_perm h (Ne.symm h0.1) hnd.1.2 h₁
    have hperm : List.Perm (ns ++ s₁.toList) (n :: (ns ++ s.toList)) :=
      (hperm₁.append_left ns).trans List.perm_middle
    obtain ⟨s', hs', hperm'⟩ := inserts_perm hs₁
      (hperm.nodup_iff.mpr (List.nodup_cons.mpr ⟨by simp [hnd.1], hnd.2⟩)) h0.2 hrest
    exact ⟨s', hs', hperm'.trans hperm⟩

end TreeOps

/-! ## Ownership -/

/-- The pages of an object. -/
def pageList (o : Nat × KObjectKind) : List Nat := List.range' o.1 (reservedPages o.2)

theorem mem_pageList_self (page : Nat) (kind : KObjectKind) : page ∈ pageList (page, kind) := by
  have hpos : 0 < reservedPages kind := by cases kind <;> decide
  rw [pageList, List.mem_range'_1]
  exact ⟨Nat.le_refl _, Nat.lt_add_of_pos_right hpos⟩

/-- The pages of the free trees. -/
def freeList (cts : List Nat) (tree : Nat → Tree Nat) : List Nat :=
  cts.flatMap fun c => (tree c).toList

namespace Kernel

variable {Buckle : Type}

/-- Writing to pages `page, …, page + m - 1` leaves the nodes of the others. -/
theorem dirty_mem {k : Kernel Buckle} {page top m n : Nat} {bytes : Nat → PageNode}
    (htop : top ≤ pa (page + m)) (hn : n ∉ List.range' page m) :
    (k.dirty page top bytes).mem n = k.mem n := by
  refine if_neg fun hn' => hn (List.mem_range'_1.mpr ⟨hn'.1, ?_⟩)
  have : pa n < pa (page + m) := Nat.lt_of_lt_of_le hn'.2 htop
  exact Nat.lt_of_mul_lt_mul_right this

/-- Every page of the pool has one owner: the free tree of a container, an object, or the call in
progress. -/
structure Owned (pool : List Nat) (k : Kernel Buckle) (cts : List Nat)
    (objs : List (Nat × KObjectKind)) (limbo : List Nat) (tree : Nat → Tree Nat) : Prop where
  distinct : cts.Nodup
  objects : ∀ c ∈ cts, (c, KObjectKind.container) ∈ objs
  holds : ∀ c ∈ cts, Holds (k.freePages c) (tree c)
  parts : List.Perm (freeList cts tree ++ (objs.flatMap pageList ++ limbo)) pool

section Steps

variable {pool : List Nat} {k : Kernel Buckle} {cts limbo : List Nat}
  {objs : List (Nat × KObjectKind)} {tree : Nat → Tree Nat}

theorem freeList_split (tree : Nat → Tree Nat) {ct : Nat} (hct : ct ∈ cts) :
    List.Perm (freeList cts tree) ((tree ct).toList ++ freeList (cts.erase ct) tree) := by
  have := (List.perm_cons_erase hct).flatMap_right fun c => (tree c).toList
  simpa [freeList] using this

/-- Changing one tree changes one part of the free list. -/
theorem freeList_update {ct : Nat} (hct : ct ∈ cts) (hnd : cts.Nodup) (s : Tree Nat) :
    List.Perm (freeList cts (Function.update tree ct s))
      (s.toList ++ freeList (cts.erase ct) tree) := by
  refine (freeList_split _ hct).trans ?_
  rw [Function.update_self]
  refine List.Perm.append_left _ (List.Perm.of_eq ?_)
  refine List.flatMap_congr fun c hc => ?_
  rw [Function.update_of_ne (hnd.mem_erase_iff.mp hc).1]

namespace Owned

/-- Only memory and metadata matter. -/
theorem congr {k' : Kernel Buckle} (h : Owned pool k cts objs limbo tree) (hm : k'.mem = k.mem)
    (hi : k'.info = k.info) : Owned pool k' cts objs limbo tree :=
  ⟨h.distinct, h.objects, fun c hc => by
    have := h.holds c hc
    rwa [freePages, ← hm, ← hi] at this, h.parts⟩

theorem perm {limbo' : List Nat} (h : Owned pool k cts objs limbo tree)
    (hp : List.Perm limbo limbo') : Owned pool k cts objs limbo' tree :=
  ⟨h.distinct, h.objects, h.holds, ((hp.symm.append_left _).append_left _).trans h.parts⟩

variable (hpool : pool.Nodup)

include hpool in
/-- A page in limbo is in no tree. -/
theorem limbo_notMem (h : Owned pool k cts objs limbo tree) {n c : Nat} (hn : n ∈ limbo)
    (hc : c ∈ cts) : n ∉ (tree c).toList := by
  have hnd := h.parts.nodup_iff.mpr hpool
  intro hm
  exact (List.nodup_append.mp hnd).2.2 n (List.mem_flatMap.mpr ⟨c, hc, hm⟩) n
    (List.mem_append_right _ hn) rfl

include hpool in
/-- A page in limbo is not an object. -/
theorem limbo_not_object (h : Owned pool k cts objs limbo tree) {n : Nat} (hn : n ∈ limbo)
    (kind : KObjectKind) : (n, kind) ∉ objs := by
  have hnd := (List.nodup_append.mp (h.parts.nodup_iff.mpr hpool)).2.1
  intro hobj
  have hpage : n ∈ objs.flatMap pageList :=
    List.mem_flatMap.mpr ⟨(n, kind), hobj, mem_pageList_self n _⟩
  exact (List.nodup_append.mp hnd).2.2 n hpage n hn rfl

include hpool in
/-- A page in limbo is not a container. -/
theorem limbo_not_container (h : Owned pool k cts objs limbo tree) {n : Nat} (hn : n ∈ limbo) :
    n ∉ cts :=
  fun hc => h.limbo_not_object hpool hn .container (h.objects n hc)

include hpool in
/-- Two trees share no page. -/
theorem trees_disjoint (h : Owned pool k cts objs limbo tree) {c c' n : Nat} (hc : c ∈ cts)
    (hc' : c' ∈ cts) (hne : c' ≠ c) (hn : n ∈ (tree c).toList) : n ∉ (tree c').toList := by
  have hnd := (List.nodup_append.mp (h.parts.nodup_iff.mpr hpool)).1
  have hsplit := (freeList_split tree hc).nodup_iff.mp hnd
  intro hn'
  refine (List.nodup_append.mp hsplit).2.2 n hn n (List.mem_flatMap.mpr ⟨c', ?_, hn'⟩) rfl
  exact (List.mem_erase_of_ne hne).mpr hc'

include hpool in
/-- The tree of `ct` is replaced by one over other pages: its own and some from limbo. -/
theorem setTree (h : Owned pool k cts objs limbo tree) {ct : Nat} (hct : ct ∈ cts)
    {t : PageTree} {s : Tree Nat} {limbo' L : List Nat} (ht : Holds t s)
    (hfr : Framed L (k.freePages ct) t)
    (hL : ∀ n ∈ L, n ∈ (tree ct).toList ∨ n ∈ limbo)
    (hperm : List.Perm (s.toList ++ limbo') ((tree ct).toList ++ limbo)) :
    Owned pool (k.setFreePages ct t) cts objs limbo' (Function.update tree ct s) := by
  refine ⟨h.distinct, h.objects, fun c hc => ?_, ?_⟩
  · by_cases hcc : c = ct
    · subst hcc
      rw [Function.update_self]
      refine ht.congr ?_ fun n _ => rfl
      simp [freePages, setFreePages, setMeta]
    · rw [Function.update_of_ne hcc]
      refine (h.holds c hc).congr ?_ fun n hn => ?_
      · simp [freePages, setFreePages, setMeta, hcc]
      · refine hfr n fun hnL => ?_
        rcases hL n hnL with hn' | hn'
        · exact h.trees_disjoint hpool hct hc hcc hn' hn
        · exact h.limbo_notMem hpool hn' hc hn
  · refine List.Perm.trans ?_ h.parts
    refine ((freeList_update hct h.distinct s).append_right _).trans ?_
    refine List.Perm.trans ?_ ((freeList_split _ hct).append_right _).symm
    simp only [List.append_assoc]
    -- move both limbos next to their trees
    have hmove : ∀ (A : List Nat) (l : List Nat),
        List.Perm (A ++ (freeList (cts.erase ct) tree ++ (objs.flatMap pageList ++ l)))
          ((A ++ l) ++ (freeList (cts.erase ct) tree ++ objs.flatMap pageList)) := by
      intro A l
      rw [List.append_assoc, ← List.append_assoc (freeList (cts.erase ct) tree)]
      exact List.perm_append_comm.append_left A
    exact (hmove _ _).trans ((hperm.append_right _).trans (hmove _ _).symm)

include hpool in
/-- `free_pages.get_multiple(n).unwrap()`: the pages go into limbo. -/
theorem takePages {fuel ct n page : Nat} {k' : Kernel Buckle}
    (h : Owned pool k cts objs limbo tree) (hct : ct ∈ cts)
    (hrun : k.takePages fuel ct n = ok (k', page)) :
    takesOk (tree ct) n page = true ∧ Owned pool k' cts objs (List.range' page n ++ limbo)
      (Function.update tree ct (taken (tree ct) n)) := by
  simp only [Kernel.takePages, bind_eq_ok, pure_eq_ok, ok.injEq] at hrun
  obtain ⟨⟨t, r⟩, hget, page', hr, heq⟩ := hrun
  cases r with
  | none => cases hr
  | some a =>
    cases hr
    cases heq
    obtain ⟨hok, hs', hperm, hfr⟩ := getMultiple_perm (h.holds ct hct) hget
    refine ⟨hok, h.setTree hpool hct hs' hfr (fun n hn => Or.inl hn) ?_⟩
    refine List.Perm.trans ?_ (hperm.append_right limbo).symm
    rw [← List.append_assoc]
    exact List.perm_append_comm.append_right limbo

include hpool in
/-- `free_pages.insert(p)`: a page comes out of limbo. -/
theorem insertPage {fuel ct p : Nat} {t : PageTree}
    (h : Owned pool k cts objs (p :: limbo) tree) (hct : ct ∈ cts) (hp : p ≠ 0)
    (hrun : (k.freePages ct).insert fuel p = ok t) :
    ∃ tree', Owned pool (k.setFreePages ct t) cts objs limbo tree' := by
  have hnot := h.limbo_notMem hpool (n := p) (by simp) hct
  obtain ⟨s', hs', hperm, hfr⟩ := insert_perm (h.holds ct hct) hp hnot hrun
  refine ⟨_, h.setTree hpool hct hs' hfr (fun n hn => ?_) ?_⟩
  · rcases List.mem_cons.mp hn with rfl | hn
    · exact Or.inr (by simp)
    · exact Or.inl hn
  · exact (hperm.append_right limbo).trans List.perm_middle.symm

include hpool in
/-- An object is written to pages that were in limbo, and they are its own from now on. -/
theorem newObject {page top : Nat} {kind : KObjectKind} {bytes : Nat → PageNode}
    {f : KObjectMeta → KObjectMeta}
    (h : Owned pool k cts objs (pageList (page, kind) ++ limbo) tree)
    (htop : top ≤ pa (page + reservedPages kind)) :
    Owned pool ((k.dirty page top bytes).setMeta page f) cts ((page, kind) :: objs) limbo tree := by
  have hpage : page ∈ pageList (page, kind) ++ limbo :=
    List.mem_append_left _ (mem_pageList_self page kind)
  refine ⟨h.distinct, fun c hc => List.mem_cons_of_mem _ (h.objects c hc), fun c hc => ?_, ?_⟩
  · have hne : c ≠ page := fun he => h.limbo_not_container hpool hpage (he ▸ hc)
    refine (h.holds c hc).congr ?_ fun n hn => ?_
    · simp [freePages, setMeta, dirty, hne]
    · -- the pages written are in limbo, so they are not in the tree
      exact dirty_mem htop fun hn' => h.limbo_notMem hpool (List.mem_append_left _ hn') hc hn
  · refine List.Perm.trans ?_ h.parts
    refine List.Perm.append_left _ ?_
    rw [List.flatMap_cons, List.append_assoc]
    exact List.perm_append_comm_assoc _ _ _

/-- A change of metadata that leaves the free tree alone. -/
theorem setMeta (h : Owned pool k cts objs limbo tree) (page : Nat)
    {f : KObjectMeta → KObjectMeta} (hf : ∀ m, (f m).freePages = m.freePages) :
    Owned pool (k.setMeta page f) cts objs limbo tree := by
  refine ⟨h.distinct, h.objects, fun c hc => ?_, h.parts⟩
  refine (h.holds c hc).congr ?_ fun n _ => rfl
  by_cases hcp : c = page
  · subst hcp
    simp [freePages, Kernel.setMeta, hf]
  · simp [freePages, Kernel.setMeta, hcp]

/-- A new object with an empty free tree is one more container. -/
theorem newContainer {page : Nat}
    (h : Owned pool k cts ((page, .container) :: objs) limbo tree) (hnew : page ∉ cts)
    (hroot : (k.info page).freePages = none) :
    Owned pool k (page :: cts) ((page, .container) :: objs) limbo
      (Function.update tree page .nil) := by
  have hsame : ∀ c ∈ cts, Function.update tree page .nil c = tree c := fun c hc =>
    Function.update_of_ne (by rintro rfl; exact hnew hc) _ _
  refine ⟨List.nodup_cons.mpr ⟨hnew, h.distinct⟩, fun c hc => ?_, fun c hc => ?_, ?_⟩
  · rcases List.mem_cons.mp hc with rfl | hc
    · simp
    · exact h.objects c hc
  · rcases List.mem_cons.mp hc with rfl | hc
    · rw [Function.update_self, freePages, hroot]
      exact holds_empty k.mem
    · rw [hsame c hc]
      exact h.holds c hc
  · have hfree : freeList (page :: cts) (Function.update tree page .nil) = freeList cts tree := by
      rw [freeList, List.flatMap_cons, Function.update_self, Tree.toList_nil, List.nil_append]
      exact List.flatMap_congr fun c hc => by rw [hsame c hc]
    rw [hfree]
    exact h.parts

end Owned

end Steps

/-! ## What a step writes -/

section Frame

variable {k k' : Kernel Buckle} {ct : Nat} {lb : Labeled Buckle} {sz : Sizes}
  {bytes : Nat → PageNode} {label : String}

theorem getSlot_mem (k : Kernel Buckle) (ct : Nat) : (k.getSlot ct).1.mem = k.mem := by
  unfold getSlot
  split <;> rfl

theorem getSlot_info (k : Kernel Buckle) (ct : Nat) : (k.getSlot ct).1.info = k.info := by
  unfold getSlot
  split <;> rfl

theorem setSlot_same {slot ref : Nat} (h : k.setSlot ct slot ref = ok k') :
    k'.mem = k.mem ∧ k'.info = k.info := by
  unfold setSlot at h
  split at h
  · cases h
    exact ⟨rfl, rfl⟩
  · cases h

theorem createLabel_eq {page : Nat} (h : k.createLabel lb sz bytes page label = ok k') :
    k'.mem = (k.dirty page (pa (page + KOBJ_NPAGES)) bytes).mem ∧
      k'.info = Function.update k.info page (kobjectCreate .label page sz.label []) := by
  simp only [createLabel, bind_eq_ok, pure_eq_ok, ok.injEq] at h
  obtain ⟨b, -, rfl⟩ := h
  exact ⟨rfl, rfl⟩

end Frame

/-! ## The pool -/

/-- The pages of the initial pool. -/
def bootPool (memStart : Nat) : List Nat := List.range' (pageAlignUp memStart / PAGE_SIZE) 512

theorem nodup_bootPool (memStart : Nat) : (bootPool memStart).Nodup := List.nodup_range'

theorem zero_notMem_bootPool {memStart : Nat} (h : 0 < memStart) : 0 ∉ bootPool memStart := by
  have h1 : memStart ≤ pageAlignUp memStart := le_alignUp memStart (by decide)
  have h2 : PAGE_SIZE ∣ pageAlignUp memStart := dvd_alignUp memStart PAGE_SIZE
  have h3 : 0 < pageAlignUp memStart / PAGE_SIZE :=
    Nat.div_pos (Nat.le_of_dvd (by omega) h2) (by decide)
  rw [bootPool, List.mem_range'_1]
  omega

/-- Addresses are below `2 ^ 64`, so no page of the pool has the number of the invalid entry. -/
theorem invalid_notMem_bootPool {memStart : Nat} (h : memStart < 2 ^ 64) :
    INVALID_KOBJ_ID ∉ bootPool memStart := by
  have h1 : pageAlignUp memStart < memStart + PAGE_SIZE := alignUp_lt memStart (by decide)
  have h2 : pageAlignUp memStart / PAGE_SIZE ≤ pageAlignUp memStart := Nat.div_le_self _ _
  rw [bootPool, List.mem_range'_1]
  simp only [INVALID_KOBJ_ID, PAGE_SIZE] at *
  omega

end Kernel

end Allora
