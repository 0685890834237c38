import Allora.Proof.Kobject.Returns

/-!
# Runs of the kernel: every page has one owner

The calls of `container.rs` and `thread.rs` are compositions of the steps of
`Proof/Kobject/Pages`, and a run is a sequence of calls from the boot state. `Reaches` keeps, next
to the kernel, the containers made so far and the objects with their kinds, as the calls return
them. Its parameter `cond` is a condition on the calls of `spawn_raw`: the result holds for closures
that fit where the thread lands, and a run with one that does not is at the end.
-/

set_option autoImplicit false

namespace Allora
namespace Kernel

open Outcome PageTree

variable {Buckle : Type} {pool : List Nat} {k k' : Kernel Buckle} {cts limbo : List Nat}
  {objs : List (Nat × KObjectKind)} {tree : Nat → Tree Nat} {fuel ct : Nat} {lb : Labeled Buckle}
  {sz : Sizes} {bytes : Nat → PageNode} {label : String}

/-! ## Slots leave pages alone -/

theorem Owned.getSlot (h : Owned pool k cts objs limbo tree) (ct : Nat) :
    Owned pool (k.getSlot ct).1 cts objs limbo tree :=
  h.congr (getSlot_mem k ct) (getSlot_info k ct)

theorem Owned.setSlot (h : Owned pool k cts objs limbo tree) {slot ref : Nat}
    (hrun : k.setSlot ct slot ref = ok k') : Owned pool k' cts objs limbo tree :=
  h.congr (setSlot_same hrun).1 (setSlot_same hrun).2

/-! ## Objects -/

section Objects

variable (hpool : pool.Nodup)

include hpool in
theorem Owned.createLabel {page : Nat}
    (h : Owned pool k cts objs (pageList (page, .label) ++ limbo) tree)
    (hrun : k.createLabel lb sz bytes page label = ok k') :
    Owned pool k' cts ((page, .label) :: objs) limbo tree := by
  obtain ⟨hm, hi⟩ := createLabel_eq hrun
  exact (h.newObject hpool (f := fun _ => kobjectCreate .label page sz.label [])
    (Nat.le_refl _)).congr hm hi

include hpool in
theorem Owned.createContainer {page : Nat}
    (h : Owned pool k cts objs (pageList (page, .container) ++ limbo) tree) :
    Owned pool (k.createContainer sz bytes page) (page :: cts) ((page, .container) :: objs) limbo
      (Function.update tree page .nil) := by
  have hnew := h.limbo_not_container hpool
    (List.mem_append_left limbo (mem_pageList_self page .container))
  have hobj : Owned pool ((k.dirty page (pa (page + KOBJ_NPAGES)) bytes).setMeta page
      fun _ => kobjectCreate .container page sz.container []) cts ((page, .container) :: objs)
      limbo tree := h.newObject hpool (Nat.le_refl _)
  refine Owned.newContainer (hobj.congr rfl rfl) hnew ?_
  simp [Kernel.createContainer, Kernel.setMeta, kobjectCreate]

include hpool in
theorem Owned.createThread {page : Nat} {closure : Layout}
    (h : Owned pool k cts objs (pageList (page, .thread) ++ limbo) tree) (hsz : sz.Ok)
    (hfits : ClosureFits sz.thread page closure)
    (hrun : k.createThread fuel sz bytes page closure = ok k') :
    Owned pool k' cts ((page, .thread) :: objs) limbo tree := by
  simp only [Kernel.createThread, bind_eq_ok, pure_eq_ok, ok.injEq] at hrun
  obtain ⟨top, htop, rfl⟩ := hrun
  exact h.newObject hpool (threadTop_le (hsz.aligned .thread) (hsz.room .thread) hfits htop)

/-! ## Calls -/

include hpool in
/-- The pages of a label are taken out of `ct` and become the label's. -/
theorem Owned.takeLabel {page : Nat} {k₁ : Kernel Buckle} (h : Owned pool k cts objs [] tree)
    (hct : ct ∈ cts) (htake : (k.getSlot ct).1.takePages fuel ct KOBJ_NPAGES = ok (k₁, page))
    (hrun : k₁.createLabel lb sz bytes page label = ok k') :
    takesOk (tree ct) KOBJ_NPAGES page = true ∧ Owned pool k' cts ((page, .label) :: objs) []
      (Function.update tree ct (taken (tree ct) KOBJ_NPAGES)) := by
  obtain ⟨hok, h₁⟩ := (h.getSlot ct).takePages hpool hct htake
  exact ⟨hok, h₁.createLabel hpool hrun⟩

include hpool in
theorem Owned.create {c : Nat} (h : Owned pool k cts objs [] tree) (hct : ct ∈ cts)
    (hrun : k.create fuel lb sz bytes ct label = ok (k', c)) :
    ∃ l tree', (k'.info c).label = some l ∧
      Owned pool k' (c :: cts) ((c, .container) :: (l, .label) :: objs) [] tree' := by
  simp only [Kernel.create, bind_eq_ok, pure_eq_ok, ok.injEq] at hrun
  obtain ⟨mine, -, u, -, ⟨k₁, l⟩, htake, k₂, hlabel, k₃, hset, ⟨k₄, c'⟩, htake', k₅, hset', heq⟩ :=
    hrun
  cases heq
  obtain ⟨-, h₁⟩ := h.takeLabel hpool hct htake hlabel
  obtain ⟨-, h₂⟩ := ((h₁.setSlot hset).getSlot ct).takePages hpool hct htake'
  have h₃ := (Owned.createContainer hpool h₂).setSlot hset'
  exact ⟨l, _, by simp [Kernel.setMeta], h₃.setMeta c' fun _ => rfl⟩

include hpool in
theorem Owned.spawnRaw {th : Nat} {closure : Layout} (h : Owned pool k cts objs [] tree)
    (hct : ct ∈ cts) (hsz : sz.Ok) (hfits : FitsAtLanding sz.thread k ct closure)
    (hrun : k.spawnRaw fuel lb sz bytes ct label closure = ok (k', th)) :
    ∃ l tree', (k'.info th).label = some l ∧
      Owned pool k' cts ((th, .thread) :: (l, .label) :: objs) [] tree' := by
  simp only [Kernel.spawnRaw, bind_eq_ok, pure_eq_ok, ok.injEq] at hrun
  obtain ⟨curr, -, mine, -, u, -, ⟨k₁, l⟩, htake, k₂, hlabel, k₃, hset, ⟨k₄, th'⟩, htake', k₅,
    hthread, k₆, hset', heq⟩ := hrun
  cases heq
  obtain ⟨hok₁, h₁⟩ := h.takeLabel hpool hct htake hlabel
  have h₂ := (h₁.setMeta l (f := fun m => { m with parent := some ct }) fun _ => rfl).setSlot hset
  obtain ⟨hok₂, h₃⟩ := (h₂.getSlot ct).takePages hpool hct htake'
  rw [Function.update_self] at hok₂
  -- the tree is the one before the call but for the pages of the label
  have hst : Stocked ((tree ct).toList.length + 1) ct k []
      [(KOBJ_NPAGES, l), (THREAD_NPAGES, th')] :=
    ⟨tree ct, h.holds ct hct, Nat.lt_succ_self _, by simp, by simp [stages, hok₁, hok₂]⟩
  have h₄ := h₃.createThread hpool hsz (hfits _ _ hst.landing) hthread
  have h₅ := h₄.setMeta th' (f := fun m => { m with parent := some ct, label := some l })
    fun _ => rfl
  refine ⟨l, _, ?_, h₅.setSlot hset'⟩
  rw [(setSlot_same hset').2]
  simp [Kernel.setMeta]

include hpool in
theorem Owned.initMain {th : Nat} (h : Owned pool k cts objs [] tree)
    (hct : ct ∈ cts) (hsz : sz.Ok) (hrun : k.initMain fuel lb sz bytes ct = ok (k', th)) :
    ∃ l tree', (k'.info th).label = some l ∧
      Owned pool k' cts ((th, .thread) :: (l, .label) :: objs) [] tree' := by
  simp only [Kernel.initMain, bind_eq_ok, pure_eq_ok, ok.injEq] at hrun
  obtain ⟨⟨k₁, l⟩, htake, k₂, hlabel, k₃, hset, ⟨k₄, th'⟩, htake', k₅, hthread, k₆, hset', heq⟩ :=
    hrun
  cases heq
  obtain ⟨-, h₁⟩ := h.takeLabel hpool hct htake hlabel
  obtain ⟨-, h₂⟩ := ((h₁.setSlot hset).getSlot ct).takePages hpool hct htake'
  have h₃ := h₂.createThread hpool hsz (Or.inl rfl) hthread
  have h₄ : Owned pool
      { k₅.setMeta th' fun m => { m with label := some l } with current := some th' } cts _ [] _ :=
    (h₃.setMeta th' (f := fun m => { m with label := some l }) fun _ => rfl).congr rfl rfl
  refine ⟨l, _, ?_, h₄.setSlot hset'⟩
  rw [(setSlot_same hset').2]
  simp [Kernel.setMeta]

include hpool in
theorem Owned.insertPages (h0 : 0 ∉ pool) (hct : ct ∈ cts) :
    ∀ {ps : List Nat} {k k' : Kernel Buckle} {tree : Nat → Tree Nat},
      Owned pool k cts objs ps tree →
      ps.foldlM (fun k p => do
        let t ← (k.freePages ct).insert fuel p
        pure (k.setFreePages ct t)) k = ok k' →
      ∃ tree', Owned pool k' cts objs [] tree'
  | [], k, k', tree, h, hrun => by
    cases hrun
    exact ⟨tree, h⟩
  | p :: ps, k, k', tree, h, hrun => by
    simp only [List.foldlM_cons, bind_eq_ok, pure_eq_ok, ok.injEq] at hrun
    obtain ⟨k₁, ⟨t, ht, rfl⟩, hrest⟩ := hrun
    have hp : p ≠ 0 := by
      rintro rfl
      exact h0 (h.parts.subset (by simp))
    obtain ⟨tree₁, h₁⟩ := h.insertPage hpool hct hp ht
    exact Owned.insertPages h0 hct h₁ hrest

include hpool in
theorem Owned.moveNpages (h0 : 0 ∉ pool) {ct₁ ct₂ n : Nat} (h : Owned pool k cts objs [] tree)
    (h₁ : ct₁ ∈ cts) (h₂ : ct₂ ∈ cts) (hrun : k.moveNpages fuel ct₁ ct₂ n = ok k') :
    ∃ tree', Owned pool k' cts objs [] tree' := by
  simp only [Kernel.moveNpages, bind_eq_ok] at hrun
  obtain ⟨⟨k₁, page⟩, htake, hrest⟩ := hrun
  obtain ⟨-, ht⟩ := h.takePages hpool h₁ htake
  rw [List.append_nil] at ht
  exact Owned.insertPages hpool h0 h₂ ht hrest

end Objects

/-! ## Boot -/

theorem Owned.boot {memStart l : Nat} {mem : Nat → PageNode} {info : Nat → KObjectMeta}
    (hstart : 0 < memStart)
    (hrun : Kernel.boot fuel lb sz bytes mem info memStart = ok (k, ct, l)) :
    ∃ tree, Owned (bootPool memStart) k [ct] [(ct, .container), (l, .label)] [] tree := by
  have hpages : pageAlignDown (PAGE_SIZE * 512) / PAGE_SIZE = 512 := by decide
  simp only [Kernel.boot, PageTree.new, PageTree.init, hpages, bind_eq_ok, pure_eq_ok,
    ok.injEq] at hrun
  obtain ⟨t₀, hinit, ⟨t₁, r₁⟩, hget₁, l', hl, k₁, hlabel, ⟨t₂, r₂⟩, hget₂, ct', hct, heq⟩ := hrun
  cases r₁ with
  | none => cases hl
  | some l₁ =>
    cases r₂ with
    | none => cases hct
    | some c₁ =>
      cases hl
      cases hct
      cases heq
      obtain ⟨hm, hi⟩ := createLabel_eq hlabel
      -- all pages, then two for the label, then two for the container
      obtain ⟨s₀, h₀, hp₀⟩ := inserts_perm (holds_empty mem)
        (by simpa using nodup_bootPool memStart) (zero_notMem_bootPool hstart) hinit
      obtain ⟨-, h₁, hp₁, -⟩ := getMultiple_perm h₀ hget₁
      rw [Tree.toList_nil, List.append_nil] at hp₀
      have hnd₁ := hp₁.nodup_iff.mp (hp₀.nodup_iff.mpr (nodup_bootPool memStart))
      have hsep₁ := (List.nodup_append.mp hnd₁).2.2
      have h₁' : Holds ⟨k₁.mem, t₁.root⟩ (taken s₀ KOBJ_NPAGES) := h₁.congr rfl fun n hn => by
        show k₁.mem n = t₁.mem n
        rw [hm, dirty_mem (Nat.le_refl _) fun hn' => hsep₁ n hn' n hn rfl]
      obtain ⟨-, h₂, hp₂, -⟩ := getMultiple_perm h₁' hget₂
      have hnd₂ := hp₂.nodup_iff.mp (List.nodup_append.mp hnd₁).2.1
      have hsep₂ := (List.nodup_append.mp hnd₂).2.2
      have hlc : ct ≠ l := by
        rintro rfl
        refine hsep₁ ct (by simp [KOBJ_NPAGES]) ct (hp₂.mem_iff.mpr ?_) rfl
        simp [KOBJ_NPAGES]
      refine ⟨fun _ => taken (taken s₀ KOBJ_NPAGES) KOBJ_NPAGES, by simp, by simp, fun c hc => ?_, ?_⟩
      · rw [List.mem_singleton] at hc
        subst hc
        refine h₂.congr ?_ fun n hn => ?_
        · simp [freePages, Kernel.setMeta, hlc]
        · exact dirty_mem (Nat.le_refl _) fun hn' => hsep₂ n hn' n hn rfl
      · refine List.Perm.trans ?_ hp₀
        refine List.Perm.trans ?_ hp₁.symm
        refine List.Perm.trans ?_ (hp₂.symm.append_left _)
        simp only [freeList, List.flatMap_cons, List.flatMap_nil, List.append_nil, pageList]
        exact (List.perm_append_comm.trans (List.perm_append_comm.append_right _)).trans
          (List.Perm.of_eq (List.append_assoc _ _ _))

/-! ## Runs -/

/-- The states of the kernel, with the containers and the objects made so far. A `spawn_raw` meets
`cond`: it is asked of the kernel before the call, the container and the layout of the closure. -/
inductive Reaches (lb : Labeled Buckle) (sz : Sizes) (memStart : Nat)
    (cond : Kernel Buckle → Nat → Layout → Prop) :
    Kernel Buckle → List Nat → List (Nat × KObjectKind) → Prop
  | boot {fuel : Nat} {bytes mem : Nat → PageNode} {info : Nat → KObjectMeta} {k : Kernel Buckle}
      {ct l : Nat} :
      Kernel.boot fuel lb sz bytes mem info memStart = ok (k, ct, l) →
      Reaches lb sz memStart cond k [ct] [(ct, .container), (l, .label)]
  | initMain {fuel : Nat} {bytes : Nat → PageNode} {k k' : Kernel Buckle} {cts : List Nat}
      {objs : List (Nat × KObjectKind)} {ct th l : Nat} :
      Reaches lb sz memStart cond k cts objs → ct ∈ cts →
      k.initMain fuel lb sz bytes ct = ok (k', th) → (k'.info th).label = some l →
      Reaches lb sz memStart cond k' cts ((th, .thread) :: (l, .label) :: objs)
  | create {fuel : Nat} {bytes : Nat → PageNode} {k k' : Kernel Buckle} {cts : List Nat}
      {objs : List (Nat × KObjectKind)} {label : String} {ct c l : Nat} :
      Reaches lb sz memStart cond k cts objs → ct ∈ cts →
      k.create fuel lb sz bytes ct label = ok (k', c) → (k'.info c).label = some l →
      Reaches lb sz memStart cond k' (c :: cts) ((c, .container) :: (l, .label) :: objs)
  | spawnRaw {fuel : Nat} {bytes : Nat → PageNode} {k k' : Kernel Buckle} {cts : List Nat}
      {objs : List (Nat × KObjectKind)} {label : String} {closure : Layout} {ct th l : Nat} :
      Reaches lb sz memStart cond k cts objs → ct ∈ cts → cond k ct closure →
      k.spawnRaw fuel lb sz bytes ct label closure = ok (k', th) →
      (k'.info th).label = some l →
      Reaches lb sz memStart cond k' cts ((th, .thread) :: (l, .label) :: objs)
  | moveNpages {fuel : Nat} {k k' : Kernel Buckle} {cts : List Nat}
      {objs : List (Nat × KObjectKind)} {ct₁ ct₂ n : Nat} :
      Reaches lb sz memStart cond k cts objs → ct₁ ∈ cts → ct₂ ∈ cts →
      k.moveNpages fuel ct₁ ct₂ n = ok k' → Reaches lb sz memStart cond k' cts objs
  | switch {k : Kernel Buckle} {cts : List Nat} {objs : List (Nat × KObjectKind)} {th : Nat} :
      Reaches lb sz memStart cond k cts objs → (th, KObjectKind.thread) ∈ objs →
      Reaches lb sz memStart cond { k with current := some th } cts objs

theorem Reaches.owned {memStart : Nat} (hsz : sz.Ok) (hstart : 0 < memStart)
    (h : Reaches lb sz memStart (FitsAtLanding sz.thread) k cts objs) :
    ∃ tree, Owned (bootPool memStart) k cts objs [] tree := by
  have hpool := nodup_bootPool memStart
  induction h with
  | boot hrun => exact Owned.boot hstart hrun
  | initMain _ hct hrun hl ih =>
    obtain ⟨tree, ho⟩ := ih
    obtain ⟨l', tree', hl', ho'⟩ := ho.initMain hpool hct hsz hrun
    cases hl.symm.trans hl'
    exact ⟨tree', ho'⟩
  | create _ hct hrun hl ih =>
    obtain ⟨tree, ho⟩ := ih
    obtain ⟨l', tree', hl', ho'⟩ := ho.create hpool hct hrun
    cases hl.symm.trans hl'
    exact ⟨tree', ho'⟩
  | spawnRaw _ hct hfits hrun hl ih =>
    obtain ⟨tree, ho⟩ := ih
    obtain ⟨l', tree', hl', ho'⟩ := ho.spawnRaw hpool hct hsz hfits hrun
    cases hl.symm.trans hl'
    exact ⟨tree', ho'⟩
  | moveNpages _ h₁ h₂ hrun ih =>
    obtain ⟨tree, ho⟩ := ih
    exact ho.moveNpages hpool (zero_notMem_bootPool hstart) h₁ h₂ hrun
  | switch _ _ ih =>
    obtain ⟨tree, ho⟩ := ih
    exact ⟨tree, ho.congr rfl rfl⟩

/-- Every page of the pool is in one place: the free tree of one container, which is a search tree
in memory, or the pages of one object. -/
def Partitioned (memStart : Nat) (k : Kernel Buckle) (cts : List Nat)
    (objs : List (Nat × KObjectKind)) : Prop :=
  ∃ tree : Nat → Tree Nat,
    (∀ c ∈ cts, (k.info c).freePages = link (tree c) ∧ Stored k.mem none (tree c) ∧
      (tree c).toList.Pairwise (· < ·)) ∧
    List.Perm (freeList cts tree ++ objs.flatMap pageList) (bootPool memStart)

/-- **No page is lost and none is handed out twice**, in every run whose closures fit. -/
theorem pages_partitioned {memStart : Nat} (hsz : sz.Ok) (hstart : 0 < memStart)
    (h : Reaches lb sz memStart (FitsAtLanding sz.thread) k cts objs) :
    Partitioned memStart k cts objs := by
  obtain ⟨tree, ho⟩ := h.owned hsz hstart
  refine ⟨tree, fun c hc => ?_, by simpa using ho.parts⟩
  have hh := ho.holds c hc
  exact ⟨hh.hat.around, hh.hat.stored, hh.sorted⟩

/-! ## A closure that does not fit

The kernel boots on pages 1 to 512, makes the main thread, and spawns one more thread with a closure
of 46000 bytes. The new thread gets pages 25 to 40; its stack and its closure reach into page 41,
which is free, and the node of page 41 is gone. -/

/-- Labels with nothing in them: every text parses and every flow is allowed. -/
def anyLabel : Labeled Unit := ⟨fun _ => some (), fun _ _ => true⟩

/-- Zeroed memory, read as page nodes. -/
def zeroed : Nat → PageNode := fun _ => ⟨0, none, none, none, .red⟩

/-- The tree over pages 1 to 512. -/
def bootTree : Tree Nat :=
  ((bootPool 4096).foldlM (fun s n => insertTree n s) .nil).getD .nil

theorem foldlM_bootTree :
    (bootPool 4096).foldlM (fun s n => insertTree n s) .nil = some bootTree := by
  have hsome : ((bootPool 4096).foldlM (fun s n => insertTree n s) .nil).isSome = true := by
    decide +kernel
  obtain ⟨s, hs⟩ := Option.isSome_iff_exists.mp hsome
  rw [bootTree, hs, Option.getD_some]

/-- The pages that boot, the main thread, one more thread, and then two labels and two containers
are given. -/
theorem stages_bootTree :
    stages bootTree [(2, 1), (2, 3), (2, 5), (16, 7), (2, 23), (16, 25), (2, 41), (2, 43), (2, 45),
      (2, 47)] = true := by
  decide +kernel

/-- The same, with 18 pages for the second container. -/
theorem stages_moving :
    stages bootTree [(2, 1), (2, 3), (2, 5), (16, 7), (2, 23), (16, 25), (2, 41), (2, 43),
      (18, 45)] = true := by
  decide +kernel

/-- The free pages of container 43: 45 to 62. -/
theorem stages_moved : ∃ s, (List.range' 45 18).foldlM (fun s n => insertTree n s) .nil = some s ∧
    stages s [(2, 45), (16, 47)] = true :=
  ⟨_, rfl, by decide +kernel⟩

theorem boot_4096 {b : Buckle} {rest : List (Nat × Nat)} (hb : lb.parse "T,F" = some b)
    (hst : stages bootTree ((2, 1) :: (2, 3) :: rest) = true) : ∃ k hand,
    Kernel.boot 600 lb sizes64 zeroed zeroed (fun _ => kobjectCreate .none 0 0 []) 4096 =
      ok (k, 3, 1) ∧ Seen 3 k ⟨[], [(3, 1)], [1], none⟩ ∧ Stocked 600 3 k hand rest :=
  boot_returns sizes64 zeroed zeroed (fun _ => kobjectCreate .none 0 0 []) (by decide) (by decide)
    hb foldlM_bootTree hst

/-- A thread with an empty closure keeps to its pages. -/
theorem threadTop_empty :
    ∃ top, threadTop 600 7 sizes64.thread ⟨0, 1, ⟨0, rfl⟩, by decide⟩ = ok top ∧
      top ≤ pa (7 + THREAD_NPAGES) :=
  ⟨_, rfl, by decide⟩

/-- The kernel with its main thread. -/
theorem main_4096 (cond : Kernel Unit → Nat → Layout → Prop) {rest : List (Nat × Nat)}
    (hst : stages bootTree ((2, 1) :: (2, 3) :: (2, 5) :: (16, 7) :: rest) = true) : ∃ k hand,
    Reaches anyLabel sizes64 4096 cond k [3]
      [(7, .thread), (5, .label), (3, .container), (1, .label)] ∧
    Seen 3 k ⟨[5, 7], [(7, 5), (3, 1)], [5, 1], some 7⟩ ∧ Stocked 600 3 k hand rest := by
  have hb : anyLabel.parse "T,F" = some () := rfl
  obtain ⟨k₁, hand₁, hboot, hseen₁, hst₁⟩ := boot_4096 hb hst
  obtain ⟨top, htop, hle⟩ := threadTop_empty
  obtain ⟨k₂, hand₂, hmain, hseen₂, hst₂⟩ := initMain_returns zeroed hseen₁ hst₁ (by decide)
    (by decide) (by decide) hb htop hle
  exact ⟨k₂, hand₂, .initMain (.boot hboot) (by simp) hmain (hseen₂.labels (7, 5) (by simp)),
    hseen₂, hst₂⟩

/-- 46000 bytes. -/
def bigClosure : Layout := ⟨46000, 8, stackLayout.pow, by decide⟩

theorem threadTop_bigClosure :
    ∃ top, threadTop 600 25 sizes64.thread bigClosure = ok top ∧ pa 41 < top :=
  ⟨_, rfl, by decide⟩

/-- **A closure of 46000 bytes breaks the pool**: page 41 is in no place any more. -/
theorem spawn_overwrites_free_page :
    ∃ k : Kernel Unit, ∃ objs,
      Reaches anyLabel sizes64 4096 (fun _ _ _ => True) k [3] objs ∧ ¬ Partitioned 4096 k [3] objs := by
  obtain ⟨k₂, hand₂, hreach, hseen₂, hst₂⟩ := main_4096 (fun _ _ _ => True)
    stages_bootTree
  obtain ⟨top, htop, hlt⟩ := threadTop_bigClosure
  obtain ⟨k₃, hand₃, hspawn, hseen₃, hmem, -⟩ := spawnRaw_returns zeroed 7 5 hseen₂ hst₂
    (by decide) (by decide) (by decide) (show anyLabel.parse "T,F" = some () from rfl) rfl
    (by decide) (checkLabel_returns hseen₂ (fun _ _ => rfl) (by decide)
      (show (3, 1) ∈ _ by decide) (by decide)) htop
  refine ⟨k₃, _, .spawnRaw hreach (by simp) trivial hspawn (hseen₃.labels (25, 23) (by simp)), ?_⟩
  rintro ⟨tree, htrees, hparts⟩
  -- page 41 is in the pool and in no object, so it is in the tree of container 3
  have hpool : 41 ∈ bootPool 4096 := by decide
  have hplace := hparts.mem_iff.mpr hpool
  have hobjs : 41 ∉ [((25 : Nat), KObjectKind.thread), (23, .label), (7, .thread), (5, .label),
      (3, .container), (1, .label)].flatMap pageList := by decide
  have hfree : 41 ∈ (tree 3).toList := by
    rcases List.mem_append.mp hplace with hm | hm
    · simpa [freeList] using hm
    · exact absurd hm hobjs
  have hn := (htrees 3 (by simp)).2.1.n_eq hfree
  rw [hmem 41 (by decide) hlt] at hn
  cases hn

/-- 32768 bytes, aligned to 16384: they fit on page 25, though not on every page. -/
def alignedClosure : Layout := ⟨32768, 16384, ⟨14, rfl⟩, by decide⟩

theorem fits_alignedClosure : ClosureFits sizes64.thread 25 alignedClosure :=
  .inr ⟨_, rfl, by decide⟩

theorem threadTop_alignedClosure :
    ∃ top, threadTop 600 25 sizes64.thread alignedClosure = ok top ∧ top ≤ pa (25 + THREAD_NPAGES) :=
  ⟨_, rfl, by decide⟩

/-- The main thread spawns thread 25 with that closure, creates container 43, and moves 18 pages to
it, which are there now. -/
theorem pages_partitioned_moved : ∃ k : Kernel Unit,
    Reaches anyLabel sizes64 4096 (FitsAtLanding sizes64.thread) k [43, 3]
      [(43, .container), (41, .label), (25, .thread), (23, .label), (7, .thread), (5, .label),
        (3, .container), (1, .label)] ∧
    Stocked 600 43 k [] [(2, 45), (16, 47)] ∧
    Partitioned 4096 k [43, 3] [(43, .container), (41, .label), (25, .thread), (23, .label),
      (7, .thread), (5, .label), (3, .container), (1, .label)] := by
  have hb : anyLabel.parse "T,F" = some () := rfl
  obtain ⟨k₁, hand₁, hreach₁, hseen₁, hst₁⟩ := main_4096 (FitsAtLanding sizes64.thread) stages_moving
  obtain ⟨top, htop, hle⟩ := threadTop_alignedClosure
  obtain ⟨k₂, hand₂, hspawn, hseen₂, -, hst₂⟩ := spawnRaw_returns zeroed 7 5 hseen₁ hst₁ (by decide)
    (by decide) (by decide) hb rfl (by decide) (checkLabel_returns hseen₁ (fun _ _ => rfl)
      (by decide) (show (3, 1) ∈ _ by decide) (by decide)) htop
  have hreach₂ := hreach₁.spawnRaw (by simp) (hst₁.fitsAtLanding fits_alignedClosure) hspawn
    (hseen₂.labels (25, 23) (by simp))
  obtain ⟨k₃, hand₃, hcreate, hseen₃, hst₃, hslots, hfree⟩ := create_returns sizes64 zeroed 7 5
    hseen₂ (hst₂ hle) (by decide) (by decide) (by decide) hb rfl (by decide)
    (checkLabel_returns hseen₂ (fun _ _ => rfl) (by decide) (show (3, 1) ∈ _ by decide) (by decide))
  have hreach₃ := hreach₂.create (by simp) hcreate (hseen₃.labels (43, 41) (by simp))
  obtain ⟨s, hs, hstages⟩ := stages_moved
  have hseen₃' : Seen 43 k₃ ⟨[], _, _, _⟩ :=
    ⟨by simp, hslots, hseen₃.labels, hseen₃.parsed, hseen₃.current⟩
  obtain ⟨k₄, hmove, -, hst₄⟩ := moveNpages_returns hseen₃' hst₃ hfree (by decide) (by decide)
    (by decide) hs hstages
  have hreach₄ := hreach₃.moveNpages (show 3 ∈ [43, 3] by simp) (show 43 ∈ [43, 3] by simp) hmove
  exact ⟨k₄, hreach₄, hst₄, pages_partitioned sizes64_ok (by decide) hreach₄⟩

end Kernel
end Allora
