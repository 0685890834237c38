import Allora.Proof.Kobject.Slots

/-!
# What the creators do

`create` and `spawn_raw` each make a label and an object with it, put both into slots of the
container, and set the parents by hand. `Makes` is what a call that returns has done, all of it:
what it made, and that the rest of the kernel is as it was (`Same`). Nothing else about the calls is
used for the runs of `Proof/Kobject/Record`.

The two differ in one thing. `spawn_raw` sets the parents of the label and of the thread; `create`
sets neither, and nor does the main thread's own creation at boot.
-/

set_option autoImplicit false

namespace Allora
namespace Kernel

open Outcome PageTree

variable {Buckle : Type}

/-! ## What a step leaves alone -/

/-- Metadata, labels and slots at the pages in `keep` are what they were; slots may have been
added. -/
structure Same (keep : Nat → Prop) (k k' : Kernel Buckle) : Prop where
  label : ∀ p, keep p → (k'.info p).label = (k.info p).label
  parent : ∀ p, keep p → (k'.info p).parent = (k.info p).parent
  inner : ∀ p, keep p → k'.inner p = k.inner p
  slots : ∀ c, keep c → ∀ o ∈ k.slots c, o ≠ INVALID_KOBJ_ID → o ∈ k'.slots c
  current : k'.current = k.current

section Steps

variable {keep : Nat → Prop} {k k' k'' : Kernel Buckle} {ct page fuel n : Nat}
  {lb : Labeled Buckle} {sz : Sizes} {bytes : Nat → PageNode} {label : String}

theorem Same.refl (keep : Nat → Prop) (k : Kernel Buckle) : Same keep k k :=
  ⟨fun _ _ => rfl, fun _ _ => rfl, fun _ _ => rfl, fun _ _ _ ho _ => ho, rfl⟩

theorem Same.trans (h : Same keep k k') (h' : Same keep k' k'') : Same keep k k'' where
  label p hp := (h'.label p hp).trans (h.label p hp)
  parent p hp := (h'.parent p hp).trans (h.parent p hp)
  inner p hp := (h'.inner p hp).trans (h.inner p hp)
  slots c hc o ho hne := h'.slots c hc o (h.slots c hc o ho hne) hne
  current := h'.current.trans h.current

theorem Same.mono {keep' : Nat → Prop} (h : Same keep k k') (hk : ∀ p, keep' p → keep p) :
    Same keep' k k' where
  label p hp := h.label p (hk p hp)
  parent p hp := h.parent p (hk p hp)
  inner p hp := h.inner p (hk p hp)
  slots c hc := h.slots c (hk c hc)
  current := h.current

theorem getSlot_same (k : Kernel Buckle) (ct : Nat) : Same (fun _ => True) k (k.getSlot ct).1 := by
  refine ⟨fun p _ => by rw [getSlot_info], fun p _ => by rw [getSlot_info], fun p _ => ?_,
    fun c _ o ho _ => ?_, ?_⟩
  · unfold getSlot
    split <;> rfl
  · rcases (getSlot_slots k ct).2 with hs | hs
    · rwa [hs]
    · rw [hs]
      by_cases hc : c = ct
      · subst hc
        rw [Function.update_self]
        exact List.mem_append_left _ ho
      · rwa [Function.update_of_ne hc]
  · unfold getSlot
    split <;> rfl

theorem setFreePages_same (k : Kernel Buckle) (ct : Nat) (t : PageTree) :
    Same (fun _ => True) k (k.setFreePages ct t) := by
  have hinfo : ∀ p, ((k.setFreePages ct t).info p).label = (k.info p).label ∧
      ((k.setFreePages ct t).info p).parent = (k.info p).parent := by
    intro p
    by_cases hp : p = ct
    · simp [setFreePages, Kernel.setMeta, hp]
    · simp [setFreePages, Kernel.setMeta, hp]
  exact ⟨fun p _ => (hinfo p).1, fun p _ => (hinfo p).2, fun _ _ => rfl, fun _ _ _ ho _ => ho,
    rfl⟩

theorem takePages_same (h : k.takePages fuel ct n = ok (k', page)) : Same (fun _ => True) k k' := by
  simp only [takePages, bind_eq_ok, pure_eq_ok, ok.injEq] at h
  obtain ⟨⟨t, r⟩, -, p, -, heq⟩ := h
  cases heq
  exact setFreePages_same k ct t

/-- Metadata at one page. -/
theorem setMeta_same (k : Kernel Buckle) (page : Nat) (f : KObjectMeta → KObjectMeta) :
    Same (· ≠ page) k (k.setMeta page f) :=
  ⟨fun p hp => by simp [Kernel.setMeta, hp], fun p hp => by simp [Kernel.setMeta, hp],
    fun _ _ => rfl, fun _ _ _ ho _ => ho, rfl⟩

theorem createLabel_same (h : k.createLabel lb sz bytes page label = ok k') :
    Same (· ≠ page) k k' ∧ k'.inner page = lb.parse label ∧ (lb.parse label).isSome ∧
      (k'.info page).parent = none ∧ (k'.info page).label = none := by
  have hinfo := (createLabel_eq h).2
  have hslots := createLabel_slots h
  simp only [createLabel, bind_eq_ok, pure_eq_ok, ok.injEq] at h
  obtain ⟨b, hb, rfl⟩ := h
  have hparse : lb.parse label = some b := by
    cases hp : lb.parse label with
    | none =>
      rw [hp] at hb
      cases hb
    | some b' =>
      rw [hp] at hb
      cases hb
      rfl
  refine ⟨⟨fun p hp => ?_, fun p hp => ?_, fun p hp => ?_, fun c _ o ho _ => ?_, rfl⟩, ?_, ?_, ?_,
    ?_⟩
  · rw [hinfo, Function.update_of_ne hp]
  · rw [hinfo, Function.update_of_ne hp]
  · exact Function.update_of_ne hp _ _
  · rwa [hslots]
  · rw [hparse]
    exact Function.update_self ..
  · rw [hparse]
    rfl
  · rw [hinfo, Function.update_self]
    rfl
  · rw [hinfo, Function.update_self]
    rfl

theorem createContainer_same (k : Kernel Buckle) (page : Nat) :
    Same (· ≠ page) k (k.createContainer sz bytes page) := by
  refine ⟨fun p hp => ?_, fun p hp => ?_, fun _ _ => rfl, fun c hc o ho _ => ?_, rfl⟩
  · simp [createContainer, Kernel.setMeta, dirty, hp]
  · simp [createContainer, Kernel.setMeta, dirty, hp]
  · simpa [createContainer, Kernel.setMeta, dirty, hc] using ho

theorem createThread_same {closure : Layout}
    (h : k.createThread fuel sz bytes page closure = ok k') : Same (· ≠ page) k k' := by
  simp only [createThread, bind_eq_ok, pure_eq_ok, ok.injEq] at h
  obtain ⟨top, -, rfl⟩ := h
  exact ⟨fun p hp => by simp [Kernel.setMeta, dirty, hp], fun p hp => by
    simp [Kernel.setMeta, dirty, hp], fun _ _ => rfl, fun _ _ _ ho _ => ho, rfl⟩

/-- `set_slot` on an entry that is still invalid. -/
theorem setSlot_keeps {i : Nat} (hi : (k.slots ct)[i]? = some INVALID_KOBJ_ID)
    (h : k.setSlot ct i page = ok k') : Same (fun _ => True) k k' ∧ page ∈ k'.slots ct := by
  obtain ⟨hm, hinfo⟩ := setSlot_same h
  obtain ⟨hlt, hs⟩ := setSlot_slots h
  have hrest : k'.inner = k.inner ∧ k'.current = k.current := by
    rw [setSlot, if_pos hlt] at h
    cases h
    exact ⟨rfl, rfl⟩
  refine ⟨⟨fun p _ => by rw [hinfo], fun p _ => by rw [hinfo], fun p _ => by
    rw [hrest.1], fun c _ o ho hne => ?_, hrest.2⟩, ?_⟩
  · rw [hs]
    by_cases hc : c = ct
    · subst hc
      rw [Function.update_self]
      obtain ⟨j, hj, rfl⟩ := List.getElem_of_mem ho
      -- entry `j` is not the invalid entry `i`
      have hij : i ≠ j := by
        rintro rfl
        rw [List.getElem?_eq_getElem hj, Option.some.injEq] at hi
        exact hne hi
      have hset : ((k.slots c).set i page)[j]? = some (k.slots c)[j] := by
        rw [List.getElem?_set_ne hij, List.getElem?_eq_getElem hj]
      exact List.mem_of_getElem? hset
    · rwa [Function.update_of_ne hc]
  · rw [hs, Function.update_self]
    exact List.mem_set hlt page

/-- An object in a slot of its own: `get_slot`, whatever makes it on its page, `set_slot`. -/
theorem place_same (hmake : Same (· ≠ page) (k.getSlot ct).1 k')
    (hslots : k'.slots ct = (k.getSlot ct).1.slots ct)
    (hset : k'.setSlot ct (k.getSlot ct).2 page = ok k'') :
    Same (· ≠ page) k k'' ∧ page ∈ k''.slots ct := by
  obtain ⟨hsame, hmem⟩ := setSlot_keeps (by rw [hslots]; exact (getSlot_slots k ct).1) hset
  exact ⟨(((getSlot_same k ct).mono fun _ _ => trivial).trans hmake).trans
    (hsame.mono fun _ _ => trivial), hmem⟩

end Steps

/-! ## The calls -/

/-- What a creator has done: the label `l` and the object `o` are in slots of `ct`, `o` has label
`l`, which is what the text parses to, both have parent `parent`, and everything else is as it
was. -/
structure Makes (lb : Labeled Buckle) (k k' : Kernel Buckle) (ct l o : Nat) (label : String)
    (parent : Option Nat) : Prop where
  same : Same (fun p => p ≠ l ∧ p ≠ o) k k'
  labeled : (k'.info o).label = some l
  unlabeled : (k'.info l).label = none
  parsed : k'.inner l = lb.parse label
  parses : (lb.parse label).isSome
  slot : l ∈ k'.slots ct
  slot' : o ∈ k'.slots ct
  parents : (k'.info l).parent = parent
  parents' : (k'.info o).parent = parent

/-- The label check of a call that went through. -/
def Checked (lb : Labeled Buckle) (k : Kernel Buckle) (ct : Nat) : Prop :=
  ∃ th mine theirs b b', k.current = some th ∧ (k.info th).label = some mine ∧
    (k.info ct).label = some theirs ∧ k.inner mine = some b ∧ k.inner theirs = some b' ∧
    lb.canFlowTo b b' = true

section Calls

variable {k k' : Kernel Buckle} {ct fuel c th : Nat} {lb : Labeled Buckle} {sz : Sizes}
  {bytes : Nat → PageNode} {label : String} {closure : Layout}

/-- The label that the calls begin with. -/
theorem label_made {k₁ k₂ k₃ : Kernel Buckle} {l : Nat} {f : KObjectMeta → KObjectMeta}
    (hf : ∀ m, (f m).label = m.label)
    (htake : (k.getSlot ct).1.takePages fuel ct KOBJ_NPAGES = ok (k₁, l))
    (hlabel : k₁.createLabel lb sz bytes l label = ok k₂)
    (hset : (k₂.setMeta l f).setSlot ct (k.getSlot ct).2 l = ok k₃) :
    Same (· ≠ l) k k₃ ∧ l ∈ k₃.slots ct ∧ (k₃.info l).label = none ∧
      k₃.inner l = lb.parse label ∧ (lb.parse label).isSome ∧
      (k₃.info l).parent = (f (k₂.info l)).parent := by
  obtain ⟨hsame, hparsed, hparses, -, hnone⟩ := createLabel_same hlabel
  have hmake : Same (· ≠ l) (k.getSlot ct).1 (k₂.setMeta l f) :=
    (((takePages_same htake).mono fun _ _ => trivial).trans hsame).trans (setMeta_same k₂ l f)
  have hslots : (k₂.setMeta l f).slots ct = (k.getSlot ct).1.slots ct :=
    congrFun ((createLabel_slots hlabel).trans (takePages_slots htake)) ct
  obtain ⟨hall, hmem⟩ := place_same hmake hslots hset
  have hinfo := (setSlot_same hset).2
  have hkeeps := (setSlot_keeps (by rw [hslots]; exact (getSlot_slots k ct).1) hset).1
  have hinner := hkeeps.inner l trivial
  refine ⟨hall, hmem, ?_, hinner.trans hparsed, hparses, ?_⟩
  · rw [hinfo]
    simp [Kernel.setMeta, hf, hnone]
  · rw [hinfo]
    simp [Kernel.setMeta]

/-- A label in its slot, and then an object made on another page and put into a slot; `create` then
sets its label. -/
theorem makes_of_stages {k₃ k₄ k₅ k₆ : Kernel Buckle} {l o : Nat} {parent : Option Nat}
    (hlo : l ≠ o) (hl : l ≠ INVALID_KOBJ_ID) (hct : ct ≠ o)
    (hsame : Same (· ≠ l) k k₃) (hmem : l ∈ k₃.slots ct) (hnone : (k₃.info l).label = none)
    (hparsed : k₃.inner l = lb.parse label) (hparses : (lb.parse label).isSome)
    (hpar : (k₃.info l).parent = parent) (hmake : Same (· ≠ o) (k₃.getSlot ct).1 k₄)
    (hslots : k₄.slots ct = (k₃.getSlot ct).1.slots ct)
    (hset : k₄.setSlot ct (k₃.getSlot ct).2 o = ok k₅) (hlast : Same (· ≠ o) k₅ k₆)
    (hslots' : k₆.slots = k₅.slots) (hlabel : (k₆.info o).label = some l)
    (hpar' : (k₆.info o).parent = parent) : Makes lb k k₆ ct l o label parent := by
  obtain ⟨hsame', hmem'⟩ := place_same hmake hslots hset
  have hrest := hsame'.trans hlast
  exact {
    same := (hsame.mono fun p hp => hp.1).trans (hrest.mono fun p hp => hp.2)
    labeled := hlabel
    unlabeled := (hrest.label l hlo).trans hnone
    parsed := (hrest.inner l hlo).trans hparsed
    parses := hparses
    slot := hrest.slots ct hct l hmem hl
    slot' := by rwa [hslots']
    parents := (hrest.parent l hlo).trans hpar
    parents' := hpar' }

theorem checkLabel_eq_ok_iff {mine : Nat} {msg : String} {u : Unit} :
    k.checkLabel lb mine ct msg = ok u ↔ ∃ theirs b b', (k.info ct).label = some theirs ∧
      k.inner mine = some b ∧ k.inner theirs = some b' ∧ lb.canFlowTo b b' = true := by
  simp only [checkLabel, bind_eq_ok, unwrap_eq_ok_iff, assert_eq_ok_iff]
  constructor
  · intro h
    obtain ⟨theirs, h1, b, h2, b', h3, h4⟩ := h
    exact ⟨theirs, b, b', h1, h2, h3, h4⟩
  · intro h
    obtain ⟨theirs, b, b', h1, h2, h3, h4⟩ := h
    exact ⟨theirs, h1, b, h2, b', h3, h4⟩

/-- **`spawn_raw`** sets both parents. -/
theorem spawnRaw_makes (hrun : k.spawnRaw fuel lb sz bytes ct label closure = ok (k', th)) :
    Checked lb k ct ∧ ∃ l, (k'.info th).label = some l ∧
      (l ≠ th → l ≠ INVALID_KOBJ_ID → ct ≠ th → Makes lb k k' ct l th label (some ct)) := by
  simp only [Kernel.spawnRaw, bind_eq_ok, pure_eq_ok, ok.injEq, unwrap_eq_ok_iff,
    expect_eq_ok_iff] at hrun
  obtain ⟨curr, hcurr, mine, hmine, u, hcheck, ⟨k₁, l⟩, htake, k₂, hlabel, k₃, hset, ⟨k₄, th'⟩,
    htake', k₅, hthread, k₆, hset', heq⟩ := hrun
  cases heq
  obtain ⟨theirs, b, b', h1, h2, h3, h4⟩ := checkLabel_eq_ok_iff.mp hcheck
  have hinfo := (setSlot_same hset').2
  refine ⟨⟨curr, mine, theirs, b, b', hcurr, hmine, h1, h2, h3, h4⟩, l, ?_, fun hlo hl hct => ?_⟩
  · rw [hinfo]
    simp [Kernel.setMeta]
  · obtain ⟨hsame, hmem, hnone, hparsed, hparses, hpar⟩ := label_made
      (f := fun m => { m with parent := some ct }) (fun _ => rfl) htake hlabel hset
    have hmake : Same (· ≠ th') (k₃.getSlot ct).1
        (k₅.setMeta th' fun m => { m with parent := some ct, label := some l }) :=
      (((takePages_same htake').mono fun _ _ => trivial).trans (createThread_same hthread)).trans
        (setMeta_same k₅ th' _)
    refine makes_of_stages hlo hl hct hsame hmem hnone hparsed hparses hpar hmake
      (congrFun ((createThread_slots hthread).trans (takePages_slots htake')) ct) hset'
      (Same.refl _ _) rfl ?_ ?_
    · rw [hinfo]
      simp [Kernel.setMeta]
    · rw [hinfo]
      simp [Kernel.setMeta]

/-- **`create`** sets neither. -/
theorem create_makes (hrun : k.create fuel lb sz bytes ct label = ok (k', c)) :
    Checked lb k ct ∧ ∃ l, (k'.info c).label = some l ∧
      (l ≠ c → l ≠ INVALID_KOBJ_ID → ct ≠ c → Makes lb k k' ct l c label none) := by
  simp only [Kernel.create, bind_eq_ok, pure_eq_ok, ok.injEq, unwrap_eq_ok_iff] at hrun
  obtain ⟨mine, hcur, u, hcheck, ⟨k₁, l⟩, htake, k₂, hlabel, k₃, hset, ⟨k₄, c'⟩, htake', k₅, hset',
    heq⟩ := hrun
  cases heq
  obtain ⟨theirs, b, b', h1, h2, h3, h4⟩ := checkLabel_eq_ok_iff.mp hcheck
  rw [currentLabel, Option.bind_eq_some_iff] at hcur
  obtain ⟨th, hth, hthl⟩ := hcur
  refine ⟨⟨th, mine, theirs, b, b', hth, hthl, h1, h2, h3, h4⟩, l, by simp [Kernel.setMeta],
    fun hlo hl hct => ?_⟩
  have hset₀ : (k₂.setMeta l fun m => m).setSlot ct (k.getSlot ct).2 l = ok k₃ := by
    rwa [setMeta_self]
  obtain ⟨hsame, hmem, hnone, hparsed, hparses, hpar⟩ := label_made (fun _ => rfl) htake hlabel
    hset₀
  have hmake : Same (· ≠ c') (k₃.getSlot ct).1 (k₄.createContainer sz bytes c') :=
    ((takePages_same htake').mono fun _ _ => trivial).trans (createContainer_same k₄ c')
  have hslots : (k₄.createContainer sz bytes c').slots ct = (k₃.getSlot ct).1.slots ct := by
    rw [← takePages_slots htake']
    exact Function.update_of_ne hct _ _
  refine makes_of_stages hlo hl hct hsame hmem hnone hparsed hparses ?_ hmake hslots hset'
    (setMeta_same k₅ c' _) rfl ?_ ?_
  · rw [hpar, (createLabel_same hlabel).2.2.2.1]
  · simp [Kernel.setMeta]
  · simp [Kernel.setMeta, (setSlot_same hset').2, createContainer, kobjectCreate]

/-- **`initMain`** sets neither parent, and makes the new thread the current one. -/
theorem initMain_makes (hrun : k.initMain fuel lb sz bytes ct = ok (k', th)) :
    ∃ k₁ l, k' = { k₁ with current := some th } ∧ (k'.info th).label = some l ∧
      (l ≠ th → l ≠ INVALID_KOBJ_ID → ct ≠ th → Makes lb k k₁ ct l th "T,F" none) := by
  simp only [Kernel.initMain, bind_eq_ok, pure_eq_ok, ok.injEq] at hrun
  obtain ⟨⟨k₁, l⟩, htake, k₂, hlabel, k₃, hset, ⟨k₄, th'⟩, htake', k₅, hthread, k₆, hset', heq⟩ :=
    hrun
  cases heq
  -- `set_slot` does not look at the current thread
  obtain ⟨k₇, hset₇, rfl⟩ : ∃ k₇, (k₅.setMeta th' fun m => { m with label := some l }).setSlot ct
      (k₃.getSlot ct).2 th' = ok k₇ ∧ k' = { k₇ with current := some th' } := by
    obtain ⟨hlt, -⟩ := setSlot_slots hset'
    rw [setSlot, if_pos hlt, ok.injEq] at hset'
    refine ⟨_, by rw [setSlot, if_pos hlt], ?_⟩
    rw [← hset']
  have hinfo := (setSlot_same hset₇).2
  refine ⟨k₇, l, rfl, ?_, fun hlo hl hct => ?_⟩
  · show (k₇.info th').label = some l
    rw [hinfo]
    simp [Kernel.setMeta]
  · have hset₀ : (k₂.setMeta l fun m => m).setSlot ct (k.getSlot ct).2 l = ok k₃ := by
      rwa [setMeta_self]
    obtain ⟨hsame, hmem, hnone, hparsed, hparses, hpar⟩ := label_made (fun _ => rfl) htake hlabel
      hset₀
    have hmake : Same (· ≠ th') (k₃.getSlot ct).1
        (k₅.setMeta th' fun m => { m with label := some l }) :=
      (((takePages_same htake').mono fun _ _ => trivial).trans (createThread_same hthread)).trans
        (setMeta_same k₅ th' _)
    refine makes_of_stages hlo hl hct hsame hmem hnone hparsed hparses ?_ hmake
      (congrFun ((createThread_slots hthread).trans (takePages_slots htake')) ct) hset₇
      (Same.refl _ _) rfl ?_ ?_
    · rw [hpar, (createLabel_same hlabel).2.2.2.1]
    · rw [hinfo]
      simp [Kernel.setMeta]
    · simp only [createThread, bind_eq_ok, pure_eq_ok, ok.injEq] at hthread
      obtain ⟨top, -, rfl⟩ := hthread
      rw [hinfo]
      simp [Kernel.setMeta, kobjectCreate]

end Calls

end Kernel
end Allora
