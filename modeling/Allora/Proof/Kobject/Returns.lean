import Allora.Proof.Kobject.Pages

/-!
# Calls that return

The invariants of `Proof/Kobject/Pages` speak about calls that have returned. This file is the other
half: when does a call return, and what does the next one find? The `get_multiple` calls decide it,
and they are followed on trees without memory: `stages` is a list of `get_multiple` calls with the
pages they answer, and `Stocked` says that the free tree of a container goes through with them. The
rest of what a call looks at is a `View`.
-/

set_option autoImplicit false

namespace Allora
namespace Kernel

open Outcome PageTree

/-! ## Trees -/

/-- A sequence of `get_multiple` calls goes through, with these answers. -/
def stages (s : Tree Nat) : List (Nat × Nat) → Bool
  | [] => true
  | (n, page) :: rest => takesOk s n page && stages (taken s n) rest

theorem getMultiple_returns {t : PageTree} {s : Tree Nat} {n page fuel : Nat} (h : Holds t s)
    (hf : s.toList.length < fuel) (hok : takesOk s n page = true) :
    ∃ t', t.getMultiple fuel n = ok (t', some page) ∧ Holds t' (taken s n) ∧
      (∀ m ∈ List.range' page n, m ∉ (taken s n).toList) ∧
      (taken s n).toList.length ≤ s.toList.length := by
  simp only [takesOk, Bool.and_eq_true, Option.isSome_iff_exists, decide_eq_true_eq] at hok
  obtain ⟨⟨s', hs'⟩, hfirst⟩ := hok
  have htaken : taken s n = s' := by rw [taken, hs', Option.getD_some]
  have hget := getMultiple_holds (k := n) h hf
  rw [hs'] at hget
  obtain ⟨t', hrun, h', hseq, -, -⟩ := hget
  rw [hfirst] at hrun
  have htakes : takes s.toList n = List.range' page n := by rw [takes, hfirst]
  rw [htaken]
  refine ⟨t', hrun, h', fun m hm hm' => ?_, ?_⟩
  · rw [hseq, h.nodup.mem_sdiff_iff, htakes] at hm'
    exact hm'.2 hm
  · rw [hseq]
    exact (List.diff_sublist _ _).length_le

/-! ## A container that has the pages -/

section Steps

variable {Buckle : Type} {k k' : Kernel Buckle} {ct page fuel : Nat} {hand : List Nat}
  {rest : List (Nat × Nat)} {lb : Labeled Buckle} {sz : Sizes} {bytes : Nat → PageNode}

/-- The free tree of `ct` goes through with these `get_multiple` calls, and has no page that is in
`hand`. -/
def Stocked (fuel ct : Nat) (k : Kernel Buckle) (hand : List Nat) (rest : List (Nat × Nat)) :
    Prop :=
  ∃ s, Holds (k.freePages ct) s ∧ s.toList.length < fuel ∧ (∀ m ∈ hand, m ∉ s.toList) ∧
    stages s rest = true

namespace Stocked

theorem congr (h : Stocked fuel ct k hand rest)
    (hroot : (k'.info ct).freePages = (k.info ct).freePages)
    (hmem : ∀ n, n ∉ hand → k'.mem n = k.mem n) : Stocked fuel ct k' hand rest := by
  obtain ⟨s, hs, hlen, hhand, hst⟩ := h
  exact ⟨s, hs.congr hroot fun n hn => hmem n fun hn' => hhand n hn' hn, hlen, hhand, hst⟩

theorem takePages {n : Nat} (h : Stocked fuel ct k hand ((n, page) :: rest)) :
    ∃ t, k.takePages fuel ct n = ok (k.setFreePages ct t, page) ∧
      Stocked fuel ct (k.setFreePages ct t) (List.range' page n) rest := by
  obtain ⟨s, hs, hlen, -, hst⟩ := h
  rw [stages, Bool.and_eq_true] at hst
  obtain ⟨t, hrun, ht, hsep, hle⟩ := getMultiple_returns hs hlen hst.1
  refine ⟨t, by simp [Kernel.takePages, hrun], taken s n, ht.congr ?_ fun _ _ => rfl,
    Nat.lt_of_le_of_lt hle hlen, hsep, hst.2⟩
  simp [freePages, setFreePages, Kernel.setMeta]

/-- Writing to the pages in hand. -/
theorem dirty {n top : Nat} (h : Stocked fuel ct k (List.range' page n) rest)
    (htop : top ≤ pa (page + n)) (bytes : Nat → PageNode) :
    Stocked fuel ct (k.dirty page top bytes) (List.range' page n) rest :=
  h.congr rfl fun _ hm => dirty_mem htop hm

theorem setMeta (h : Stocked fuel ct k hand rest) (hne : page ≠ ct)
    (f : KObjectMeta → KObjectMeta) : Stocked fuel ct (k.setMeta page f) hand rest :=
  h.congr (by simp [Kernel.setMeta, hne.symm]) fun _ _ => rfl

end Stocked

/-! ## Where a thread lands -/

/-- The page that a `spawn_raw` into `ct` will put its thread on: the answer of the second of its
two `get_multiple` calls. -/
def landing (fuel : Nat) (k : Kernel Buckle) (ct : Nat) : Outcome Nat := do
  let (k, _) ← k.takePages fuel ct KOBJ_NPAGES
  let (_, page) ← k.takePages fuel ct THREAD_NPAGES
  pure page

/-- The closure of a `spawn_raw` into `ct` fits where the thread lands. -/
def FitsAtLanding (size : Nat) (k : Kernel Buckle) (ct : Nat) (closure : Layout) : Prop :=
  ∀ fuel page, k.landing fuel ct = ok page → ClosureFits size page closure

theorem Stocked.landing {l th : Nat}
    (h : Stocked fuel ct k hand ((KOBJ_NPAGES, l) :: (THREAD_NPAGES, th) :: rest)) :
    k.landing fuel ct = ok th := by
  obtain ⟨t₁, htake₁, h₁⟩ := h.takePages
  obtain ⟨t₂, htake₂, -⟩ := h₁.takePages
  simp only [Kernel.landing, htake₁, ok_bind, htake₂, pure_eq_ok]

theorem takesOk_takePages {s : Tree Nat} {n : Nat} (h : Holds (k.freePages ct) s)
    (hrun : k.takePages fuel ct n = ok (k', page)) :
    takesOk s n page = true ∧ Holds (k'.freePages ct) (taken s n) := by
  simp only [Kernel.takePages, bind_eq_ok, pure_eq_ok, ok.injEq] at hrun
  obtain ⟨⟨t, r⟩, hget, page', hr, heq⟩ := hrun
  cases r with
  | none => cases hr
  | some a =>
    cases hr
    cases heq
    obtain ⟨hok, hs', -⟩ := getMultiple_perm h hget
    refine ⟨hok, hs'.congr ?_ fun _ _ => rfl⟩
    simp [freePages, setFreePages, Kernel.setMeta]

theorem takesOk_unique {s : Tree Nat} {n page' : Nat} (h : takesOk s n page = true)
    (h' : takesOk s n page' = true) : page' = page := by
  simp only [takesOk, Bool.and_eq_true, decide_eq_true_eq] at h h'
  exact Option.some.inj (h'.2.symm.trans h.2)

/-- It lands there at whatever fuel it does. -/
theorem Stocked.fitsAtLanding {l th size fuel' : Nat} {closure : Layout}
    (h : Stocked fuel' ct k hand ((KOBJ_NPAGES, l) :: (THREAD_NPAGES, th) :: rest))
    (hfits : ClosureFits size th closure) : FitsAtLanding size k ct closure := by
  intro fuel page hland
  simp only [Kernel.landing, bind_eq_ok, pure_eq_ok, ok.injEq] at hland
  obtain ⟨⟨k₁, l'⟩, htake₁, ⟨k₂, page'⟩, htake₂, rfl⟩ := hland
  obtain ⟨s, hs, -, -, hst⟩ := h
  simp only [stages, Bool.and_eq_true] at hst
  obtain ⟨hok₁, hs₁⟩ := takesOk_takePages hs htake₁
  obtain ⟨hok₂, -⟩ := takesOk_takePages hs₁ htake₂
  rw [takesOk_unique hst.2.1 hok₂]
  exact hfits

/-! ## What the next call looks at -/

/-- The slots of the container, the objects that are known to have a label, the labels that are
known to be parsed, and the current thread. -/
structure View where
  slots : List Nat
  labels : List (Nat × Nat)
  parsed : List Nat
  current : Option Nat

/-- The kernel looks like this from container `ct`, which has a label itself. -/
structure Seen (ct : Nat) (k : Kernel Buckle) (v : View) : Prop where
  self : ct ∈ v.labels.map Prod.fst
  slots : k.slots ct = v.slots
  labels : ∀ o ∈ v.labels, (k.info o.1).label = some o.2
  parsed : ∀ l ∈ v.parsed, (k.inner l).isSome
  current : k.current = v.current

namespace Seen

variable {v : View}

theorem ne_self (h : Seen ct k v) (hnew : page ∉ v.labels.map Prod.fst) : page ≠ ct := by
  rintro rfl
  exact hnew h.self

/-- All slots are taken: a new one. -/
theorem getSlot_append (h : Seen ct k v) (hfull : INVALID_KOBJ_ID ∉ v.slots) :
    ∃ k', k.getSlot ct = (k', v.slots.length) ∧
      Seen ct k' { v with slots := v.slots ++ [INVALID_KOBJ_ID] } ∧ k'.mem = k.mem ∧
      k'.info = k.info := by
  have hfind : k.findSlot ct INVALID_KOBJ_ID = none := by
    rw [findSlot, h.slots, List.findIdx?_eq_none_iff]
    intro x hx
    rw [beq_eq_false_iff_ne]
    rintro rfl
    exact hfull hx
  refine ⟨{ k with slots := Function.update k.slots ct (k.slots ct ++ [INVALID_KOBJ_ID]) }, ?_,
    ⟨h.self, ?_, h.labels, h.parsed, h.current⟩, rfl, rfl⟩
  · rw [getSlot, hfind, h.slots]
  · simp [h.slots]

/-- The first invalid slot. -/
theorem getSlot_first (h : Seen ct k v) {i : Nat}
    (hi : v.slots.findIdx? (· == INVALID_KOBJ_ID) = some i) : k.getSlot ct = (k, i) := by
  rw [getSlot, findSlot, h.slots, hi]

theorem setSlot (h : Seen ct k v) {i : Nat} (hi : i < v.slots.length) (ref : Nat) :
    ∃ k', k.setSlot ct i ref = ok k' ∧ Seen ct k' { v with slots := v.slots.set i ref } ∧
      k'.mem = k.mem ∧ k'.info = k.info := by
  refine ⟨{ k with slots := Function.update k.slots ct ((k.slots ct).set i ref) }, ?_,
    ⟨h.self, ?_, h.labels, h.parsed, h.current⟩, rfl, rfl⟩
  · rw [Kernel.setSlot, if_pos (by rwa [h.slots])]
  · simp [h.slots]

theorem setFreePages (h : Seen ct k v) (t : PageTree) : Seen ct (k.setFreePages ct t) v := by
  refine ⟨h.self, h.slots, fun o ho => ?_, h.parsed, h.current⟩
  rw [← h.labels o ho]
  by_cases hc : o.1 = ct
  · simp [Kernel.setFreePages, Kernel.setMeta, hc]
  · simp [Kernel.setFreePages, Kernel.setMeta, hc]

/-- The metadata of an object that is not known to have a label. -/
theorem setMeta (h : Seen ct k v) (hnew : page ∉ v.labels.map Prod.fst)
    (f : KObjectMeta → KObjectMeta) : Seen ct (k.setMeta page f) v := by
  refine ⟨h.self, h.slots, fun o ho => ?_, h.parsed, h.current⟩
  have hne : o.1 ≠ page := by
    rintro rfl
    exact hnew (List.mem_map_of_mem ho)
  rw [← h.labels o ho]
  simp [Kernel.setMeta, hne]

theorem dirty (h : Seen ct k v) (page top : Nat) (bytes : Nat → PageNode) :
    Seen ct (k.dirty page top bytes) v :=
  ⟨h.self, h.slots, h.labels, h.parsed, h.current⟩

theorem setCurrent (h : Seen ct k v) (curr : Option Nat) :
    Seen ct { k with current := curr } { v with current := curr } :=
  ⟨h.self, h.slots, h.labels, h.parsed, rfl⟩

/-- One more object with a label. -/
theorem label (h : Seen ct k v) {l : Nat} (hl : (k.info page).label = some l) :
    Seen ct k { v with labels := (page, l) :: v.labels } := by
  refine ⟨List.mem_cons_of_mem _ h.self, h.slots, fun o ho => ?_, h.parsed, h.current⟩
  rcases List.mem_cons.mp ho with rfl | ho
  · exact hl
  · exact h.labels o ho

end Seen

/-! ## Objects -/

section Objects

variable {v : View}

theorem createLabel_returns (sz : Sizes) (bytes : Nat → PageNode) {label : String} {b : Buckle}
    (hseen : Seen ct k v)
    (hst : Stocked fuel ct k (List.range' page KOBJ_NPAGES) rest)
    (hnew : page ∉ v.labels.map Prod.fst) (hb : lb.parse label = some b) :
    ∃ k', k.createLabel lb sz bytes page label = ok k' ∧
      Seen ct k' { v with parsed := page :: v.parsed } ∧
      Stocked fuel ct k' (List.range' page KOBJ_NPAGES) rest := by
  have hseen' := (hseen.dirty page (pa (page + KOBJ_NPAGES)) bytes).setMeta hnew
    fun _ => kobjectCreate .label page sz.label []
  have hst' := (hst.dirty (Nat.le_refl _) bytes).setMeta (hseen.ne_self hnew)
    fun _ => kobjectCreate .label page sz.label []
  refine ⟨{ (k.dirty page (pa (page + KOBJ_NPAGES)) bytes).setMeta page
      fun _ => kobjectCreate .label page sz.label [] with
    inner := Function.update k.inner page (some b) }, ?_,
    ⟨hseen'.self, hseen'.slots, hseen'.labels, fun l hl => ?_, hseen'.current⟩,
    hst'.congr rfl fun _ _ => rfl⟩
  · simp only [createLabel, hb, unwrap_some, ok_bind, pure_eq_ok]
    rfl
  · show (Function.update k.inner page (some b) l).isSome
    by_cases hlp : l = page
    · subst hlp
      simp
    · rw [Function.update_of_ne hlp]
      exact hseen.parsed l (List.mem_of_ne_of_mem hlp hl)

theorem createContainer_returns (sz : Sizes) (bytes : Nat → PageNode) (hseen : Seen ct k v)
    (hst : Stocked fuel ct k (List.range' page KOBJ_NPAGES) rest)
    (hnew : page ∉ v.labels.map Prod.fst) :
    Seen ct (k.createContainer sz bytes page) v ∧
      Stocked fuel ct (k.createContainer sz bytes page) (List.range' page KOBJ_NPAGES) rest := by
  have hseen' := (hseen.dirty page (pa (page + KOBJ_NPAGES)) bytes).setMeta hnew
    fun _ => kobjectCreate .container page sz.container []
  have hst' := (hst.dirty (Nat.le_refl _) bytes).setMeta (hseen.ne_self hnew)
    fun _ => kobjectCreate .container page sz.container []
  refine ⟨⟨hseen'.self, ?_, hseen'.labels, hseen'.parsed, hseen'.current⟩,
    hst'.congr rfl fun _ _ => rfl⟩
  rw [← hseen'.slots]
  exact Function.update_of_ne (hseen.ne_self hnew).symm _ _

/-- `Thread::create` returns whether or not it keeps to its pages; the free tree is the same after
it if it does. -/
theorem createThread_returns (bytes : Nat → PageNode) {closure : Layout} {top : Nat}
    (hseen : Seen ct k v)
    (hst : Stocked fuel ct k (List.range' page THREAD_NPAGES) rest)
    (hnew : page ∉ v.labels.map Prod.fst)
    (htop : threadTop fuel page sz.thread closure = ok top) :
    ∃ k', k.createThread fuel sz bytes page closure = ok k' ∧ Seen ct k' v ∧
      (∀ n, page ≤ n → pa n < top → k'.mem n = bytes n) ∧
      (top ≤ pa (page + THREAD_NPAGES) →
        Stocked fuel ct k' (List.range' page THREAD_NPAGES) rest) := by
  refine ⟨(k.dirty page top bytes).setMeta page fun _ => kobjectCreate .thread page sz.thread [],
    ?_, (hseen.dirty page top bytes).setMeta hnew _, fun n h1 h2 => if_pos ⟨h1, h2⟩, fun hle => ?_⟩
  · simp only [createThread, htop, ok_bind, pure_eq_ok]
  · exact (hst.dirty hle bytes).setMeta (hseen.ne_self hnew) _

/-- The label check, when every flow is allowed. -/
theorem checkLabel_returns {mine theirs : Nat} (hseen : Seen ct k v)
    (hflow : ∀ b b', lb.canFlowTo b b' = true) (hmine : mine ∈ v.parsed)
    (hct : (ct, theirs) ∈ v.labels) (htheirs : theirs ∈ v.parsed) (msg : String) :
    k.checkLabel lb mine ct msg = ok () := by
  obtain ⟨b, hb⟩ := Option.isSome_iff_exists.mp (hseen.parsed mine hmine)
  obtain ⟨b', hb'⟩ := Option.isSome_iff_exists.mp (hseen.parsed theirs htheirs)
  simp [checkLabel, hseen.labels _ hct, hb, hb', assert, hflow]

end Objects

/-! ## Calls -/

section Calls

variable {v : View} {l th : Nat} {b : Buckle}

/-- A label in a new slot, which is how the calls begin. `f` is what they then do to its
metadata. -/
theorem label_returns (sz : Sizes) (bytes : Nat → PageNode) {label : String}
    (f : KObjectMeta → KObjectMeta) (hseen : Seen ct k v)
    (hst : Stocked fuel ct k hand ((KOBJ_NPAGES, l) :: rest))
    (hfull : INVALID_KOBJ_ID ∉ v.slots) (hnew : l ∉ v.labels.map Prod.fst)
    (hb : lb.parse label = some b) :
    ∃ k₁ k₂ k₃ hand', (k.getSlot ct).1.takePages fuel ct KOBJ_NPAGES = ok (k₁, l) ∧
      k₁.createLabel lb sz bytes l label = ok k₂ ∧
      (k₂.setMeta l f).setSlot ct (k.getSlot ct).2 l = ok k₃ ∧
      Seen ct k₃ { v with slots := v.slots ++ [l], parsed := l :: v.parsed } ∧
      Stocked fuel ct k₃ hand' rest := by
  obtain ⟨k₀, hget, hseen₀, hm₀, hi₀⟩ := hseen.getSlot_append hfull
  rw [hget]
  obtain ⟨t, htake, hst₁⟩ := (hst.congr (by rw [hi₀]) fun _ _ => by rw [hm₀]).takePages
  obtain ⟨k₂, hlabel, hseen₂, hst₂⟩ := createLabel_returns sz bytes
    (hseen₀.setFreePages t) hst₁ hnew hb
  obtain ⟨k₃, hset, hseen₃, hm₃, hi₃⟩ := (hseen₂.setMeta hnew f).setSlot
    (show v.slots.length < _ by simp) l
  refine ⟨_, k₂, k₃, _, htake, hlabel, hset, ?_, (hst₂.setMeta (hseen.ne_self hnew) f).congr
    (by rw [hi₃]) fun _ _ => by rw [hm₃]⟩
  simpa using hseen₃

/-- A thread with label `l`, for which there is a new slot. It returns whether or not the closure
fits. -/
theorem thread_returns (bytes : Nat → PageNode) {closure : Layout} {top : Nat}
    {f : KObjectMeta → KObjectMeta} (hseen : Seen ct k v)
    (hst : Stocked fuel ct k hand ((THREAD_NPAGES, th) :: rest))
    (hfull : INVALID_KOBJ_ID ∉ v.slots) (hnew : th ∉ v.labels.map Prod.fst)
    (htop : threadTop fuel th sz.thread closure = ok top) (hf : ∀ m, (f m).label = some l) :
    ∃ k₁ k₂ hand', (k.getSlot ct).1.takePages fuel ct THREAD_NPAGES = ok (k₁, th) ∧
      k₁.createThread fuel sz bytes th closure = ok k₂ ∧ (k.getSlot ct).2 = v.slots.length ∧
      Seen ct (k₂.setMeta th f)
        { v with slots := v.slots ++ [INVALID_KOBJ_ID], labels := (th, l) :: v.labels } ∧
      (∀ n, th ≤ n → pa n < top → k₂.mem n = bytes n) ∧
      (top ≤ pa (th + THREAD_NPAGES) → Stocked fuel ct (k₂.setMeta th f) hand' rest) := by
  obtain ⟨k₀, hget, hseen₀, hm₀, hi₀⟩ := hseen.getSlot_append hfull
  rw [hget]
  obtain ⟨t, htake, hst₁⟩ := (hst.congr (by rw [hi₀]) fun _ _ => by rw [hm₀]).takePages
  obtain ⟨k₂, hthread, hseen₂, hdirty, hst₂⟩ := createThread_returns bytes
    (hseen₀.setFreePages t) hst₁ hnew htop
  have hlabel : ((k₂.setMeta th f).info th).label = some l := by simp [Kernel.setMeta, hf]
  exact ⟨_, k₂, _, htake, hthread, rfl, (hseen₂.setMeta hnew f).label hlabel, hdirty,
    fun hle => (hst₂ hle).setMeta (hseen.ne_self hnew) f⟩

theorem setMeta_self (k : Kernel Buckle) (page : Nat) : k.setMeta page (fun m => m) = k := by
  simp [Kernel.setMeta]

/-- The main thread. -/
theorem initMain_returns (bytes : Nat → PageNode) {top : Nat} (hseen : Seen ct k v)
    (hst : Stocked fuel ct k hand ((KOBJ_NPAGES, l) :: (THREAD_NPAGES, th) :: rest))
    (hfull : INVALID_KOBJ_ID ∉ v.slots ++ [l]) (hl : l ∉ v.labels.map Prod.fst)
    (hth : th ∉ v.labels.map Prod.fst) (hb : lb.parse "T,F" = some b)
    (htop : threadTop fuel th sz.thread ⟨0, 1, ⟨0, rfl⟩, by decide⟩ = ok top)
    (hle : top ≤ pa (th + THREAD_NPAGES)) :
    ∃ k' hand', k.initMain fuel lb sz bytes ct = ok (k', th) ∧
      Seen ct k' ⟨v.slots ++ [l, th], (th, l) :: v.labels, l :: v.parsed, some th⟩ ∧
      Stocked fuel ct k' hand' rest := by
  have hfull' : INVALID_KOBJ_ID ∉ v.slots := fun hm => hfull (List.mem_append_left _ hm)
  obtain ⟨k₁, k₂, k₃, _, htake, hlabel, hset, hseen₃, hst₃⟩ := label_returns sz bytes (fun m => m)
    hseen hst hfull' hl hb
  rw [setMeta_self] at hset
  obtain ⟨k₄, k₅, hand', htake', hthread, hslot, hseen₅, -, hst₅⟩ := thread_returns bytes
    (f := fun m => { m with label := some l }) hseen₃ hst₃ hfull hth htop fun _ => rfl
  obtain ⟨k₆, hset', hseen₆, hm₆, hi₆⟩ := (hseen₅.setCurrent (some th)).setSlot
    (i := (k₃.getSlot ct).2) (by rw [hslot]; simp) th
  refine ⟨k₆, hand', ?_, ?_, (hst₅ hle).congr (by rw [hi₆]) fun _ _ => by rw [hm₆]⟩
  · simp only [initMain, htake, ok_bind, hlabel, hset, htake', hthread, hset', pure_eq_ok]
  · simpa [hslot] using hseen₆

/-- `spawn_raw`, after its label check. -/
theorem spawnRaw_returns (bytes : Nat → PageNode) {label : String} {closure : Layout}
    {top : Nat} (curr mine : Nat) (hseen : Seen ct k v)
    (hst : Stocked fuel ct k hand ((KOBJ_NPAGES, l) :: (THREAD_NPAGES, th) :: rest))
    (hfull : INVALID_KOBJ_ID ∉ v.slots ++ [l]) (hl : l ∉ v.labels.map Prod.fst)
    (hth : th ∉ v.labels.map Prod.fst) (hb : lb.parse label = some b)
    (hcurr : v.current = some curr) (hmine : (curr, mine) ∈ v.labels)
    (hcheck : ∀ msg, k.checkLabel lb mine ct msg = ok ())
    (htop : threadTop fuel th sz.thread closure = ok top) :
    ∃ k' hand', k.spawnRaw fuel lb sz bytes ct label closure = ok (k', th) ∧
      Seen ct k' ⟨v.slots ++ [l, th], (th, l) :: v.labels, l :: v.parsed, v.current⟩ ∧
      (∀ n, th ≤ n → pa n < top → k'.mem n = bytes n) ∧
      (top ≤ pa (th + THREAD_NPAGES) → Stocked fuel ct k' hand' rest) := by
  have hfull' : INVALID_KOBJ_ID ∉ v.slots := fun hm => hfull (List.mem_append_left _ hm)
  obtain ⟨k₁, k₂, k₃, _, htake, hlabel, hset, hseen₃, hst₃⟩ := label_returns sz bytes
    (fun m => { m with parent := some ct }) hseen hst hfull' hl hb
  obtain ⟨k₄, k₅, hand', htake', hthread, hslot, hseen₅, hdirty, hst₅⟩ := thread_returns bytes
    (f := fun m => { m with parent := some ct, label := some l }) hseen₃ hst₃ hfull hth htop
    fun _ => rfl
  obtain ⟨k₆, hset', hseen₆, hm₆, hi₆⟩ := hseen₅.setSlot (i := (k₃.getSlot ct).2)
    (by rw [hslot]; simp) th
  refine ⟨k₆, hand', ?_, ?_, fun n h1 h2 => ?_,
    fun hle => (hst₅ hle).congr (by rw [hi₆]) fun _ _ => by rw [hm₆]⟩
  · simp only [spawnRaw, hseen.current, hcurr, expect, ok_bind, hseen.labels _ hmine, unwrap_some,
      hcheck, htake, hlabel, hset, htake', hthread, hset', pure_eq_ok]
  · simpa [hslot] using hseen₆
  · rw [hm₆]
    exact hdirty n h1 h2

/-- `create`, after its label check. The new container has no slots and no pages. -/
theorem create_returns (sz : Sizes) (bytes : Nat → PageNode) {label : String} {c : Nat}
    (curr mine : Nat) (hseen : Seen ct k v)
    (hst : Stocked fuel ct k hand ((KOBJ_NPAGES, l) :: (KOBJ_NPAGES, c) :: rest))
    (hfull : INVALID_KOBJ_ID ∉ v.slots ++ [l]) (hl : l ∉ v.labels.map Prod.fst)
    (hc : c ∉ v.labels.map Prod.fst) (hb : lb.parse label = some b)
    (hcurr : v.current = some curr) (hmine : (curr, mine) ∈ v.labels)
    (hcheck : ∀ msg, k.checkLabel lb mine ct msg = ok ()) :
    ∃ k' hand', k.create fuel lb sz bytes ct label = ok (k', c) ∧
      Seen ct k' ⟨v.slots ++ [l, c], (c, l) :: v.labels, l :: v.parsed, v.current⟩ ∧
      Stocked fuel ct k' hand' rest ∧ k'.slots c = [] ∧ (k'.info c).freePages = none := by
  have hfull' : INVALID_KOBJ_ID ∉ v.slots := fun hm => hfull (List.mem_append_left _ hm)
  obtain ⟨k₁, k₂, k₃, _, htake, hlabel, hset, hseen₃, hst₃⟩ := label_returns sz bytes (fun m => m)
    hseen hst hfull' hl hb
  rw [setMeta_self] at hset
  obtain ⟨k₄, hget, hseen₄, hm₄, hi₄⟩ := hseen₃.getSlot_append hfull
  obtain ⟨t, htake', hst₅⟩ := (hst₃.congr (by rw [hi₄]) fun _ _ => by rw [hm₄]).takePages
  obtain ⟨hseen₆, hst₆⟩ := createContainer_returns sz bytes (hseen₄.setFreePages t) hst₅ hc
  obtain ⟨k₇, hset', hseen₇, hm₇, hi₇⟩ := hseen₆.setSlot
    (show (v.slots ++ [l]).length < _ by simp) c
  have hlabel' : ((k₇.setMeta c fun m => { m with label := some l }).info c).label = some l := by
    simp [Kernel.setMeta]
  have hslots : k₇.slots c = [] := by
    rw [Kernel.setSlot, if_pos (by rw [hseen₆.slots]; simp)] at hset'
    cases hset'
    simp [Kernel.createContainer, hseen.ne_self hc]
  have hst₇ : Stocked fuel ct k₇ _ rest := hst₆.congr (by rw [hi₇]) fun _ _ => by rw [hm₇]
  refine ⟨_, _, ?_, ?_, hst₇.setMeta (hseen.ne_self hc) fun m => { m with label := some l }, hslots,
    ?_⟩
  · have hmine' : k.currentLabel = some mine := by
      rw [currentLabel, hseen.current, hcurr]
      exact hseen.labels _ hmine
    simp only [create, hmine', unwrap_some, ok_bind, hcheck, htake, hlabel, hset, hget, htake',
      hset', pure_eq_ok]
  · simpa using (hseen₇.setMeta hc fun m => { m with label := some l }).label hlabel'
  · simp [Kernel.setMeta, hi₇, Kernel.createContainer, kobjectCreate]

/-- Pages inserted one by one into the tree of a container. -/
theorem insertPages_eq {c : Nat} :
    ∀ {ps : List Nat} {k : Kernel Buckle} {t : PageTree},
      ps.foldlM (insert fuel) (k.freePages c) = ok t →
      ps.foldlM (fun k p => do
        let t ← (k.freePages c).insert fuel p
        pure (k.setFreePages c t)) k = ok (k.setFreePages c t)
  | [], k, t, h => by
    cases h
    simp [freePages, Kernel.setFreePages, Kernel.setMeta]
  | p :: ps, k, t, h => by
    rw [List.foldlM_cons, bind_eq_ok] at h
    obtain ⟨t₁, h₁, hrest⟩ := h
    have hfree : (k.setFreePages c t₁).freePages c = t₁ := by
      simp [freePages, Kernel.setFreePages, Kernel.setMeta]
    rw [← hfree] at hrest
    rw [List.foldlM_cons, h₁, ok_bind, pure_eq_ok, ok_bind, insertPages_eq hrest]
    simp [Kernel.setFreePages, Kernel.setMeta]

/-- `move_npages` to a container that has no pages. -/
theorem moveNpages_returns {c n : Nat} {s : Tree Nat} {rest' : List (Nat × Nat)}
    (hseen : Seen c k v) (hst : Stocked fuel ct k hand ((n, page) :: rest))
    (hempty : (k.info c).freePages = none) (hne : c ≠ ct) (hpage : 0 < page) (hn : n + 1 < fuel)
    (hs : (List.range' page n).foldlM (fun s n => insertTree n s) .nil = some s)
    (hst' : stages s rest' = true) :
    ∃ k', k.moveNpages fuel ct c n = ok k' ∧ Seen c k' v ∧ Stocked fuel c k' [] rest' := by
  obtain ⟨t, htake, -⟩ := hst.takePages
  have hroot : (k.setFreePages ct t).freePages c = ⟨t.mem, none⟩ := by
    simp [freePages, Kernel.setFreePages, Kernel.setMeta, hne, hempty]
  have h0 : 0 ∉ List.range' page n := by
    rw [List.mem_range'_1]
    omega
  obtain ⟨t', s', hins, hins', ht', hperm⟩ := inserts_hold (holds_empty t.mem)
    (show (List.range' page n ++ _).Nodup by simpa using List.nodup_range') h0
    (by simpa using hn)
  have hlen := hperm.length_eq
  rw [List.length_append] at hlen
  cases hs.symm.trans hins'
  refine ⟨(k.setFreePages ct t).setFreePages c t', ?_, ?_, s, ht'.congr ?_ fun _ _ => rfl, ?_,
    by simp, hst'⟩
  · rw [moveNpages, htake, ok_bind]
    refine insertPages_eq ?_
    rw [hroot]
    exact hins
  · refine Seen.setFreePages ?_ t'
    refine ⟨hseen.self, hseen.slots, fun o ho => ?_, hseen.parsed, hseen.current⟩
    rw [← hseen.labels o ho]
    by_cases hc : o.1 = ct
    · simp [Kernel.setFreePages, Kernel.setMeta, hc]
    · simp [Kernel.setFreePages, Kernel.setMeta, hc]
  · simp [freePages, Kernel.setFreePages, Kernel.setMeta]
  · rw [hlen, List.length_range', Tree.toList_nil, List.length_nil]
    omega

/-- The kernel boots when its tree can be built and the two `get_multiple` calls go through. -/
theorem boot_returns (sz : Sizes) (bytes mem : Nat → PageNode) (info : Nat → KObjectMeta)
    {memStart : Nat} {s₀ : Tree Nat} (hstart : 0 < memStart) (hfuel : 513 < fuel)
    (hb : lb.parse "T,F" = some b)
    (hs₀ : (bootPool memStart).foldlM (fun s n => insertTree n s) .nil = some s₀)
    (hst : stages s₀ ((KOBJ_NPAGES, l) :: (KOBJ_NPAGES, ct) :: rest) = true) :
    ∃ k hand, Kernel.boot fuel lb sz bytes mem info memStart = ok (k, ct, l) ∧
      Seen ct k ⟨[], [(ct, l)], [l], none⟩ ∧ Stocked fuel ct k hand rest := by
  simp only [stages, Bool.and_eq_true] at hst
  obtain ⟨hok₁, hok₂, hrest⟩ := hst
  have hlen : (bootPool memStart).length = 512 := List.length_range'
  obtain ⟨t₀, s₁, hinit, htree, h₀, hperm₀⟩ := inserts_hold (holds_empty mem)
    (show (bootPool memStart ++ _).Nodup by simpa using nodup_bootPool memStart)
    (zero_notMem_bootPool hstart) (show _ < fuel by simpa [hlen] using hfuel)
  cases hs₀.symm.trans htree
  have hlen₀ := hperm₀.length_eq
  rw [List.length_append, hlen, Tree.toList_nil, List.length_nil] at hlen₀
  obtain ⟨t₁, hget₁, h₁, hsep₁, hlen₁⟩ := getMultiple_returns h₀ (show _ < fuel by omega) hok₁
  -- the label is written before the second `get_multiple`, to pages that left the tree
  obtain ⟨k₁, hk₁⟩ : ∃ k₁ : Kernel Buckle, k₁ = ⟨t₁.mem, info, fun _ => [], fun _ => none, none⟩ :=
    ⟨_, rfl⟩
  obtain ⟨k₂, hlabel, hk₂⟩ : ∃ k₂, k₁.createLabel lb sz bytes l "T,F" = ok k₂ ∧
      k₂.inner = Function.update k₁.inner l (some b) ∧ k₂.current = k₁.current := by
    refine ⟨{ (k₁.dirty l (pa (l + KOBJ_NPAGES)) bytes).setMeta l
      fun _ => kobjectCreate .label l sz.label [] with
        inner := Function.update k₁.inner l (some b) }, ?_, rfl, rfl⟩
    simp only [createLabel, hb, unwrap_some, ok_bind, pure_eq_ok]
    rfl
  have h₁' : Holds ⟨k₂.mem, t₁.root⟩ (taken s₀ KOBJ_NPAGES) := h₁.congr rfl fun n hn => by
    show k₂.mem n = t₁.mem n
    rw [(createLabel_eq hlabel).1, dirty_mem (Nat.le_refl _) fun hn' => hsep₁ n hn' hn, hk₁]
  obtain ⟨t₂, hget₂, h₂, hsep₂, hlen₂⟩ := getMultiple_returns h₁' (show _ < fuel by omega) hok₂
  refine ⟨(({ k₂ with mem := t₂.mem }.createContainer sz bytes ct).setMeta ct
      fun m => { m with freePages := t₂.root, label := some l }).setMeta l
      fun m => { m with parent := some ct }, List.range' ct KOBJ_NPAGES, ?_, ⟨by simp, ?_, ?_, ?_,
    ?_⟩, taken (taken s₀ KOBJ_NPAGES) KOBJ_NPAGES, h₂.congr ?_ fun n hn => ?_, by omega, hsep₂,
    hrest⟩
  · have hpages : pageAlignDown (PAGE_SIZE * 512) / PAGE_SIZE = 512 := by decide
    have hnew : PageTree.new fuel mem memStart (PAGE_SIZE * 512) = ok t₀ := by
      rw [PageTree.new, PageTree.init, hpages]
      exact hinit
    simp only [Kernel.boot, hnew, ok_bind, hget₁, unwrap_some, ← hk₁, hlabel, hget₂, pure_eq_ok]
  · simp [Kernel.createContainer, Kernel.setMeta]
  · intro o ho
    cases List.mem_singleton.mp ho
    by_cases hc : ct = l
    · simp [Kernel.setMeta, hc]
    · simp [Kernel.setMeta, hc]
  · intro l' hl'
    cases List.mem_singleton.mp hl'
    show (k₂.inner l).isSome
    rw [hk₂.1, Function.update_self]
    rfl
  · show k₂.current = none
    rw [hk₂.2, hk₁]
  · by_cases hc : ct = l
    · simp [freePages, Kernel.setMeta, hc]
    · simp [freePages, Kernel.setMeta, hc]
  · exact dirty_mem (Nat.le_refl _) fun hn' => hsep₂ n hn' hn

end Calls

end Steps

end Kernel
end Allora
