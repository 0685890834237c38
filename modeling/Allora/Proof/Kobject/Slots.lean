import Allora.Proof.Kobject.Runs

/-!
# Slots

A container's slots hold the objects made in it, and `INVALID_KOBJ_ID` where there is none.
`SlotsOk` is what every run keeps of them: an entry is invalid or names an object.
-/

set_option autoImplicit false

namespace Allora
namespace Kernel

open Outcome PageTree

variable {Buckle : Type} {k k' : Kernel Buckle} {objs : List (Nat × KObjectKind)} {ct : Nat}
  {fuel : Nat} {lb : Labeled Buckle} {sz : Sizes} {bytes : Nat → PageNode} {label : String}

/-! ## What the steps do to the slots -/

/-- Every entry is invalid, or an object. -/
def SlotsOk (k : Kernel Buckle) (objs : List (Nat × KObjectKind)) : Prop :=
  ∀ c, ∀ r ∈ k.slots c, r = INVALID_KOBJ_ID ∨ ∃ kind, (r, kind) ∈ objs

theorem takePages_slots {n page : Nat} (h : k.takePages fuel ct n = ok (k', page)) :
    k'.slots = k.slots := by
  simp only [takePages, bind_eq_ok, pure_eq_ok, ok.injEq] at h
  obtain ⟨⟨t, r⟩, -, p, -, heq⟩ := h
  cases heq
  rfl

theorem createLabel_slots {page : Nat} (h : k.createLabel lb sz bytes page label = ok k') :
    k'.slots = k.slots := by
  simp only [createLabel, bind_eq_ok, pure_eq_ok, ok.injEq] at h
  obtain ⟨b, -, rfl⟩ := h
  rfl

theorem createThread_slots {page : Nat} {closure : Layout}
    (h : k.createThread fuel sz bytes page closure = ok k') : k'.slots = k.slots := by
  simp only [createThread, bind_eq_ok, pure_eq_ok, ok.injEq] at h
  obtain ⟨top, -, rfl⟩ := h
  rfl

theorem setSlot_slots {slot ref : Nat} (h : k.setSlot ct slot ref = ok k') :
    slot < (k.slots ct).length ∧
      k'.slots = Function.update k.slots ct ((k.slots ct).set slot ref) := by
  unfold setSlot at h
  split at h
  · cases h
    exact ⟨‹_›, rfl⟩
  · cases h

/-- `get_slot` answers an invalid entry, and at most adds one. -/
theorem getSlot_slots (k : Kernel Buckle) (ct : Nat) :
    ((k.getSlot ct).1.slots ct)[(k.getSlot ct).2]? = some INVALID_KOBJ_ID ∧
      ((k.getSlot ct).1.slots = k.slots ∨ (k.getSlot ct).1.slots =
        Function.update k.slots ct (k.slots ct ++ [INVALID_KOBJ_ID])) := by
  unfold getSlot
  split
  · rename_i pos hpos
    obtain ⟨hlt, hval, -⟩ := List.findIdx?_eq_some_iff_getElem.mp hpos
    refine ⟨?_, .inl rfl⟩
    rw [List.getElem?_eq_getElem hlt, ← eq_of_beq hval]
  · refine ⟨?_, .inr rfl⟩
    simp

namespace SlotsOk

theorem congr (h : SlotsOk k objs) (hs : k'.slots = k.slots) : SlotsOk k' objs := by
  intro c r hr
  rw [hs] at hr
  exact h c r hr

theorem cons (h : SlotsOk k objs) (o : Nat × KObjectKind) : SlotsOk k (o :: objs) :=
  fun c r hr => (h c r hr).imp_right fun ⟨kind, hk⟩ => ⟨kind, List.mem_cons_of_mem _ hk⟩

theorem getSlot (h : SlotsOk k objs) (ct : Nat) : SlotsOk (k.getSlot ct).1 objs := by
  rcases (getSlot_slots k ct).2 with hs | hs
  · exact h.congr hs
  · intro c r hr
    rw [hs] at hr
    by_cases hc : c = ct
    · subst hc
      rw [Function.update_self] at hr
      rcases List.mem_append.mp hr with hr | hr
      · exact h c r hr
      · exact .inl (List.mem_singleton.mp hr)
    · rw [Function.update_of_ne hc] at hr
      exact h c r hr

theorem setSlot (h : SlotsOk k objs) {slot ref : Nat} {kind : KObjectKind}
    (href : (ref, kind) ∈ objs) (hrun : k.setSlot ct slot ref = ok k') : SlotsOk k' objs := by
  obtain ⟨-, hs⟩ := setSlot_slots hrun
  intro c r hr
  rw [hs] at hr
  by_cases hc : c = ct
  · subst hc
    rw [Function.update_self] at hr
    rcases List.mem_or_eq_of_mem_set hr with hr | rfl
    · exact h c r hr
    · exact .inr ⟨kind, href⟩
  · rw [Function.update_of_ne hc] at hr
    exact h c r hr

theorem createContainer (h : SlotsOk k objs) (page : Nat) :
    SlotsOk (k.createContainer sz bytes page) ((page, .container) :: objs) := by
  intro c r hr
  by_cases hc : c = page
  · subst hc
    simp [Kernel.createContainer] at hr
  · refine h.cons _ c r ?_
    simpa [Kernel.createContainer, setMeta, dirty, hc] using hr

/-- The label that both calls begin with. -/
theorem takeLabel {page : Nat} {k₁ k₂ : Kernel Buckle} (h : SlotsOk k objs)
    (htake : (k.getSlot ct).1.takePages fuel ct KOBJ_NPAGES = ok (k₁, page))
    (hrun : k₁.createLabel lb sz bytes page label = ok k₂) :
    SlotsOk k₂ ((page, .label) :: objs) :=
  ((h.getSlot ct).congr ((createLabel_slots hrun).trans (takePages_slots htake))).cons _

theorem create {c : Nat} (h : SlotsOk k objs)
    (hrun : k.create fuel lb sz bytes ct label = ok (k', c)) :
    ∃ l, (k'.info c).label = some l ∧
      SlotsOk k' ((c, .container) :: (l, .label) :: objs) := by
  simp only [Kernel.create, bind_eq_ok, pure_eq_ok, ok.injEq] at hrun
  obtain ⟨mine, -, u, -, ⟨k₁, l⟩, htake, k₂, hlabel, k₃, hset, ⟨k₄, c'⟩, htake', k₅, hset', heq⟩ :=
    hrun
  cases heq
  have h₁ := (h.takeLabel htake hlabel).setSlot List.mem_cons_self hset
  have h₂ := (h₁.getSlot ct).congr (takePages_slots htake')
  refine ⟨l, by simp [Kernel.setMeta], ?_⟩
  exact ((h₂.createContainer c').setSlot List.mem_cons_self hset').congr rfl

theorem spawnRaw {th : Nat} {closure : Layout} (h : SlotsOk k objs)
    (hrun : k.spawnRaw fuel lb sz bytes ct label closure = ok (k', th)) :
    ∃ l, (k'.info th).label = some l ∧ SlotsOk k' ((th, .thread) :: (l, .label) :: objs) := by
  simp only [Kernel.spawnRaw, bind_eq_ok, pure_eq_ok, ok.injEq] at hrun
  obtain ⟨curr, -, mine, -, u, -, ⟨k₁, l⟩, htake, k₂, hlabel, k₃, hset, ⟨k₄, th'⟩, htake', k₅,
    hthread, k₆, hset', heq⟩ := hrun
  cases heq
  have h₀ : SlotsOk (k₂.setMeta l fun m => { m with parent := some ct }) ((l, .label) :: objs) :=
    (h.takeLabel htake hlabel).congr rfl
  have h₁ := h₀.setSlot List.mem_cons_self hset
  have h₂ := (((h₁.getSlot ct).congr (takePages_slots htake')).congr
    (createThread_slots hthread)).cons (th', .thread)
  refine ⟨l, ?_, SlotsOk.setSlot ?_ List.mem_cons_self hset'⟩
  · rw [(setSlot_same hset').2]
    simp [Kernel.setMeta]
  · exact h₂.congr rfl

theorem initMain {th : Nat} (h : SlotsOk k objs)
    (hrun : k.initMain fuel lb sz bytes ct = ok (k', th)) :
    ∃ l, (k'.info th).label = some l ∧ SlotsOk k' ((th, .thread) :: (l, .label) :: objs) := by
  simp only [Kernel.initMain, bind_eq_ok, pure_eq_ok, ok.injEq] at hrun
  obtain ⟨⟨k₁, l⟩, htake, k₂, hlabel, k₃, hset, ⟨k₄, th'⟩, htake', k₅, hthread, k₆, hset', heq⟩ :=
    hrun
  cases heq
  have h₁ := (h.takeLabel htake hlabel).setSlot List.mem_cons_self hset
  have h₂ := (((h₁.getSlot ct).congr (takePages_slots htake')).congr
    (createThread_slots hthread)).cons (th', .thread)
  refine ⟨l, ?_, SlotsOk.setSlot ?_ List.mem_cons_self hset'⟩
  · rw [(setSlot_same hset').2]
    simp [Kernel.setMeta]
  · exact h₂.congr rfl

theorem moveNpages {ct₁ ct₂ n : Nat} (h : SlotsOk k objs)
    (hrun : k.moveNpages fuel ct₁ ct₂ n = ok k') : SlotsOk k' objs := by
  simp only [Kernel.moveNpages, bind_eq_ok] at hrun
  obtain ⟨⟨k₁, page⟩, htake, hrest⟩ := hrun
  have hslots : ∀ (ps : List Nat) (k k' : Kernel Buckle), ps.foldlM (fun k p => do
      let t ← (k.freePages ct₂).insert fuel p
      pure (k.setFreePages ct₂ t)) k = ok k' → k'.slots = k.slots := by
    intro ps
    induction ps with
    | nil =>
      intro k k' hk
      cases hk
      rfl
    | cons p ps ih =>
      intro k k' hk
      simp only [List.foldlM_cons, bind_eq_ok, pure_eq_ok, ok.injEq] at hk
      obtain ⟨k₂, ⟨t, -, rfl⟩, hrest⟩ := hk
      exact (ih _ _ hrest).trans rfl
  exact h.congr ((hslots _ _ _ hrest).trans (takePages_slots htake))

end SlotsOk

theorem Reaches.slotsOk {memStart : Nat} {cond : Kernel Buckle → Nat → Layout → Prop} {cts : List Nat}
    (h : Reaches lb sz memStart cond k cts objs) : SlotsOk k objs := by
  induction h with
  | @boot _ _ _ _ _ ct _ hrun =>
    simp only [Kernel.boot, bind_eq_ok, pure_eq_ok, ok.injEq] at hrun
    obtain ⟨t₀, -, ⟨t₁, r₁⟩, -, l', -, k₁, hlabel, ⟨t₂, r₂⟩, -, ct', -, heq⟩ := hrun
    have hs := createLabel_slots hlabel
    obtain ⟨rfl, rfl, rfl⟩ := heq
    intro c r hr
    by_cases hc : c = ct
    · simp [Kernel.createContainer, setMeta, hc] at hr
    · simp [Kernel.createContainer, setMeta, dirty, hs] at hr
  | initMain _ _ hrun hl ih =>
    obtain ⟨l', hl', h'⟩ := ih.initMain hrun
    cases hl.symm.trans hl'
    exact h'
  | create _ _ hrun hl ih =>
    obtain ⟨l', hl', h'⟩ := ih.create hrun
    cases hl.symm.trans hl'
    exact h'
  | spawnRaw _ _ _ hrun hl ih =>
    obtain ⟨l', hl', h'⟩ := ih.spawnRaw hrun
    cases hl.symm.trans hl'
    exact h'
  | moveNpages _ _ _ hrun ih => exact ih.moveNpages hrun
  | switch _ _ ih => exact ih.congr rfl

end Kernel
end Allora
