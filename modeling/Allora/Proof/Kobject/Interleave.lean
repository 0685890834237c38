import Allora.Preempt
import Allora.Proof.Kobject.Slots

/-!
# Two threads and the slots of one container

`get_slot` reserves nothing. Between a `get_slot` and the `set_slot` that belongs to it the entry
reads as invalid, and a second `get_slot` in that time answers the same entry. `Calm` is the
condition on a step that this does not happen. In every run of calm steps each object ends up in
a slot of its own: `Inv` says that an object made so far is in one slot, or about to be put into
the invalid one that its thread holds.
-/

set_option autoImplicit false

namespace Allora

open Outcome PageTree

/-- Between `get_slot` and `set_slot`, with this slot. -/
def Pc.held : Pc → Option Nat
  | .getMultiple _ _ slotId => some slotId
  | .create _ _ slotId _ => some slotId
  | .setSlot _ _ slotId _ => some slotId
  | _ => none

/-- The pages that are taken and not yet an object. -/
def Pc.inHand : Pc → List Nat
  | .create call stage _ page => pageList (page, call.kind stage)
  | _ => []

/-- The object that is made and not yet in a slot. -/
def Pc.pending : Pc → Option Nat
  | .setSlot _ _ _ page => some page
  | _ => none

/-- What follows the `set_slot` of a stage. -/
def Stage.next (call : Call) (page : Nat) : Stage → Pc
  | .label => .getSlot call (.object page)
  | .object _ => .idle

namespace Preempt

variable {Buckle : Type}

/-- No `get_slot` while the other thread is between its `get_slot` and its `set_slot`. -/
def Calm (s : Preempt Buckle) (t : Bool) : Prop :=
  ∀ call stage, (s.procs t).pc = .getSlot call stage → (s.procs !t).pc.held = none

/-- A thread that is about to be made has pages that its closure fits in. -/
def Fits (sz : Sizes) (s : Preempt Buckle) (t : Bool) : Prop :=
  ∀ label closure lbPage slotId page,
    (s.procs t).pc = .create (.spawnRaw label closure) (.object lbPage) slotId page →
      ClosureFits sz.thread page closure

/-- What is asked of a step. -/
structure Allowed (sz : Sizes) (s : Preempt Buckle) (t : Bool) : Prop where
  calm : s.Calm t
  fits : s.Fits sz t

/-- The object that a step makes. -/
def made (s : Preempt Buckle) (t : Bool) : List Nat :=
  match (s.procs t).pc with
  | .create _ _ _ page => [page]
  | _ => []

/-- The states that the two threads reach from `s₀`, with the objects they have made, in runs whose
steps meet `cond`. -/
inductive Interleaves (lb : Labeled Buckle) (sz : Sizes) (ct : Nat)
    (cond : Preempt Buckle → Bool → Prop) (s₀ : Preempt Buckle) : Preempt Buckle → List Nat → Prop
  | start : Interleaves lb sz ct cond s₀ s₀ []
  | step {fuel : Nat} {bytes : Nat → PageNode} {s s' : Preempt Buckle} {created : List Nat}
      {t : Bool} :
      Interleaves lb sz ct cond s₀ s created → cond s t →
      Preempt.step fuel lb sz bytes ct s t = ok s' →
      Interleaves lb sz ct cond s₀ s' (created ++ s.made t)

/-- All calls are over. -/
def Finished (s : Preempt Buckle) : Prop := ∀ t, (s.procs t).pc = .idle ∧ (s.procs t).calls = []

/-- The invariant of calm runs. -/
structure Inv (pool : List Nat) (ct : Nat) (s : Preempt Buckle) (created : List Nat)
    (cts : List Nat) (objs : List (Nat × KObjectKind)) (tree : Nat → Tree Nat) : Prop where
  owned : s.kernel.Owned pool cts objs
    ((s.procs false).pc.inHand ++ (s.procs true).pc.inHand) tree
  ct_mem : ct ∈ cts
  slotsOk : s.kernel.SlotsOk objs
  objects : ∀ p ∈ created, ∃ kind, (p, kind) ∈ objs
  nodup : created.Nodup
  /-- At most one thread holds a slot. -/
  one : ∀ t, (s.procs t).pc.held ≠ none → (s.procs !t).pc.held = none
  slot : ∀ t i, (s.procs t).pc.held = some i →
    (s.kernel.slots ct)[i]? = some INVALID_KOBJ_ID
  pending : ∀ t p, (s.procs t).pc.pending = some p → p ∈ created ∧ p ∉ s.kernel.slots ct
  stored : ∀ p ∈ created, (s.kernel.slots ct).count p = 1 ∨ ∃ t, (s.procs t).pc.pending = some p

/-! ## Making and storing an object -/

section Objects

variable {pool : List Nat} {sz : Sizes} {ct fuel page : Nat} {k k' : Kernel Buckle}
  {cts : List Nat} {objs : List (Nat × KObjectKind)} {tree : Nat → Tree Nat}
  {lb : Labeled Buckle} {bytes : Nat → PageNode} {call : Call} {stage : Stage}

/-- The pages in hand become the object's. -/
theorem owned_createObject (hpool : pool.Nodup) (hsz : sz.Ok)
    (h : k.Owned pool cts objs (pageList (page, call.kind stage)) tree)
    (hfits : ∀ label closure lbPage, call = .spawnRaw label closure → stage = .object lbPage →
      ClosureFits sz.thread page closure)
    (hrun : createObject fuel lb sz bytes ct k page call stage = ok k') :
    ∃ cts' tree', k'.Owned pool cts' ((page, call.kind stage) :: objs) [] tree' ∧
      ∀ c ∈ cts, c ∈ cts' := by
  rw [← List.append_nil (pageList _)] at h
  cases stage with
  | label =>
    cases call with
    | create label => exact ⟨cts, tree, h.createLabel hpool hrun, fun c hc => hc⟩
    | spawnRaw label closure =>
      simp only [createObject, bind_eq_ok, ok.injEq] at hrun
      obtain ⟨k₁, hlabel, rfl⟩ := hrun
      exact ⟨cts, tree, (h.createLabel hpool hlabel).setMeta page fun _ => rfl, fun c hc => hc⟩
  | object lbPage =>
    cases call with
    | create label =>
      cases hrun
      exact ⟨page :: cts, _, Kernel.Owned.createContainer hpool h,
        fun c hc => List.mem_cons_of_mem _ hc⟩
    | spawnRaw label closure =>
      simp only [createObject, bind_eq_ok, ok.injEq] at hrun
      obtain ⟨k₁, hthread, rfl⟩ := hrun
      exact ⟨cts, tree, (h.createThread hpool hsz (hfits label closure lbPage rfl rfl)
        hthread).setMeta page fun _ => rfl, fun c hc => hc⟩

/-- Only the slots of a new container change, to none. -/
theorem createObject_slots {c : Nat} (hc : page ≠ c)
    (hrun : createObject fuel lb sz bytes ct k page call stage = ok k') :
    k'.slots c = k.slots c := by
  cases stage with
  | label =>
    cases call with
    | create label => rw [Kernel.createLabel_slots hrun]
    | spawnRaw label closure =>
      simp only [createObject, bind_eq_ok, ok.injEq] at hrun
      obtain ⟨k₁, hlabel, rfl⟩ := hrun
      exact congrFun (Kernel.createLabel_slots hlabel) c
  | object lbPage =>
    cases call with
    | create label =>
      cases hrun
      simp [Kernel.createContainer, Kernel.setMeta, Kernel.dirty, hc.symm]
    | spawnRaw label closure =>
      simp only [createObject, bind_eq_ok, ok.injEq] at hrun
      obtain ⟨k₁, hthread, rfl⟩ := hrun
      exact congrFun (Kernel.createThread_slots hthread) c

theorem slotsOk_createObject (h : k.SlotsOk objs)
    (hrun : createObject fuel lb sz bytes ct k page call stage = ok k') :
    k'.SlotsOk ((page, call.kind stage) :: objs) := by
  cases stage with
  | label =>
    refine (h.congr ?_).cons _
    cases call with
    | create label => exact Kernel.createLabel_slots hrun
    | spawnRaw label closure =>
      simp only [createObject, bind_eq_ok, ok.injEq] at hrun
      obtain ⟨k₁, hlabel, rfl⟩ := hrun
      exact (Kernel.createLabel_slots hlabel :)
  | object lbPage =>
    cases call with
    | create label =>
      cases hrun
      exact h.createContainer page
    | spawnRaw label closure =>
      simp only [createObject, bind_eq_ok, ok.injEq] at hrun
      obtain ⟨k₁, hthread, rfl⟩ := hrun
      exact (h.congr (Kernel.createThread_slots hthread)).cons _

/-- `set_slot`, and metadata that has nothing to do with slots or pages. -/
theorem storeObject_eq {slotId : Nat} (hrun : storeObject ct k slotId page call stage = ok k') :
    ∃ k₁, k.setSlot ct slotId page = ok k₁ ∧ k'.slots = k₁.slots ∧
      (k₁.Owned pool cts objs [] tree → k'.Owned pool cts objs [] tree) := by
  cases stage with
  | label => cases call <;> exact ⟨k', hrun, rfl, fun h => h⟩
  | object lbPage =>
    cases call with
    | create label =>
      simp only [storeObject, bind_eq_ok, ok.injEq] at hrun
      obtain ⟨k₁, hset, rfl⟩ := hrun
      exact ⟨k₁, hset, rfl, fun h => h.setMeta page fun _ => rfl⟩
    | spawnRaw label closure => exact ⟨k', hrun, rfl, fun h => h⟩

end Objects

/-! ## Steps -/

section Steps

variable {pool : List Nat} {sz : Sizes} {ct fuel : Nat} {s s' : Preempt Buckle}
  {created cts : List Nat} {objs : List (Nat × KObjectKind)} {tree : Nat → Tree Nat} {t : Bool}
  {lb : Labeled Buckle} {bytes : Nat → PageNode}

theorem inHand_of_held {pc : Pc} (h : pc.held = none) : pc.inHand = [] := by
  cases pc <;> first | rfl | cases h

theorem pending_of_held {pc : Pc} (h : pc.held = none) : pc.pending = none := by
  cases pc <;> first | rfl | cases h

/-- The thread that is not `t`. -/
theorem eq_or_eq_not (t t' : Bool) : t' = t ∨ t' = !t := by
  cases t <;> cases t' <;> simp

@[simp] theorem move_procs_self (s : Preempt Buckle) (t : Bool) (k : Kernel Buckle) (pc : Pc) :
    (s.move t k pc).procs t = { s.procs t with pc := pc } := by
  simp [move]

@[simp] theorem move_procs_not (s : Preempt Buckle) (t : Bool) (k : Kernel Buckle) (pc : Pc) :
    (s.move t k pc).procs (!t) = s.procs (!t) := by
  simp [move]

/-- An object made so far has a page of the pool, so it is not the invalid entry. -/
theorem Inv.ne_invalid (hinvalid : INVALID_KOBJ_ID ∉ pool)
    (h : Inv pool ct s created cts objs tree) {p : Nat} (hp : p ∈ created) :
    p ≠ INVALID_KOBJ_ID := by
  obtain ⟨kind, hkind⟩ := h.objects p hp
  rintro rfl
  refine hinvalid (h.owned.parts.subset ?_)
  refine List.mem_append_right _ (List.mem_append_left _ ?_)
  exact List.mem_flatMap.mpr ⟨_, hkind, mem_pageList_self _ kind⟩

/-- While the other thread holds no slot, what is in hand is what `t` has in hand. -/
theorem Inv.owned_self (h : Inv pool ct s created cts objs tree)
    (hother : (s.procs !t).pc.held = none) :
    s.kernel.Owned pool cts objs (s.procs t).pc.inHand tree := by
  have howned := h.owned
  have hnil := inHand_of_held hother
  cases t with
  | false => rwa [show (s.procs true).pc.inHand = [] from hnil, List.append_nil] at howned
  | true => rwa [show (s.procs false).pc.inHand = [] from hnil, List.nil_append] at howned

/-- While `t` holds a slot, the other thread holds none. -/
theorem Inv.alone (h : Inv pool ct s created cts objs tree) {i : Nat}
    (hheld : (s.procs t).pc.held = some i) : (s.procs !t).pc.held = none := by
  refine h.one t ?_
  rw [hheld]
  exact Option.some_ne_none i

/-- The other thread waits for nothing, so an object made so far is in a slot or in the hands of
`t`. -/
theorem Inv.count_eq_one (h : Inv pool ct s created cts objs tree)
    (hother : (s.procs !t).pc.held = none) {p : Nat} (hp : p ∈ created)
    (hself : (s.procs t).pc.pending ≠ some p) : (s.kernel.slots ct).count p = 1 := by
  refine (h.stored p hp).resolve_right ?_
  rintro ⟨t', ht'⟩
  rcases eq_or_eq_not t t' with rfl | rfl
  · exact hself ht'
  · rw [pending_of_held hother] at ht'
    cases ht'

/-- A step of `t` while the other thread holds no slot. -/
theorem Inv.move {k : Kernel Buckle} {pc : Pc} {created' cts' : List Nat}
    {objs' : List (Nat × KObjectKind)} {tree' : Nat → Tree Nat}
    (hother : (s.procs !t).pc.held = none) (howned : k.Owned pool cts' objs' pc.inHand tree')
    (hct : ct ∈ cts') (hslots : k.SlotsOk objs')
    (hobjects : ∀ p ∈ created', ∃ kind, (p, kind) ∈ objs') (hnodup : created'.Nodup)
    (hslot : ∀ i, pc.held = some i → (k.slots ct)[i]? = some INVALID_KOBJ_ID)
    (hpending : ∀ p, pc.pending = some p → p ∈ created' ∧ p ∉ k.slots ct)
    (hstored : ∀ p ∈ created', (k.slots ct).count p = 1 ∨ pc.pending = some p) :
    Inv pool ct (s.move t k pc) created' cts' objs' tree' where
  owned := by
    have hnil := inHand_of_held hother
    cases t with
    | false => simpa [Preempt.move, show (s.procs true).pc.inHand = [] from hnil] using howned
    | true => simpa [Preempt.move, show (s.procs false).pc.inHand = [] from hnil] using howned
  ct_mem := hct
  slotsOk := hslots
  objects := hobjects
  nodup := hnodup
  one t' ht' := by
    rcases eq_or_eq_not t t' with rfl | rfl
    · rwa [move_procs_not]
    · rw [move_procs_not] at ht'
      exact absurd hother ht'
  slot t' i ht' := by
    rcases eq_or_eq_not t t' with rfl | rfl
    · rw [move_procs_self] at ht'
      exact hslot i ht'
    · rw [move_procs_not, hother] at ht'
      cases ht'
  pending t' p ht' := by
    rcases eq_or_eq_not t t' with rfl | rfl
    · rw [move_procs_self] at ht'
      exact hpending p ht'
    · rw [move_procs_not, pending_of_held hother] at ht'
      cases ht'
  stored p hp := (hstored p hp).imp_right fun hpc => ⟨t, by rwa [move_procs_self]⟩

/-- The label check. -/
theorem Inv.check {call : Call} {calls : List Call} (h : Inv pool ct s created cts objs tree)
    (hpc : (s.procs t).pc = .idle) {th : Nat} :
    Inv pool ct ⟨{ s.kernel with current := some th }, Function.update s.procs t
      { s.procs t with calls := calls, pc := .getSlot call .label }⟩ created cts objs tree := by
  have hpcs : ∀ t', (Function.update s.procs t
      { s.procs t with calls := calls, pc := .getSlot call .label } t').pc.held =
        (s.procs t').pc.held ∧
      (Function.update s.procs t
      { s.procs t with calls := calls, pc := .getSlot call .label } t').pc.inHand =
        (s.procs t').pc.inHand ∧
      (Function.update s.procs t
      { s.procs t with calls := calls, pc := .getSlot call .label } t').pc.pending =
        (s.procs t').pc.pending := by
    intro t'
    by_cases ht : t' = t
    · subst ht
      rw [Function.update_self, hpc]
      exact ⟨rfl, rfl, rfl⟩
    · rw [Function.update_of_ne ht]
      exact ⟨rfl, rfl, rfl⟩
  refine ⟨?_, h.ct_mem, h.slotsOk.congr rfl, h.objects, h.nodup, fun t' => ?_, fun t' i => ?_,
    fun t' p => ?_, fun p hp => ?_⟩
  · rw [(hpcs false).2.1, (hpcs true).2.1]
    exact h.owned.congr rfl rfl
  · rw [(hpcs t').1, (hpcs !t').1]
    exact h.one t'
  · rw [(hpcs t').1]
    exact h.slot t' i
  · rw [(hpcs t').2.2]
    exact h.pending t' p
  · exact (h.stored p hp).imp_right fun ⟨t', ht'⟩ => ⟨t', by rwa [(hpcs t').2.2]⟩

/-- `get_slot`: the entry it answers is invalid, and no object moves. -/
theorem Inv.getSlot {call : Call} {stage : Stage} (hinvalid : INVALID_KOBJ_ID ∉ pool)
    (h : Inv pool ct s created cts objs tree) (hother : (s.procs !t).pc.held = none)
    (hpc : (s.procs t).pc = .getSlot call stage) :
    Inv pool ct (s.move t (s.kernel.getSlot ct).1
      (.getMultiple call stage (s.kernel.getSlot ct).2)) created cts objs tree := by
  have howned := h.owned_self hother
  rw [hpc] at howned
  obtain ⟨hentry, hslots⟩ := Kernel.getSlot_slots s.kernel ct
  refine Inv.move hother (howned.getSlot ct) h.ct_mem (h.slotsOk.getSlot ct) h.objects h.nodup
    (fun i hi => ?_) (fun p hp => ?_) (fun p hp => .inl ?_)
  · cases hi
    exact hentry
  · cases hp
  · have hcount : (s.kernel.slots ct).count p = 1 := by
      refine h.count_eq_one hother hp ?_
      rw [hpc]
      rintro ⟨⟩
    rcases hslots with hs | hs
    · rw [hs, hcount]
    · rw [hs, Function.update_self, List.count_append, hcount,
        List.count_singleton, if_neg (by simpa using (h.ne_invalid hinvalid hp).symm)]

/-- `get_multiple`: the pages are in hand. -/
theorem Inv.getMultiple {call : Call} {stage : Stage} {slotId page : Nat} {k' : Kernel Buckle}
    (hpool : pool.Nodup) (h : Inv pool ct s created cts objs tree)
    (hpc : (s.procs t).pc = .getMultiple call stage slotId)
    (hrun : s.kernel.takePages fuel ct (reservedPages (call.kind stage)) = ok (k', page)) :
    ∃ tree', Inv pool ct (s.move t k' (.create call stage slotId page)) created cts objs
      tree' := by
  have hother := h.alone (i := slotId) (by rw [hpc]; rfl)
  have howned := h.owned_self hother
  rw [hpc] at howned
  have hs := Kernel.takePages_slots hrun
  obtain ⟨-, howned'⟩ := howned.takePages hpool h.ct_mem hrun
  rw [show (Pc.getMultiple call stage slotId).inHand = [] from rfl, List.append_nil] at howned'
  refine ⟨_, Inv.move hother howned' h.ct_mem (h.slotsOk.congr hs) h.objects h.nodup
    (fun i hi => ?_) (fun p hp => ?_) (fun p hp => .inl ?_)⟩
  · rw [hs]
    exact h.slot t i (by rwa [hpc])
  · cases hp
  · rw [hs]
    refine h.count_eq_one hother hp ?_
    rw [hpc]
    rintro ⟨⟩

/-- `create`: the pages in hand are an object, which is new and in no slot. -/
theorem Inv.create {call : Call} {stage : Stage} {slotId page : Nat} {k' : Kernel Buckle}
    (hpool : pool.Nodup) (hinvalid : INVALID_KOBJ_ID ∉ pool) (hsz : sz.Ok)
    (h : Inv pool ct s created cts objs tree)
    (hpc : (s.procs t).pc = .create call stage slotId page) (hfits : s.Fits sz t)
    (hrun : createObject fuel lb sz bytes ct s.kernel page call stage = ok k') :
    ∃ cts' tree', Inv pool ct (s.move t k' (.setSlot call stage slotId page))
      (created ++ [page]) cts' ((page, call.kind stage) :: objs) tree' := by
  have hother := h.alone (i := slotId) (by rw [hpc]; rfl)
  have howned := h.owned_self hother
  rw [hpc] at howned
  have hhand : page ∈ (Pc.create call stage slotId page).inHand := mem_pageList_self page _
  have hnew : ∀ kind, (page, kind) ∉ objs := howned.limbo_not_object hpool hhand
  have hne : page ≠ ct := fun he => howned.limbo_not_container hpool hhand (he ▸ h.ct_mem)
  have hfresh : page ∉ created := fun hp => by
    obtain ⟨kind, hkind⟩ := h.objects page hp
    exact hnew kind hkind
  have hslot : page ∉ s.kernel.slots ct := fun hp => by
    rcases h.slotsOk ct page hp with he | ⟨kind, hkind⟩
    · exact hinvalid (he ▸ howned.parts.subset (by simp [hhand]))
    · exact hnew kind hkind
  have hroom : ∀ label closure lbPage, call = .spawnRaw label closure → stage = .object lbPage →
      ClosureFits sz.thread page closure := by
    intro label closure lbPage hcall hstage
    subst hcall hstage
    exact hfits label closure lbPage slotId page hpc
  obtain ⟨cts', tree', howned', hcts⟩ := owned_createObject hpool hsz howned hroom hrun
  have hs := createObject_slots hne hrun
  refine ⟨cts', tree', Inv.move hother howned' (hcts ct h.ct_mem)
    (slotsOk_createObject h.slotsOk hrun) (fun p hp => ?_) ?_ (fun i hi => ?_) (fun p hp => ?_)
    (fun p hp => ?_)⟩
  · rcases List.mem_append.mp hp with hp | hp
    · obtain ⟨kind, hkind⟩ := h.objects p hp
      exact ⟨kind, List.mem_cons_of_mem _ hkind⟩
    · cases List.mem_singleton.mp hp
      exact ⟨_, List.mem_cons_self⟩
  · exact List.nodup_append.mpr ⟨h.nodup, List.nodup_singleton page, fun p hp q hq he =>
      hfresh (List.mem_singleton.mp hq ▸ he ▸ hp)⟩
  · rw [hs]
    exact h.slot t i (by rwa [hpc])
  · cases hp
    exact ⟨by simp, by rwa [hs]⟩
  · rcases List.mem_append.mp hp with hp | hp
    · rw [hs]
      refine .inl (h.count_eq_one hother hp ?_)
      rw [hpc]
      rintro ⟨⟩
    · cases List.mem_singleton.mp hp
      exact .inr rfl

/-- `set_slot`: the object goes into the slot its thread holds, which is still invalid. -/
theorem Inv.setSlot {call : Call} {stage : Stage} {slotId page : Nat} {k' : Kernel Buckle} {pc : Pc}
    (hinvalid : INVALID_KOBJ_ID ∉ pool) (h : Inv pool ct s created cts objs tree)
    (hpc : (s.procs t).pc = .setSlot call stage slotId page)
    (hrun : storeObject ct s.kernel slotId page call stage = ok k') (hheld : pc.held = none) :
    Inv pool ct (s.move t k' pc) created cts objs tree := by
  have hother := h.alone (i := slotId) (by rw [hpc]; rfl)
  have howned := h.owned_self hother
  rw [hpc] at howned
  obtain ⟨hpage, hnot⟩ := h.pending t page (by rw [hpc]; rfl)
  obtain ⟨kind, hkind⟩ := h.objects page hpage
  have hentry := h.slot t slotId (by rw [hpc]; rfl)
  obtain ⟨k₁, hset, hk'⟩ := storeObject_eq hrun
  obtain ⟨hlt, hs⟩ := Kernel.setSlot_slots hset
  rw [List.getElem?_eq_getElem hlt, Option.some.injEq] at hentry
  have hcount : ∀ p, (k'.slots ct).count p =
      (s.kernel.slots ct).count p - (if INVALID_KOBJ_ID == p then 1 else 0) +
        (if page == p then 1 else 0) := by
    intro p
    rw [hk'.1, hs, Function.update_self, List.count_set hlt, hentry]
  refine Inv.move hother ?_ h.ct_mem ((h.slotsOk.setSlot hkind hset).congr hk'.1) h.objects h.nodup
    (fun i hi => ?_) (fun p hp => ?_) (fun p hp => .inl ?_)
  · rw [inHand_of_held hheld]
    exact hk'.2 (howned.setSlot hset)
  · rw [hheld] at hi
    cases hi
  · rw [pending_of_held hheld] at hp
    cases hp
  · have hp' : (INVALID_KOBJ_ID == p) = false := by
      simpa using (h.ne_invalid hinvalid hp).symm
    by_cases hpp : page = p
    · subst hpp
      simp [hcount, hp', List.count_eq_zero.mpr hnot]
    · have hone : (s.kernel.slots ct).count p = 1 := by
        refine h.count_eq_one hother hp ?_
        rw [hpc]
        rintro ⟨⟩
        exact hpp rfl
      simp [hcount, hp', hone, hpp]

/-! ## Runs -/

/-- **A calm step keeps the invariant.** -/
theorem step_inv (hpool : pool.Nodup) (hinvalid : INVALID_KOBJ_ID ∉ pool) (hsz : sz.Ok)
    (h : Inv pool ct s created cts objs tree) (hallowed : s.Allowed sz t)
    (hrun : Preempt.step fuel lb sz bytes ct s t = ok s') :
    ∃ cts' objs' tree', Inv pool ct s' (created ++ s.made t) cts' objs' tree' := by
  unfold Preempt.step at hrun
  cases hpc : (s.procs t).pc with
  | idle =>
    simp only [made, hpc, List.append_nil] at hrun ⊢
    cases hcalls : (s.procs t).calls with
    | nil =>
      simp only [hcalls] at hrun
      cases hrun
      exact ⟨cts, objs, tree, h⟩
    | cons call calls =>
      simp only [hcalls, bind_eq_ok, ok.injEq] at hrun
      obtain ⟨u, -, rfl⟩ := hrun
      exact ⟨cts, objs, tree, h.check hpc⟩
  | getSlot call stage =>
    simp only [made, hpc, List.append_nil, ok.injEq] at hrun ⊢
    subst hrun
    exact ⟨cts, objs, tree, h.getSlot hinvalid (hallowed.calm call stage hpc) hpc⟩
  | getMultiple call stage slotId =>
    simp only [made, hpc, List.append_nil, bind_eq_ok, ok.injEq] at hrun ⊢
    obtain ⟨⟨k', page⟩, htake, rfl⟩ := hrun
    obtain ⟨tree', h'⟩ := h.getMultiple hpool hpc htake
    exact ⟨cts, objs, tree', h'⟩
  | create call stage slotId page =>
    simp only [made, hpc, bind_eq_ok, ok.injEq] at hrun ⊢
    obtain ⟨k', hcreate, rfl⟩ := hrun
    obtain ⟨cts', tree', h'⟩ := h.create hpool hinvalid hsz hpc hallowed.fits hcreate
    exact ⟨cts', _, tree', h'⟩
  | setSlot call stage slotId page =>
    simp only [made, hpc, List.append_nil, bind_eq_ok] at hrun ⊢
    obtain ⟨k', hstore, hnext⟩ := hrun
    cases stage with
    | label =>
      cases hnext
      exact ⟨cts, objs, tree, h.setSlot hinvalid hpc hstore rfl⟩
    | object lbPage =>
      cases hnext
      exact ⟨cts, objs, tree, h.setSlot hinvalid hpc hstore rfl⟩

theorem Interleaves.inv {s₀ : Preempt Buckle} (hpool : pool.Nodup)
    (hinvalid : INVALID_KOBJ_ID ∉ pool) (hsz : sz.Ok) (h₀ : Inv pool ct s₀ [] cts objs tree)
    (h : Interleaves lb sz ct (Allowed sz) s₀ s created) :
    ∃ cts' objs' tree', Inv pool ct s created cts' objs' tree' := by
  induction h with
  | start => exact ⟨cts, objs, tree, h₀⟩
  | step _ hallowed hrun ih =>
    obtain ⟨cts', objs', tree', h'⟩ := ih
    exact step_inv hpool hinvalid hsz h' hallowed hrun

end Steps

/-- The threads have not begun. -/
theorem inv_start {lb : Labeled Buckle} {sz : Sizes} {memStart ct : Nat} {k : Kernel Buckle}
    {cts : List Nat} {objs : List (Nat × KObjectKind)} {procs : Bool → Proc} (hsz : sz.Ok)
    (hstart : 0 < memStart) (h : k.Reaches lb sz memStart (Kernel.FitsAtLanding sz.thread) cts objs)
    (hct : ct ∈ cts) (hidle : ∀ t, (procs t).pc = .idle) :
    ∃ tree, Inv (Kernel.bootPool memStart) ct ⟨k, procs⟩ [] cts objs tree := by
  obtain ⟨tree, howned⟩ := h.owned hsz hstart
  refine ⟨tree, ?_, hct, h.slotsOk, by simp, List.nodup_nil, fun t => ?_, fun t i => ?_,
    fun t p => ?_, by simp⟩
  · simpa only [hidle, Pc.inHand, List.append_nil] using howned
  · simp [hidle, Pc.held]
  · simp [hidle, Pc.held]
  · simp [hidle, Pc.pending]

/-- **In every run of calm steps, with closures that fit, what the two threads make ends up in slots,
each object in one of its own.** -/
theorem slots_kept {lb : Labeled Buckle} {sz : Sizes} {memStart ct : Nat} {k : Kernel Buckle}
    {cts created : List Nat} {objs : List (Nat × KObjectKind)} {procs : Bool → Proc}
    {s : Preempt Buckle} (hsz : sz.Ok) (hstart : 0 < memStart) (hbound : memStart < 2 ^ 64)
    (h : Kernel.Reaches lb sz memStart (Kernel.FitsAtLanding sz.thread) k cts objs) (hct : ct ∈ cts)
    (hidle : ∀ t, (procs t).pc = .idle)
    (hrun : Interleaves lb sz ct (Allowed sz) ⟨k, procs⟩ s created) (hfinished : s.Finished) :
    created.Nodup ∧ ∀ p ∈ created, (s.kernel.slots ct).count p = 1 := by
  obtain ⟨tree, h₀⟩ := inv_start hsz hstart h hct hidle
  obtain ⟨cts', objs', tree', hinv⟩ := hrun.inv (Kernel.nodup_bootPool memStart)
    (Kernel.invalid_notMem_bootPool hbound) hsz h₀
  refine ⟨hinv.nodup, fun p hp => (hinv.stored p hp).resolve_right ?_⟩
  rintro ⟨t, ht⟩
  rw [(hfinished t).1] at ht
  cases ht

/-! ## Runs that can be followed

For the runs below: what one step of a run needs, and what it leaves, in the words of
`Proof/Kobject/Returns`. -/

section Follow

open Kernel (Seen Stocked View)

variable {lb : Labeled Buckle} {sz : Sizes} {ct fuel : Nat}
  {cond : Preempt Buckle → Bool → Prop} {s₀ s : Preempt Buckle} {created hand : List Nat}
  {v v' : View} {rest rest' : List (Nat × Nat)} {t : Bool} {th page i : Nat} {calls : List Call}
  {call : Call} {stage : Stage} {p q : Proc}

/-- A run stands here: it has made `created`, its kernel looks like `v` and has the pages for `rest`
apart from those in `hand`, thread `t` is at `p` and the other one at `q`. -/
def Stands (lb : Labeled Buckle) (sz : Sizes) (ct fuel : Nat)
    (cond : Preempt Buckle → Bool → Prop) (s₀ : Preempt Buckle) (created : List Nat) (v : View)
    (hand : List Nat) (rest : List (Nat × Nat)) (t : Bool) (p q : Proc) : Prop :=
  ∃ s, Interleaves lb sz ct cond s₀ s created ∧ Seen ct s.kernel v ∧
    Stocked fuel ct s.kernel hand rest ∧ s.procs t = p ∧ s.procs (!t) = q

/-- The other thread runs next. -/
theorem Stands.turn (h : Stands lb sz ct fuel cond s₀ created v hand rest t p q) :
    Stands lb sz ct fuel cond s₀ created v hand rest (!t) q p := by
  obtain ⟨s, hrun, hseen, hst, hp, hq⟩ := h
  exact ⟨s, hrun, hseen, hst, hq, by rwa [Bool.not_not]⟩

/-- One step further. -/
theorem Interleaves.stands {bytes : Nat → PageNode} {k' : Kernel Buckle} {pc : Pc}
    {hand' : List Nat} (hrun : Interleaves lb sz ct cond s₀ s created) (hc : cond s t)
    (hstep : Preempt.step fuel lb sz bytes ct s t = ok (s.move t k' pc))
    (hseen : Seen ct k' v') (hst : Stocked fuel ct k' hand' rest') :
    Stands lb sz ct fuel cond s₀ (created ++ s.made t) v' hand' rest' t
      { s.procs t with pc := pc } (s.procs !t) :=
  ⟨_, .step hrun hc hstep, hseen, hst, move_procs_self .., move_procs_not ..⟩

/-- Only `get_slot` can be out of turn, and only closures have to fit. -/
theorem allowed_of_ne (hslot : ∀ call stage, (s.procs t).pc ≠ .getSlot call stage)
    (hspawn : ∀ label closure stage i page,
      (s.procs t).pc ≠ .create (.spawnRaw label closure) stage i page) : s.Allowed sz t where
  calm call stage hpc := absurd hpc (hslot call stage)
  fits label closure _ slotId page hpc := absurd hpc (hspawn label closure _ slotId page)

/-- `get_slot` is in turn while the other thread holds none. -/
theorem allowed_getSlot (hp : s.procs t = ⟨th, calls, .getSlot call stage⟩)
    (hother : (s.procs !t).pc.held = none) : s.Allowed sz t where
  calm _ _ _ := hother
  fits label closure lbPage slotId page hpc := by
    rw [hp] at hpc
    cases hpc

/-- A call of `create` begins. -/
theorem Stands.check (bytes : Nat → PageNode) {label : String} (mine theirs : Nat)
    (h : Stands lb sz ct fuel cond s₀ created v hand rest t ⟨th, .create label :: calls, .idle⟩ q)
    (hcond : ∀ s t, Allowed sz s t → cond s t) (hflow : ∀ b b', lb.canFlowTo b b' = true)
    (hmine : (th, mine) ∈ v.labels ∧ mine ∈ v.parsed)
    (htheirs : (ct, theirs) ∈ v.labels ∧ theirs ∈ v.parsed) :
    Stands lb sz ct fuel cond s₀ created { v with current := some th } hand rest t
      ⟨th, calls, .getSlot (.create label) .label⟩ q := by
  obtain ⟨s, hrun, hseen, hst, hp, hq⟩ := h
  have hseen' := hseen.setCurrent (some th)
  have hcheck : Preempt.check lb ct { s.kernel with current := some th } (.create label) =
      ok () := by
    have hcur : ({ s.kernel with current := some th } : Kernel Buckle).currentLabel = some mine :=
      hseen.labels _ hmine.1
    rw [Preempt.check, hcur, unwrap_some, ok_bind]
    exact Kernel.checkLabel_returns hseen' hflow hmine.2 htheirs.1 htheirs.2 _
  have hstep : Preempt.step fuel lb sz bytes ct s t =
      ok ⟨{ s.kernel with current := some th }, Function.update s.procs t
        ⟨th, calls, .getSlot (.create label) .label⟩⟩ := by
    simp only [Preempt.step, hp, hcheck, ok_bind]
  have hrun' := Interleaves.step hrun (hcond s t (allowed_of_ne (by simp [hp]) (by simp [hp]))) hstep
  rw [made, hp, List.append_nil] at hrun'
  exact ⟨_, hrun', hseen', hst.congr rfl fun _ _ => rfl, by simp, by simp [hq]⟩

/-- `get_slot` adds an entry. -/
theorem Stands.getSlot_append (bytes : Nat → PageNode)
    (h : Stands lb sz ct fuel cond s₀ created v hand rest t ⟨th, calls, .getSlot call stage⟩ q)
    (hcond : ∀ s : Preempt Buckle, s.procs t = ⟨th, calls, .getSlot call stage⟩ →
      s.procs (!t) = q → cond s t)
    (hfull : INVALID_KOBJ_ID ∉ v.slots) :
    Stands lb sz ct fuel cond s₀ created { v with slots := v.slots ++ [INVALID_KOBJ_ID] } hand rest
      t ⟨th, calls, .getMultiple call stage v.slots.length⟩ q := by
  obtain ⟨s, hrun, hseen, hst, hp, hq⟩ := h
  obtain ⟨k', hget, hseen', hm, hi⟩ := hseen.getSlot_append hfull
  have hstep : Preempt.step fuel lb sz bytes ct s t =
      ok (s.move t k' (.getMultiple call stage v.slots.length)) := by
    simp only [Preempt.step, hp, hget]
  have h' := hrun.stands (hcond s hp hq) hstep hseen' (hst.congr (by rw [hi]) fun _ _ => by rw [hm])
  rwa [made, hp, hq, List.append_nil] at h'

/-- `get_slot` finds an invalid entry. -/
theorem Stands.getSlot_first (bytes : Nat → PageNode)
    (h : Stands lb sz ct fuel cond s₀ created v hand rest t ⟨th, calls, .getSlot call stage⟩ q)
    (hcond : ∀ s : Preempt Buckle, s.procs t = ⟨th, calls, .getSlot call stage⟩ →
      s.procs (!t) = q → cond s t)
    (hi : v.slots.findIdx? (· == INVALID_KOBJ_ID) = some i) :
    Stands lb sz ct fuel cond s₀ created v hand rest t
      ⟨th, calls, .getMultiple call stage i⟩ q := by
  obtain ⟨s, hrun, hseen, hst, hp, hq⟩ := h
  have hstep : Preempt.step fuel lb sz bytes ct s t =
      ok (s.move t s.kernel (.getMultiple call stage i)) := by
    simp only [Preempt.step, hp, hseen.getSlot_first hi]
  have h' := hrun.stands (hcond s hp hq) hstep hseen hst
  rwa [made, hp, hq, List.append_nil] at h'

theorem Stands.getMultiple (bytes : Nat → PageNode)
    (h : Stands lb sz ct fuel cond s₀ created v hand
      ((reservedPages (call.kind stage), page) :: rest) t
      ⟨th, calls, .getMultiple call stage i⟩ q)
    (hcond : ∀ s t, Allowed sz s t → cond s t) :
    Stands lb sz ct fuel cond s₀ created v (pageList (page, call.kind stage)) rest t
      ⟨th, calls, .create call stage i page⟩ q := by
  obtain ⟨s, hrun, hseen, hst, hp, hq⟩ := h
  obtain ⟨tr, htake, hst'⟩ := hst.takePages
  have hstep : Preempt.step fuel lb sz bytes ct s t =
      ok (s.move t (s.kernel.setFreePages ct tr) (.create call stage i page)) := by
    simp only [Preempt.step, hp, htake, ok_bind]
  have h' := hrun.stands (hcond s t (allowed_of_ne (by simp [hp]) (by simp [hp]))) hstep (hseen.setFreePages tr) hst'
  rwa [made, hp, hq, List.append_nil] at h'

/-- The label or the container of a `create`. -/
theorem Stands.create (bytes : Nat → PageNode) {label : String} {b : Buckle}
    (h : Stands lb sz ct fuel cond s₀ created v
      (pageList (page, (Call.create label).kind stage)) rest t
      ⟨th, calls, .create (.create label) stage i page⟩ q)
    (hcond : ∀ s t, Allowed sz s t → cond s t) (hb : lb.parse label = some b)
    (hnew : page ∉ v.labels.map Prod.fst) :
    Stands lb sz ct fuel cond s₀ (created ++ [page]) v
      (pageList (page, (Call.create label).kind stage)) rest t
      ⟨th, calls, .setSlot (.create label) stage i page⟩ q := by
  obtain ⟨s, hrun, hseen, hst, hp, hq⟩ := h
  obtain ⟨k', hcreate, hseen', hst'⟩ : ∃ k',
      createObject fuel lb sz bytes ct s.kernel page (.create label) stage = ok k' ∧
      Seen ct k' v ∧
      Stocked fuel ct k' (pageList (page, (Call.create label).kind stage)) rest := by
    cases stage with
    | label =>
      obtain ⟨k', hlabel, hseen', hst'⟩ := Kernel.createLabel_returns sz bytes hseen hst hnew hb
      exact ⟨k', hlabel, ⟨hseen'.self, hseen'.slots, hseen'.labels,
        fun l hl => hseen'.parsed l (List.mem_cons_of_mem _ hl), hseen'.current⟩, hst'⟩
    | object lbPage => exact ⟨_, rfl, Kernel.createContainer_returns sz bytes hseen hst hnew⟩
  have hstep : Preempt.step fuel lb sz bytes ct s t =
      ok (s.move t k' (.setSlot (.create label) stage i page)) := by
    simp only [Preempt.step, hp, hcreate, ok_bind]
  have h' := hrun.stands (hcond s t (allowed_of_ne (by simp [hp]) (by simp [hp]))) hstep hseen' hst'
  rwa [made, hp, hq] at h'

theorem Stands.setSlot (bytes : Nat → PageNode) {label : String}
    (h : Stands lb sz ct fuel cond s₀ created v hand rest t
      ⟨th, calls, .setSlot (.create label) stage i page⟩ q)
    (hcond : ∀ s t, Allowed sz s t → cond s t) (hnew : page ∉ v.labels.map Prod.fst)
    (hi : i < v.slots.length) :
    Stands lb sz ct fuel cond s₀ created { v with slots := v.slots.set i page } hand rest t
      ⟨th, calls, stage.next (.create label) page⟩ q := by
  obtain ⟨s, hrun, hseen, hst, hp, hq⟩ := h
  obtain ⟨k₁, hset, hseen₁, hm, hi⟩ := hseen.setSlot hi page
  have hst₁ : Stocked fuel ct k₁ hand rest := hst.congr (by rw [hi]) fun _ _ => by rw [hm]
  obtain ⟨k', hstep, hseen', hst'⟩ : ∃ k', Preempt.step fuel lb sz bytes ct s t =
      ok (s.move t k' (stage.next (.create label) page)) ∧
      Seen ct k' { v with slots := v.slots.set i page } ∧ Stocked fuel ct k' hand rest := by
    cases stage with
    | label =>
      refine ⟨k₁, ?_, hseen₁, hst₁⟩
      simp only [Preempt.step, hp, storeObject, hset, ok_bind, Stage.next]
    | object lbPage =>
      refine ⟨k₁.setMeta page fun m => { m with label := some lbPage }, ?_,
        hseen₁.setMeta hnew _, hst₁.setMeta (hseen.ne_self hnew) _⟩
      simp only [Preempt.step, hp, storeObject, hset, ok_bind, Stage.next]
  have h' := hrun.stands (hcond s t (allowed_of_ne (by simp [hp]) (by simp [hp]))) hstep hseen' hst'
  rwa [made, hp, hq, List.append_nil] at h'

/-- `get_multiple`, `create` and `set_slot`, in a call of `create`. -/
theorem Stands.store (bytes : Nat → PageNode) {label : String} {b : Buckle}
    (h : Stands lb sz ct fuel cond s₀ created v hand ((KOBJ_NPAGES, page) :: rest) t
      ⟨th, calls, .getMultiple (.create label) stage i⟩ q)
    (hcond : ∀ s t, Allowed sz s t → cond s t) (hb : lb.parse label = some b)
    (hnew : page ∉ v.labels.map Prod.fst) (hi : i < v.slots.length) :
    ∃ hand', Stands lb sz ct fuel cond s₀ (created ++ [page])
      { v with slots := v.slots.set i page } hand' rest t
      ⟨th, calls, stage.next (.create label) page⟩ q := by
  have hkind : reservedPages ((Call.create label).kind stage) = KOBJ_NPAGES := by
    cases stage <;> rfl
  rw [← hkind] at h
  exact ⟨_, (((h.getMultiple bytes hcond).create bytes hcond hb hnew).setSlot bytes hcond hnew hi)⟩

end Follow

/-! ## A lost label

The main thread 7 and thread 25 each make a container in container 3. Both ask for the slot of their
label before either has set it. -/

open Kernel (anyLabel zeroed main_4096 stages_bootTree)

/-- The two threads, with one call each. -/
def twoCreators : Bool → Proc
  | false => ⟨7, [.create "T,F"], .idle⟩
  | true => ⟨25, [.create "T,F"], .idle⟩

/-- The kernel with two threads. -/
theorem threads_4096 : ∃ k hand,
    Kernel.Reaches anyLabel sizes64 4096 (Kernel.FitsAtLanding sizes64.thread) k [3]
      [(25, .thread), (23, .label), (7, .thread), (5, .label), (3, .container), (1, .label)] ∧
    Kernel.Seen 3 k ⟨[5, 7, 23, 25], [(25, 23), (7, 5), (3, 1)], [23, 5, 1], some 7⟩ ∧
    Kernel.Stocked 600 3 k hand [(2, 41), (2, 43), (2, 45), (2, 47)] := by
  obtain ⟨k₂, hand₂, hreach, hseen₂, hst₂⟩ := main_4096 (Kernel.FitsAtLanding sizes64.thread)
    stages_bootTree
  obtain ⟨top, htop, hle⟩ : ∃ top,
      Kernel.threadTop 600 25 sizes64.thread ⟨0, 1, ⟨0, rfl⟩, by decide⟩ = ok top ∧
        top ≤ pa (25 + THREAD_NPAGES) := ⟨_, rfl, by decide⟩
  obtain ⟨k₃, hand₃, hspawn, hseen₃, -, hst₃⟩ := Kernel.spawnRaw_returns zeroed 7 5 hseen₂ hst₂
    (by decide) (by decide) (by decide) (show anyLabel.parse "T,F" = some () from rfl) rfl
    (by decide) (Kernel.checkLabel_returns hseen₂ (fun _ _ => rfl) (by decide)
      (show (3, 1) ∈ _ by decide) (by decide)) htop
  exact ⟨k₃, hand₃, .spawnRaw hreach (by simp) (fun _ _ _ => .inl rfl) hspawn
    (hseen₃.labels (25, 23) (by simp)), hseen₃, hst₃ hle⟩

/-- Both label checks. -/
theorem twoCreators_checked {cond : Preempt Unit → Bool → Prop}
    (hcond : ∀ s t, Allowed sizes64 s t → cond s t) {k : Kernel Unit} {hand : List Nat}
    (hseen : Kernel.Seen 3 k ⟨[5, 7, 23, 25], [(25, 23), (7, 5), (3, 1)], [23, 5, 1], some 7⟩)
    (hst : Kernel.Stocked 600 3 k hand [(2, 41), (2, 43), (2, 45), (2, 47)]) :
    Stands anyLabel sizes64 3 600 cond ⟨k, twoCreators⟩ []
      ⟨[5, 7, 23, 25], [(25, 23), (7, 5), (3, 1)], [23, 5, 1], some 25⟩ hand
      [(2, 41), (2, 43), (2, 45), (2, 47)] false
      ⟨7, [], .getSlot (.create "T,F") .label⟩ ⟨25, [], .getSlot (.create "T,F") .label⟩ := by
  have h₀ : Stands anyLabel sizes64 3 600 cond ⟨k, twoCreators⟩ [] _ hand _ false
    ⟨7, [.create "T,F"], .idle⟩ ⟨25, [.create "T,F"], .idle⟩ :=
    ⟨_, .start, hseen, hst, rfl, rfl⟩
  have h₁ := h₀.check zeroed 5 1 hcond (fun _ _ => rfl) (by decide) (by decide)
  exact (h₁.turn.check zeroed 23 1 hcond (fun _ _ => rfl) (by decide) (by decide)).turn

/-- **A label is lost**: 41 was made and is in no slot, after all calls have returned. -/
theorem label_lost : ∃ (k : Kernel Unit) (objs : List (Nat × KObjectKind)) (s : Preempt Unit)
    (created : List Nat),
    Kernel.Reaches anyLabel sizes64 4096 (Kernel.FitsAtLanding sizes64.thread) k [3] objs ∧
      Interleaves anyLabel sizes64 3 (fun _ _ => True) ⟨k, twoCreators⟩ s created ∧ s.Finished ∧
      41 ∈ created ∧ (s.kernel.slots 3).count 41 = 0 := by
  obtain ⟨k, hand, hreach, hseen, hst⟩ := threads_4096
  have hall : ∀ s t, Allowed sizes64 s t → (fun _ _ => True : Preempt Unit → Bool → Prop) s t :=
    fun _ _ _ => trivial
  have hb : anyLabel.parse "T,F" = some () := rfl
  have h₂ := twoCreators_checked hall hseen hst
  -- both threads are told slot 4
  have h₃ := h₂.getSlot_append zeroed (fun _ _ _ => trivial) (by decide)
  have h₄ := h₃.turn.getSlot_first (i := 4) zeroed (fun _ _ _ => trivial) (by decide)
  -- thread 7 puts 41 there, and thread 25 puts 43 over it
  obtain ⟨_, h₅⟩ := h₄.turn.store zeroed hall hb (by decide) (by decide)
  obtain ⟨_, h₆⟩ := h₅.turn.store zeroed hall hb (by decide) (by decide)
  -- the containers
  have h₇ := h₆.turn.getSlot_append zeroed (fun _ _ _ => trivial) (by decide)
  obtain ⟨_, h₈⟩ := h₇.store zeroed hall hb (by decide) (by decide)
  have h₉ := h₈.turn.getSlot_append zeroed (fun _ _ _ => trivial) (by decide)
  obtain ⟨_, s, hrun, hseen', -, htrue, hfalse⟩ := h₉.store zeroed hall hb (by decide) (by decide)
  refine ⟨k, _, s, _, hreach, hrun, fun t => ?_, by decide, ?_⟩
  · cases t with
    | false => exact hfalse ▸ ⟨rfl, rfl⟩
    | true => exact htrue ▸ ⟨rfl, rfl⟩
  · rw [hseen'.slots]
    decide

/-- The same calls, taking turns at their slots: four objects, four slots. -/
theorem slots_kept_twoCreators : ∃ (k : Kernel Unit) (s : Preempt Unit),
    Interleaves anyLabel sizes64 3 (Allowed sizes64) ⟨k, twoCreators⟩ s [41, 43, 45, 47] ∧ s.Finished ∧
      [41, 43, 45, 47].Nodup ∧ ∀ p ∈ [41, 43, 45, 47], (s.kernel.slots 3).count p = 1 := by
  obtain ⟨k, hand, hreach, hseen, hst⟩ := threads_4096
  have hcalm : ∀ (s : Preempt Unit) (t : Bool), Allowed sizes64 s t → Allowed sizes64 s t :=
    fun _ _ h => h
  have hb : anyLabel.parse "T,F" = some () := rfl
  have h₂ := twoCreators_checked hcalm hseen hst
  have h₃ := h₂.getSlot_append zeroed (fun s hp hq => allowed_getSlot hp (by rw [hq]; rfl)) (by decide)
  obtain ⟨_, h₄⟩ := h₃.store zeroed hcalm hb (by decide) (by decide)
  have h₅ := h₄.turn.getSlot_append zeroed (fun s hp hq => allowed_getSlot hp (by rw [hq]; rfl)) (by decide)
  obtain ⟨_, h₆⟩ := h₅.store zeroed hcalm hb (by decide) (by decide)
  have h₇ := h₆.turn.getSlot_append zeroed (fun s hp hq => allowed_getSlot hp (by rw [hq]; rfl)) (by decide)
  obtain ⟨_, h₈⟩ := h₇.store zeroed hcalm hb (by decide) (by decide)
  have h₉ := h₈.turn.getSlot_append zeroed (fun s hp hq => allowed_getSlot hp (by rw [hq]; rfl)) (by decide)
  obtain ⟨_, s, hrun, -, -, htrue, hfalse⟩ := h₉.store zeroed hcalm hb (by decide) (by decide)
  have hdone : s.Finished := by
    intro t
    cases t with
    | false => exact hfalse ▸ ⟨rfl, rfl⟩
    | true => exact htrue ▸ ⟨rfl, rfl⟩
  refine ⟨k, s, hrun, hdone, slots_kept sizes64_ok (by decide) (by decide) hreach (by simp)
    (fun t => ?_) hrun hdone⟩
  cases t <;> rfl

end Preempt
end Allora
