import Allora.Proof.Kobject.Events
import Mathlib.Logic.Relation

/-!
# What can be read back of a run

`Traced` is a run that remembers who made what and where. `Recorded` says what of it can still be
read in the kernel, in any later state: the pages of an object stay its own (`Owned`), so nothing
overwrites its metadata, its label or its slots.

Two results come from it. Threads and their labels have the container they were made in as parent,
and containers and *their* labels have none. And the label of a caller can flow to that of the
container, while nothing is asked of the label that the new object gets.
-/

set_option autoImplicit false

namespace Allora
namespace Kernel

open Outcome PageTree

variable {Buckle : Type} {k k' k₁ : Kernel Buckle} {cts : List Nat}
  {objs : List (Nat × KObjectKind)} {lb : Labeled Buckle} {sz : Sizes} {memStart : Nat}

/-- What `label()` of an object leads to. -/
def labelOf (k : Kernel Buckle) (o : Nat) : Option Buckle := (k.info o).label.bind k.inner

/-- A page that starts an object. -/
def Known (objs : List (Nat × KObjectKind)) (p : Nat) : Prop := ∃ kind, (p, kind) ∈ objs

/-! ## New pages -/

/-- What a creator has just made is not one of the objects there were. -/
structure Fresh (objs : List (Nat × KObjectKind)) (l o : Nat) : Prop where
  apart : l ≠ o
  label : ¬ Known objs l
  object : ¬ Known objs o
  valid : l ≠ INVALID_KOBJ_ID
  valid' : o ≠ INVALID_KOBJ_ID

/-- Every page of the pool has one owner, so a page that starts a new object starts no other. -/
theorem Owned.fresh {pool limbo : List Nat} {tree : Nat → Tree Nat} {l o : Nat}
    {kind : KObjectKind} (hpool : pool.Nodup) (hinvalid : INVALID_KOBJ_ID ∉ pool)
    (h : Owned pool k cts ((o, kind) :: (l, .label) :: objs) limbo tree) : Fresh objs l o := by
  have hmem : ∀ p ∈ ((o, kind) :: (l, .label) :: objs).flatMap pageList, p ∈ pool := fun p hp =>
    h.parts.subset (List.mem_append_right _ (List.mem_append_left _ hp))
  have hnd : (((o, kind) :: (l, .label) :: objs).flatMap pageList).Nodup :=
    (List.nodup_append.mp (List.nodup_append.mp (h.parts.nodup_iff.mpr hpool)).2.1).1
  have ho := mem_pageList_self o kind
  have hl := mem_pageList_self l .label
  rw [List.flatMap_cons, List.flatMap_cons] at hnd hmem
  obtain ⟨-, hnd', hsep⟩ := List.nodup_append.mp hnd
  obtain ⟨-, -, hsep'⟩ := List.nodup_append.mp hnd'
  refine ⟨?_, ?_, ?_, ?_, ?_⟩
  · intro heq
    exact hsep o ho l (List.mem_append_left _ hl) heq.symm
  · intro hknown
    obtain ⟨kind', hk⟩ := hknown
    exact hsep' l hl l (List.mem_flatMap.mpr ⟨_, hk, mem_pageList_self l kind'⟩) rfl
  · intro hknown
    obtain ⟨kind', hk⟩ := hknown
    exact hsep o ho o (List.mem_append_right _
      (List.mem_flatMap.mpr ⟨_, hk, mem_pageList_self o kind'⟩)) rfl
  · intro heq
    exact hinvalid (heq ▸ hmem l (List.mem_append_right _ (List.mem_append_left _ hl)))
  · intro heq
    exact hinvalid (heq ▸ hmem o (List.mem_append_left _ ho))

theorem Makes.same_known {ct l o : Nat} {label : String} {parent : Option Nat}
    (h : Makes lb k k' ct l o label parent) (hf : Fresh objs l o) : Same (Known objs) k k' := by
  refine h.same.mono fun p hp => ⟨?_, ?_⟩
  · intro heq
    exact hf.label (heq ▸ hp)
  · intro heq
    exact hf.object (heq ▸ hp)

/-- `move_npages` is about free pages only. -/
theorem moveNpages_same {fuel ct₁ ct₂ n : Nat} (hrun : k.moveNpages fuel ct₁ ct₂ n = ok k') :
    Same (fun _ => True) k k' := by
  have hfold : ∀ (ps : List Nat) (k k' : Kernel Buckle), ps.foldlM (fun k p => do
      let t ← (k.freePages ct₂).insert fuel p
      pure (k.setFreePages ct₂ t)) k = ok k' → Same (fun _ => True) k k' := by
    intro ps
    induction ps with
    | nil =>
      intro k k' hk
      cases hk
      exact Same.refl _ _
    | cons p ps ih =>
      intro k k' hk
      simp only [List.foldlM_cons, bind_eq_ok, pure_eq_ok, ok.injEq] at hk
      obtain ⟨k₂, ⟨t, -, rfl⟩, hrest⟩ := hk
      exact (setFreePages_same k ct₂ t).trans (ih _ _ hrest)
  simp only [Kernel.moveNpages, bind_eq_ok] at hrun
  obtain ⟨⟨k₁, page⟩, htake, hrest⟩ := hrun
  exact (takePages_same htake).trans (hfold _ _ _ hrest)

/-! ## Closed under labels -/

/-- The current thread is an object, and the labels of objects are objects. -/
structure Closed (k : Kernel Buckle) (objs : List (Nat × KObjectKind)) : Prop where
  current : ∀ th, k.current = some th → Known objs th
  labels : ∀ o l, Known objs o → (k.info o).label = some l → Known objs l

theorem Known.cons {p : Nat} (h : Known objs p) (o : Nat × KObjectKind) : Known (o :: objs) p := by
  obtain ⟨kind, hk⟩ := h
  exact ⟨kind, List.mem_cons_of_mem _ hk⟩

theorem known_cons_iff {p o : Nat} {kind : KObjectKind} :
    Known ((o, kind) :: objs) p ↔ p = o ∨ Known objs p := by
  constructor
  · intro h
    obtain ⟨kind', hk⟩ := h
    rcases List.mem_cons.mp hk with heq | hk
    · cases heq
      exact Or.inl rfl
    · exact Or.inr ⟨kind', hk⟩
  · intro h
    rcases h with rfl | h
    · exact ⟨kind, List.mem_cons_self⟩
    · exact h.cons _

theorem Closed.same (h : Closed k objs) (hsame : Same (Known objs) k k') : Closed k' objs where
  current th hth := h.current th (hsame.current ▸ hth)
  labels o l ho hl := h.labels o l ho (hsame.label o ho ▸ hl)

theorem Closed.makes {ct l o : Nat} {label : String} {parent : Option Nat} {kind : KObjectKind}
    (h : Closed k objs) (hm : Makes lb k k' ct l o label parent) (hf : Fresh objs l o) :
    Closed k' ((o, kind) :: (l, .label) :: objs) := by
  have hsame := hm.same_known hf
  refine ⟨fun th hth => ?_, fun p q hp hq => ?_⟩
  · exact ((h.same hsame).current th hth).cons _ |>.cons _
  · rcases known_cons_iff.mp hp with rfl | hp
    · -- the new object
      cases hm.labeled.symm.trans hq
      exact ⟨.label, by simp⟩
    · rcases known_cons_iff.mp hp with rfl | hp
      · -- the new label has none
        cases hm.unlabeled.symm.trans hq
      · exact ((h.same hsame).labels p q hp hq).cons _ |>.cons _

/-- The label of an object there was is what it was. -/
theorem labelOf_same {o : Nat} (h : Closed k objs) (hsame : Same (Known objs) k k')
    (ho : Known objs o) : k'.labelOf o = k.labelOf o := by
  unfold labelOf
  rw [hsame.label o ho]
  cases hl : (k.info o).label with
  | none => rfl
  | some l => exact hsame.inner l (h.labels o l ho hl)

theorem Makes.labelOf_object {ct l o : Nat} {label : String} {parent : Option Nat}
    (h : Makes lb k k' ct l o label parent) : k'.labelOf o = lb.parse label := by
  unfold labelOf
  rw [h.labeled]
  exact h.parsed

section Reached

variable (hsz : sz.Ok) (hstart : 0 < memStart) (hbound : memStart < 2 ^ 64)

include hsz hstart hbound in
theorem Reaches.fresh {l o : Nat} {kind : KObjectKind}
    (h : Reaches lb sz memStart (FitsAtLanding sz.thread) k cts
      ((o, kind) :: (l, .label) :: objs)) : Fresh objs l o := by
  obtain ⟨tree, ho⟩ := h.owned hsz hstart
  exact ho.fresh (nodup_bootPool memStart) (invalid_notMem_bootPool hbound)

/-- The container of a call is none of what the call makes. -/
theorem Fresh.container_ne {pool : List Nat} {tree : Nat → Tree Nat} {ct l o : Nat}
    (hf : Fresh objs l o) (h : Owned pool k cts objs [] tree) (hct : ct ∈ cts) : ct ≠ o := by
  intro heq
  exact hf.object ⟨.container, heq ▸ h.objects ct hct⟩

include hsz hstart hbound in
/-- `create` in a run. -/
theorem Reaches.create_makes {fuel ct c l : Nat} {bytes : Nat → PageNode} {label : String}
    (h : Reaches lb sz memStart (FitsAtLanding sz.thread) k cts objs) (hct : ct ∈ cts)
    (hrun : k.create fuel lb sz bytes ct label = ok (k', c)) (hl : (k'.info c).label = some l) :
    Checked lb k ct ∧ Fresh objs l c ∧ Makes lb k k' ct l c label none := by
  have hf : Fresh objs l c := Reaches.fresh hsz hstart hbound (h.create hct hrun hl)
  obtain ⟨tree, ho⟩ := h.owned hsz hstart
  obtain ⟨hchecked, l', hl', hmakes⟩ := Kernel.create_makes hrun
  cases hl.symm.trans hl'
  exact ⟨hchecked, hf, hmakes hf.apart hf.valid (hf.container_ne ho hct)⟩

include hsz hstart hbound in
/-- `spawn_raw` in a run. -/
theorem Reaches.spawnRaw_makes {fuel ct th l : Nat} {bytes : Nat → PageNode} {label : String}
    {closure : Layout} (h : Reaches lb sz memStart (FitsAtLanding sz.thread) k cts objs)
    (hct : ct ∈ cts) (hfits : FitsAtLanding sz.thread k ct closure)
    (hrun : k.spawnRaw fuel lb sz bytes ct label closure = ok (k', th))
    (hl : (k'.info th).label = some l) :
    Checked lb k ct ∧ Fresh objs l th ∧ Makes lb k k' ct l th label (some ct) := by
  have hf : Fresh objs l th := Reaches.fresh hsz hstart hbound (h.spawnRaw hct hfits hrun hl)
  obtain ⟨tree, ho⟩ := h.owned hsz hstart
  obtain ⟨hchecked, l', hl', hmakes⟩ := Kernel.spawnRaw_makes hrun
  cases hl.symm.trans hl'
  exact ⟨hchecked, hf, hmakes hf.apart hf.valid (hf.container_ne ho hct)⟩

include hsz hstart hbound in
/-- The main thread. -/
theorem Reaches.initMain_makes {fuel ct th l : Nat} {bytes : Nat → PageNode}
    (h : Reaches lb sz memStart (FitsAtLanding sz.thread) k cts objs) (hct : ct ∈ cts)
    (hrun : k.initMain fuel lb sz bytes ct = ok (k', th)) (hl : (k'.info th).label = some l) :
    ∃ k₁, k' = { k₁ with current := some th } ∧ Fresh objs l th ∧
      Makes lb k k₁ ct l th "T,F" none := by
  have hf : Fresh objs l th := Reaches.fresh hsz hstart hbound (h.initMain hct hrun hl)
  obtain ⟨tree, ho⟩ := h.owned hsz hstart
  obtain ⟨k₁, l', heq, hl', hmakes⟩ := Kernel.initMain_makes hrun
  cases hl.symm.trans hl'
  exact ⟨k₁, heq, hf, hmakes hf.apart hf.valid (hf.container_ne ho hct)⟩

include hsz hstart hbound in
theorem Reaches.closed (h : Reaches lb sz memStart (FitsAtLanding sz.thread) k cts objs) :
    Closed k objs := by
  induction h with
  | boot hrun =>
    have hreach : Reaches lb sz memStart (FitsAtLanding sz.thread) _ _ _ := .boot hrun
    have hf := hreach.fresh hsz hstart hbound
    simp only [Kernel.boot, bind_eq_ok, pure_eq_ok, ok.injEq] at hrun
    obtain ⟨t₀, -, ⟨t₁, r₁⟩, -, l', -, k₁, hlabel, ⟨t₂, r₂⟩, -, ct', -, heq⟩ := hrun
    obtain ⟨hsame, -, -, -, hnone⟩ := createLabel_same hlabel
    obtain ⟨rfl, rfl, rfl⟩ := heq
    refine ⟨fun th hth => ?_, fun o l ho hl => ?_⟩
    · cases hsame.current.symm.trans hth
    · rcases known_cons_iff.mp ho with rfl | ho
      · simp [Kernel.setMeta, hf.apart.symm] at hl
        exact ⟨.label, by simp [hl]⟩
      · rcases known_cons_iff.mp ho with rfl | ho
        · simp [Kernel.setMeta, hf.apart, createContainer, dirty, hnone] at hl
        · obtain ⟨_, hk⟩ := ho
          cases hk
  | initMain hprev hct hrun hl ih =>
    obtain ⟨k₁, rfl, hf, hmakes⟩ := hprev.initMain_makes hsz hstart hbound hct hrun hl
    refine ⟨fun th hth => ?_, (ih.makes hmakes hf).labels⟩
    cases hth
    exact ⟨.thread, List.mem_cons_self⟩
  | create hprev hct hrun hl ih =>
    obtain ⟨-, hf, hmakes⟩ := hprev.create_makes hsz hstart hbound hct hrun hl
    exact ih.makes hmakes hf
  | spawnRaw hprev hct hfits hrun hl ih =>
    obtain ⟨-, hf, hmakes⟩ := hprev.spawnRaw_makes hsz hstart hbound hct hfits hrun hl
    exact ih.makes hmakes hf
  | moveNpages _ _ _ hrun ih => exact ih.same ((moveNpages_same hrun).mono fun _ _ => trivial)
  | switch _ hth ih =>
    refine ⟨fun th h => ?_, ih.labels⟩
    cases h
    exact ⟨.thread, hth⟩

end Reached

/-! ## Runs that remember -/

/-- The calls that make objects. -/
inductive Maker
  | create
  | spawnRaw
  | spawn
  deriving DecidableEq

/-- A call that has made something: who called, in which container, and the label and the object. -/
structure Made where
  maker : Maker
  caller : Nat
  container : Nat
  label : String
  labelPage : Nat
  object : Nat

/-- The states of the kernel with what has been made since some moment, last first. Before that
moment lies any run. -/
inductive Traced (lb : Labeled Buckle) (sz : Sizes) (memStart : Nat) (cond : Kernel Buckle → Nat → Layout → Prop) :
    Kernel Buckle → List Nat → List (Nat × KObjectKind) → List Made → Prop
  | start {k : Kernel Buckle} {cts : List Nat} {objs : List (Nat × KObjectKind)} :
      Reaches lb sz memStart cond k cts objs → Traced lb sz memStart cond k cts objs []
  | create {fuel : Nat} {bytes : Nat → PageNode} {k k' : Kernel Buckle} {cts : List Nat}
      {objs : List (Nat × KObjectKind)} {log : List Made} {label : String} {caller ct c l : Nat} :
      Traced lb sz memStart cond k cts objs log → ct ∈ cts → k.current = some caller →
      k.create fuel lb sz bytes ct label = ok (k', c) → (k'.info c).label = some l →
      Traced lb sz memStart cond k' (c :: cts) ((c, .container) :: (l, .label) :: objs)
        (⟨.create, caller, ct, label, l, c⟩ :: log)
  | spawnRaw {fuel : Nat} {bytes : Nat → PageNode} {k k' : Kernel Buckle} {cts : List Nat}
      {objs : List (Nat × KObjectKind)} {log : List Made} {label : String} {closure : Layout}
      {caller ct th l : Nat} :
      Traced lb sz memStart cond k cts objs log → ct ∈ cts → cond k ct closure →
      k.current = some caller →
      k.spawnRaw fuel lb sz bytes ct label closure = ok (k', th) → (k'.info th).label = some l →
      Traced lb sz memStart cond k' cts ((th, .thread) :: (l, .label) :: objs)
        (⟨.spawnRaw, caller, ct, label, l, th⟩ :: log)
  | spawn {fuel : Nat} {bytes : Nat → PageNode} {k k' : Kernel Buckle} {cts ready : List Nat}
      {objs : List (Nat × KObjectKind)} {log : List Made} {closure : Layout}
      {caller ct th l : Nat} :
      Traced lb sz memStart cond k cts objs log → ct ∈ cts → cond k ct closure →
      k.current = some caller →
      k.spawn fuel lb sz bytes (some ready) ct closure = ok (k', some (ready ++ [th])) →
      (k'.info th).label = some l →
      Traced lb sz memStart cond k' cts ((th, .thread) :: (l, .label) :: objs)
        (⟨.spawn, caller, ct, BOTTOM, l, th⟩ :: log)
  | moveNpages {fuel : Nat} {k k' : Kernel Buckle} {cts : List Nat}
      {objs : List (Nat × KObjectKind)} {log : List Made} {ct₁ ct₂ n : Nat} :
      Traced lb sz memStart cond k cts objs log → ct₁ ∈ cts → ct₂ ∈ cts →
      k.moveNpages fuel ct₁ ct₂ n = ok k' → Traced lb sz memStart cond k' cts objs log
  | switch {k : Kernel Buckle} {cts : List Nat} {objs : List (Nat × KObjectKind)}
      {log : List Made} {th : Nat} :
      Traced lb sz memStart cond k cts objs log → (th, KObjectKind.thread) ∈ objs →
      Traced lb sz memStart cond { k with current := some th } cts objs log

theorem spawn_eq_ok {fuel ct th : Nat} {bytes : Nat → PageNode} {ready : List Nat}
    {closure : Layout}
    (h : k.spawn fuel lb sz bytes (some ready) ct closure = ok (k', some (ready ++ [th]))) :
    k.spawnRaw fuel lb sz bytes ct BOTTOM closure = ok (k', th) := by
  simp only [Kernel.spawn, bind_eq_ok, pure_eq_ok, ok.injEq] at h
  obtain ⟨⟨k₁, th'⟩, hrun, heq⟩ := h
  simp only [Prod.mk.injEq, Option.some.injEq, List.append_cancel_left_eq, List.cons.injEq,
    and_true] at heq
  obtain ⟨rfl, rfl⟩ := heq
  exact hrun

theorem Traced.reaches {cond : Kernel Buckle → Nat → Layout → Prop} {log : List Made}
    (h : Traced lb sz memStart cond k cts objs log) : Reaches lb sz memStart cond k cts objs := by
  induction h with
  | start h => exact h
  | create _ hct _ hrun hl ih => exact ih.create hct hrun hl
  | spawnRaw _ hct hfits _ hrun hl ih => exact ih.spawnRaw hct hfits hrun hl
  | spawn _ hct hfits _ hrun hl ih => exact ih.spawnRaw hct hfits (spawn_eq_ok hrun) hl
  | moveNpages _ h₁ h₂ hrun ih => exact ih.moveNpages h₁ h₂ hrun
  | switch _ hth ih => exact ih.switch hth

/-! ## What can be read back -/

/-- The parent that a maker gives to what it makes. -/
def Made.parent (m : Made) : Option Nat := if m.maker = .create then none else some m.container

/-- One call, as it can be read back in `k`. -/
structure Recorded (lb : Labeled Buckle) (k : Kernel Buckle) (objs : List (Nat × KObjectKind))
    (m : Made) : Prop where
  caller : Known objs m.caller
  container : Known objs m.container
  labelPage : Known objs m.labelPage
  object : Known objs m.object
  valid : m.labelPage ≠ INVALID_KOBJ_ID
  valid' : m.object ≠ INVALID_KOBJ_ID
  slot : m.labelPage ∈ k.slots m.container
  slot' : m.object ∈ k.slots m.container
  parents : (k.info m.labelPage).parent = m.parent
  parents' : (k.info m.object).parent = m.parent
  label : k.labelOf m.object = lb.parse m.label
  parses : (lb.parse m.label).isSome
  checked : ∃ b b', k.labelOf m.caller = some b ∧ k.labelOf m.container = some b' ∧
    lb.canFlowTo b b' = true
  bottom : m.maker = .spawn → m.label = BOTTOM

variable {m : Made}

/-- What is recorded stays. -/
theorem Recorded.same (h : Recorded lb k objs m) (hc : Closed k objs)
    (hsame : Same (Known objs) k k') : Recorded lb k' objs m where
  caller := h.caller
  container := h.container
  labelPage := h.labelPage
  object := h.object
  valid := h.valid
  valid' := h.valid'
  slot := hsame.slots _ h.container _ h.slot h.valid
  slot' := hsame.slots _ h.container _ h.slot' h.valid'
  parents := (hsame.parent _ h.labelPage).trans h.parents
  parents' := (hsame.parent _ h.object).trans h.parents'
  label := (labelOf_same hc hsame h.object).trans h.label
  parses := h.parses
  checked := by
    rw [labelOf_same hc hsame h.caller, labelOf_same hc hsame h.container]
    exact h.checked
  bottom := h.bottom

theorem Recorded.cons (h : Recorded lb k objs m) (o : Nat × KObjectKind) :
    Recorded lb k (o :: objs) m :=
  { h with
    caller := h.caller.cons o
    container := h.container.cons o
    labelPage := h.labelPage.cons o
    object := h.object.cons o }

/-- The label check, in terms of the labels themselves. -/
theorem Checked.labels {ct caller : Nat} (h : Checked lb k ct) (hcur : k.current = some caller) :
    ∃ b b', k.labelOf caller = some b ∧ k.labelOf ct = some b' ∧ lb.canFlowTo b b' = true := by
  obtain ⟨th, mine, theirs, b, b', hth, h1, h2, h3, h4, hflow⟩ := h
  cases hcur.symm.trans hth
  refine ⟨b, b', ?_, ?_, hflow⟩
  · rw [labelOf, h1]
    exact h3
  · rw [labelOf, h2]
    exact h4

/-- A call puts its own entry on record. -/
theorem Makes.recorded {kind : KObjectKind} (hc : Closed k objs)
    (h : Makes lb k k' m.container m.labelPage m.object m.label m.parent)
    (hf : Fresh objs m.labelPage m.object) (hct : Known objs m.container)
    (hcur : k.current = some m.caller) (hchecked : Checked lb k m.container)
    (hbottom : m.maker = .spawn → m.label = BOTTOM) :
    Recorded lb k' ((m.object, kind) :: (m.labelPage, .label) :: objs) m where
  caller := (hc.current _ hcur).cons _ |>.cons _
  container := hct.cons _ |>.cons _
  labelPage := ⟨.label, by simp⟩
  object := ⟨kind, by simp⟩
  valid := hf.valid
  valid' := hf.valid'
  slot := h.slot
  slot' := h.slot'
  parents := h.parents
  parents' := h.parents'
  label := h.labelOf_object
  parses := h.parses
  checked := by
    rw [labelOf_same hc (h.same_known hf) (hc.current _ hcur),
      labelOf_same hc (h.same_known hf) hct]
    exact hchecked.labels hcur
  bottom := hbottom

section Runs

variable {log : List Made} (hsz : sz.Ok) (hstart : 0 < memStart) (hbound : memStart < 2 ^ 64)

/-- One more call. -/
theorem recorded_cons {kind : KObjectKind} (hc : Closed k objs)
    (hlog : ∀ m' ∈ log, Recorded lb k objs m')
    (h : Makes lb k k' m.container m.labelPage m.object m.label m.parent)
    (hf : Fresh objs m.labelPage m.object) (hct : Known objs m.container)
    (hcur : k.current = some m.caller) (hchecked : Checked lb k m.container)
    (hbottom : m.maker = .spawn → m.label = BOTTOM) :
    ∀ m' ∈ m :: log,
      Recorded lb k' ((m.object, kind) :: (m.labelPage, .label) :: objs) m' := by
  intro m' hm'
  rcases List.mem_cons.mp hm' with rfl | hm'
  · exact h.recorded hc hf hct hcur hchecked hbottom
  · exact ((hlog m' hm').same hc (h.same_known hf)).cons _ |>.cons _

include hsz hstart in
theorem Reaches.known_container {ct : Nat}
    (h : Reaches lb sz memStart (FitsAtLanding sz.thread) k cts objs) (hct : ct ∈ cts) :
    Known objs ct := by
  obtain ⟨tree, ho⟩ := h.owned hsz hstart
  exact ⟨.container, ho.objects ct hct⟩

include hsz hstart hbound in
/-- **Everything a run has made can be read back.** -/
theorem Traced.recorded (h : Traced lb sz memStart (FitsAtLanding sz.thread) k cts objs log) :
    ∀ m ∈ log, Recorded lb k objs m := by
  induction h with
  | start _ => simp
  | create hprev hct hcur hrun hl ih =>
    have hreach := hprev.reaches
    obtain ⟨hchecked, hf, hmakes⟩ := hreach.create_makes hsz hstart hbound hct hrun hl
    exact recorded_cons (hreach.closed hsz hstart hbound) ih hmakes hf
      (hreach.known_container hsz hstart hct) hcur hchecked (by simp)
  | spawnRaw hprev hct hfits hcur hrun hl ih =>
    have hreach := hprev.reaches
    obtain ⟨hchecked, hf, hmakes⟩ := hreach.spawnRaw_makes hsz hstart hbound hct hfits hrun hl
    exact recorded_cons (hreach.closed hsz hstart hbound) ih hmakes hf
      (hreach.known_container hsz hstart hct) hcur hchecked (by simp)
  | spawn hprev hct hfits hcur hrun hl ih =>
    have hreach := hprev.reaches
    obtain ⟨hchecked, hf, hmakes⟩ := hreach.spawnRaw_makes hsz hstart hbound hct hfits
      (spawn_eq_ok hrun) hl
    exact recorded_cons (hreach.closed hsz hstart hbound) ih hmakes hf
      (hreach.known_container hsz hstart hct) hcur hchecked fun _ => rfl
  | moveNpages hprev _ _ hrun ih =>
    intro m hm
    exact (ih m hm).same (hprev.reaches.closed hsz hstart hbound)
      ((moveNpages_same hrun).mono fun _ _ => trivial)
  | switch _ _ ih =>
    intro m hm
    exact { ih m hm with }

/-! ## Parents -/

/-- Every entry the calls have placed in a container refers to an object whose parent is that
container. -/
def Parented (k : Kernel Buckle) (log : List Made) : Prop :=
  ∀ m ∈ log, ∀ p, p = m.labelPage ∨ p = m.object → p ∈ k.slots m.container →
    (k.info p).parent = some m.container

include hsz hstart hbound in
/-- **The parents are right in the runs that make no container, and in no others.** -/
theorem parented_iff (h : Traced lb sz memStart (FitsAtLanding sz.thread) k cts objs log) :
    Parented k log ↔ ∀ m ∈ log, m.maker ≠ .create := by
  have hrec := h.recorded hsz hstart hbound
  constructor
  · intro hpar m hm hmaker
    have hr := hrec m hm
    have hsome := hpar m hm m.object (Or.inr rfl) hr.slot'
    have hnone := hr.parents'
    rw [Made.parent, if_pos hmaker] at hnone
    cases hsome.symm.trans hnone
  · intro hmakers m hm p hp _
    have hr := hrec m hm
    have hparent : m.parent = some m.container := if_neg (hmakers m hm)
    rcases hp with rfl | rfl
    · exact hr.parents.trans hparent
    · exact hr.parents'.trans hparent

/-! ## Labels -/

/-- The label of the container can flow to the one that was asked for. -/
def Upward (lb : Labeled Buckle) (k : Kernel Buckle) (m : Made) : Prop :=
  ∃ b c, k.labelOf m.container = some b ∧ lb.parse m.label = some c ∧ lb.canFlowTo b c = true

/-- `o` was made by `th`, with a label that the label of the container can flow to. -/
def Spawns (lb : Labeled Buckle) (k : Kernel Buckle) (log : List Made) (th o : Nat) : Prop :=
  ∃ m ∈ log, m.caller = th ∧ m.object = o ∧ Upward lb k m

/-- The label of `o` can flow to that of `o'`. -/
def Flows (lb : Labeled Buckle) (k : Kernel Buckle) (o o' : Nat) : Prop :=
  ∃ b b', k.labelOf o = some b ∧ k.labelOf o' = some b' ∧ lb.canFlowTo b b' = true

theorem Flows.trans (htrans : ∀ a b c, lb.canFlowTo a b = true → lb.canFlowTo b c = true →
      lb.canFlowTo a c = true) {o₁ o₂ o₃ : Nat} (h : Flows lb k o₁ o₂) (h' : Flows lb k o₂ o₃) :
    Flows lb k o₁ o₃ := by
  obtain ⟨b₁, b₂, h1, h2, h3⟩ := h
  obtain ⟨b₂', b₃, h4, h5, h6⟩ := h'
  cases h2.symm.trans h4
  exact ⟨b₁, b₃, h1, h5, htrans _ _ _ h3 h6⟩

/-- One creation: the caller's label can flow to the container's, and so to the new one if that one
can. -/
theorem Recorded.flows (htrans : ∀ a b c, lb.canFlowTo a b = true → lb.canFlowTo b c = true →
      lb.canFlowTo a c = true) (h : Recorded lb k objs m) (hup : Upward lb k m) :
    Flows lb k m.caller m.object := by
  obtain ⟨b, b', hb, hb', hflow⟩ := h.checked
  obtain ⟨b'', c, h1, h2, h3⟩ := hup
  cases hb'.symm.trans h1
  exact ⟨b, c, hb, h.label.trans h2, htrans _ _ _ hflow h3⟩

include hsz hstart hbound in
/-- **The label of the caller can flow to that of the container, and the new object has the label
that was asked for.** Where that one is no lower than the container's, a chain of creations does not
lower a label. -/
theorem labels_flow (htrans : ∀ a b c, lb.canFlowTo a b = true → lb.canFlowTo b c = true →
      lb.canFlowTo a c = true)
    (h : Traced lb sz memStart (FitsAtLanding sz.thread) k cts objs log) :
    (∀ m ∈ log, Flows lb k m.caller m.container ∧ k.labelOf m.object = lb.parse m.label ∧
      (lb.parse m.label).isSome ∧ (m.maker = .spawn → m.label = BOTTOM)) ∧
    (∀ m ∈ log, Upward lb k m → Flows lb k m.caller m.object) ∧
    ∀ th o, Relation.TransGen (Spawns lb k log) th o → Flows lb k th o := by
  have hrec := h.recorded hsz hstart hbound
  have hstep : ∀ m ∈ log, Upward lb k m → Flows lb k m.caller m.object := fun m hm hup =>
    (hrec m hm).flows htrans hup
  have hspawn : ∀ th o, Spawns lb k log th o → Flows lb k th o := by
    intro th o hs
    obtain ⟨m, hm, rfl, rfl, hup⟩ := hs
    exact hstep m hm hup
  refine ⟨fun m hm => ?_, hstep, fun th o hchain => ?_⟩
  · have hr := hrec m hm
    exact ⟨hr.checked, hr.label, hr.parses, hr.bottom⟩
  · induction hchain with
    | single hs => exact hspawn _ _ hs
    | tail _ hs ih => exact ih.trans htrans (hspawn _ _ hs)

end Runs

/-! ## A thread that lowers its label

The main thread 7, at the bottom, spawns thread 25 at the top and creates container 43 at the top,
both in the root container 3, and moves pages to it. Thread 25 can write to container 43. It spawns
thread 47 there with `spawn`, which gives it the label `T,F`. -/

/-- The labels `T,F` and `F,T`: the bottom and the top. -/
def twoLevels : Labeled Bool where
  parse s := if s = "T,F" then some false else if s = "F,T" then some true else none
  canFlowTo b b' := !b || b'

theorem twoLevels_trans (a b c : Bool) (h : twoLevels.canFlowTo a b = true)
    (h' : twoLevels.canFlowTo b c = true) : twoLevels.canFlowTo a c = true := by
  revert a b c
  decide

theorem threadTop_none (page : Nat) (h : page = 25 ∨ page = 47) :
    ∃ top, threadTop 600 page sizes64.thread ⟨0, 1, ⟨0, rfl⟩, by decide⟩ = ok top ∧
      top ≤ pa (page + THREAD_NPAGES) := by
  rcases h with rfl | rfl
  · exact ⟨_, rfl, by decide⟩
  · exact ⟨_, rfl, by decide⟩

/-- The label check of a thread at the bottom, in container 3. -/
theorem checkLabel_bottom {k : Kernel Bool} {v : View} (hseen : Seen 3 k v)
    (hmine : (7, 5) ∈ v.labels) (h3 : (3, 1) ∈ v.labels) (h1 : 1 ∈ v.parsed)
    (hlabel : k.labelOf 7 = some false) (msg : String) :
    k.checkLabel twoLevels 5 3 msg = ok () := by
  obtain ⟨b, hb⟩ := Option.isSome_iff_exists.mp (hseen.parsed 1 h1)
  rw [labelOf, hseen.labels _ hmine] at hlabel
  exact checkLabel_eq_ok_iff.mpr ⟨1, false, b, hseen.labels _ h3, hlabel, hb, rfl⟩

/-- The main thread, at the bottom. -/
theorem main_twoLevels : ∃ k hand,
    Reaches twoLevels sizes64 4096 (FitsAtLanding sizes64.thread) k [3]
      [(7, .thread), (5, .label), (3, .container), (1, .label)] ∧
    Seen 3 k ⟨[5, 7], [(7, 5), (3, 1)], [5, 1], some 7⟩ ∧ k.labelOf 7 = some false ∧
    Stocked 600 3 k hand [(2, 23), (16, 25), (2, 41), (2, 43), (18, 45)] := by
  have hb : twoLevels.parse "T,F" = some false := rfl
  obtain ⟨k₁, hand₁, hboot, hseen₁, hst₁⟩ := boot_4096 hb stages_moving
  obtain ⟨top, htop, hle⟩ := threadTop_empty
  obtain ⟨k₂, hand₂, hmain, hseen₂, hst₂⟩ := initMain_returns zeroed hseen₁ hst₁ (by decide)
    (by decide) (by decide) hb htop hle
  have hreach : Reaches twoLevels sizes64 4096 (FitsAtLanding sizes64.thread) k₁ [3] _ :=
    .boot hboot
  have hlabel := hseen₂.labels (7, 5) (by simp)
  obtain ⟨k₃, rfl, -, hmakes⟩ := hreach.initMain_makes sizes64_ok (by decide) (by decide) (by simp)
    hmain hlabel
  exact ⟨_, hand₂, hreach.initMain (by simp) hmain hlabel, hseen₂, hmakes.labelOf_object, hst₂⟩

/-- Thread 25, at the top. -/
theorem thread_twoLevels : ∃ k hand,
    Traced twoLevels sizes64 4096 (FitsAtLanding sizes64.thread) k [3]
      [(25, .thread), (23, .label), (7, .thread), (5, .label), (3, .container), (1, .label)]
      [⟨.spawnRaw, 7, 3, "F,T", 23, 25⟩] ∧
    Seen 3 k ⟨[5, 7, 23, 25], [(25, 23), (7, 5), (3, 1)], [23, 5, 1], some 7⟩ ∧
    k.labelOf 7 = some false ∧ Stocked 600 3 k hand [(2, 41), (2, 43), (18, 45)] := by
  obtain ⟨k, hand, hreach, hseen, hlabel, hst⟩ := main_twoLevels
  obtain ⟨top, htop, hle⟩ := threadTop_none 25 (Or.inl rfl)
  obtain ⟨k', hand', hspawn, hseen', -, hst'⟩ := spawnRaw_returns zeroed 7 5 hseen hst (by decide)
    (by decide) (by decide) (show twoLevels.parse "F,T" = some true from rfl) rfl (by decide)
    (checkLabel_bottom hseen (by decide) (by decide) (by decide) hlabel) htop
  have hl := hseen'.labels (25, 23) (by simp)
  -- the main thread is still at the bottom
  obtain ⟨-, hf, hmakes⟩ := hreach.spawnRaw_makes sizes64_ok (by decide) (by decide) (by simp)
    (fun _ _ _ => .inl rfl) hspawn hl
  have hlabel' : k'.labelOf 7 = some false :=
    (labelOf_same (hreach.closed sizes64_ok (by decide) (by decide)) (hmakes.same_known hf)
      ⟨.thread, by simp⟩).trans hlabel
  exact ⟨k', hand', (Traced.start hreach).spawnRaw (by simp) (fun _ _ _ => .inl rfl) hseen.current
    hspawn hl, hseen', hlabel', hst' hle⟩

/-- Container 43, at the top. -/
theorem top_twoLevels : ∃ k hand,
    Traced twoLevels sizes64 4096 (FitsAtLanding sizes64.thread) k [43, 3]
      [(43, .container), (41, .label), (25, .thread), (23, .label), (7, .thread), (5, .label),
        (3, .container), (1, .label)]
      [⟨.create, 7, 3, "F,T", 41, 43⟩, ⟨.spawnRaw, 7, 3, "F,T", 23, 25⟩] ∧
    Seen 43 k ⟨[], [(43, 41), (25, 23), (7, 5), (3, 1)], [41, 23, 5, 1], some 7⟩ ∧
    Stocked 600 3 k hand [(18, 45)] ∧ (k.info 43).freePages = none := by
  obtain ⟨k, hand, htraced, hseen, hlabel, hst⟩ := thread_twoLevels
  obtain ⟨k', hand', hcreate, hseen', hst', hslots, hfree⟩ := create_returns sizes64 zeroed 7 5
    hseen hst (by decide) (by decide) (by decide)
    (show twoLevels.parse "F,T" = some true from rfl) rfl (by decide)
    (checkLabel_bottom hseen (by decide) (by decide) (by decide) hlabel)
  refine ⟨k', hand', htraced.create (by simp) hseen.current hcreate
    (hseen'.labels (43, 41) (by simp)), ?_, hst', hfree⟩
  exact ⟨by simp, hslots, hseen'.labels, hseen'.parsed, hseen'.current⟩

/-- **A container has no parent**: neither 43 nor its label 41, though both are in slots of 3. -/
theorem create_sets_no_parent : ∃ (k : Kernel Bool) (cts : List Nat)
    (objs : List (Nat × KObjectKind)) (log : List Made),
    Traced twoLevels sizes64 4096 (FitsAtLanding sizes64.thread) k cts objs log ∧
      ¬ Parented k log := by
  obtain ⟨k, hand, htraced, -⟩ := top_twoLevels
  refine ⟨k, _, _, _, htraced, fun hpar => ?_⟩
  have hr := htraced.recorded sizes64_ok (by decide) (by decide) _ List.mem_cons_self
  have hsome := hpar _ List.mem_cons_self 43 (Or.inr rfl) hr.slot'
  cases hsome.symm.trans hr.parents'

/-- The same run up to thread 25. -/
theorem parented_iff_twoLevels : ∃ (k : Kernel Bool) (objs : List (Nat × KObjectKind)),
    Traced twoLevels sizes64 4096 (FitsAtLanding sizes64.thread) k [3] objs
      [⟨.spawnRaw, 7, 3, "F,T", 23, 25⟩] ∧
    Parented k [⟨.spawnRaw, 7, 3, "F,T", 23, 25⟩] := by
  obtain ⟨k, hand, htraced, -⟩ := thread_twoLevels
  refine ⟨k, _, htraced, (parented_iff sizes64_ok (by decide) (by decide) htraced).mpr ?_⟩
  intro m hm
  cases List.mem_singleton.mp hm
  decide

/-- **A thread at the top has spawned one at the bottom.** -/
theorem spawn_lowers_label : ∃ (k : Kernel Bool) (cts : List Nat)
    (objs : List (Nat × KObjectKind)) (log : List Made),
    Traced twoLevels sizes64 4096 (FitsAtLanding sizes64.thread) k cts objs log ∧
      ¬ ∀ m ∈ log, Flows twoLevels k m.caller m.object := by
  obtain ⟨k, hand, htraced, hseen, hst, hfree⟩ := top_twoLevels
  obtain ⟨s, hs, hstages⟩ := stages_moved
  obtain ⟨k₁, hmove, hseen₁, hst₁⟩ := moveNpages_returns hseen hst hfree (by decide) (by decide)
    (by decide) hs hstages
  have htraced₁ := htraced.moveNpages (show 3 ∈ [43, 3] by simp) (show 43 ∈ [43, 3] by simp) hmove
  -- what thread 25 sees
  have htraced₂ := htraced₁.switch (show (25, KObjectKind.thread) ∈ _ by simp)
  have hseen₂ := hseen₁.setCurrent (some 25)
  have hrec := htraced₂.recorded sizes64_ok (by decide) (by decide)
  have h43 := (hrec _ List.mem_cons_self).label
  have h25 := (hrec _ (List.mem_cons_of_mem _ List.mem_cons_self)).label
  have hcheck : ∀ msg, ({ k₁ with current := some 25 } : Kernel Bool).checkLabel twoLevels 23 43 msg
      = ok () := by
    intro msg
    rw [labelOf, hseen₂.labels (43, 41) (by simp)] at h43
    rw [labelOf, hseen₂.labels (25, 23) (by simp)] at h25
    exact checkLabel_eq_ok_iff.mpr ⟨41, true, true, hseen₂.labels (43, 41) (by simp), h25, h43,
      rfl⟩
  obtain ⟨top, htop, hle⟩ := threadTop_none 47 (Or.inr rfl)
  obtain ⟨k₃, hand₃, hspawn, hseen₃, -⟩ := spawnRaw_returns zeroed 25 23 hseen₂
    (hst₁.congr rfl fun _ _ => rfl) (by decide) (by decide) (by decide)
    (show twoLevels.parse BOTTOM = some false from rfl) rfl (by decide) hcheck htop
  have hspawn' : Kernel.spawn 600 twoLevels sizes64 zeroed { k₁ with current := some 25 }
      (some []) 43 ⟨0, 1, ⟨0, rfl⟩, by decide⟩ = ok (k₃, some ([] ++ [47])) := by
    rw [Kernel.spawn, hspawn]
    rfl
  have htraced₃ := htraced₂.spawn (by simp) (fun _ _ _ => .inl rfl) rfl hspawn'
    (hseen₃.labels (47, 45) (by simp))
  refine ⟨k₃, _, _, _, htraced₃, fun hall => ?_⟩
  obtain ⟨b, b', hb, hb', hflow⟩ := hall _ List.mem_cons_self
  have hrec₃ := htraced₃.recorded sizes64_ok (by decide) (by decide)
  have hnew := (hrec₃ _ List.mem_cons_self).label
  have hcaller := (hrec₃ _
    (List.mem_cons_of_mem _ (List.mem_cons_of_mem _ List.mem_cons_self))).label
  cases hcaller.symm.trans hb
  cases hnew.symm.trans hb'
  cases hflow

/-- Thread 25 and container 43 are no lower than the main thread that made them. -/
theorem labels_flow_twoLevels : ∃ (k : Kernel Bool) (cts : List Nat)
    (objs : List (Nat × KObjectKind)),
    Traced twoLevels sizes64 4096 (FitsAtLanding sizes64.thread) k cts objs
      [⟨.create, 7, 3, "F,T", 41, 43⟩, ⟨.spawnRaw, 7, 3, "F,T", 23, 25⟩] ∧
    Flows twoLevels k 7 3 ∧ Flows twoLevels k 7 25 := by
  obtain ⟨k, hand, htraced, -⟩ := top_twoLevels
  obtain ⟨hcalls, hup, -⟩ := labels_flow sizes64_ok (by decide) (by decide) twoLevels_trans htraced
  have h25 : (⟨.spawnRaw, 7, 3, "F,T", 23, 25⟩ : Made) ∈
      [⟨.create, 7, 3, "F,T", 41, 43⟩, ⟨.spawnRaw, 7, 3, "F,T", 23, 25⟩] := by simp
  have hflow := (hcalls _ h25).1
  refine ⟨k, _, _, htraced, hflow, hup _ h25 ?_⟩
  -- everything can flow to the top
  obtain ⟨-, b, -, hb, -⟩ := hflow
  exact ⟨b, true, hb, rfl, by cases b <;> rfl⟩

end Kernel
end Allora
