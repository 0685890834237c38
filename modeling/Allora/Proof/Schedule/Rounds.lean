import Allora.Lib.Rotor
import Allora.Lib.Trace
import Allora.Proof.Schedule.Visit

/-!
# Rounds

The hands are stored apart from the vectors that they index, and the vectors grow. `Ranges` is the
invariant: a hand is in range, or it is 0 and waits for the first element. Between pushes the
blocks come up one after another, and so do the slices of every container, however many of its
visits come through redirects: both are rotors (`InTurn`).

What the events of a call are about is `Serves`: the block that is up, then the visits and slices of
a search that begins at its holder (`Searches`), then the thread that the search has found, which
is the current one from now on.
-/

set_option autoImplicit false

namespace Allora
namespace Sched

open Outcome Logged

/-! ## Runs -/

/-- What can happen to the scheduler. -/
inductive Turn
  | call
  | pushBlock (rb : ResourceBlock)
  | pushTs (ct : Nat)
  | pushSlice (ct : Nat) (slice : TimeSlice)

/-- Calls and pushes. After a call that panics or does not return there is nothing more. -/
def machine (fuel : Nat) : Machine (Outcome Sched) Turn Event where
  step
    | ok s, .call => ((s.scheduleByResourceBlocks fuel).result, (s.scheduleByResourceBlocks fuel).log)
    | ok s, .pushBlock rb => (ok (s.pushBlock rb), [])
    | ok s, .pushTs ct => (ok (s.pushTs ct), [])
    | ok s, .pushSlice ct slice => (ok (s.pushSlice ct slice), [])
    | r, _ => (r, [])

/-- The tables as they are made, with no slices anywhere. -/
def empty (scheduler : Nat → Option Nat) (current : Option Nat) : Sched :=
  ⟨fun ct => ⟨scheduler ct, none⟩, some [], some ([], 0), current⟩

/-- The blocks that are served, in order. -/
def blocks (es : List Event) : List Nat :=
  es.filterMap fun
    | .block i => some i
    | _ => none

/-- The slices of `ct` that are used, in order. -/
def used (ct : Nat) (es : List Event) : List Nat :=
  es.filterMap fun
    | .slice c i => if c = ct then some i else none
    | _ => none

/-- How often `find_next_thread` has come to `ct`. -/
def visits (ct : Nat) (es : List Event) : Nat := es.count (.visit ct)

@[simp] theorem blocks_append (es es' : List Event) :
    blocks (es ++ es') = blocks es ++ blocks es' := List.filterMap_append

@[simp] theorem used_append (ct : Nat) (es es' : List Event) :
    used ct (es ++ es') = used ct es ++ used ct es' := List.filterMap_append

@[simp] theorem visits_append (ct : Nat) (es es' : List Event) :
    visits ct (es ++ es') = visits ct es + visits ct es' := List.count_append

/-- One visit. -/
theorem used_visit_self (ct i : Nat) : used ct [.visit ct, .slice ct i] = [i] := by
  simp [used]

theorem visits_visit_self (ct i : Nat) : visits ct [.visit ct, .slice ct i] = 1 := by
  simp [visits]

theorem used_visit_of_ne {ct c : Nat} (hne : c ≠ ct) (i : Nat) :
    used ct [.visit c, .slice c i] = [] := by
  simp [used, hne]

theorem visits_visit_of_ne {ct c : Nat} (hne : c ≠ ct) (i : Nat) :
    visits ct [.visit c, .slice c i] = 0 := by
  simp [visits, hne]

/-! ## Hands stay in range -/

/-- A hand over `n` elements: in range, or waiting at 0. -/
def InRange (h n : Nat) : Prop := h = 0 ∨ h < n

/-- The invariant of the tables. -/
structure Ranges (s : Sched) : Prop where
  blocks : ∀ rbs hand, s.resblocks = some (rbs, hand) → InRange hand rbs.length
  slices : ∀ cts, s.ts = some cts → ∀ e ∈ cts, InRange e.2 (s.slicesOf e.1).length

theorem InRange.mono {h n m : Nat} (hr : InRange h n) (hle : n ≤ m) : InRange h m :=
  hr.imp_right fun hlt => Nat.lt_of_lt_of_le hlt hle

theorem InRange.lt {h n : Nat} (hr : InRange h n) (hn : 0 < n) : h < n := by
  rcases hr with rfl | hlt
  · exact hn
  · exact hlt

section Ranges

variable {s : Sched} {ct h : Nat}

theorem Ranges.handsOk (hr : Ranges s) : s.HandsOk := fun cts hts e he hne =>
  (hr.slices cts hts e he).lt (List.length_pos_of_ne_nil hne)

theorem ranges_empty (scheduler : Nat → Option Nat) (current : Option Nat) :
    Ranges (empty scheduler current) := by
  refine ⟨fun rbs hand heq => ?_, fun cts hts e he => ?_⟩
  · cases heq
    exact .inl rfl
  · cases hts
    cases he

theorem Ranges.turned (hr : Ranges s) (hne : 0 < (s.slicesOf ct).length) :
    Ranges (s.turned ct h) := by
  refine ⟨hr.blocks, fun cts hts e he => ?_⟩
  obtain ⟨cts', hts', rfl⟩ := Option.map_eq_some_iff.mp hts
  rcases mem_setHand he with he | rfl
  · exact hr.slices cts' hts' e he
  · exact .inr (Nat.mod_lt _ hne)

theorem Ranges.pushBlock (hr : Ranges s) (rb : ResourceBlock) : Ranges (s.pushBlock rb) := by
  refine ⟨fun rbs hand heq => ?_, hr.slices⟩
  obtain ⟨⟨rbs', hand'⟩, hrb, heq'⟩ := Option.map_eq_some_iff.mp heq
  cases heq'
  exact (hr.blocks rbs' _ hrb).mono (by simp)

theorem Ranges.pushTs (hr : Ranges s) (ct : Nat) : Ranges (s.pushTs ct) := by
  refine ⟨hr.blocks, fun cts hts e he => ?_⟩
  obtain ⟨cts', hts', rfl⟩ := Option.map_eq_some_iff.mp hts
  rcases List.mem_append.mp he with he | he
  · exact hr.slices cts' hts' e he
  · rw [List.mem_singleton] at he
    subst he
    exact .inl rfl

theorem Ranges.pushSlice (hr : Ranges s) (ct : Nat) (slice : TimeSlice) :
    Ranges (s.pushSlice ct slice) := by
  refine ⟨hr.blocks, fun cts hts e he => (hr.slices cts hts e he).mono ?_⟩
  by_cases hct : e.1 = ct
  · simp [Sched.pushSlice, slicesOf, hct]
  · simp [Sched.pushSlice, slicesOf, hct]

end Ranges

/-! ## Hands move on -/

/-- `s'` is `s` after what `es` says was served: those hands have moved on, and no others. -/
structure After (s s' : Sched) (es : List Event) : Prop where
  containers : s'.containers = s.containers
  keys : s'.keys = s.keys
  current : s'.current.isSome = s.current.isSome
  ranges : Ranges s'
  blocks : s'.resblocks =
    s.resblocks.map fun (rbs, hand) => (rbs, (hand + (blocks es).length) % rbs.length)
  slices : ∀ c h, s.handOf c = some h → 0 < (s.slicesOf c).length →
    s'.handOf c = some ((h + visits c es) % (s.slicesOf c).length)

/-- The blocks come up in turn, and so do the slices of every container, one for each visit. -/
structure InTurn (s : Sched) (es : List Event) : Prop where
  blocks : ∀ rbs hand, s.resblocks = some (rbs, hand) → rbs ≠ [] →
    blocks es = Rotor.turns rbs.length hand (blocks es).length
  slices : ∀ c h, s.handOf c = some h → 0 < (s.slicesOf c).length →
    used c es = Rotor.turns (s.slicesOf c).length h (visits c es)

section Composition

variable {s s₁ s₂ : Sched} {es es' : List Event} {ct h : Nat}

theorem After.slicesOf (ha : After s s₁ es) (c : Nat) : s₁.slicesOf c = s.slicesOf c := by
  rw [Sched.slicesOf, ha.containers, Sched.slicesOf]

/-- Where a hand in range is after no turn at all. -/
theorem Ranges.resblocks_eq (hr : Ranges s) :
    s.resblocks = s.resblocks.map fun (rbs, hand) => (rbs, (hand + 0) % rbs.length) := by
  cases hrb : s.resblocks with
  | none => rfl
  | some p =>
    obtain ⟨rbs, hand⟩ := p
    have hmod : hand % rbs.length = hand := by
      rcases hr.blocks rbs hand hrb with rfl | hlt
      · exact Nat.zero_mod _
      · exact Nat.mod_eq_of_lt hlt
    simp [hmod]

theorem Ranges.hand_mod (hr : Ranges s) {c : Nat} (hhand : s.handOf c = some h)
    (hpos : 0 < (s.slicesOf c).length) : h % (s.slicesOf c).length = h :=
  Nat.mod_eq_of_lt (hr.handsOk.hand_lt hhand (List.ne_nil_of_length_pos hpos))

theorem Ranges.after_nil (hr : Ranges s) : After s s [] where
  containers := rfl
  keys := rfl
  current := rfl
  ranges := hr
  blocks := hr.resblocks_eq
  slices _ _ hhand hpos := hhand.trans (congrArg some (hr.hand_mod hhand hpos).symm)

theorem inTurn_nil (s : Sched) : InTurn s [] := ⟨fun _ _ _ _ => rfl, fun _ _ _ _ => rfl⟩

theorem After.trans (ha : After s s₁ es) (hb : After s₁ s₂ es') : After s s₂ (es ++ es') where
  containers := hb.containers.trans ha.containers
  keys := hb.keys.trans ha.keys
  current := hb.current.trans ha.current
  ranges := hb.ranges
  blocks := by
    rw [hb.blocks, ha.blocks, Option.map_map]
    congr 1
    funext p
    simp [Nat.mod_add_mod, Nat.add_assoc]
  slices c h hhand hpos := by
    rw [hb.slices c _ (ha.slices c h hhand hpos) (by rwa [ha.slicesOf]), ha.slicesOf,
      visits_append, Nat.mod_add_mod, Nat.add_assoc]

theorem InTurn.append (ht : InTurn s es) (ha : After s s₁ es) (ht' : InTurn s₁ es') :
    InTurn s (es ++ es') where
  blocks rbs hand hrb hne := by
    have hrb₁ : s₁.resblocks = some (rbs, (hand + (Sched.blocks es).length) % rbs.length) := by
      rw [ha.blocks, hrb, Option.map_some]
    rw [blocks_append, List.length_append, Rotor.turns_add, ← ht.blocks rbs hand hrb hne,
      ← Rotor.turns_mod, ← ht'.blocks rbs _ hrb₁ hne]
  slices c h hhand hpos := by
    have hnext := ht'.slices c _ (ha.slices c h hhand hpos) (by rwa [ha.slicesOf])
    rw [ha.slicesOf, Rotor.turns_mod] at hnext
    rw [used_append, visits_append, Rotor.turns_add, ← ht.slices c h hhand hpos, ← hnext]

/-- A visit to a container that has nothing to give. -/
theorem Ranges.after_visit (hr : Ranges s) (hstop : s.handOf ct = none ∨ s.slicesOf ct = []) :
    After s s [.visit ct] ∧ InTurn s [.visit ct] := by
  have hne : ∀ c h, s.handOf c = some h → 0 < (s.slicesOf c).length →
      visits c [.visit ct] = 0 := by
    intro c h hhand hpos
    have hct : ct ≠ c := by
      intro heq
      subst heq
      rcases hstop with hnone | hnil
      · cases hnone.symm.trans hhand
      · rw [hnil] at hpos
        exact absurd hpos (Nat.lt_irrefl 0)
    simp [visits, hct]
  refine ⟨⟨rfl, rfl, rfl, hr, hr.resblocks_eq, fun c h hhand hpos => ?_⟩,
    ⟨fun _ _ _ _ => rfl, fun c h hhand hpos => ?_⟩⟩
  · rw [hne c h hhand hpos]
    exact hr.after_nil.slices c h hhand hpos
  · rw [hne c h hhand hpos]
    rfl

/-- One slice. -/
theorem Ranges.after_slice (hr : Ranges s) (hhand : s.handOf ct = some h)
    (hlt : h < (s.slicesOf ct).length) :
    After s (s.turned ct h) [.visit ct, .slice ct h] ∧ InTurn s [.visit ct, .slice ct h] := by
  refine ⟨⟨rfl, keys_turned s ct h, rfl, hr.turned (Nat.zero_lt_of_lt hlt), hr.resblocks_eq,
    fun c h' hc hpos => ?_⟩, ⟨fun _ _ _ _ => rfl, fun c h' hc hpos => ?_⟩⟩
  · by_cases heq : c = ct
    · subst heq
      cases hhand.symm.trans hc
      rw [handOf_turned_self hhand, visits_visit_self]
    · rw [handOf_turned_of_ne heq, visits_visit_of_ne (Ne.symm heq)]
      exact hr.after_nil.slices c h' hc hpos
  · by_cases heq : c = ct
    · subst heq
      cases hhand.symm.trans hc
      rw [used_visit_self, visits_visit_self]
      exact (Rotor.turns_succ hlt 0).symm
    · rw [used_visit_of_ne (Ne.symm heq), visits_visit_of_ne (Ne.symm heq)]
      rfl

/-- One block. -/
theorem Ranges.after_block {rbs : List ResourceBlock} {hand : Nat} (hr : Ranges s)
    (hrb : s.resblocks = some (rbs, hand)) (hlt : hand < rbs.length) :
    After s { s with resblocks := some (rbs, (hand + 1) % rbs.length) } [.block hand] ∧
      InTurn s [.block hand] := by
  refine ⟨⟨rfl, rfl, rfl, ⟨fun rbs' hand' heq => ?_, hr.slices⟩, ?_, hr.after_nil.slices⟩,
    ⟨fun rbs' hand' heq hne => ?_, fun _ _ _ _ => rfl⟩⟩
  · cases heq
    exact .inr (Nat.mod_lt _ (Nat.zero_lt_of_lt hlt))
  · rw [hrb]
    rfl
  · cases hrb.symm.trans heq
    exact (Rotor.turns_succ hlt 0).symm

/-- A thread gets the processor. -/
theorem Ranges.after_switch (hr : Ranges s) (hcur : s.current.isSome) (th : Nat) :
    After s { s with current := some th } [.switch th] ∧ InTurn s [.switch th] := by
  refine ⟨⟨rfl, rfl, hcur.symm, ⟨hr.blocks, hr.slices⟩, hr.resblocks_eq, hr.after_nil.slices⟩,
    ⟨fun _ _ _ _ => rfl, fun _ _ _ _ => rfl⟩⟩

end Composition

/-! ## Searches and calls -/

/-- What is seen of a search from `ct` on, and what it answers. A slice that names a thread ends
the search; a redirect is followed by a visit where it leads to; and a search that does not end has
made `fuel` visits. -/
inductive Searches (s : Sched) : Nat → Nat → List Event → Outcome (Option Nat) → Prop
  | timeout (ct : Nat) : Searches s 0 ct [] .timeout
  | nothing {fuel ct : Nat} : ct ∉ s.keys ∨ s.slicesOf ct = [] →
      Searches s (fuel + 1) ct [.visit ct] (ok none)
  | found {fuel ct i : Nat} {slice : TimeSlice} : (s.slicesOf ct)[i]? = some slice →
      (∀ d, slice ≠ .redirect d) →
      Searches s (fuel + 1) ct [.visit ct, .slice ct i] (ok (thread (s.containers ct) slice))
  | redirect {fuel ct i d : Nat} {es : List Event} {r : Outcome (Option Nat)} :
      (s.slicesOf ct)[i]? = some (.redirect d) → Searches s fuel d es r →
      Searches s (fuel + 1) ct (.visit ct :: .slice ct i :: es) r

/-- What is seen of a call that serves block `i`, and how it ends: the search begins at the holder
of the block, and the thread that it finds is the current one then. -/
inductive Serves (s : Sched) (fuel : Nat) (rbs : List ResourceBlock) (i : Nat) :
    List Event → Outcome Sched → Prop
  | switched {rb : ResourceBlock} {es : List Event} {th : Nat} {s' : Sched} : rbs[i]? = some rb →
      Searches s fuel rb.holder es (ok (some th)) → s'.current = some th →
      Serves s fuel rbs i (.block i :: es ++ [.switch th]) (ok s')
  | kept {rb : ResourceBlock} {es : List Event} {s' : Sched} : rbs[i]? = some rb →
      Searches s fuel rb.holder es (ok none) → s'.current = s.current →
      Serves s fuel rbs i (.block i :: es) (ok s')
  | endless {rb : ResourceBlock} {es : List Event} : rbs[i]? = some rb →
      Searches s fuel rb.holder es .timeout → Serves s fuel rbs i (.block i :: es) .timeout

/-- Hands do not matter to a search. -/
theorem Searches.congr {s s' : Sched} {fuel ct : Nat} {es : List Event}
    {r : Outcome (Option Nat)} (h : Searches s' fuel ct es r) (hc : s'.containers = s.containers)
    (hk : s'.keys = s.keys) : Searches s fuel ct es r := by
  have hof : ∀ c, s'.slicesOf c = s.slicesOf c := by
    intro c
    rw [slicesOf, hc, slicesOf]
  induction h with
  | timeout ct => exact .timeout ct
  | nothing hstop =>
    rw [hk, hof] at hstop
    exact .nothing hstop
  | found hslice hne =>
    rw [hof] at hslice
    rw [hc]
    exact .found hslice hne
  | redirect hslice _ ih =>
    rw [hof] at hslice
    exact .redirect hslice ih

/-- **A search uses slices in turn and never panics.** -/
theorem findNextThread_spec : ∀ (fuel : Nat) {s : Sched} (ct : Nat), Ranges s →
    InTurn s (findNextThread fuel s ct).log ∧ blocks (findNextThread fuel s ct).log = [] ∧
      ((findNextThread fuel s ct).result = .timeout ∧
          Searches s fuel ct (findNextThread fuel s ct).log .timeout ∨
        ∃ s' next, (findNextThread fuel s ct).result = ok (s', next) ∧ s'.current = s.current ∧
          Searches s fuel ct (findNextThread fuel s ct).log (ok next) ∧
          After s s' (findNextThread fuel s ct).log) := by
  intro fuel
  induction fuel with
  | zero => exact fun ct _ => ⟨inTurn_nil _, rfl, .inl ⟨rfl, .timeout ct⟩⟩
  | succ fuel ih =>
    intro s ct hr
    rcases findNextThread_cases hr.handsOk ct with
      ⟨hstop, hfind⟩ | ⟨h, slice, hhand, hslice, ⟨hlast, hfind⟩ | ⟨d, rfl, hfind⟩⟩
    · obtain ⟨ha, ht⟩ := hr.after_visit hstop
      have hkeys : ct ∉ s.keys ∨ s.slicesOf ct = [] := by
        refine hstop.imp_left fun hnone hmem => ?_
        obtain ⟨h, hhand⟩ := mem_keys_iff.mp hmem
        cases hnone.symm.trans hhand
      rw [hfind]
      exact ⟨ht, rfl, .inr ⟨s, none, rfl, rfl, .nothing hkeys, ha⟩⟩
    · obtain ⟨ha, ht⟩ := hr.after_slice hhand (List.getElem?_eq_some_iff.mp hslice).1
      rw [hfind]
      exact ⟨ht, rfl, .inr ⟨_, _, rfl, rfl, .found hslice hlast, ha⟩⟩
    · obtain ⟨ha, ht⟩ := hr.after_slice hhand (List.getElem?_eq_some_iff.mp hslice).1
      obtain ⟨ht', hblocks, hres⟩ := ih d ha.ranges
      rw [hfind]
      refine ⟨ht.append ha ht', hblocks, ?_⟩
      rcases hres with ⟨hto, hsearch⟩ | ⟨s', next, hok, hcur, hsearch, ha'⟩
      · exact .inl ⟨hto, .redirect hslice (hsearch.congr ha.containers ha.keys)⟩
      · exact .inr ⟨s', next, hok, hcur,
          .redirect hslice (hsearch.congr ha.containers ha.keys), ha.trans ha'⟩

/-- A call finds a current thread and a block. -/
def Serving (s : Sched) : Prop :=
  s.current.isSome ∧ ∃ rbs hand, s.resblocks = some (rbs, hand) ∧ rbs ≠ []

theorem After.serving {s s' : Sched} {es : List Event} (ha : After s s' es) (h : s.Serving) :
    s'.Serving := by
  obtain ⟨hcur, rbs, hand, hrb, hne⟩ := h
  refine ⟨ha.current.trans hcur, rbs, (hand + (Sched.blocks es).length) % rbs.length, ?_, hne⟩
  rw [ha.blocks, hrb, Option.map_some]

section Calls

variable {s : Sched} {fuel : Nat}

/-- A call that finds nothing to serve does nothing. -/
theorem call_idle (hidle : ¬ s.Serving) : s.scheduleByResourceBlocks fuel = ⟨[], ok s⟩ := by
  unfold scheduleByResourceBlocks
  cases hcur : s.current with
  | none => rfl
  | some t =>
    cases hrb : s.resblocks with
    | none => rfl
    | some p =>
      obtain ⟨rbs, hand⟩ := p
      cases rbs with
      | nil => rfl
      | cons rb rbs => exact absurd ⟨by rw [hcur]; rfl, _, _, hrb, by simp⟩ hidle

/-- **A call serves the block that is up, and never panics.** -/
theorem call_serving (fuel : Nat) (hr : Ranges s) {rbs : List ResourceBlock} {hand : Nat}
    (hcur : s.current.isSome) (hrb : s.resblocks = some (rbs, hand)) (hne : rbs ≠ []) :
    InTurn s (s.scheduleByResourceBlocks fuel).log ∧
      (blocks (s.scheduleByResourceBlocks fuel).log).length = 1 ∧
      Serves s fuel rbs hand (s.scheduleByResourceBlocks fuel).log
        (s.scheduleByResourceBlocks fuel).result ∧
      ((s.scheduleByResourceBlocks fuel).result = .timeout ∨
        ∃ s', (s.scheduleByResourceBlocks fuel).result = ok s' ∧
          After s s' (s.scheduleByResourceBlocks fuel).log) := by
  obtain ⟨t, hcur⟩ := Option.isSome_iff_exists.mp hcur
  obtain ⟨containers, ts, resblocks, current⟩ := s
  subst hrb hcur
  have hlt : hand < rbs.length := (hr.blocks rbs hand rfl).lt (List.length_pos_of_ne_nil hne)
  have hget : rbs[hand]? = some rbs[hand] := List.getElem?_eq_getElem hlt
  have hempty : rbs.isEmpty = false := by simpa using hne
  obtain ⟨ha, hturn⟩ := hr.after_block rfl hlt
  obtain ⟨hturn', hblocks, hres⟩ := findNextThread_spec fuel rbs[hand].holder ha.ranges
  simp only [scheduleByResourceBlocks, hempty, Bool.false_eq_true, if_false, assert, hlt,
    decide_true, if_true, hget, quiet_eq, Logged.ok_bind, List.nil_append, emit_bind]
  generalize findNextThread fuel _ rbs[hand].holder = found at hturn' hblocks hres ⊢
  obtain ⟨es, result⟩ := found
  have hone : ∀ es', blocks es' = [] → (blocks (.block hand :: (es ++ es'))).length = 1 := by
    intro es' hes'
    have hall : blocks (es ++ es') = [] := by rw [blocks_append, hblocks, hes', List.append_nil]
    show (hand :: blocks (es ++ es')).length = 1
    rw [hall, List.length_singleton]
  rcases hres with ⟨hto, hsearch⟩ | ⟨s', next, hok, hsame, hsearch, ha'⟩
  · obtain rfl : result = .timeout := hto
    rw [Logged.timeout_bind]
    exact ⟨hturn.append ha hturn', by simpa using hone [] rfl,
      .endless hget (hsearch.congr rfl rfl), .inl rfl⟩
  · obtain rfl : result = ok (s', next) := hok
    have hsearch' := hsearch.congr (s := ⟨containers, ts, some (rbs, hand), some t⟩) rfl rfl
    cases next with
    | none =>
      simp only [Logged.ok_bind, Logged.pure_eq, List.append_nil]
      exact ⟨hturn.append ha hturn', by simpa using hone [] rfl, .kept hget hsearch' hsame,
        .inr ⟨s', rfl, ha.trans ha'⟩⟩
    | some th =>
      have hcur' : s'.current.isSome := by
        rw [hsame]
        rfl
      obtain ⟨hswitch, hturn''⟩ := ha'.ranges.after_switch hcur' th
      simp only [emit_bind, Logged.ok_bind, Sched.switch, Logged.pure_eq]
      exact ⟨hturn.append ha (hturn'.append ha' hturn''), hone [.switch th] rfl,
        .switched hget hsearch' rfl, .inr ⟨_, rfl, ha.trans (ha'.trans hswitch)⟩⟩

end Calls

/-! ## Runs -/

/-- The tables stay in range, and nothing panics. -/
def Fine : Outcome Sched → Prop
  | ok s => Ranges s
  | .panic _ => False
  | .timeout => True

theorem step_fine {fuel : Nat} {o : Outcome Sched} (h : Fine o) (turn : Turn) :
    Fine ((machine fuel).step o turn).1 := by
  cases o with
  | panic msg => cases h
  | timeout => exact h
  | ok s =>
    have hr : Ranges s := h
    cases turn with
    | pushBlock rb => exact hr.pushBlock rb
    | pushTs ct => exact hr.pushTs ct
    | pushSlice ct slice => exact hr.pushSlice ct slice
    | call =>
      show Fine (s.scheduleByResourceBlocks fuel).result
      by_cases hs : s.Serving
      · obtain ⟨hcur, rbs, hand, hrb, hne⟩ := hs
        obtain ⟨-, -, -, hto | ⟨s', hok, ha⟩⟩ := call_serving fuel hr hcur hrb hne
        · rw [hto]
          trivial
        · rw [hok]
          exact ha.ranges
      · rw [call_idle hs]
        exact h

theorem run_fine (fuel : Nat) (scheduler : Nat → Option Nat) (current : Option Nat)
    (turns : List Turn) : Fine ((machine fuel).run (ok (empty scheduler current)) turns).1 := by
  have hinit : Fine (ok (empty scheduler current)) := ranges_empty scheduler current
  exact (machine fuel).run_invariant (P := fun o _ => Fine o) (G := fun _ => True)
    (fun _ => trivial) hinit (fun _ _ turn h _ => step_fine h turn) turns trivial

/-- **A stretch of calls**: all is served in turn, and each call that finds something to serve
serves one block. -/
theorem calls_spec {s : Sched} (hr : Ranges s) (fuel n : Nat) :
    let r := (machine fuel).run (ok s) (List.replicate n .call)
    InTurn s r.2 ∧ (r.1 = .timeout ∨ ∃ s', r.1 = ok s' ∧ After s s' r.2 ∧
      (s.Serving → (blocks r.2).length = n) ∧ (¬ s.Serving → s' = s ∧ r.2 = [])) := by
  induction n with
  | zero => exact ⟨inTurn_nil s, .inr ⟨s, rfl, hr.after_nil, fun _ => rfl, fun _ => ⟨rfl, rfl⟩⟩⟩
  | succ n ih =>
    obtain ⟨hturn, hto | ⟨s', hs', ha, hcount, hidle⟩⟩ := ih
    · rw [List.replicate_succ', Machine.run_concat, hto]
      show InTurn s (_ ++ []) ∧ _
      rw [List.append_nil]
      exact ⟨hturn, .inl rfl⟩
    · rw [List.replicate_succ', Machine.run_concat, hs']
      by_cases hs : s.Serving
      · show InTurn s (_ ++ (s'.scheduleByResourceBlocks fuel).log) ∧
          ((s'.scheduleByResourceBlocks fuel).result = .timeout ∨ _)
        obtain ⟨hcur, rbs, hand, hrb, hne⟩ := ha.serving hs
        obtain ⟨hturn', hone, -, hres⟩ := call_serving fuel ha.ranges hcur hrb hne
        refine ⟨hturn.append ha hturn', hres.imp_right ?_⟩
        intro hres
        obtain ⟨s'', hok, ha'⟩ := hres
        refine ⟨s'', hok, ha.trans ha', fun _ => ?_, fun hno => absurd hs hno⟩
        show (blocks (_ ++ (s'.scheduleByResourceBlocks fuel).log)).length = n + 1
        rw [blocks_append, List.length_append, hcount hs, hone]
      · obtain ⟨rfl, hnil⟩ := hidle hs
        have hstep : (machine fuel).step (ok s') .call = (ok s', []) := by
          show ((s'.scheduleByResourceBlocks fuel).result,
            (s'.scheduleByResourceBlocks fuel).log) = _
          rw [call_idle hs]
        rw [hnil, hstep]
        exact ⟨inTurn_nil s', .inr ⟨s', rfl, hr.after_nil, fun h => absurd h hs,
          fun _ => ⟨rfl, rfl⟩⟩⟩

/-- In any `m` consecutive turns each of the `m` places comes up exactly once. -/
def OncePerRound (m : Nat) (is : List Nat) : Prop :=
  ∀ a, a + m ≤ is.length → ((is.drop a).take m).Perm (List.range m)

theorem oncePerRound_of_turns {m h k : Nat} {is : List Nat} (hm : 0 < m)
    (heq : is = Rotor.turns m h k) : OncePerRound m is := by
  intro a hle
  rw [heq, Rotor.length_turns] at hle
  rw [heq, Rotor.take_drop_turns hle]
  exact Rotor.turns_perm hm _

/-- **The scheduler never panics, and serves blocks and slices in turn.** A run is any sequence of
calls and pushes; a stretch of `n` calls follows it, and then one more. Once a thread is current and
a block is there, that call serves block `hand + n`: it begins a search at its holder, and the
thread that is found becomes the current one. Each visit of a search, direct or through redirects,
uses the next slice of its container. -/
theorem scheduler_rounds (fuel : Nat) (scheduler : Nat → Option Nat) (current : Option Nat)
    (turns : List Turn) :
    (∀ msg, ((machine fuel).run (ok (empty scheduler current)) turns).1 ≠ .panic msg) ∧
    ∀ s es, (machine fuel).run (ok (empty scheduler current)) turns = (ok s, es) →
    ∀ n, ∃ o es', (machine fuel).run (ok s) (List.replicate n .call) = (o, es') ∧
      (∀ rbs hand, s.resblocks = some (rbs, hand) → rbs ≠ [] → s.current.isSome →
        blocks es' = (List.range (blocks es').length).map (fun j => (hand + j) % rbs.length) ∧
        OncePerRound rbs.length (blocks es') ∧
        ∀ s', o = ok s' → (blocks es').length = n ∧ s'.containers = s.containers ∧
          ∃ o' log, (machine fuel).step (ok s') .call = (o', log) ∧
            Serves s' fuel rbs ((hand + n) % rbs.length) log o') ∧
      ∀ ct slices h, (s.containers ct).timeSlices = some slices → slices ≠ [] →
        s.handOf ct = some h →
        used ct es' = (List.range (visits ct es')).map (fun i => (h + i) % slices.length) ∧
        OncePerRound slices.length (used ct es') := by
  refine ⟨fun msg hp => ?_, fun s es hrun n => ⟨_, _, rfl, ?_, ?_⟩⟩
  · have hfine := run_fine fuel scheduler current turns
    rw [hp] at hfine
    exact hfine
  all_goals
    have hfine := run_fine fuel scheduler current turns
    rw [hrun] at hfine
    obtain ⟨hturn, hres⟩ := calls_spec hfine fuel n
  · intro rbs hand hrb hne hcur
    have hs : s.Serving := ⟨hcur, rbs, hand, hrb, hne⟩
    have hblocks := hturn.blocks rbs hand hrb hne
    refine ⟨hblocks, oncePerRound_of_turns (List.length_pos_of_ne_nil hne) hblocks, ?_⟩
    intro s' hs'
    obtain hto | ⟨s'', hs'', ha, hcount, -⟩ := hres
    · cases hto.symm.trans hs'
    · cases hs''.symm.trans hs'
      -- the hand after `n` calls
      have hrb' : s'.resblocks = some (rbs, (hand + n) % rbs.length) := by
        rw [ha.blocks, hrb, Option.map_some, hcount hs]
      obtain ⟨-, -, hserves, -⟩ := call_serving fuel ha.ranges (ha.current.trans hcur) hrb' hne
      exact ⟨hcount hs, ha.containers, _, _, rfl, hserves⟩
  · intro ct slices h hslices hne hhand
    have hof : s.slicesOf ct = slices := by rw [slicesOf, hslices, Option.getD_some]
    have hused := hturn.slices ct h hhand (by rw [hof]; exact List.length_pos_of_ne_nil hne)
    rw [hof] at hused
    exact ⟨hused, oncePerRound_of_turns (List.length_pos_of_ne_nil hne) hused⟩

/-- Two blocks, of containers 3 and 9; every other slice of container 3 goes to container 9. -/
example : ((machine 3).run (ok (empty (fun _ => none) (some 7))) [.pushTs 3, .pushTs 9,
      .pushSlice 3 (.execute 7), .pushSlice 3 (.redirect 9), .pushSlice 9 (.execute 25),
      .pushSlice 9 .routine, .pushBlock ⟨3, 1⟩, .pushBlock ⟨9, 1⟩, .call, .call, .call]).2 =
    [.block 0, .visit 3, .slice 3 0, .switch 7, .block 1, .visit 9, .slice 9 0, .switch 25,
      .block 0, .visit 3, .slice 3 1, .visit 9, .slice 9 1] := by
  decide

end Sched
end Allora
