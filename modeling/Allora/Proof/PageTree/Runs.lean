import Allora.Proof.PageTree.Fuel
import Allora.Proof.PageTree.Invariant
import Mathlib.Data.Finset.Sort
import Mathlib.Order.Interval.Finset.Nat

/-!
# Runs of the page tree

A run is a list of calls on a tree that starts empty, together with the set of pages that were
inserted and not taken out since — kept from what the calls *returned*, not from what they should
have returned. The results of this file are about every run that keeps the contract of the
operations (`Legal`): the tree is a search tree of exactly that set and `get_multiple` hands out
the lowest run of pages; and a run panics exactly when one of its removals is not `Removable`.

The second is a defect. `delete_fixup` is given `None` when a black leaf goes, and then does
nothing, so black heights drift apart; a later removal climbs past a sibling whose children it
expects and which are not there; a run of thirteen calls that ends so is at the end of the file.
-/

set_option autoImplicit false

namespace Allora
namespace PageTree

open Outcome

/-- The calls a user of the tree makes. -/
inductive Call
  | insert (n : Nat)
  | delete (n : Nat)
  | getMultiple (k : Nat)
  deriving DecidableEq, Repr

/-- The pages a result of `get_multiple(k)` hands out. -/
def handed (k : Nat) : Option Nat → Finset Nat
  | some a => Finset.Ico a (a + k)
  | none => ∅

/-- One call: the tree, and the pages that were inserted and not taken out since. -/
def Call.run (fuel : Nat) (st : PageTree × Finset Nat) :
    Call → Outcome (PageTree × Finset Nat)
  | .insert n => do
      let t ← st.1.insert fuel n
      pure (t, Insert.insert n st.2)
  | .delete n => do
      let t ← st.1.delete fuel n
      pure (t, st.2.erase n)
  | .getMultiple k => do
      let (t, r) ← st.1.getMultiple fuel k
      pure (t, st.2 \ handed k r)

/-- The contract of a call. -/
def Call.Allowed (S : Finset Nat) : Call → Prop
  | .insert n => 1 ≤ n ∧ n ∉ S
  | .delete n => n ∈ S
  | .getMultiple k => 1 ≤ k

/-- A run from the empty tree, over memory with any contents. -/
def run (fuel : Nat) (mem : Nat → PageNode) (calls : List Call) :
    Outcome (PageTree × Finset Nat) :=
  calls.foldlM (Call.run fuel) (empty mem, ∅)

/-- Every call of the run keeps the contract when its turn comes. -/
def Legal (mem : Nat → PageNode) (calls : List Call) : Prop :=
  ∀ cs c, cs ++ [c] <+: calls → ∀ fuel t S, run fuel mem cs = ok (t, S) → c.Allowed S

/-- What a call rests on. `get_multiple(0)` is no exception: it takes nothing. -/
def Call.Sound (S : Finset Nat) : Call → Prop
  | .insert n => 1 ≤ n ∧ n ∉ S
  | .delete n => n ∈ S
  | .getMultiple _ => True

/-- Every call of the run has what it rests on when its turn comes. -/
def SoundRun (mem : Nat → PageNode) (calls : List Call) : Prop :=
  ∀ cs c, cs ++ [c] <+: calls → ∀ fuel t S, run fuel mem cs = ok (t, S) → c.Sound S

theorem Call.Allowed.sound {S : Finset Nat} {c : Call} (h : c.Allowed S) : c.Sound S := by
  cases c with
  | insert n => exact h
  | delete n => exact h
  | getMultiple k => trivial

theorem Legal.sound {mem : Nat → PageNode} {calls : List Call} (h : Legal mem calls) :
    SoundRun mem calls :=
  fun cs c hp fuel t S hrun => (h cs c hp fuel t S hrun).sound

/-! ## One call -/

/-- The tree after a call, if it comes to one. -/
def Call.next (s : Tree Nat) : Call → Option (Tree Nat)
  | .insert n => insertTree n s
  | .delete n => deleteTree n s
  | .getMultiple k => deleteTrees (takes s.toList k) s

/-- The removals of a call do not run into a missing child, in the tree the call finds. That is all
that can go wrong with pages below `2 ^ 52`, for which `PAGE_SIZE * n` does not overflow; there are
no others. -/
def Call.Safe (s : Tree Nat) : Call → Prop
  | .insert _ => True
  | .delete n => Removable n s = true
  | .getMultiple k => RemovableAll (takes s.toList k) s

/-- The tree of a run: it holds exactly the pages of `S`. -/
structure Keeps (t : PageTree) (S : Finset Nat) (s : Tree Nat) : Prop extends Holds t s where
  pages : ∀ n, n ∈ s.toList ↔ n ∈ S

theorem Keeps.card {t : PageTree} {S : Finset Nat} {s : Tree Nat} (h : Keeps t S s) :
    s.toList.length = S.card := by
  rw [← List.toFinset_card_of_nodup h.nodup]
  congr 1
  ext n
  simpa using h.pages n

theorem Keeps.unique {t : PageTree} {S S' : Finset Nat} {s s' : Tree Nat} (h : Keeps t S s)
    (h' : Keeps t S' s') : s = s' :=
  h.hat.stored.unique h'.hat.stored (h.hat.around.symm.trans h'.hat.around)

/-- `get_multiple` finds the least start of a run. -/
theorem firstRun_least {S : Finset Nat} {L : List Nat} (hs : L.Pairwise (· < ·))
    (hL : ∀ n, n ∈ L ↔ n ∈ S) {k : Nat} (hk : 1 ≤ k) (a : Nat) :
    firstRun L k = some a ↔ IsLeast {a | ∀ i < k, a + i ∈ S} a := by
  have hstart : ∀ b, startsRun L k b = true ↔ ∀ i < k, b + i ∈ S := by
    intro b
    simp only [startsRun, List.all_eq_true, decide_eq_true_eq, List.mem_range'_1, hL]
    constructor
    · intro h i hi
      exact h (b + i) (by omega)
    · intro h m hm
      have := h (m - b) (by omega)
      rwa [Nat.add_sub_cancel' hm.1] at this
  have hmem : ∀ b, (∀ i < k, b + i ∈ S) → b ∈ L := fun b hb => (hL b).mpr (hb 0 hk)
  rw [firstRun, List.find?_eq_some_iff_append]
  constructor
  · rintro ⟨hrun, A, B, rfl, hA⟩
    refine ⟨(hstart a).mp hrun, fun b hb => ?_⟩
    -- an earlier start would stand before `a` in the sequence
    rw [List.pairwise_append, List.pairwise_cons] at hs
    rcases List.mem_append.mp (hmem b hb) with hbA | hbB
    · have := hA b hbA
      rw [(hstart b).mpr hb] at this
      cases this
    · rcases List.mem_cons.mp hbB with rfl | hbB
      · exact Nat.le_refl _
      · exact (hs.2.1.1 b hbB).le
  · rintro ⟨hrun, hleast⟩
    obtain ⟨A, B, rfl⟩ := List.append_of_mem (hmem a hrun)
    refine ⟨(hstart a).mpr hrun, A, B, rfl, fun b hb => ?_⟩
    rw [Bool.not_eq_true', ← Bool.not_eq_true, hstart]
    intro hb'
    have h1 := hleast hb'
    rw [List.pairwise_append] at hs
    have h2 := hs.2.2 b hb a (by simp)
    omega

theorem mem_takes {L : List Nat} {k m : Nat} :
    m ∈ takes L k ↔ m ∈ handed k (firstRun L k) := by
  rw [takes]
  cases firstRun L k with
  | none => simp [handed]
  | some a => simp [handed, List.mem_range'_1]

/-- **One call**: it panics exactly where it is not safe, and otherwise returns the next tree. -/
theorem call_keeps {t : PageTree} {S : Finset Nat} {s : Tree Nat} {fuel : Nat} {c : Call}
    (h : Keeps t S s) (hc : c.Sound S) (hf : S.card + 1 < fuel) :
    match c.next s with
    | none => ¬ c.Safe s ∧ Panics (c.run fuel (t, S))
    | some s' => c.Safe s ∧ ∃ t' S', c.run fuel (t, S) = ok (t', S') ∧ Keeps t' S' s' := by
  rw [← h.card] at hf
  cases c with
  | insert n =>
    have hns : n ∉ s.toList := fun hm => hc.2 ((h.pages n).mp hm)
    obtain ⟨t', s', hrun, h', hins, hperm, -⟩ := insert_holds h.toHolds (by have := hc.1; omega) hns hf
    rw [Call.next, hins]
    refine ⟨trivial, t', _, by rw [Call.run, hrun]; rfl, h', fun m => ?_⟩
    rw [hperm.mem_iff, List.mem_cons, Finset.mem_insert, h.pages]
  | delete n =>
    have hdel := delete_holds h.toHolds ((h.pages n).mpr hc) (show _ < fuel by omega)
    rw [Call.next, Call.Safe]
    cases hd : deleteTree n s with
    | none =>
      rw [hd] at hdel
      obtain ⟨msg, hmsg⟩ := hdel
      exact ⟨by simp [(deleteTree_eq_none_iff n s).mp hd], msg, by rw [Call.run, hmsg]; rfl⟩
    | some s' =>
      rw [hd] at hdel
      obtain ⟨t', hrun, h', hseq, -⟩ := hdel
      refine ⟨?_, t', _, by rw [Call.run, hrun]; rfl, h', fun m => ?_⟩
      · rw [← Bool.not_eq_false, ← deleteTree_eq_none_iff, hd]
        simp
      · rw [hseq, h.nodup.mem_erase_iff, Finset.mem_erase, ← h.pages]
  | getMultiple k =>
    have hget := getMultiple_holds (k := k) h.toHolds (show _ < fuel by omega)
    rw [Call.next, Call.Safe]
    cases hd : deleteTrees (takes s.toList k) s with
    | none =>
      rw [hd] at hget
      obtain ⟨msg, hmsg⟩ := hget
      exact ⟨(deleteTrees_eq_none_iff _ _).mp hd, msg, by rw [Call.run, hmsg]; rfl⟩
    | some s' =>
      rw [hd] at hget
      obtain ⟨t', hrun, h', hseq, -, -⟩ := hget
      refine ⟨?_, t', _, by rw [Call.run, hrun]; rfl, h', fun m => ?_⟩
      · by_contra hs
        rw [(deleteTrees_eq_none_iff _ _).mpr hs] at hd
        cases hd
      · rw [hseq, h.nodup.mem_sdiff_iff, mem_takes, Finset.mem_sdiff, ← h.pages]

theorem call_mono {fuel fuel' : Nat} (hf : fuel ≤ fuel') (st : PageTree × Finset Nat) (c : Call) :
    Approx (c.run fuel st) (c.run fuel' st) := by
  cases c with
  | insert n => exact (insert_mono hf _ _).bind fun _ => .refl _
  | delete n => exact (delete_mono hf _ _).bind fun _ => .refl _
  | getMultiple k => exact (getMultiple_mono hf _ _).bind fun _ => .refl _

/-! ## Every run -/

theorem run_mono (mem : Nat → PageNode) (calls : List Call) {fuel fuel' : Nat}
    (hf : fuel ≤ fuel') : Approx (run fuel mem calls) (run fuel' mem calls) :=
  .foldlM (fun st c => call_mono hf st c) calls _

theorem run_snoc (fuel : Nat) (mem : Nat → PageNode) (cs : List Call) (c : Call) :
    run fuel mem (cs ++ [c]) = (do let st ← run fuel mem cs; c.run fuel st) := by
  rw [run, List.foldlM_append]
  congr 1
  funext st
  rw [List.foldlM_cons]
  exact bind_pure _

theorem Legal.of_snoc {mem : Nat → PageNode} {cs : List Call} {c : Call}
    (h : Legal mem (cs ++ [c])) : Legal mem cs :=
  fun ds d hp => h ds d (hp.trans (List.prefix_append _ _))

theorem SoundRun.of_snoc {mem : Nat → PageNode} {cs : List Call} {c : Call}
    (h : SoundRun mem (cs ++ [c])) : SoundRun mem cs :=
  fun ds d hp => h ds d (hp.trans (List.prefix_append _ _))

/-- The trees of a run, without memory. -/
def treeRun (calls : List Call) : Option (Tree Nat) := calls.foldlM Call.next .nil

theorem treeRun_snoc (cs : List Call) (c : Call) :
    treeRun (cs ++ [c]) = (treeRun cs).bind (Call.next · c) := by
  rw [treeRun, List.foldlM_append]
  congr 1
  funext s
  rw [List.foldlM_cons]
  exact bind_pure _

/-- The invariant over a whole run, at whatever fuel it came back. -/
theorem run_keeps {mem : Nat → PageNode} {calls : List Call} (hl : SoundRun mem calls) :
    ∀ {fuel : Nat} {t : PageTree} {S : Finset Nat}, run fuel mem calls = ok (t, S) →
      ∃ s, treeRun calls = some s ∧ Keeps t S s := by
  induction calls using List.reverseRecOn with
  | nil =>
    rintro fuel t S h
    cases h
    exact ⟨.nil, rfl, holds_empty mem, by simp⟩
  | append_singleton cs c ih =>
    intro fuel t S h
    rw [run_snoc, bind_eq_ok] at h
    obtain ⟨⟨t₀, S₀⟩, h₀, hc⟩ := h
    obtain ⟨s₀, hs₀, hk₀⟩ := ih hl.of_snoc h₀
    have hallow := hl cs c (List.prefix_refl _) fuel t₀ S₀ h₀
    -- the call answered, so it gives the same answer at a fuel that is surely enough
    have hcall := call_keeps hk₀ hallow (show _ < max fuel (S₀.card + 2) by omega)
    have hok := (call_mono (Nat.le_max_left fuel (S₀.card + 2)) (t₀, S₀) c).eq_ok hc
    rw [hok] at hcall
    cases hn : c.next s₀ with
    | none =>
      rw [hn] at hcall
      exact absurd hcall.2 (not_panics_ok _)
    | some s' =>
      rw [hn] at hcall
      obtain ⟨-, t', S', heq, hk'⟩ := hcall
      cases heq
      exact ⟨s', by rw [treeRun_snoc, hs₀, Option.bind_some, hn], hk'⟩

/-- A run whose trees come to an end returns. -/
theorem completes_of_treeRun {mem : Nat → PageNode} {calls : List Call} (hl : Legal mem calls)
    {s : Tree Nat} (h : treeRun calls = some s) :
    ∃ fuel t S, run fuel mem calls = ok (t, S) ∧ Keeps t S s := by
  induction calls using List.reverseRecOn generalizing s with
  | nil =>
    cases h
    exact ⟨0, _, _, rfl, holds_empty mem, by simp⟩
  | append_singleton cs c ih =>
    rw [treeRun_snoc, Option.bind_eq_some_iff] at h
    obtain ⟨s₀, hs₀, hn⟩ := h
    obtain ⟨fuel, t, S, hrun, hk⟩ := ih hl.of_snoc hs₀
    have hcall := call_keeps hk (hl cs c (List.prefix_refl _) fuel t S hrun).sound
      (show _ < max fuel (S.card + 2) by omega)
    rw [hn] at hcall
    obtain ⟨-, t', S', hok, hk'⟩ := hcall
    refine ⟨max fuel (S.card + 2), t', S', ?_, hk'⟩
    rw [run_snoc, (run_mono mem cs (Nat.le_max_left _ _)).eq_ok hrun, ok_bind, hok]

/-! ## Concrete runs -/

/-- The contract, checked on the trees of a run. -/
def legalFrom : List Call → Tree Nat → Bool
  | [], _ => true
  | c :: cs, s =>
      (match c with
        | .insert n => 1 ≤ n && n ∉ s.toList
        | .delete n => n ∈ s.toList
        | .getMultiple k => 1 ≤ k) &&
      (match c.next s with
        | some s' => legalFrom cs s'
        | none => true)

theorem allowed_of_legalFrom {c : Call} {rest : List Call} {t : PageTree} {S : Finset Nat} :
    ∀ {cs : List Call} {s₀ s : Tree Nat}, legalFrom (cs ++ c :: rest) s₀ = true →
      cs.foldlM Call.next s₀ = some s → Keeps t S s → c.Allowed S
  | [], s₀, s, h, hs, hk => by
    cases hs
    simp only [List.nil_append, legalFrom, Bool.and_eq_true] at h
    cases c with
    | insert n => simpa [Call.Allowed, hk.pages] using h.1
    | delete n => simpa [Call.Allowed, hk.pages] using h.1
    | getMultiple k => simpa [Call.Allowed] using h.1
  | d :: cs, s₀, s, h, hs, hk => by
    rw [List.foldlM_cons] at hs
    simp only [List.cons_append, legalFrom, Bool.and_eq_true] at h
    cases hn : d.next s₀ with
    | none => simp [hn] at hs
    | some s₁ =>
      rw [hn] at hs h
      exact allowed_of_legalFrom h.2 hs hk

theorem legal_of_legalFrom (mem : Nat → PageNode) {calls : List Call}
    (h : legalFrom calls .nil = true) : Legal mem calls := by
  have hall : ∀ cs, cs <+: calls → Legal mem cs := by
    intro cs
    induction cs using List.reverseRecOn with
    | nil =>
      intro _ ds d hp
      simp at hp
    | append_singleton cs c ih =>
      intro hpre ds d hp fuel t S hrun
      have hcs := ih ((List.prefix_append _ _).trans hpre)
      rcases List.prefix_concat_iff.mp hp with heq | hp
      · obtain ⟨rfl, hd⟩ := List.append_inj' heq rfl
        cases hd
        obtain ⟨s, hs, hk⟩ := run_keeps hcs.sound hrun
        obtain ⟨rest, rfl⟩ := hpre
        exact allowed_of_legalFrom (by simpa using h) hs hk
      · exact hcs ds d hp fuel t S hrun
  exact hall calls (List.prefix_refl _)

/-- Memory that has never been written. -/
def blankMem : Nat → PageNode := fun _ => ⟨0, none, none, none, .red⟩

/-- Three pages go in, two of them side by side, and a run of two is asked for. -/
def threePages : List Call := [.insert 2, .insert 5, .insert 3, .getMultiple 2]

/-! ## The tree of a run -/

/-- **The page tree is a search tree of the free pages, and `get_multiple` hands out the lowest
run of them**, along every run that keeps the contract. No call of such a run loops. -/
theorem run_search_tree {mem : Nat → PageNode} {calls : List Call} (hl : Legal mem calls)
    {fuel : Nat} {t : PageTree} {S : Finset Nat} (h : run fuel mem calls = ok (t, S)) :
    (∃ s : Tree Nat, t.root = link s ∧ Stored t.mem none s ∧ s.toList.Pairwise (· < ·) ∧
      ∀ n, n ∈ s.toList ↔ n ∈ S) ∧
    (∀ k, 1 ≤ k → ∀ fuel' t' r, t.getMultiple fuel' k = ok (t', r) →
      (∀ a, r = some a ↔ IsLeast {a | ∀ i < k, a + i ∈ S} a) ∧
      (r = none ↔ ¬ ∃ a, ∀ i < k, a + i ∈ S) ∧ (r = none → t' = t) ∧
      ∃ s' : Tree Nat, t'.root = link s' ∧ Stored t'.mem none s' ∧ s'.toList.Pairwise (· < ·) ∧
        ∀ n, n ∈ s'.toList ↔ n ∈ S \ handed k r) ∧
    (∀ c : Call, c.Allowed S → ∀ fuel', S.card + 1 < fuel' → c.run fuel' (t, S) ≠ timeout) := by
  obtain ⟨s, -, hk⟩ := run_keeps hl.sound h
  refine ⟨⟨s, hk.hat.around, hk.hat.stored, hk.sorted, hk.pages⟩, ?_, ?_⟩
  · intro k hk1 fuel' t' r hget
    have hrun := getMultiple_holds (k := k) hk.toHolds
      (show _ < max fuel' (S.card + 1) by rw [hk.card]; omega)
    rw [(getMultiple_mono (Nat.le_max_left fuel' (S.card + 1)) t k).eq_ok hget] at hrun
    cases hd : deleteTrees (takes s.toList k) s with
    | none =>
      rw [hd] at hrun
      exact absurd hrun (not_panics_ok _)
    | some s' =>
      rw [hd] at hrun
      obtain ⟨t₁, heq, h', hseq, -, hsame⟩ := hrun
      cases heq
      have hleast := firstRun_least hk.sorted hk.pages hk1
      refine ⟨hleast, ?_, hsame, s', h'.hat.around, h'.hat.stored, h'.sorted, fun m => ?_⟩
      · constructor
        · rintro hnone ⟨a, ha⟩
          -- a nonempty set of starts has a least one
          classical
          have hex : ∃ a, ∀ i < k, a + i ∈ S := ⟨a, ha⟩
          have hmin := (hleast _).mpr ⟨Nat.find_spec hex, fun b hb => Nat.find_min' hex hb⟩
          rw [hnone] at hmin
          cases hmin
        · intro hno
          cases hr : firstRun s.toList k with
          | none => rfl
          | some a => exact absurd ⟨a, ((hleast a).mp hr).1⟩ hno
      · rw [hseq, hk.nodup.mem_sdiff_iff, mem_takes, Finset.mem_sdiff, ← hk.pages]
  · intro c hc fuel' hf htime
    have hcall := call_keeps hk hc.sound hf
    rw [htime] at hcall
    cases hn : c.next s with
    | none =>
      rw [hn] at hcall
      obtain ⟨-, msg, hmsg⟩ := hcall
      cases hmsg
    | some s' =>
      rw [hn] at hcall
      obtain ⟨-, t', S', heq, -⟩ := hcall
      cases heq

theorem run_search_tree_threePages : ∃ fuel t S, run fuel blankMem threePages = ok (t, S) ∧
    ∃ s : Tree Nat, t.root = link s ∧ Stored t.mem none s ∧ s.toList.Pairwise (· < ·) ∧
      ∀ n, n ∈ s.toList ↔ n ∈ S := by
  have hl : Legal blankMem threePages := legal_of_legalFrom blankMem (by decide)
  have htree : treeRun threePages = some (.node .black .nil 5 .nil) := by decide
  obtain ⟨fuel, t, S, hrun, -⟩ := completes_of_treeRun hl htree
  exact ⟨fuel, t, S, hrun, (run_search_tree hl hrun).1⟩

/-! ## Which runs panic -/

/-- Every call of the run is safe in the tree it finds in memory. -/
def SafeRun (mem : Nat → PageNode) (calls : List Call) : Prop :=
  ∀ cs c, cs ++ [c] <+: calls → ∀ fuel t S s, run fuel mem cs = ok (t, S) →
    t.root = link s → Stored t.mem none s → c.Safe s

theorem SafeRun.of_snoc {mem : Nat → PageNode} {cs : List Call} {c : Call}
    (h : SafeRun mem (cs ++ [c])) : SafeRun mem cs :=
  fun ds d hp => h ds d (hp.trans (List.prefix_append _ _))

theorem SafeRun.treeRun {mem : Nat → PageNode} {calls : List Call} (hl : Legal mem calls)
    (hs : SafeRun mem calls) : ∃ s, treeRun calls = some s := by
  induction calls using List.reverseRecOn with
  | nil => exact ⟨_, rfl⟩
  | append_singleton cs c ih =>
    obtain ⟨s, hs₀⟩ := ih hl.of_snoc hs.of_snoc
    obtain ⟨fuel, t, S, hrun, hk⟩ := completes_of_treeRun hl.of_snoc hs₀
    have hallow := hl cs c (List.prefix_refl _) fuel t S hrun
    have hsafe := hs cs c (List.prefix_refl _) fuel t S s hrun hk.hat.around hk.hat.stored
    have hcall := call_keeps hk hallow.sound (show _ < S.card + 2 by omega)
    rw [treeRun_snoc, hs₀, Option.bind_some]
    cases hn : c.next s with
    | none => rw [hn] at hcall; exact absurd hsafe hcall.1
    | some s' => exact ⟨s', rfl⟩

/-- An unsafe call panics, and nothing after it is reached. -/
theorem safeRun_of_no_panic {mem : Nat → PageNode} {calls : List Call} (hl : Legal mem calls)
    (hno : ∀ fuel, ¬ Panics (run fuel mem calls)) : SafeRun mem calls := by
  intro cs c hpre fuel t S s hrun hroot hstored
  have hl' : Legal mem (cs ++ [c]) := fun ds d hp => hl ds d (hp.trans hpre)
  obtain ⟨s₁, -, hk⟩ := run_keeps hl'.of_snoc.sound hrun
  obtain rfl : s₁ = s := hk.hat.stored.unique hstored (hk.hat.around.symm.trans hroot)
  by_contra hunsafe
  have hcall := call_keeps hk (hl cs c hpre fuel t S hrun).sound
    (show _ < max fuel (S.card + 2) by omega)
  refine hno (max fuel (S.card + 2)) ?_
  obtain ⟨rest, rfl⟩ := hpre
  cases hn : c.next s₁ with
  | some s' => rw [hn] at hcall; exact absurd hcall.1 hunsafe
  | none =>
    rw [hn] at hcall
    obtain ⟨-, msg, hmsg⟩ := hcall
    have hpanic : run (max fuel (S.card + 2)) mem (cs ++ [c]) = panic msg := by
      rw [run_snoc, (run_mono mem cs (Nat.le_max_left _ _)).eq_ok hrun, ok_bind, hmsg]
    rw [run] at hpanic
    exact ⟨msg, by rw [run, List.foldlM_append, hpanic, panic_bind]⟩

/-- **A run panics exactly when one of its removals runs into a missing child**; otherwise every
call of it returns. -/
theorem run_panics_iff_unsafe {mem : Nat → PageNode} {calls : List Call} (hl : Legal mem calls) :
    ((∀ fuel, ¬ Panics (run fuel mem calls)) ↔ SafeRun mem calls) ∧
      (SafeRun mem calls → ∃ fuel st, run fuel mem calls = ok st) := by
  have hret : SafeRun mem calls → ∃ fuel st, run fuel mem calls = ok st := by
    intro hs
    obtain ⟨s, htree⟩ := hs.treeRun hl
    obtain ⟨fuel, t, S, hok, -⟩ := completes_of_treeRun hl htree
    exact ⟨fuel, _, hok⟩
  refine ⟨⟨safeRun_of_no_panic hl, fun hs fuel hp => ?_⟩, hret⟩
  obtain ⟨fuel', st, hok⟩ := hret hs
  have h1 := (run_mono mem calls (Nat.le_max_left fuel fuel')).panics hp
  rw [(run_mono mem calls (Nat.le_max_right fuel fuel')).eq_ok hok] at h1
  exact not_panics_ok _ h1

/-! ## A run that panics -/

/-- Ten pages go in, in order; then 4, 2 and 3 are taken out. -/
def tenPages : List Call :=
  (List.range' 1 10).map .insert ++ [.delete 4, .delete 2, .delete 3]

theorem legal_tenPages (mem : Nat → PageNode) : Legal mem tenPages :=
  legal_of_legalFrom mem (by decide +kernel)

/-- Removing 4 and 2 takes two black leaves out and leaves 3 a black node over the black 1. When 3
goes, the sibling 6 of 1 has no left child. -/
theorem delete_panics_after_ten :
    Legal blankMem tenPages ∧ ∃ fuel, Panics (run fuel blankMem tenPages) := by
  refine ⟨legal_tenPages blankMem, ?_⟩
  by_contra hno
  have hl := legal_tenPages blankMem
  obtain ⟨s, hs⟩ := (safeRun_of_no_panic hl fun fuel hp => hno ⟨fuel, hp⟩).treeRun hl
  have hnone : treeRun tenPages = none := by decide +kernel
  rw [hnone] at hs
  cases hs

theorem run_panics_iff_unsafe_tenPages :
    ((∀ fuel, ¬ Panics (run fuel blankMem tenPages)) ↔ SafeRun blankMem tenPages) ∧
      (SafeRun blankMem tenPages → ∃ fuel st, run fuel blankMem tenPages = ok st) :=
  run_panics_iff_unsafe (legal_tenPages blankMem)

end PageTree
end Allora
