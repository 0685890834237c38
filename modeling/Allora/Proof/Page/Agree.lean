import Allora.Proof.Page.Bits
import Mathlib.Data.List.Find
import Mathlib.Data.List.Sort

/-!
# The two stores agree

Both stores are compared with one thing that neither of them is: which of the `n` pages are used,
and `spec`, what a call does to that. `PageMap` is it up to the words of a bitmap, and `PageSet` up
to a map that has an entry for every page and for nothing else.

The scan of `PageSet` computes the end of a run before it looks at any of it, also for runs that
reach past the last page. That is where addresses can overflow, and where the two part.
-/

set_option autoImplicit false

namespace Allora

open Outcome

/-! ## Calls -/

inductive PageCall
  | get (count : Nat)
  | put (addr count : Nat)

inductive Reply
  | page (addr : Nat)
  | done
  | error (e : PageError)
  deriving DecidableEq

/-- The calls the two stores can be compared on: a count of at most one more than there are pages,
and runs of pages that lie in the region. -/
def PageCall.Legal (start n : Nat) : PageCall → Prop
  | .get count => 1 ≤ count ∧ count ≤ n + 1
  | .put addr count =>
      PAGE_SIZE ∣ addr ∧ start ≤ addr ∧ addr + count * PAGE_SIZE ≤ start + n * PAGE_SIZE

instance (start n : Nat) : DecidablePred (PageCall.Legal start n)
  | .get count => inferInstanceAs (Decidable (1 ≤ count ∧ count ≤ n + 1))
  | .put addr count => inferInstanceAs (Decidable (PAGE_SIZE ∣ addr ∧ start ≤ addr ∧
      addr + count * PAGE_SIZE ≤ start + n * PAGE_SIZE))

def Reply.ofGet : Except PageError Nat → Reply
  | .ok addr => .page addr
  | .error e => .error e

def Reply.ofPut : Except PageError Unit → Reply
  | .ok () => .done
  | .error e => .error e

def PageMap.call (m : PageMap) : PageCall → Outcome (PageMap × Reply)
  | .get count => do
    let (m, r) ← m.getMultiple count
    pure (m, .ofGet r)
  | .put addr count => do
    let (m, r) ← m.putMultiple addr count
    pure (m, .ofPut r)

def PageSet.call (s : PageSet) : PageCall → Outcome (PageSet × Reply)
  | .get count => do
    let (s, r) ← s.getMultiple count
    pure (s, .ofGet r)
  | .put addr count => do
    let (s, r) ← s.putMutiple addr count
    pure (s, .ofPut r)

/-- Calls one after another, with their replies. -/
def runCalls {σ : Type} (call : σ → PageCall → Outcome (σ × Reply)) :
    σ → List PageCall → Outcome (σ × List Reply)
  | s, [] => ok (s, [])
  | s, c :: cs => do
    let (s, r) ← call s c
    let (s, rs) ← runCalls call s cs
    pure (s, r :: rs)

/-! ## What a call is for -/

/-- A call, on the pages of a region that are used. -/
def spec (start n : Nat) (used : Nat → Bool) : PageCall → (Nat → Bool) × Reply
  | .get count =>
    match Bitmap.firstFit n count used with
    | none => (used, .error .pageNotFound)
    | some i => (paint used i count true, .page (start + i * PAGE_SIZE))
  | .put addr count =>
    let i := (addr - start) / PAGE_SIZE
    if stretch used i count true then
      (paint used i count false, .done)
    else
      (used, .error .pageExists)

/-- A store that does what `spec` says, as seen by `Shows`; failed calls leave it alone. -/
def Simulates {σ : Type} (start n : Nat) (call : σ → PageCall → Outcome (σ × Reply))
    (Shows : σ → (Nat → Bool) → Prop) : Prop :=
  ∀ s used c, Shows s used → c.Legal start n →
    ∃ s', call s c = ok (s', (spec start n used c).2) ∧ Shows s' (spec start n used c).1 ∧
      ∀ e, (spec start n used c).2 = .error e → s' = s

/-- Where `spec` gets to. -/
def specRun (start n : Nat) : (Nat → Bool) → List PageCall → (Nat → Bool) × List Reply
  | used, [] => (used, [])
  | used, c :: cs =>
    let (used, r) := spec start n used c
    let (used, rs) := specRun start n used cs
    (used, r :: rs)

theorem Simulates.run {σ : Type} {start n : Nat} {call : σ → PageCall → Outcome (σ × Reply)}
    {Shows : σ → (Nat → Bool) → Prop} (h : Simulates start n call Shows) :
    ∀ {cs : List PageCall} {s : σ} {used : Nat → Bool}, Shows s used →
      (∀ c ∈ cs, c.Legal start n) →
      ∃ s', runCalls call s cs = ok (s', (specRun start n used cs).2) ∧
        Shows s' (specRun start n used cs).1
  | [], s, used, hs, _ => ⟨s, rfl, hs⟩
  | c :: cs, s, used, hs, hl => by
    obtain ⟨s₁, h₁, hs₁, -⟩ := h s used c hs (hl c List.mem_cons_self)
    have hl' : ∀ c' ∈ cs, c'.Legal start n := fun c' hc' => hl c' (List.mem_cons_of_mem c hc')
    obtain ⟨s₂, h₂, hs₂⟩ := h.run hs₁ hl'
    refine ⟨s₂, ?_, hs₂⟩
    simp only [runCalls, h₁, ok_bind, h₂, pure_eq_ok]
    rfl

/-! ## `PageMap` -/

namespace PageMap

variable {m : PageMap} {start n : Nat} {used : Nat → Bool}

structure Shows (start n : Nat) (m : PageMap) (used : Nat → Bool) : Prop where
  start_eq : m.start = start
  pool : m.pool.Shows n used

theorem shows_new (start n : Nat) : Shows start n (new start (n * PAGE_SIZE)) fun _ => false := by
  refine ⟨rfl, ?_⟩
  have hn : n * PAGE_SIZE / PAGE_SIZE = n := Nat.mul_div_cancel n (by decide)
  rw [new, hn]
  exact Bitmap.shows_new n

end PageMap

namespace PageMap

end PageMap
/-! ## `PageSet` -/

namespace PageSet

variable {s : PageSet} {start n i c : Nat} {entries : Nat → Option Bool} {used : Nat → Bool}

/-- The address of a page. -/
def addrOf (start i : Nat) : Nat := start + i * PAGE_SIZE

theorem addrOf_inj {i j : Nat} : addrOf start i = addrOf start j ↔ i = j := by
  unfold addrOf PAGE_SIZE
  omega

/-- The entries of the map, page by page; there are no others. -/
structure Holds (start : Nat) (s : PageSet) (entries : Nat → Option Bool) : Prop where
  at_page : ∀ i, s.map[addrOf start i]? = entries i
  off_page : ∀ p, (∀ i, p ≠ addrOf start i) → s.map[p]? = none

theorem holds_new (start : Nat) : Holds start new fun _ => none :=
  ⟨fun _ => Std.TreeMap.getElem?_emptyc, fun _ _ => Std.TreeMap.getElem?_emptyc⟩

/-- The entries from `i` on, `c` of them, become `v`. -/
def fill (entries : Nat → Option Bool) (i c : Nat) (v : Bool) : Nat → Option Bool :=
  fun j => if i ≤ j ∧ j < i + c then some v else entries j

theorem fill_update (entries : Nat → Option Bool) (i c : Nat) (v : Bool) :
    fill (Function.update entries i (some v)) (i + 1) c v = fill entries i (c + 1) v := by
  funext j
  unfold fill
  by_cases hj : j = i
  · subst hj
    rw [if_neg (by omega), if_pos (by omega), Function.update_self]
  · rw [Function.update_of_ne hj]
    have hiff : (i + 1 ≤ j ∧ j < i + 1 + c) ↔ (i ≤ j ∧ j < i + (c + 1)) := by omega
    simp only [hiff]

theorem fill_zero (entries : Nat → Option Bool) (i : Nat) (v : Bool) :
    fill entries i 0 v = entries := by
  funext j
  exact if_neg (by omega)

theorem Holds.insert (h : Holds start s entries) (i : Nat) (v : Bool) :
    Holds start ⟨s.map.insert (addrOf start i) v⟩ (Function.update entries i (some v)) := by
  have hget : ∀ p, (s.map.insert (addrOf start i) v)[p]? =
      if addrOf start i = p then some v else s.map[p]? := by
    intro p
    simp only [Std.TreeMap.getElem?_insert, Std.compare_eq_iff_eq]
  refine ⟨fun j => (hget _).trans ?_, fun p hp => (hget _).trans ?_⟩
  · simp only [addrOf_inj]
    by_cases hj : i = j
    · subst hj
      rw [if_pos rfl, Function.update_self]
    · rw [if_neg hj, Function.update_of_ne (Ne.symm hj)]
      exact h.at_page j
  · rw [if_neg (Ne.symm (hp i))]
    exact h.off_page p hp

/-- A run of pages, from page `i` on. -/
theorem range_succ (start i c : Nat) :
    List.range' (addrOf start i) (c + 1) PAGE_SIZE =
      addrOf start i :: List.range' (addrOf start (i + 1)) c PAGE_SIZE := by
  have hnext : addrOf start i + PAGE_SIZE = addrOf start (i + 1) := by
    unfold addrOf
    rw [Nat.add_mul, Nat.one_mul, Nat.add_assoc]
  rw [List.range'_succ, hnext]

/-- `put_mutiple` fills a run. -/
theorem Holds.inserts : ∀ {c i : Nat} {s : PageSet} {entries : Nat → Option Bool},
    Holds start s entries → Holds start
      ⟨(List.range' (addrOf start i) c PAGE_SIZE).foldl (fun map p => map.insert p false) s.map⟩
      (fill entries i c false)
  | 0, i, s, entries, h => by rwa [fill_zero]
  | c + 1, i, s, entries, h => by
    rw [range_succ, List.foldl_cons, ← fill_update]
    exact Holds.inserts (h.insert i false)

/-- `get_multiple` fills one, of pages it has. -/
theorem Holds.takes : ∀ {c i : Nat} {s : PageSet} {entries : Nat → Option Bool},
    Holds start s entries → (∀ j, i ≤ j → j < i + c → (entries j).isSome) →
    ∃ s', (List.range' (addrOf start i) c PAGE_SIZE).foldlM take s = ok s' ∧
      Holds start s' (fill entries i c true)
  | 0, i, s, entries, h, _ => ⟨s, rfl, by rwa [fill_zero]⟩
  | c + 1, i, s, entries, h, hsome => by
    obtain ⟨v, hv⟩ := Option.isSome_iff_exists.mp (hsome i (Nat.le_refl _) (by omega))
    have htake : take s (addrOf start i) = ok ⟨s.map.insert (addrOf start i) true⟩ := by
      simp [take, h.at_page, hv, PAGE_IS_FREE]
    have hsome' : ∀ j, i + 1 ≤ j → j < i + 1 + c →
        (Function.update entries i (some true) j).isSome := by
      intro j h1 h2
      rw [Function.update_of_ne (by omega)]
      exact hsome j (by omega) (by omega)
    obtain ⟨s', hs', h'⟩ := Holds.takes (h.insert i true) hsome'
    rw [fill_update] at h'
    refine ⟨s', ?_, h'⟩
    rw [range_succ, List.foldlM_cons, htake, ok_bind, hs']

/-- The keys, in order, when there are `n` pages. -/
theorem Holds.keys_eq (h : Holds start s entries) (hn : ∀ i, (entries i).isSome ↔ i < n) :
    s.map.keys = List.range' start n PAGE_SIZE := by
  have hsorted : s.map.keys.Pairwise (· < ·) :=
    Std.TreeMap.ordered_keys.imp fun hlt => Nat.compare_eq_lt.mp hlt
  have hrange : (List.range' start n PAGE_SIZE).Pairwise (· < ·) :=
    List.pairwise_lt_range' _ (by decide)
  have hmem : ∀ p, p ∈ s.map.keys ↔ p ∈ List.range' start n PAGE_SIZE := by
    intro p
    rw [Std.TreeMap.mem_keys, Std.TreeMap.mem_iff_isSome_getElem?, List.mem_range']
    constructor
    · intro hp
      by_cases hpage : ∃ i, p = addrOf start i
      · obtain ⟨i, rfl⟩ := hpage
        rw [h.at_page, hn] at hp
        exact ⟨i, hp, by unfold addrOf; rw [Nat.mul_comm]⟩
      · rw [h.off_page p fun i hi => hpage ⟨i, hi⟩] at hp
        cases hp
    · intro hp
      obtain ⟨i, hi, rfl⟩ := hp
      rw [Nat.mul_comm]
      rw [show s.map[start + i * PAGE_SIZE]? = entries i from h.at_page i, hn]
      exact hi
  have hperm : List.Perm s.map.keys (List.range' start n PAGE_SIZE) :=
    (List.perm_ext_iff_of_nodup (hsorted.imp Nat.ne_of_lt) (hrange.imp Nat.ne_of_lt)).mpr hmem
  exact hperm.eq_of_pairwise (fun a b _ _ h1 h2 => absurd h1 (Nat.lt_asymm h2)) hsorted hrange

/-- The map has an entry for each of `n` pages. -/
def entriesOf (n : Nat) (used : Nat → Bool) : Nat → Option Bool :=
  fun i => if i < n then some (used i) else none

def Shows (start n : Nat) (s : PageSet) (used : Nat → Bool) : Prop :=
  Holds start s (entriesOf n used)

theorem isSome_entriesOf (i : Nat) : (entriesOf n used i).isSome ↔ i < n := by
  unfold entriesOf
  by_cases hi : i < n
  · simp [hi]
  · simp [hi]

theorem fill_entriesOf (h : i + c ≤ n) (v : Bool) :
    fill (entriesOf n used) i c v = entriesOf n (paint used i c v) := by
  funext j
  unfold fill entriesOf paint
  by_cases hj : i ≤ j ∧ j < i + c
  · rw [if_pos hj, if_pos (by omega), if_pos hj]
  · rw [if_neg hj, if_neg hj]

/-- `page_range!` on pages, when their end is an address. -/
theorem pageRange_eq (h : addrOf start (i + c) < 2 ^ 64) :
    pageRange (addrOf start i) c = ok (List.range' (addrOf start i) c PAGE_SIZE) := by
  have hsum : addrOf start i + c * PAGE_SIZE = addrOf start (i + c) := by
    unfold addrOf
    rw [Nat.add_mul, Nat.add_assoc]
  have hmul : mulChecked 64 c PAGE_SIZE = ok (c * PAGE_SIZE) := if_pos (by omega)
  have hadd : addChecked 64 (addrOf start i) (c * PAGE_SIZE) = ok (addrOf start (i + c)) := by
    rw [addChecked, hsum, if_pos h]
  simp only [pageRange, hmul, hadd, ok_bind, pure_eq_ok]

/-- The addresses of a run of pages. -/
theorem range_eq_map (start : Nat) : ∀ c i : Nat,
    List.range' (addrOf start i) c PAGE_SIZE = (List.range' i c).map (addrOf start)
  | 0, i => rfl
  | c + 1, i => by rw [range_succ, List.range'_succ, List.map_cons, range_eq_map start c (i + 1)]

/-- `all` on a run that may reach past the last page. -/
theorem Shows.all (h : Shows start n s used) (hend : addrOf start (i + c) < 2 ^ 64) (hc : 0 < c) :
    s.all (addrOf start i) c false = ok (decide (i + c ≤ n) && stretch used i c false) := by
  have hall : ((List.range' i c).all fun j => entriesOf n used j == some false) =
      (decide (i + c ≤ n) && stretch used i c false) := by
    rw [Bool.eq_iff_iff, Bool.and_eq_true, decide_eq_true_eq, stretch_eq_true_iff]
    simp only [List.all_eq_true, List.mem_range'_1, beq_iff_eq, entriesOf]
    constructor
    · intro hfree
      have hin : ∀ j, i ≤ j → j < i + c → j < n ∧ used j = false := by
        intro j h1 h2
        have hj := hfree j ⟨h1, h2⟩
        by_cases hjn : j < n
        · rw [if_pos hjn] at hj
          exact ⟨hjn, Option.some.inj hj⟩
        · rw [if_neg hjn] at hj
          cases hj
      refine ⟨?_, fun j h1 h2 => (hin j h1 h2).2⟩
      have hlast := (hin (i + c - 1) (by omega) (by omega)).1
      omega
    · intro hfree j hj
      rw [if_pos (by omega), hfree.2 j hj.1 hj.2]
  simp only [PageSet.all, pageRange_eq hend, ok_bind, pure_eq_ok, range_eq_map, List.all_map,
    Function.comp_def, h.at_page, hall]

/-- `any` on a run of the region: one of its pages is free unless all are used. -/
theorem Shows.any (h : Shows start n s used) (hend : addrOf start n < 2 ^ 64) (hle : i + c ≤ n) :
    s.any (addrOf start i) c false = ok (!stretch used i c true) := by
  have hend' : addrOf start (i + c) < 2 ^ 64 := by
    have : (i + c) * PAGE_SIZE ≤ n * PAGE_SIZE := Nat.mul_le_mul_right _ hle
    unfold addrOf at hend ⊢
    omega
  have hany : ((List.range' i c).any fun j => entriesOf n used j == some false) =
      !stretch used i c true := by
    rw [Bool.eq_iff_iff, Bool.not_eq_true', ← Bool.not_eq_true, stretch_eq_true_iff]
    simp only [List.any_eq_true, List.mem_range'_1, beq_iff_eq, entriesOf]
    constructor
    · intro hfree hused
      obtain ⟨j, hj, heq⟩ := hfree
      rw [if_pos (by omega), hused j hj.1 hj.2] at heq
      cases heq
    · intro hused
      rw [not_forall] at hused
      obtain ⟨j, hj⟩ := hused
      simp only [not_forall, Bool.not_eq_true] at hj
      obtain ⟨h1, h2, hfree⟩ := hj
      exact ⟨j, ⟨h1, h2⟩, by rw [if_pos (by omega), hfree]⟩
  simp only [PageSet.any, pageRange_eq hend', ok_bind, pure_eq_ok, range_eq_map, List.any_map,
    Function.comp_def, h.at_page, hany]

/-- The scan over the keys is the one over indices. -/
theorem find_keys (hc : 0 < c) (hcn : c ≤ n + 1) :
    (List.range n).find? (fun i => decide (i + c ≤ n) && stretch used i c false) =
      Bitmap.firstFit n c used := by
  have hsplit : List.range n =
      List.range (n + 1 - c) ++ (List.range (c - 1)).map ((n + 1 - c) + ·) := by
    rw [← List.range_add]
    congr 1
    omega
  have hpast : ((List.range (c - 1)).map ((n + 1 - c) + ·)).find?
      (fun i => decide (i + c ≤ n) && stretch used i c false) = none := by
    rw [List.find?_eq_none]
    intro i hi
    obtain ⟨j, -, rfl⟩ := List.mem_map.mp hi
    have hlt : ¬ n + 1 - c + j + c ≤ n := by omega
    simp [hlt]
  rw [hsplit, List.find?_append, hpast, Option.or_none, Bitmap.firstFit]
  refine List.find?_congr fun i hi => ?_
  rw [List.mem_range] at hi
  have hle : i + c ≤ n := by omega
  simp [hle]

/-- `addrOf` of the end of the longest run that a scan tries. -/
theorem scan_end {i : Nat} (hend : addrOf start (2 * n) < 2 ^ 64) (hi : i < n) (hcn : c ≤ n + 1) :
    addrOf start (i + c) < 2 ^ 64 := by
  have : (i + c) * PAGE_SIZE ≤ 2 * n * PAGE_SIZE := Nat.mul_le_mul_right _ (by omega)
  unfold addrOf at hend ⊢
  omega

theorem Shows.keys_eq (h : Shows start n s used) :
    s.map.keys = (List.range n).map (addrOf start) := by
  have hkeys := Holds.keys_eq h isSome_entriesOf
  have hzero : start = addrOf start 0 := by
    unfold addrOf
    omega
  rw [hkeys, List.range_eq_range', ← range_eq_map, ← hzero]

/-- The scan of `get_multiple`. -/
theorem Shows.find (h : Shows start n s used) (hend : addrOf start (2 * n) < 2 ^ 64) (hc : 0 < c)
    (hcn : c ≤ n + 1) :
    s.map.keys.findM? (fun p => s.all p c false) =
      ok ((Bitmap.firstFit n c used).map (addrOf start)) := by
  rw [h.keys_eq, ← find_keys hc hcn]
  refine findM?_map_eq_ok fun i hi => ?_
  exact h.all (scan_end hend (List.mem_range.mp hi) hcn) hc

theorem Shows.getMultiple (h : Shows start n s used) (hend : addrOf start (2 * n) < 2 ^ 64)
    (hc : 0 < c) (hcn : c ≤ n + 1) :
    match Bitmap.firstFit n c used with
    | none => s.getMultiple c = ok (s, .error .pageNotFound)
    | some i => ∃ s', s.getMultiple c = ok (s', .ok (addrOf start i)) ∧
        Shows start n s' (paint used i c true) := by
  unfold PageSet.getMultiple
  rw [PAGE_IS_FREE, h.find hend hc hcn, ok_bind]
  cases hfit : Bitmap.firstFit n c used with
  | none => rfl
  | some i =>
    obtain ⟨hle, -⟩ := Bitmap.firstFit_some hfit
    have hrange : pageRange (addrOf start i) c = ok (List.range' (addrOf start i) c PAGE_SIZE) :=
      pageRange_eq (scan_end hend (by omega) hcn)
    have hsome : ∀ j, i ≤ j → j < i + c → (entriesOf n used j).isSome := fun j _ h2 =>
      (isSome_entriesOf j).mpr (by omega)
    obtain ⟨s', hs', h'⟩ := Holds.takes h hsome
    rw [fill_entriesOf hle] at h'
    refine ⟨s', ?_, h'⟩
    simp only [Option.map_some, hrange, hs', ok_bind, pure_eq_ok]

theorem Shows.putMutiple (h : Shows start n s used) (hend : addrOf start n < 2 ^ 64)
    (hle : i + c ≤ n) :
    if stretch used i c true then
      ∃ s', s.putMutiple (addrOf start i) c = ok (s', .ok ()) ∧
        Shows start n s' (paint used i c false)
    else s.putMutiple (addrOf start i) c = ok (s, .error .pageExists) := by
  have hend' : addrOf start (i + c) < 2 ^ 64 := by
    have : (i + c) * PAGE_SIZE ≤ n * PAGE_SIZE := Nat.mul_le_mul_right _ hle
    unfold addrOf at hend ⊢
    omega
  unfold PageSet.putMutiple
  rw [PAGE_IS_FREE, h.any hend hle, ok_bind]
  cases hused : stretch used i c true with
  | true =>
    have h' := Holds.inserts (c := c) (i := i) h
    rw [fill_entriesOf hle] at h'
    refine ⟨_, ?_, h'⟩
    simp only [pageRange_eq hend', ok_bind, pure_eq_ok]
    rfl
  | false => rfl

end PageSet

/-! ## Both -/

section Both

variable {start n : Nat}

/-- A failed call of a store that simulates `spec` changes nothing. -/
theorem Simulates.keeps {σ : Type} {call : σ → PageCall → Outcome (σ × Reply)}
    {Shows : σ → (Nat → Bool) → Prop} (h : Simulates start n call Shows) {s s' : σ}
    {used : Nat → Bool} {c : PageCall} {e : PageError} (hs : Shows s used) (hl : c.Legal start n)
    (hrun : call s c = ok (s', .error e)) : s' = s := by
  obtain ⟨s₁, h₁, -, hkeep⟩ := h s used c hs hl
  rw [hrun, Outcome.ok.injEq, Prod.mk.injEq] at h₁
  obtain ⟨rfl, hreply⟩ := h₁
  exact hkeep e hreply.symm

end Both
end Allora
