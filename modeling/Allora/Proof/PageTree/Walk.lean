import Allora.Proof.PageTree.Delete
import Mathlib.Data.List.Infix

/-!
# Walking in order, and finding a run

`next_link` is the successor in the in-order sequence, so the walks of `get_multiple` are read as
recursions on that sequence: `is_n_consecutive_link` compares a prefix of it with
`a + 1, a + 2, …`, and the outer search is `List.find?`. `firstRun` is what the search computes.
-/

set_option autoImplicit false

namespace Allora
namespace PageTree

open Outcome

/-! ## The successor -/

theorem leftmost_head {s : Tree Nat} (hs : s ≠ .nil) (ctx : Ctx Nat) :
    link (leftmost ctx s).2 = s.toList.head? := by
  obtain ⟨up, c, y, r, hmin, hplug, hb⟩ := leftmost_spec hs
  rw [hmin, hplug, Ctx.toList_plug, hb]
  rfl

/-- The climb ends at the first ancestor the focus is on the left of. -/
theorem climb_at {t : PageTree} :
    ∀ {ctx : Ctx Nat} {s : Tree Nat} {n fuel : Nat}, At t ctx s → link s = some n →
      ctx.length < fuel → t.climb fuel (some n) = ok (Ctx.after ctx).head? := by
  intro ctx
  induction ctx with
  | nil =>
    intro s n fuel h hn hf
    obtain ⟨fuel, rfl⟩ : ∃ k, fuel = k + 1 := ⟨fuel - 1, by omega⟩
    have hp : t.parent (some n) = none := h.parent_link hn
    have hr : t.right none = none := rfl
    simp [climb, hp, hr, Ctx.after]
  | cons f ctx ih =>
    intro s n fuel h hn hf
    obtain ⟨fuel, rfl⟩ : ∃ k, fuel = k + 1 := ⟨fuel - 1, by omega⟩
    have hp : t.parent (some n) = some f.key := h.parent_link hn
    have hne := h.sibling_ne hn
    have hf' : ctx.length < fuel := by simpa using hf
    have hup := ih h.up (link_branch ..) hf'
    have hc := h.child_top
    have hs := h.sibling
    obtain ⟨d, c, p, u⟩ := f
    cases d with
    | left =>
      have hr : t.right (some p) = link u := hs
      simp only [climb, hp, hr]
      rw [if_neg hne]
      rfl
    | right =>
      have hr : t.right (some p) = some n := hc.trans hn
      simp only [climb, hp, hr, if_true]
      exact hup

/-- **`next_link` is the successor in order.** -/
theorem nextLink_at {t : PageTree} {s : Tree Nat} {n fuel : Nat} {A B : List Nat} (h : At t [] s)
    (hseq : s.toList = A ++ n :: B) (hf : s.toList.length < fuel) :
    t.nextLink fuel (some n) = ok B.head? := by
  obtain ⟨ctx, c, l, r, rfl⟩ := Ctx.exists_plug_of_mem (t := s) (a := n) (by simp [hseq])
  have hat : At t ctx (.node c l n r) := At.into h
  have hlen := Ctx.length_le_toList_plug ctx (.node c l n r)
  -- the sequence has one `n`, so what follows it is determined
  have hB : B = r.toList ++ Ctx.after ctx := by
    have hsplit : (Ctx.before ctx ++ l.toList) ++ n :: (r.toList ++ Ctx.after ctx) = A ++ n :: B := by
      rw [← hseq, Ctx.toList_plug, Tree.toList_node]
      simp
    have hnd : (A ++ n :: B).Nodup := hseq ▸ h.nodup
    rw [← hsplit, List.nodup_middle, List.nodup_cons, List.mem_append, not_or] at hnd
    exact ((List.append_cons_inj_of_notMem hnd.1.1 hnd.1.2).mp hsplit).2.2.symm
  have hright : t.right (some n) = link r := hat.child_link (d := .right) (s := r) (u := l)
  rw [Tree.toList_node, List.length_append, List.length_cons] at hlen
  cases r with
  | nil =>
    rw [nextLink, hright, if_neg (by simp), climb_at hat (link_node ..) (by omega), hB]
    rfl
  | node rc rl ra rr =>
    have hmin := minLink_at (hat.down_flip (d := .left)) (show _ < fuel by omega)
    rw [leftmost_head (by simp)] at hmin
    rw [nextLink, hright, if_pos (by simp), hmin.1, hB]
    congr 1
    obtain ⟨up, yc, y, yr, -, hplug, hb⟩ := leftmost_spec (s := .node rc rl ra rr) (by simp)
    rw [hplug, Ctx.toList_plug, hb]
    rfl

/-! ## Runs of consecutive pages -/

theorem Stored.n_eq {mem : Nat → PageNode} {s : Tree Nat} {p : PageLink} (h : Stored mem p s)
    {n : Nat} (hn : n ∈ s.toList) : (mem n).n = n := by
  induction s generalizing p with
  | nil => simp at hn
  | node c l a r ihl ihr =>
    simp only [Tree.toList_node, List.mem_append, List.mem_cons] at hn
    rcases hn with hn | rfl | hn
    · exact ihl h.2.1 hn
    · rw [h.1]
    · exact ihr h.2.2 hn

theorem At.node_n {t : PageTree} {s : Tree Nat} (h : At t [] s) {n : Nat} (hn : n ∈ s.toList) :
    (t.node (some n)).map PageNode.n = some n := by
  rw [node, Option.map_some, Option.map_some, h.stored.n_eq hn]

theorem consecutiveFrom_at {t : PageTree} {s : Tree Nat} {fuel start : Nat} (h : At t [] s)
    (hf : s.toList.length < fuel) (hstart : start ∈ s.toList) :
    ∀ (k i n : Nat) (A B : List Nat), s.toList = A ++ n :: B →
      t.consecutiveFrom fuel (some start) i k (some n) =
        ok (decide (List.range' (start + i) k <+: B)) := by
  intro k
  induction k with
  | zero =>
    intro i n A B _
    simp [consecutiveFrom]
  | succ k ih =>
    intro i n A B hseq
    have hnum : (t.node (some start)).map (fun nd => nd.n + i) = some (start + i) := by
      rw [node, Option.map_some, Option.map_some, h.stored.n_eq hstart]
    rw [consecutiveFrom, nextLink_at h hseq hf, ok_bind, hnum]
    cases B with
    | nil => simp [node, List.range'_succ]
    | cons b B =>
      have hb : b ∈ s.toList := by rw [hseq]; simp
      rw [List.head?_cons, h.node_n hb, List.range'_succ]
      by_cases hbs : b = start + i
      · subst hbs
        rw [if_pos rfl, ih (i + 1) _ (A ++ [n]) B (by simp [hseq])]
        simp [Nat.add_assoc]
      · rw [if_neg (by simpa using hbs)]
        simp [List.cons_prefix_cons, Ne.symm hbs]

/-- In an increasing sequence, consecutive numbers stand side by side. -/
theorem range'_prefix_iff {a : Nat} : ∀ {k : Nat} {A B : List Nat},
    (A ++ a :: B).Pairwise (· < ·) →
      (List.range' (a + 1) k <+: B ↔ ∀ m ∈ List.range' (a + 1) k, m ∈ A ++ a :: B) := by
  intro k
  induction k generalizing a with
  | zero => intro A B _; simp
  | succ k ih =>
    intro A B hs
    have hs' : ((A ++ [a]) ++ B).Pairwise (· < ·) := by simpa using hs
    obtain ⟨-, haB, hAB⟩ := List.pairwise_append.mp hs
    rw [List.pairwise_cons] at haB
    constructor
    · intro hp m hm
      have := hp.subset hm
      simp [this]
    · intro hm
      have hmem := hm (a + 1) (by simp)
      -- `a + 1` lies after `a`, and nothing lies between them
      obtain ⟨B', rfl⟩ : ∃ B', B = (a + 1) :: B' := by
        cases B with
        | nil =>
          simp only [List.mem_append, List.mem_cons, List.not_mem_nil] at hmem
          rcases hmem with h | h | h
          · have := hAB _ h a (by simp); omega
          · omega
          · exact h.elim
        | cons b B =>
          have hab := haB.1 b (by simp)
          simp only [List.mem_append, List.mem_cons] at hmem
          rcases hmem with h | h | h | h
          · have := hAB _ h a (by simp); omega
          · omega
          · exact ⟨B, by rw [h]⟩
          · have := (List.pairwise_cons.mp haB.2).1 _ h; omega
      rw [List.range'_succ, List.cons_prefix_cons]
      refine ⟨rfl, (ih hs').mpr fun m hm' => ?_⟩
      have := hm m (by rw [List.range'_succ]; exact List.mem_cons_of_mem _ hm')
      simpa using this

/-- `k` consecutive pages of `L` start at `a`. -/
def startsRun (L : List Nat) (k a : Nat) : Bool := (List.range' a k).all (· ∈ L)

/-- The first page, in order, that starts such a run. -/
def firstRun (L : List Nat) (k : Nat) : Option Nat := L.find? (startsRun L k)

theorem isNConsecutiveLink_at {t : PageTree} {s : Tree Nat} {fuel n : Nat} (h : At t [] s)
    (hs : s.toList.Pairwise (· < ·)) (hf : s.toList.length < fuel) (hn : n ∈ s.toList) (k : Nat) :
    t.isNConsecutiveLink fuel (some n) k = ok (startsRun s.toList k n) := by
  obtain ⟨A, B, hseq⟩ := List.append_of_mem hn
  rw [isNConsecutiveLink, consecutiveFrom_at h hf hn _ _ _ _ _ hseq]
  congr 1
  rw [Bool.eq_iff_iff, decide_eq_true_iff, startsRun, List.all_eq_true]
  simp only [decide_eq_true_eq]
  cases k with
  | zero => simp
  | succ k =>
    rw [Nat.add_sub_cancel, range'_prefix_iff (hseq ▸ hs), ← hseq, List.range'_succ]
    simp [hn]

theorem findRun_at {t : PageTree} {s : Tree Nat} {fuel : Nat} (h : At t [] s)
    (hs : s.toList.Pairwise (· < ·)) (hf : s.toList.length < fuel) (npages : Nat) :
    ∀ {B A : List Nat} {k : Nat}, s.toList = A ++ B → B.length < k →
      t.findRun fuel npages k B.head? =
        ok (B.find? (startsRun s.toList npages)) := by
  intro B
  induction B with
  | nil =>
    intro A k _ hk
    obtain ⟨k, rfl⟩ : ∃ j, k = j + 1 := ⟨k - 1, by omega⟩
    rfl
  | cons b B ih =>
    intro A k hseq hk
    obtain ⟨k, rfl⟩ : ∃ j, k = j + 1 := ⟨k - 1, by omega⟩
    have hb : b ∈ s.toList := by rw [hseq]; simp
    rw [List.head?_cons, findRun, if_pos (by rfl), isNConsecutiveLink_at h hs hf hb, ok_bind]
    by_cases hall : startsRun s.toList npages b = true
    · rw [if_pos hall, List.find?_cons_of_pos hall]
    · rw [if_neg hall, List.find?_cons_of_neg hall, nextLink_at h hseq hf, ok_bind]
      exact ih (A := A ++ [b]) (by simp [hseq]) (by simpa using hk)

/-- **The search of `get_multiple`** stops at the first page that starts a run. -/
theorem search_at {t : PageTree} {s : Tree Nat} {fuel : Nat} (h : At t [] s)
    (hs : s.toList.Pairwise (· < ·)) (hf : s.toList.length < fuel) (npages : Nat) :
    (do let first ← t.minLink fuel t.root; t.findRun fuel npages fuel first) =
      ok (firstRun s.toList npages) := by
  have hmin : t.minLink fuel t.root = ok s.toList.head? := by
    rw [show t.root = link s from h.around, (minLink_at h hf).1]
    cases s with
    | nil => rfl
    | node c l a r => rw [leftmost_head (by simp)]
  rw [hmin, ok_bind]
  exact findRun_at h hs hf npages (A := []) rfl hf

end PageTree
end Allora
