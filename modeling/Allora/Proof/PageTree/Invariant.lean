import Allora.Proof.PageTree.Insert
import Allora.Proof.PageTree.Removal
import Allora.Proof.PageTree.Walk

/-!
# The invariant of the page tree

`Holds t s`: the pointer structure `t` stores the abstract tree `s`, and `s` is ordered, has no red
root and does not contain page zero (whose address is the null pointer). Each operation is proved
once against it, with its effect on the in-order sequence and on the memory it may touch.
-/

set_option autoImplicit false

namespace Allora
namespace PageTree

open Outcome

/-- `t` stores `s`, a search tree of pages. -/
structure Holds (t : PageTree) (s : Tree Nat) : Prop where
  hat : At t [] s
  sorted : s.toList.Pairwise (· < ·)
  root : s.color? ≠ some .red
  pos : 0 ∉ s.toList

theorem Holds.nodup {t : PageTree} {s : Tree Nat} (h : Holds t s) : s.toList.Nodup := h.hat.nodup

theorem holds_empty (mem : Nat → PageNode) : Holds (empty mem) .nil :=
  ⟨⟨rfl, trivial, List.nodup_nil⟩, List.Pairwise.nil, by simp, by simp⟩

/-- Only the pages of the tree carry it. -/
theorem Holds.congr {t t' : PageTree} {s : Tree Nat} (h : Holds t s) (hr : t'.root = t.root)
    (hm : ∀ k ∈ s.toList, t'.mem k = t.mem k) : Holds t' s :=
  ⟨⟨hr.trans h.hat.around, h.hat.stored.congr hm, h.hat.nodup⟩, h.sorted, h.root, h.pos⟩

/-- The tree in memory is determined by its root link. -/
theorem Stored.unique {mem : Nat → PageNode} {s s' : Tree Nat} {p p' : PageLink}
    (h : Stored mem p s) (h' : Stored mem p' s') (hl : link s = link s') : s = s' := by
  induction s generalizing s' p p' with
  | nil =>
    cases s' with
    | nil => rfl
    | node => cases hl
  | node c l n r ihl ihr =>
    cases s' with
    | nil => cases hl
    | node c' l' n' r' =>
      cases hl
      have hcell := h.1.symm.trans h'.1
      simp only [PageNode.mk.injEq, true_and] at hcell
      obtain ⟨-, hll, hrr, rfl⟩ := hcell
      rw [ihl h.2.1 h'.2.1 hll, ihr h.2.2 h'.2.2 hrr]

/-! ## `insert` -/

theorem insert_holds {t : PageTree} {s : Tree Nat} {n fuel : Nat} (h : Holds t s) (hn : n ≠ 0)
    (hns : n ∉ s.toList) (hf : s.toList.length + 1 < fuel) :
    ∃ t' s', t.insert fuel n = ok t' ∧ Holds t' s' ∧ insertTree n s = some s' ∧
      List.Perm s'.toList (n :: s.toList) ∧ Framed (n :: s.toList) t t' := by
  obtain ⟨t', s', hrun, hins, hat, hseq, hfr⟩ := insert_at h.hat hns h.root hf
  obtain ⟨A, B, hAB, hplug, hA, hB⟩ := insert_seq h.sorted hns
  rw [hplug] at hseq
  have hperm : List.Perm s'.toList (n :: s.toList) := by
    rw [hseq, hAB]
    exact List.perm_middle
  refine ⟨t', s', hrun, ⟨hat, ?_, ?_, ?_⟩, hins, hperm, hfr⟩
  · have hs := h.sorted
    rw [hAB, List.pairwise_append] at hs
    rw [hseq, List.pairwise_append, List.pairwise_cons]
    refine ⟨hs.1, ⟨hB, hs.2.1⟩, fun a ha b hb => ?_⟩
    rcases List.mem_cons.mp hb with rfl | hb
    · exact hA a ha
    · exact hs.2.2 a ha b hb
  · -- the last line of `insert_fixup` paints the root
    rw [insertTree, Option.map_eq_some_iff] at hins
    obtain ⟨u, -, rfl⟩ := hins
    exact paint_black_root u
  · intro h0
    rcases List.mem_cons.mp (hperm.mem_iff.mp h0) with h0 | h0
    · exact hn h0.symm
    · exact h.pos h0

/-- Page after page. -/
theorem inserts_hold {fuel : Nat} :
    ∀ {ns : List Nat} {t : PageTree} {s : Tree Nat}, Holds t s → (ns ++ s.toList).Nodup → 0 ∉ ns →
      ns.length + s.toList.length + 1 < fuel →
      ∃ t' s', ns.foldlM (insert fuel) t = ok t' ∧
        ns.foldlM (fun s n => insertTree n s) s = some s' ∧ Holds t' s' ∧
        List.Perm s'.toList (ns ++ s.toList)
  | [], t, s, h, _, _, _ => ⟨t, s, rfl, rfl, h, List.Perm.refl _⟩
  | n :: ns, t, s, h, hnd, h0, hf => by
    rw [List.cons_append, List.nodup_cons, List.mem_append, not_or] at hnd
    rw [List.mem_cons, not_or] at h0
    rw [List.length_cons] at hf
    obtain ⟨t₁, s₁, hrun, h₁, hins, hperm, -⟩ := insert_holds h (Ne.symm h0.1) hnd.1.2
      (show _ < fuel by omega)
    have hlen := hperm.length_eq
    rw [List.length_cons] at hlen
    have hperm' : List.Perm (ns ++ s₁.toList) (n :: (ns ++ s.toList)) :=
      (hperm.append_left ns).trans List.perm_middle
    obtain ⟨t', s', hrest, hrest', h', hall⟩ := inserts_hold h₁
      (hperm'.nodup_iff.mpr (List.nodup_cons.mpr ⟨by simp [hnd.1], hnd.2⟩)) h0.2
      (show _ < fuel by omega)
    refine ⟨t', s', ?_, ?_, h', hall.trans hperm'⟩
    · rw [List.foldlM_cons, hrun, ok_bind, hrest]
    · rw [List.foldlM_cons, hins]
      exact hrest'

/-! ## `delete` -/

theorem delete_holds {t : PageTree} {s : Tree Nat} {n fuel : Nat} (h : Holds t s)
    (hn : n ∈ s.toList) (hf : s.toList.length < fuel) :
    match deleteTree n s with
    | none => Panics (t.delete fuel n)
    | some s' => ∃ t', t.delete fuel n = ok t' ∧ Holds t' s' ∧ s'.toList = s.toList.erase n ∧
        Framed s.toList t t' := by
  have hn0 : n ≠ 0 := fun h0 => h.pos (h0 ▸ hn)
  obtain ⟨ctx, c, l, r, hloc⟩ := locate_mem h.sorted hn []
  have hplug := plug_locate n s []
  rw [hloc] at hplug
  have hplug' : Ctx.plug ctx (.node c l n r) = s := hplug
  have hat : At t ctx (.node c l n r) := by
    have := h.hat
    rw [← hplug'] at this
    exact this.into
  have hdel := delete_at hat hn0 (show _ < fuel by rwa [hplug'])
  have htree : deleteTree n s = deleteAt ctx (.node c l n r) := by rw [deleteTree, hloc]
  rw [htree]
  cases hs' : deleteAt ctx (.node c l n r) with
  | none => rw [hs'] at hdel; exact hdel
  | some s' =>
    rw [hs'] at hdel
    obtain ⟨t', hrun, hat', hseq, hfr⟩ := hdel
    rw [hplug'] at hfr
    have herase : s'.toList = s.toList.erase n := by
      have hsplit : s.toList =
          (Ctx.before ctx ++ l.toList) ++ n :: (r.toList ++ Ctx.after ctx) := by
        rw [← hplug', Ctx.toList_plug, Tree.toList_node]
        simp
      have hnd := h.hat.nodup
      rw [Ctx.plug_nil, hsplit, List.nodup_middle, List.nodup_cons, List.mem_append, not_or] at hnd
      rw [hseq, hsplit, List.erase_append_right _ hnd.1.1, List.erase_cons_head, List.append_assoc]
    refine ⟨t', hrun, ⟨hat', ?_, ?_, ?_⟩, herase, hfr⟩
    · rw [herase]
      exact h.sorted.sublist List.erase_sublist
    · exact deleteAt_root (by rw [hplug']; exact h.root) hs'
    · rw [herase]
      exact fun h0 => h.pos (List.erase_subset h0)

/-! ## `get_multiple` -/

/-- The pages of `ns` are removed one by one. -/
def deleteTrees (ns : List Nat) (s : Tree Nat) : Option (Tree Nat) :=
  ns.foldlM (fun s n => deleteTree n s) s

/-- Each page of `ns` is removable from the tree its predecessors leave. -/
def RemovableAll : List Nat → Tree Nat → Prop
  | [], _ => True
  | n :: ns, s => Removable n s = true ∧ ∀ s', deleteTree n s = some s' → RemovableAll ns s'

theorem deleteTrees_eq_none_iff (ns : List Nat) (s : Tree Nat) :
    deleteTrees ns s = none ↔ ¬ RemovableAll ns s := by
  induction ns generalizing s with
  | nil => simp [deleteTrees, RemovableAll]
  | cons n ns ih =>
    rw [deleteTrees, List.foldlM_cons, RemovableAll]
    cases hd : deleteTree n s with
    | none =>
      have := (deleteTree_eq_none_iff n s).mp hd
      simp [this]
    | some s' =>
      have hr : Removable n s = true := by
        rw [← Bool.not_eq_false, ← deleteTree_eq_none_iff, hd]
        simp
      have := ih s'
      rw [deleteTrees] at this
      simp [this, hr]

theorem deletes_hold {fuel : Nat} :
    ∀ (ns : List Nat) {t : PageTree} {s : Tree Nat}, Holds t s → ns.Nodup →
      (∀ n ∈ ns, n ∈ s.toList) → s.toList.length < fuel →
      match deleteTrees ns s with
      | none => Panics (ns.foldlM (delete fuel) t)
      | some s' => ∃ t', ns.foldlM (delete fuel) t = ok t' ∧ Holds t' s' ∧
          s'.toList = s.toList.diff ns ∧ Framed s.toList t t'
  | [], t, s, h, _, _, _ => ⟨t, rfl, h, rfl, Framed.refl _ _⟩
  | n :: ns, t, s, h, hnd, hns, hf => by
    rw [List.nodup_cons] at hnd
    have hdel := delete_holds h (hns n (by simp)) hf
    rw [deleteTrees, List.foldlM_cons, List.foldlM_cons]
    cases hd : deleteTree n s with
    | none =>
      rw [hd] at hdel
      obtain ⟨msg, hmsg⟩ := hdel
      exact ⟨msg, by rw [hmsg]; rfl⟩
    | some s₁ =>
      rw [hd] at hdel
      obtain ⟨t₁, hrun, h₁, hseq, hfr⟩ := hdel
      have hsub : ∀ k ∈ s₁.toList, k ∈ s.toList := fun k hk => List.erase_subset (hseq ▸ hk)
      have hrest := deletes_hold ns h₁ hnd.2
        (fun m hm => by
          rw [hseq, List.mem_erase_of_ne fun hmn => hnd.1 (by rwa [← hmn])]
          exact hns m (by simp [hm]))
        (by rw [hseq]; exact (List.erase_sublist.length_le).trans_lt hf)
      rw [hrun, ok_bind]
      rw [deleteTrees] at hrest
      simp only [Option.bind_eq_bind, Option.bind_some]
      cases hd' : ns.foldlM (fun s n => deleteTree n s) s₁ with
      | none => rw [hd'] at hrest; exact hrest
      | some s' =>
        rw [hd'] at hrest
        obtain ⟨t', hrun', h', hseq', hfr'⟩ := hrest
        refine ⟨t', hrun', h', ?_, hfr.trans (hfr'.mono hsub)⟩
        rw [hseq', hseq, List.diff_cons]

theorem mem_of_firstRun {L : List Nat} {k a : Nat} (h : firstRun L k = some a) :
    ∀ m ∈ List.range' a k, m ∈ L := by
  have := List.find?_some h
  simpa [startsRun, List.all_eq_true] using this

/-- The pages `get_multiple k` takes out of a pool `L`. -/
def takes (L : List Nat) (k : Nat) : List Nat :=
  match firstRun L k with
  | some a => List.range' a k
  | none => []

theorem takes_subset (L : List Nat) (k : Nat) : ∀ m ∈ takes L k, m ∈ L := by
  intro m hm
  cases h : firstRun L k with
  | none => simp [takes, h] at hm
  | some a =>
    rw [takes, h] at hm
    exact mem_of_firstRun h m hm

theorem getMultiple_holds {t : PageTree} {s : Tree Nat} {k fuel : Nat} (h : Holds t s)
    (hf : s.toList.length < fuel) :
    match deleteTrees (takes s.toList k) s with
    | none => Panics (t.getMultiple fuel k)
    | some s' => ∃ t', t.getMultiple fuel k = ok (t', firstRun s.toList k) ∧ Holds t' s' ∧
        s'.toList = s.toList.diff (takes s.toList k) ∧ Framed s.toList t t' ∧
        (firstRun s.toList k = none → t' = t) := by
  have hsearch := search_at h.hat h.sorted hf k
  have hget : t.getMultiple fuel k =
      (match (t.node (firstRun s.toList k)).map PageNode.n with
        | some start => do
            let t ← (List.range' start k).foldlM (delete fuel) t
            pure (t, some start)
        | none => pure (t, none)) := by
    rw [getMultiple]
    obtain ⟨first, hfirst, hfind⟩ := bind_eq_ok.mp hsearch
    rw [hfirst, ok_bind, hfind]
    rfl
  rw [hget]
  cases hrun : firstRun s.toList k with
  | none =>
    have htakes : takes s.toList k = [] := by rw [takes, hrun]
    rw [htakes]
    exact ⟨t, rfl, h, rfl, Framed.refl _ _, fun _ => rfl⟩
  | some a =>
    have htakes : takes s.toList k = List.range' a k := by rw [takes, hrun]
    have ha : a ∈ s.toList := List.mem_of_find?_eq_some hrun
    have hdel := deletes_hold (takes s.toList k) h (by rw [htakes]; exact List.nodup_range')
      (takes_subset _ _) hf
    rw [h.hat.node_n ha]
    rw [htakes] at hdel ⊢
    cases hd : deleteTrees (List.range' a k) s with
    | none =>
      rw [hd] at hdel
      obtain ⟨msg, hmsg⟩ := hdel
      exact ⟨msg, by simp only [hmsg, panic_bind]⟩
    | some s' =>
      rw [hd] at hdel
      obtain ⟨t', hok, h', hseq, hfr⟩ := hdel
      exact ⟨t', by simp only [hok, ok_bind, pure_eq_ok], h', hseq, hfr, fun hc => by cases hc⟩

end PageTree
end Allora
