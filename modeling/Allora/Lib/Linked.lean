import Mathlib.Data.List.Nodup
import Mathlib.Logic.Function.Basic
import Mathlib.Tactic.Common

/-!
# Singly linked lists in memory

A memory maps pointers to nodes, a node holds an element and the link to the next one. `Seg` is a
stretch of a list from one link to another; `Chain` is a whole list, with no node in it twice and
with nothing else in memory. The list of nodes that both speak about has the pointers beside the
elements, so that an edit of the list is an edit of it.

All edits come from one lemma, `Seg.splice`: a stretch in the middle may be replaced by another
between the same two links, if memory does not change at the nodes around it.
-/

set_option autoImplicit false

namespace Allora
namespace Linked

variable {P V : Type}

/-- A node, at some pointer of type `P`. -/
structure Node (P V : Type) where
  elem : V
  next : Option P

/-- Memory leads from the link `l` through the nodes of `ns` to the link `r`. -/
def Seg (mem : P → Option (Node P V)) : Option P → List (P × V) → Option P → Prop
  | l, [], r => l = r
  | l, n :: ns, r => l = some n.1 ∧ ∃ k, mem n.1 = some ⟨n.2, k⟩ ∧ Seg mem k ns r

/-- The link to the first node. -/
def link (ns : List (P × V)) : Option P := ns.head?.map Prod.fst

@[simp] theorem link_nil : link ([] : List (P × V)) = none := rfl

@[simp] theorem link_cons (n : P × V) (ns : List (P × V)) : link (n :: ns) = some n.1 := rfl

section Seg

variable {mem mem' : P → Option (Node P V)} {l r : Option P} {pre mid mid' post ns : List (P × V)}

theorem seg_append : Seg mem l (pre ++ post) r ↔ ∃ k, Seg mem l pre k ∧ Seg mem k post r := by
  induction pre generalizing l with
  | nil => simp [Seg]
  | cons n ns ih =>
    simp only [List.cons_append, Seg, ih]
    constructor
    · intro ⟨hl, k, hn, m, hns, hpost⟩
      exact ⟨m, ⟨hl, k, hn, hns⟩, hpost⟩
    · intro ⟨m, ⟨hl, k, hn, hns⟩, hpost⟩
      exact ⟨hl, k, hn, m, hns, hpost⟩

/-- Only the nodes of the segment matter. -/
theorem Seg.congr (h : Seg mem l ns r) (hmem : ∀ n ∈ ns, mem' n.1 = mem n.1) :
    Seg mem' l ns r := by
  induction ns generalizing l with
  | nil => exact h
  | cons n ns ih =>
    obtain ⟨hl, k, hn, hns⟩ := h
    refine ⟨hl, k, ?_, ih hns fun m hm => hmem m (List.mem_cons_of_mem n hm)⟩
    rw [hmem n List.mem_cons_self, hn]

/-- **Another stretch in the middle.** What is around it stays as it was. -/
theorem Seg.splice (h : Seg mem l (pre ++ mid ++ post) r)
    (hmem : ∀ n ∈ pre ++ post, mem' n.1 = mem n.1)
    (hmid : ∀ i o, Seg mem i mid o → Seg mem' i mid' o) : Seg mem' l (pre ++ mid' ++ post) r := by
  obtain ⟨o, hleft, hpost⟩ := seg_append.mp h
  obtain ⟨i, hpre, hm⟩ := seg_append.mp hleft
  refine seg_append.mpr ⟨o, seg_append.mpr ⟨i, ?_, hmid i o hm⟩, ?_⟩
  · exact hpre.congr fun n hn => hmem n (List.mem_append_left post hn)
  · exact hpost.congr fun n hn => hmem n (List.mem_append_right pre hn)

/-- A segment that ends in a null link starts with the link to its first node. -/
theorem Seg.link_eq (h : Seg mem l ns none) : l = link ns := by
  cases ns with
  | nil => exact h
  | cons n ns => exact h.1

end Seg

/-- A whole list: it ends in a null link, and memory has these nodes and no other. -/
structure Chain (mem : P → Option (Node P V)) (l : Option P) (ns : List (P × V)) : Prop where
  seg : Seg mem l ns none
  nodup : (ns.map Prod.fst).Nodup
  rest : ∀ a, a ∉ ns.map Prod.fst → mem a = none

namespace Chain

variable {mem : P → Option (Node P V)} {l : Option P} {pre post ns : List (P × V)} {p c a : P}
  {v v' w : V}

/-- What memory holds at a node of the list. -/
theorem node (h : Chain mem l (pre ++ (p, v) :: post)) : mem p = some ⟨v, link post⟩ := by
  obtain ⟨k, -, -, m, hp, hpost⟩ := seg_append.mp h.seg
  rw [hp, hpost.link_eq]

theorem ne_of_free (h : Chain mem l ns) (ha : mem a = none) : a ∉ ns.map Prod.fst := by
  intro hmem
  obtain ⟨⟨b, v⟩, hn, rfl⟩ := List.mem_map.mp hmem
  obtain ⟨pre, post, rfl⟩ := List.append_of_mem hn
  rw [h.node] at ha
  cases ha

theorem not_mem_ptrs_cons :
    a ∉ ((p, v) :: post).map Prod.fst ↔ a ≠ p ∧ a ∉ post.map Prod.fst := by
  rw [List.map_cons, List.mem_cons, not_or]

theorem not_mem_ptrs : a ∉ (pre ++ (p, v) :: post).map Prod.fst ↔
    a ∉ pre.map Prod.fst ∧ a ≠ p ∧ a ∉ post.map Prod.fst := by
  rw [List.map_append, List.mem_append, not_or, not_mem_ptrs_cons]

/-- The nodes around one that occurs once are other nodes. -/
theorem around (h : ((pre ++ (p, v) :: post).map Prod.fst).Nodup) :
    ∀ n ∈ pre ++ post, n.1 ≠ p := by
  rw [List.map_append, List.map_cons, List.nodup_middle, ← List.map_append, List.nodup_cons] at h
  intro n hn heq
  have hmem : n.1 ∈ (pre ++ post).map Prod.fst := List.mem_map_of_mem hn
  rw [heq] at hmem
  exact h.1 hmem

variable [DecidableEq P]

/-- The element of one node is replaced. -/
theorem set (h : Chain mem l (pre ++ (p, v) :: post)) (v' : V) :
    Chain (Function.update mem p (some ⟨v', link post⟩)) l (pre ++ (p, v') :: post) := by
  have hother := around h.nodup
  refine ⟨?_, by simpa using h.nodup, fun a ha => ?_⟩
  · have hseg : Seg mem l (pre ++ [(p, v)] ++ post) none := by simpa using h.seg
    suffices hs : Seg (Function.update mem p (some ⟨v', link post⟩)) l (pre ++ [(p, v')] ++ post)
        none by simpa using hs
    refine hseg.splice (fun n hn => Function.update_of_ne (hother n hn) _ _) ?_
    intro i o hmid
    obtain ⟨hi, k, hp, hk⟩ := hmid
    rw [h.node] at hp
    cases hp
    exact ⟨hi, link post, Function.update_self .., hk⟩
  · obtain ⟨hpre, hap, hpost⟩ := not_mem_ptrs.mp ha
    rw [Function.update_of_ne hap]
    exact h.rest a (not_mem_ptrs.mpr ⟨hpre, hap, hpost⟩)

/-- **A node is linked in after another.** -/
theorem insert (h : Chain mem l (pre ++ (p, v) :: post)) (ha : mem a = none) (w : V) :
    Chain (Function.update (Function.update mem a (some ⟨w, link post⟩)) p (some ⟨v, some a⟩)) l
      (pre ++ (p, v) :: (a, w) :: post) := by
  have hother := around h.nodup
  have hnew := h.ne_of_free ha
  obtain ⟨-, hap, -⟩ := not_mem_ptrs.mp hnew
  refine ⟨?_, ?_, fun b hb => ?_⟩
  · have hseg : Seg mem l (pre ++ [(p, v)] ++ post) none := by simpa using h.seg
    suffices hs : Seg (Function.update (Function.update mem a (some ⟨w, link post⟩)) p
        (some ⟨v, some a⟩)) l (pre ++ [(p, v), (a, w)] ++ post) none by simpa using hs
    refine hseg.splice (fun n hn => ?_) ?_
    · have hin : n ∈ pre ++ (p, v) :: post := by
        rcases List.mem_append.mp hn with hn | hn
        · exact List.mem_append_left _ hn
        · exact List.mem_append_right _ (List.mem_cons_of_mem _ hn)
      have hna : n.1 ≠ a := by
        intro heq
        apply hnew
        rw [← heq]
        exact List.mem_map_of_mem hin
      rw [Function.update_of_ne (hother n hn), Function.update_of_ne hna]
    · intro i o hmid
      obtain ⟨hi, k, hp, hk⟩ := hmid
      rw [h.node] at hp
      cases hp
      refine ⟨hi, some a, Function.update_self .., rfl, link post, ?_, hk⟩
      rw [Function.update_of_ne hap, Function.update_self]
  · have hperm : (pre ++ (p, v) :: (a, w) :: post).Perm ((a, w) :: (pre ++ (p, v) :: post)) := by
      have hmiddle : (pre ++ [(p, v)] ++ (a, w) :: post).Perm
          ((a, w) :: (pre ++ [(p, v)] ++ post)) := List.perm_middle
      simpa using hmiddle
    rw [(hperm.map Prod.fst).nodup_iff, List.map_cons, List.nodup_cons]
    exact ⟨hnew, h.nodup⟩
  · rw [not_mem_ptrs, not_mem_ptrs_cons] at hb
    obtain ⟨hpre, hbp, hba, hpost⟩ := hb
    rw [Function.update_of_ne hbp, Function.update_of_ne hba]
    exact h.rest b (not_mem_ptrs.mpr ⟨hpre, hbp, hpost⟩)

/-- **A node is unlinked from behind another, and freed.** -/
theorem unlink (h : Chain mem l (pre ++ (p, v) :: (c, w) :: post)) :
    Chain (Function.update (Function.update mem p (some ⟨v, link post⟩)) c none) l
      (pre ++ (p, v) :: post) := by
  have hc : Chain mem l (pre ++ [(p, v)] ++ (c, w) :: post) := by simpa using h
  have hpother := around h.nodup
  have hcother := around hc.nodup
  have hpc : p ≠ c := hcother (p, v) (by simp)
  refine ⟨?_, ?_, fun b hb => ?_⟩
  · have hseg : Seg mem l (pre ++ [(p, v), (c, w)] ++ post) none := by simpa using h.seg
    suffices hs : Seg (Function.update (Function.update mem p (some ⟨v, link post⟩)) c none) l
        (pre ++ [(p, v)] ++ post) none by simpa using hs
    refine hseg.splice (fun n hn => ?_) ?_
    · have hnp : n.1 ≠ p := hpother n (by
        rcases List.mem_append.mp hn with hn | hn
        · exact List.mem_append_left _ hn
        · exact List.mem_append_right _ (List.mem_cons_of_mem _ hn))
      have hnc : n.1 ≠ c := hcother n (by
        rcases List.mem_append.mp hn with hn | hn
        · exact List.mem_append_left _ (List.mem_append_left _ hn)
        · exact List.mem_append_right _ hn)
      rw [Function.update_of_ne hnc, Function.update_of_ne hnp]
    · intro i o hmid
      obtain ⟨hi, k, -, hk, m, hcell, ho⟩ := hmid
      rw [hc.node] at hcell
      cases hcell
      refine ⟨hi, link post, ?_, ho⟩
      rw [Function.update_of_ne hpc, Function.update_self]
  · have hsub : (pre ++ (p, v) :: post).Sublist (pre ++ (p, v) :: (c, w) :: post) := by simp
    exact h.nodup.sublist (hsub.map Prod.fst)
  · by_cases hbc : b = c
    · rw [hbc, Function.update_self]
    · obtain ⟨hpre, hbp, hpost⟩ := not_mem_ptrs.mp hb
      rw [Function.update_of_ne hbc, Function.update_of_ne hbp]
      exact h.rest b (not_mem_ptrs.mpr ⟨hpre, hbp, not_mem_ptrs_cons.mpr ⟨hbc, hpost⟩⟩)

end Chain
end Linked
end Allora
