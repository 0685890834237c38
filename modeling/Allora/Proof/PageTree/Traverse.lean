import Allora.Proof.PageTree.Invariant

/-!
# `traverse` is the in-order walk

The loop comes to a node twice where there is a left subtree: the first time it puts the node back
below its left child, the second time it finds the child visited. What it does to a whole subtree on
top of its stack is one lemma (`traverseLoop_tree`): after as many rounds as `rounds` counts, the
subtree is off the stack, its pages are at the end of the list in order, and its nodes are visited.
At any moment the stack holds no node twice, so it has room while the tree has no more nodes than
that.
-/

set_option autoImplicit false

namespace Allora
namespace PageTree

open Outcome

/-- The left and right links in memory are those of the tree; parents and colours do not matter. -/
def Linked (mem : Nat → PageNode) : Tree Nat → Prop
  | .nil => True
  | .node _ l a r =>
      (mem a).left = link l ∧ (mem a).right = link r ∧ Linked mem l ∧ Linked mem r

/-- A stored page tree is linked, and each node holds the page it lies on. -/
theorem Stored.linked {mem : Nat → PageNode} {s : Tree Nat} :
    ∀ {p : PageLink}, Stored mem p s → Linked mem s ∧ ∀ a ∈ s.toList, (mem a).n = a := by
  induction s with
  | nil => exact fun _ => ⟨trivial, fun a ha => nomatch ha⟩
  | node c l a r ihl ihr =>
    intro p h
    obtain ⟨hcell, hl, hr⟩ := h
    obtain ⟨hlinkl, hnl⟩ := ihl hl
    obtain ⟨hlinkr, hnr⟩ := ihr hr
    refine ⟨⟨by rw [hcell], by rw [hcell], hlinkl, hlinkr⟩, fun b hb => ?_⟩
    rw [Tree.toList_node, List.mem_append, List.mem_cons] at hb
    rcases hb with hb | rfl | hb
    · exact hnl b hb
    · rw [hcell]
    · exact hnr b hb

/-- The rounds that the loop spends on a subtree. -/
def rounds : Tree Nat → Nat
  | .nil => 0
  | .node _ l _ r => (if (link l).isSome then 1 else 0) + rounds l + 1 + rounds r

theorem rounds_le (s : Tree Nat) : rounds s ≤ 2 * s.toList.length := by
  induction s with
  | nil => exact Nat.le_refl 0
  | node c l a r ihl ihr =>
    rw [rounds, Tree.toList_node, List.length_append, List.length_cons]
    split
    · omega
    · omega

/-- The stack with a subtree on top of it. -/
def onto (stack : List PageLink) (s : Tree Nat) : List PageLink :=
  match link s with
  | none => stack
  | some a => stack ++ [some a]

/-- The entries of the visited nodes. -/
def marks (s : List Nat) : List (PageLink × Unit) := s.map fun a => (some a, ())

theorem mem_fst_marks {s : List Nat} {a : Nat} : some a ∈ (marks s).map Prod.fst ↔ a ∈ s := by
  simp [marks]

section Loop

variable {t : PageTree} {c : Color} {l r : Tree Nat} {a fuel : Nat} {stack : List PageLink}
  {items : List Nat} {visited : List (PageLink × Unit)}

/-- The round that comes to a node first, when its left child is still to be visited. -/
theorem traverseLoop_down {b : Nat} (hleft : (t.mem a).left = some b)
    (hb : some b ∉ visited.map Prod.fst) {h1 : (stack ++ [some a]).length ≤ TRAVERSE_LEN}
    {h2 : items.length ≤ TRAVERSE_LEN} {h3 : visited.length ≤ TRAVERSE_LEN}
    (h1' : (stack ++ [some a] ++ [some b]).length ≤ TRAVERSE_LEN) :
    t.traverseLoop (fuel + 1) ⟨stack ++ [some a], h1⟩ ⟨items, h2⟩ ⟨visited, h3⟩ =
      t.traverseLoop fuel ⟨stack ++ [some a] ++ [some b], h1'⟩ ⟨items, h2⟩ ⟨visited, h3⟩ := by
  have hl : t.left (some a) = some b := hleft
  have hbase : stack.length ≤ TRAVERSE_LEN := by
    rw [List.length_append] at h1
    omega
  have hcond : (t.left (some a)).isSome ∧
      ¬ (⟨visited, h3⟩ : Bounded (PageLink × Unit) TRAVERSE_LEN).containsKey (t.left (some a)) := by
    rw [hl, Bounded.containsKey_eq_false_iff.mpr hb]
    exact ⟨rfl, Bool.false_ne_true⟩
  rw [traverseLoop, Bounded.pop_mk h1 hbase]
  simp only [if_pos hcond]
  rw [Bounded.push_mk hbase _ h1, expectRoom, expect, ok_bind, hl, Bounded.push_mk h1 _ h1',
    expectRoom, expect, ok_bind]

/-- The round that emits a node: there is nothing on its left, or it has been visited. -/
theorem traverseLoop_emit (hleft : (t.mem a).left = link l) (hright : (t.mem a).right = link r)
    (hvisited : ∀ b, link l = some b → some b ∈ visited.map Prod.fst)
    (ha : some a ∉ visited.map Prod.fst) {h1 : (stack ++ [some a]).length ≤ TRAVERSE_LEN}
    {h2 : items.length ≤ TRAVERSE_LEN} {h3 : visited.length ≤ TRAVERSE_LEN}
    (h1' : (onto stack r).length ≤ TRAVERSE_LEN)
    (h2' : (items ++ [(t.mem a).n]).length ≤ TRAVERSE_LEN)
    (h3' : (visited ++ marks [a]).length ≤ TRAVERSE_LEN) :
    t.traverseLoop (fuel + 1) ⟨stack ++ [some a], h1⟩ ⟨items, h2⟩ ⟨visited, h3⟩ =
      t.traverseLoop fuel ⟨onto stack r, h1'⟩ ⟨items ++ [(t.mem a).n], h2'⟩
        ⟨visited ++ marks [a], h3'⟩ := by
  show _ = t.traverseLoop fuel _ _ ⟨visited ++ [(some a, ())], h3'⟩
  have hl : t.left (some a) = link l := hleft
  have hr : t.right (some a) = link r := hright
  have hbase : stack.length ≤ TRAVERSE_LEN := by
    rw [List.length_append] at h1
    omega
  have hseen : ∀ b, link l = some b →
      (⟨visited, h3⟩ : Bounded (PageLink × Unit) TRAVERSE_LEN).containsKey (some b) = true :=
    fun b hb => Bounded.containsKey_eq_true_iff.mpr (hvisited b hb)
  have hfirst : ¬ ((t.left (some a)).isSome ∧
      ¬ (⟨visited, h3⟩ : Bounded (PageLink × Unit) TRAVERSE_LEN).containsKey
        (t.left (some a))) := by
    rw [hl]
    cases hlink : link l with
    | none => exact fun h => nomatch h.1
    | some b => exact fun h => h.2 (hseen b hlink)
  have hsecond : (t.left (some a)).isNone ∨
      (⟨visited, h3⟩ : Bounded (PageLink × Unit) TRAVERSE_LEN).containsKey (t.left (some a)) := by
    rw [hl]
    cases hlink : link l with
    | none => exact Or.inl rfl
    | some b => exact Or.inr (hseen b hlink)
  rw [traverseLoop, Bounded.pop_mk h1 hbase]
  simp only [if_neg hfirst, if_pos hsecond]
  rw [show t.node (some a) = some (t.mem a) from rfl, unwrap_some, ok_bind,
    Bounded.push_mk h2 _ h2', expectRoom, expect, ok_bind, Bounded.insert_new ha,
    Bounded.push_mk h3 _ h3', expectRoom, expect, ok_bind, hr]
  cases hlink : link r with
  | none =>
    simp only [onto, hlink]
    rfl
  | some b =>
    have hroom : (stack ++ [some b]).length ≤ TRAVERSE_LEN := by
      simpa [onto, hlink] using h1'
    have hsome : (some b).isSome = true := rfl
    rw [if_pos hsome, Bounded.push_mk hbase _ hroom, expectRoom, expect, ok_bind]
    simp only [onto, hlink]

end Loop

theorem length_onto_le (stack : List PageLink) (s : Tree Nat) :
    (onto stack s).length ≤ stack.length + s.toList.length := by
  cases s with
  | nil => exact Nat.le_refl _
  | node c l a r =>
    simp only [onto, link_node, List.length_append, List.length_cons, List.length_nil,
      Tree.toList_node]
    omega

@[simp] theorem length_marks (s : List Nat) : (marks s).length = s.length := by
  simp [marks]

theorem mem_visited {visited : List (PageLink × Unit)} {s : List Nat} {a : Nat} :
    some a ∈ (visited ++ marks s).map Prod.fst ↔ some a ∈ visited.map Prod.fst ∨ a ∈ s := by
  rw [List.map_append, List.mem_append, mem_fst_marks]

theorem not_mem_visited {visited : List (PageLink × Unit)} {s : List Nat} {a : Nat} :
    some a ∉ (visited ++ marks s).map Prod.fst ↔ some a ∉ visited.map Prod.fst ∧ a ∉ s := by
  rw [mem_visited, not_or]

/-- The loop takes the subtree off its stack, emits its pages in order and marks its nodes. -/
def Visits (t : PageTree) (s : Tree Nat) : Prop :=
  ∀ (stack : List PageLink) (items : List Nat) (visited : List (PageLink × Unit)) (fuel : Nat),
    (∀ a ∈ s.toList, some a ∉ visited.map Prod.fst) →
    stack.length + s.toList.length ≤ TRAVERSE_LEN →
    ∀ {h1 : (onto stack s).length ≤ TRAVERSE_LEN} {h2 : items.length ≤ TRAVERSE_LEN}
      {h3 : visited.length ≤ TRAVERSE_LEN} (h1' : stack.length ≤ TRAVERSE_LEN)
      (h2' : (items ++ s.toList.map fun a => (t.mem a).n).length ≤ TRAVERSE_LEN)
      (h3' : (visited ++ marks s.toList).length ≤ TRAVERSE_LEN),
      t.traverseLoop (fuel + rounds s) ⟨onto stack s, h1⟩ ⟨items, h2⟩ ⟨visited, h3⟩ =
        t.traverseLoop fuel ⟨stack, h1'⟩ ⟨items ++ s.toList.map fun a => (t.mem a).n, h2'⟩
          ⟨visited ++ marks s.toList, h3'⟩

section Subtree

variable {t : PageTree} {c : Color} {l r : Tree Nat} {a fuel : Nat} {stack : List PageLink}
  {items : List Nat} {visited : List (PageLink × Unit)}

/-- **Up to the second arrival**: the node is still on the stack, and its left subtree is done. -/
theorem Visits.left (hvisits : Visits t l) (hleft : (t.mem a).left = link l)
    (hfresh : ∀ b ∈ l.toList, some b ∉ visited.map Prod.fst)
    (hroom : stack.length + l.toList.length + 1 ≤ TRAVERSE_LEN)
    {h1 : (onto stack (.node c l a r)).length ≤ TRAVERSE_LEN} {h2 : items.length ≤ TRAVERSE_LEN}
    {h3 : visited.length ≤ TRAVERSE_LEN} (h1' : (stack ++ [some a]).length ≤ TRAVERSE_LEN)
    (h2' : (items ++ l.toList.map fun a => (t.mem a).n).length ≤ TRAVERSE_LEN)
    (h3' : (visited ++ marks l.toList).length ≤ TRAVERSE_LEN) :
    t.traverseLoop (fuel + rounds (.node c l a r)) ⟨onto stack (.node c l a r), h1⟩ ⟨items, h2⟩
      ⟨visited, h3⟩ =
      t.traverseLoop (fuel + rounds r + 1) ⟨stack ++ [some a], h1'⟩
        ⟨items ++ l.toList.map fun a => (t.mem a).n, h2'⟩ ⟨visited ++ marks l.toList, h3'⟩ := by
  cases l with
  | nil =>
    simp only [onto, link_node, Tree.toList_nil, List.map_nil, List.append_nil, marks, rounds,
      link_nil]
    congr 1
    simp
    omega
  | node c' l' b r' =>
    have hbelow : (stack ++ [some a]).length + (Tree.node c' l' b r').toList.length ≤
        TRAVERSE_LEN := by
      rw [List.length_append, List.length_singleton]
      omega
    have hdown : (stack ++ [some a] ++ [some b]).length ≤ TRAVERSE_LEN :=
      Nat.le_trans (length_onto_le (stack ++ [some a]) (.node c' l' b r')) hbelow
    have hrounds : fuel + rounds (.node c (.node c' l' b r') a r) =
        fuel + rounds r + 1 + rounds (.node c' l' b r') + 1 := by
      rw [rounds]
      simp only [link_node, Option.isSome_some, if_true]
      omega
    rw [hrounds]
    show t.traverseLoop _ ⟨stack ++ [some a], h1'⟩ _ _ = _
    rw [traverseLoop_down hleft (hfresh b (by simp)) hdown]
    exact hvisits _ _ _ _ hfresh hbelow h1' h2' h3'

/-- **A node with its two subtrees.** -/
theorem Visits.node (hvl : Visits t l) (hvr : Visits t r) (hleft : (t.mem a).left = link l)
    (hright : (t.mem a).right = link r) (hnodup : (Tree.node c l a r).toList.Nodup) :
    Visits t (.node c l a r) := by
  intro stack items visited fuel hfresh hroom h1 h2 h3 h1' h2' h3'
  rw [Tree.toList_node, List.nodup_append, List.nodup_cons] at hnodup
  obtain ⟨-, ⟨har, -⟩, hdisj⟩ := hnodup
  have hal : a ∉ l.toList := fun h => hdisj a h a (List.mem_cons_self ..) rfl
  have hself : (stack ++ [some a]).length ≤ TRAVERSE_LEN := h1
  have hitems' := h2'
  have hvisited' := h3'
  simp only [Tree.toList_node, List.length_append, List.length_cons, List.length_map,
    length_marks] at hroom hitems' hvisited'
  -- after the left subtree
  have hl2 : (items ++ l.toList.map fun a => (t.mem a).n).length ≤ TRAVERSE_LEN := by
    simp only [List.length_append, List.length_map]
    omega
  have hl3 : (visited ++ marks l.toList).length ≤ TRAVERSE_LEN := by
    simp only [List.length_append, length_marks]
    omega
  have hfreshl : ∀ b ∈ l.toList, some b ∉ visited.map Prod.fst := fun b hb =>
    hfresh b (by simp [hb])
  -- after the node itself
  have hm2 : ((items ++ l.toList.map fun a => (t.mem a).n) ++ [(t.mem a).n]).length ≤
      TRAVERSE_LEN := by
    simp only [List.length_append, List.length_map, List.length_singleton]
    omega
  have hm3 : ((visited ++ marks l.toList) ++ marks [a]).length ≤ TRAVERSE_LEN := by
    simp only [List.length_append, length_marks, List.length_singleton]
    omega
  have honto : (onto stack r).length ≤ TRAVERSE_LEN :=
    Nat.le_trans (length_onto_le stack r) (by omega)
  have hseen : ∀ b, link l = some b → some b ∈ (visited ++ marks l.toList).map Prod.fst :=
    fun b hb => mem_visited.mpr (Or.inr (link_eq_some hb))
  have hnew : some a ∉ (visited ++ marks l.toList).map Prod.fst :=
    not_mem_visited.mpr ⟨hfresh a (by simp), hal⟩
  have hfreshr : ∀ b ∈ r.toList,
      some b ∉ (visited ++ marks l.toList ++ marks [a]).map Prod.fst := by
    intro b hb
    have hbl : b ∉ l.toList := fun h => hdisj b h b (List.mem_cons_of_mem _ hb) rfl
    have hba : b ∉ [a] := by
      rw [List.mem_singleton]
      intro heq
      exact har (heq ▸ hb)
    exact not_mem_visited.mpr ⟨not_mem_visited.mpr ⟨hfresh b (by simp [hb]), hbl⟩, hba⟩
  have hitems : (items ++ l.toList.map fun a => (t.mem a).n) ++ [(t.mem a).n] ++
      r.toList.map (fun a => (t.mem a).n) =
      items ++ (Tree.node c l a r).toList.map fun a => (t.mem a).n := by
    simp
  have hmarks : visited ++ marks l.toList ++ marks [a] ++ marks r.toList =
      visited ++ marks (Tree.node c l a r).toList := by
    simp [marks]
  rw [hvl.left hleft hfreshl (by omega) hself hl2 hl3,
    traverseLoop_emit hleft hright hseen hnew honto hm2 hm3,
    hvr _ _ _ _ hfreshr (by omega) h1' (by rw [hitems]; exact h2') (by rw [hmarks]; exact h3')]
  simp only [hitems, hmarks]

end Subtree

/-- **A whole subtree**: it is taken off the stack, and its pages are emitted in order. -/
theorem traverseLoop_tree {t : PageTree} {s : Tree Nat} (hlinked : Linked t.mem s)
    (hnodup : s.toList.Nodup) : Visits t s := by
  induction s with
  | nil =>
    intro stack items visited fuel _ _ h1 h2 h3 h1' h2' h3'
    simp only [onto, link_nil, Tree.toList_nil, List.map_nil, List.append_nil, marks, rounds,
      Nat.add_zero]
  | node c l a r ihl ihr =>
    obtain ⟨hleft, hright, hlinkl, hlinkr⟩ := hlinked
    have hnd := hnodup
    rw [Tree.toList_node, List.nodup_append, List.nodup_cons] at hnd
    obtain ⟨hndl, ⟨-, hndr⟩, -⟩ := hnd
    exact Visits.node (ihl hlinkl hndl) (ihr hlinkr hndr) hleft hright hnodup

/-- **`traverse` returns the pages in order.** On a binary tree of at most 1024 nodes, of any shape,
no container overflows, and after two rounds a node the list holds the page of each node once, in
order; on a stored page tree these are the pages of the tree. -/
theorem traverse_inOrder {t : PageTree} {s : Tree Nat} {fuel : Nat} (hroot : t.root = link s)
    (hlinked : Linked t.mem s) (hnodup : s.toList.Nodup) (hsize : s.toList.length ≤ 1024)
    (hfuel : 2 * s.toList.length < fuel) :
    ∃ items, t.traverse fuel = ok items ∧ items.elems = s.toList.map (fun a => (t.mem a).n) ∧
      ∀ p, Stored t.mem p s → items.elems = s.toList ∧ items.elems.Nodup := by
  have hcap : s.toList.length ≤ TRAVERSE_LEN := hsize
  have hroom : ([] : List PageLink).length + s.toList.length ≤ TRAVERSE_LEN := by simpa using hcap
  have honto : (onto [] s).length ≤ TRAVERSE_LEN := Nat.le_trans (length_onto_le [] s) hroom
  have hitems : ([] ++ s.toList.map fun a => (t.mem a).n).length ≤ TRAVERSE_LEN := by
    simpa using hcap
  have hvisited : ([] ++ marks s.toList).length ≤ TRAVERSE_LEN := by simpa using hcap
  obtain ⟨k, hk⟩ : ∃ k, fuel = k + 1 + rounds s := by
    have hle := rounds_le s
    exact ⟨fuel - rounds s - 1, by omega⟩
  have hstart : t.traverse fuel = t.traverseLoop fuel ⟨onto [] s, honto⟩ .empty .empty := by
    rw [traverse, hroot]
    cases hlink : link s with
    | none =>
      simp only [onto, hlink]
      rfl
    | some a =>
      have hone : ([] ++ [some a] : List PageLink).length ≤ TRAVERSE_LEN := by
        simp [TRAVERSE_LEN]
      have hsome : (some a).isSome = true := rfl
      rw [if_pos hsome, Bounded.empty, Bounded.push_mk _ _ hone, expectRoom, expect, ok_bind]
      simp only [onto, hlink]
  have hrun : t.traverse fuel = ok ⟨[] ++ s.toList.map fun a => (t.mem a).n, hitems⟩ := by
    rw [hstart, hk, Bounded.empty, Bounded.empty,
      traverseLoop_tree hlinked hnodup _ _ _ _ (fun _ _ => List.not_mem_nil) hroom (Nat.zero_le _)
        hitems hvisited]
    rfl
  refine ⟨_, hrun, List.nil_append _, fun p hp => ?_⟩
  have hself : (s.toList.map fun a => (t.mem a).n) = s.toList :=
    (List.map_congr_left hp.linked.2).trans (List.map_id' _)
  show [] ++ _ = _ ∧ ([] ++ _).Nodup
  rw [List.nil_append, hself]
  exact ⟨rfl, hnodup⟩

/-- The pages of a path of three nodes, each the left child of the one before. -/
def pathTree : Tree Nat :=
  .node .black (.node .red (.node .red .nil 2 .nil) 5 .nil) 9 .nil

def pathMem : Nat → PageNode := fun a =>
  if a = 9 then ⟨9, none, some 5, none, .black⟩
  else if a = 5 then ⟨5, some 9, some 2, none, .red⟩
  else ⟨2, some 5, none, none, .red⟩

theorem traverse_inOrder_path : ∃ items, (PageTree.mk pathMem (some 9)).traverse 7 = ok items ∧
    items.elems = [2, 5, 9] := by
  have hroot : (PageTree.mk pathMem (some 9)).root = link pathTree := rfl
  have hlinked : Linked pathMem pathTree :=
    ⟨rfl, rfl, ⟨rfl, rfl, ⟨rfl, rfl, trivial, trivial⟩, trivial⟩, trivial⟩
  have hnodup : pathTree.toList.Nodup := by decide
  have hfuel : 2 * pathTree.toList.length < 7 := by decide
  obtain ⟨items, hrun, hitems, -⟩ := traverse_inOrder hroot hlinked hnodup (by decide) hfuel
  exact ⟨items, hrun, hitems⟩

end PageTree
end Allora
