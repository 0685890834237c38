import Allora.PtrList
import Mathlib.Data.Fintype.Card

/-!
# What each operation does to the chain of nodes

The nodes of a list are the dummy, which holds no element, and the live nodes behind it. Both
removals walk with one node behind the other, so what they do is said of the chain cut at the node
behind: everything up to it stays, and one of the live nodes after it goes.
-/

set_option autoImplicit false

namespace Allora
namespace PtrList

open Outcome Linked

variable {α : Type}

/-- A node that holds an element. -/
def live (n : Ptr × α) : Ptr × Option α := (n.1, some n.2)

/-! ## Single accesses -/

section Access

variable {h : Heap α} {head : Option Ptr} {pre post : List (Ptr × Option α)} {p c : Ptr}
  {v : Option α} {e : α}

theorem read_of_cell {node : Node α} (hp : h.cells p = some node) : h.read p = ok node := by
  rw [Heap.read, hp]

theorem read_chain (hc : Chain h.cells head (pre ++ (p, v) :: post)) :
    h.read p = ok ⟨v, link post⟩ := read_of_cell hc.node

/-- A compare-exchange that nothing has come between. -/
theorem compareExchange_done {node : Node α} {old : Option Ptr} (hp : h.read p = ok node)
    (hold : node.next = old) (new : Option Ptr) :
    h.compareExchange p old new = ok (true, h.write p { node with next := new }) := by
  rw [Heap.compareExchange, hp, ok_bind, if_pos hold]

end Access

/-! ## Linking in -/

section Push

variable {A : Allocator α} {l : PtrList α} {d : Ptr} {ns : List (Ptr × Option α)} {e : α}
  {fuel : Nat}

/-- An attempt to push succeeds: nothing comes between its load and its compare-exchange. -/
theorem tryPush_done {h : Heap α} {a : Ptr} {next : Option Ptr} (hda : d ≠ a)
    (hd : h.cells d = some ⟨none, next⟩) (ha : h.cells a = some ⟨some e, none⟩) :
    PtrList.tryPush ⟨h, some d⟩ a =
      ok (true, ⟨(h.write a ⟨some e, next⟩).write d ⟨none, some a⟩, some d⟩) := by
  have hstore : h.store a next = ok (h.write a ⟨some e, next⟩) := by
    rw [Heap.store, read_of_cell ha]
    rfl
  have hd' : (h.write a ⟨some e, next⟩).cells d = some ⟨none, next⟩ :=
    (Function.update_of_ne hda _ _).trans hd
  rw [tryPush]
  show (h.read d >>= fun node => h.store a node.next >>= _) = _
  rw [read_of_cell hd, ok_bind, hstore, ok_bind, compareExchange_done (read_of_cell hd') rfl]
  rfl

/-- The new node is put between the dummy and what was the first node. -/
theorem push_chain (hhead : l.head = some d) (hc : Chain l.heap.cells (some d) ((d, none) :: ns)) :
    (A.place l.heap = none ∧ l.push A (fuel + 1) e = .panic A.error) ∨
    ∃ l' a, l.push A (fuel + 1) e = ok l' ∧ l'.head = some d ∧
      Chain l'.heap.cells (some d) ((d, none) :: (a, some e) :: ns) := by
  have hfirst : Chain l.heap.cells (some d) ([] ++ (d, none) :: ns) := hc
  have hcell : l.heap.cells d = some ⟨none, link ns⟩ := hfirst.node
  cases hplace : A.place l.heap with
  | none =>
    refine .inl ⟨rfl, ?_⟩
    rw [push, Heap.boxNew, hplace]
    rfl
  | some a =>
    have hfree : l.heap.cells a = none := A.fresh hplace
    have hda : d ≠ a := by
      intro heq
      rw [heq, hfree] at hcell
      cases hcell
    -- memory with the new node in it, not yet linked
    obtain ⟨boxed, hboxed⟩ : ∃ boxed : Heap α, boxed =
        ⟨Function.update l.heap.cells a (some ⟨some e, none⟩), l.heap.boxes + 1⟩ := ⟨_, rfl⟩
    have hbox : l.heap.boxNew A ⟨some e, none⟩ = ok (a, boxed) := by
      rw [Heap.boxNew, hplace, hboxed]
    have hd : boxed.cells d = some ⟨none, link ns⟩ := by
      rw [hboxed]
      exact (Function.update_of_ne hda _ _).trans hcell
    have ha : boxed.cells a = some ⟨some e, none⟩ := by
      rw [hboxed]
      exact Function.update_self ..
    refine .inr ⟨⟨(boxed.write a ⟨some e, link ns⟩).write d ⟨none, some a⟩, some d⟩, a, ?_, rfl,
      ?_⟩
    · rw [push, hbox, ok_bind, hhead]
      show pushLoop (fuel + 1) ⟨boxed, some d⟩ a = _
      rw [pushLoop, tryPush_done hda hd ha]
      rfl
    · have hins := hfirst.insert hfree (some e)
      show Chain (Function.update (Function.update boxed.cells a _) d _) _ _
      rw [hboxed, Function.update_idem]
      exact hins

/-- `new_in`: the dummy is the whole chain. -/
theorem newIn_chain (A : Allocator α) :
    (A.place .empty = none ∧ newIn A = .panic A.error) ∨
    ∃ l d, newIn A = ok l ∧ l.head = some d ∧ Chain l.heap.cells (some d) [(d, none)] := by
  cases hplace : A.place .empty with
  | none =>
    refine .inl ⟨rfl, ?_⟩
    rw [newIn, Heap.boxNew, hplace]
    rfl
  | some d =>
    refine .inr ⟨⟨⟨Function.update (fun _ => none) d (some ⟨none, none⟩), 1⟩, some d⟩, d, ?_, rfl,
      ?_⟩
    · rw [newIn, Heap.boxNew, hplace]
      rfl
    · have hcell : Function.update (fun _ => none) d (some (⟨none, none⟩ : Node α)) d =
          some ⟨none, none⟩ := Function.update_self ..
      refine ⟨⟨rfl, none, hcell, rfl⟩, List.nodup_singleton d, fun a ha => ?_⟩
      have had : a ≠ d := List.ne_of_not_mem_cons ha
      show Function.update (fun _ => none) d _ a = none
      rw [Function.update_of_ne had]

end Push

/-! ## Unlinking -/

section Remove

variable {l : PtrList α} {pre post : List (Ptr × Option α)} {ns : List (Ptr × α)} {p c : Ptr}
  {v : Option α} {e : α} {f : α → Bool}

/-- `x` returns `e`, and leaves the nodes up to the cut as they are, with `ns` live after them. -/
def Leaves (l : PtrList α) (pre : List (Ptr × Option α)) (x : Outcome (Option α × PtrList α))
    (e : Option α) (ns : List (Ptr × α)) : Prop :=
  ∃ l', x = ok (e, l') ∧ l'.head = l.head ∧ Chain l'.heap.cells l.head (pre ++ ns.map live)

theorem unlink_chain (hc : Chain l.heap.cells l.head (pre ++ (p, v) :: (c, some e) :: post)) :
    ∃ l', l.unlink p c = ok (some e, l') ∧ l'.head = l.head ∧
      Chain l'.heap.cells l.head (pre ++ (p, v) :: post) := by
  have hc' : Chain l.heap.cells l.head (pre ++ [(p, v)] ++ (c, some e) :: post) := by
    simpa using hc
  have hpc : c ≠ p := fun heq => Chain.around hc.nodup (c, some e) (by simp) heq
  have hreadc : l.heap.read c = ok ⟨some e, link post⟩ := read_chain hc'
  have hreadp : l.heap.read p = ok ⟨v, some c⟩ := read_chain hc
  have hcell : (l.heap.write p ⟨v, link post⟩).cells c = some ⟨some e, link post⟩ :=
    (Function.update_of_ne hpc _ _).trans hc'.node
  refine ⟨⟨⟨Function.update (Function.update l.heap.cells p (some ⟨v, link post⟩)) c none,
    l.heap.boxes⟩, l.head⟩, ?_, rfl, hc.unlink⟩
  rw [unlink, hreadc, ok_bind, compareExchange_done hreadp rfl, ok_bind]
  simp only [if_true, Heap.unbox, read_of_cell hcell, ok_bind, value]
  rfl

/-- **`remove_nth` from the node behind.** The walk of `k + 1` steps from a node takes out the
`k`-th live node after it, if there is one. -/
theorem removeNthLoop_chain (k : Nat) : ∀ {ns : List (Ptr × α)} {pre : List (Ptr × Option α)}
    {p : Ptr} {v : Option α} (prev : Option Ptr),
    Chain l.heap.cells l.head (pre ++ (p, v) :: ns.map live) →
    (removeNthLoop l.heap (k + 1) prev p = ok none ∧ ns[k]? = none) ∨
    ∃ q c, removeNthLoop l.heap (k + 1) prev p = ok (some (some q, c)) ∧
      Leaves l (pre ++ [(p, v)]) (l.unlink q c) (ns[k]?.map Prod.snd) (ns.eraseIdx k) := by
  induction k with
  | zero =>
    intro ns pre p v prev hc
    rw [removeNthLoop, read_chain hc, ok_bind]
    cases ns with
    | nil => exact .inl ⟨rfl, rfl⟩
    | cons n ns =>
      obtain ⟨l', hrun, hhead, hc'⟩ := unlink_chain hc
      refine .inr ⟨p, n.1, rfl, l', hrun, hhead, ?_⟩
      simpa using hc'
  | succ k ih =>
    intro ns pre p v prev hc
    rw [removeNthLoop, read_chain hc, ok_bind]
    cases ns with
    | nil => exact .inl ⟨rfl, rfl⟩
    | cons n ns =>
      have hnext : Chain l.heap.cells l.head
          (pre ++ [(p, v)] ++ (n.1, some n.2) :: ns.map live) := by simpa [live] using hc
      rcases ih (some p) hnext with hnone | ⟨q, c, hrun, l', hun, hhead, hc'⟩
      · exact .inl hnone
      · refine .inr ⟨q, c, hrun, l', hun, hhead, ?_⟩
        simpa [live] using hc'

/-- **`remove` from the node behind.** It takes out the first live node after it whose element the
closure accepts. -/
theorem removeLoop_chain : ∀ {ns : List (Ptr × α)} {pre : List (Ptr × Option α)} {p : Ptr}
    {v : Option α} {fuel : Nat}, Chain l.heap.cells l.head (pre ++ (p, v) :: ns.map live) →
    ns.length < fuel →
    Leaves l (pre ++ [(p, v)]) (removeLoop f fuel l p) ((ns.map Prod.snd).find? f)
      (ns.eraseP (f ∘ Prod.snd)) := by
  intro ns
  induction ns with
  | nil =>
    intro pre p v fuel hc hfuel
    obtain ⟨fuel, rfl⟩ := Nat.exists_eq_add_of_lt hfuel
    rw [removeLoop, read_chain hc, ok_bind]
    exact ⟨l, rfl, rfl, by simpa using hc⟩
  | cons n ns ih =>
    intro pre p v fuel hc hfuel
    obtain ⟨fuel, rfl⟩ : ∃ k, fuel = k + 1 := Nat.exists_eq_add_one.mpr (Nat.zero_lt_of_lt hfuel)
    have hnext : Chain l.heap.cells l.head (pre ++ [(p, v)] ++ (n.1, some n.2) :: ns.map live) := by
      simpa [live] using hc
    have hread : l.heap.read n.1 = ok ⟨some n.2, link (ns.map live)⟩ := read_chain hnext
    rw [removeLoop, read_chain hc, ok_bind]
    simp only [List.map_cons, link_cons, live, hread, ok_bind, value]
    by_cases hf : f n.2 = true
    · have hfn : (f ∘ Prod.snd) n = true := hf
      obtain ⟨l', hrun, hhead, hc'⟩ := unlink_chain hc
      rw [if_pos hf, List.find?_cons_of_pos hf, List.eraseP_cons_of_pos hfn]
      exact ⟨l', hrun, hhead, by simpa using hc'⟩
    · have hfn : ¬ (f ∘ Prod.snd) n = true := hf
      obtain ⟨l', hrun, hhead, hc'⟩ := ih hnext (Nat.lt_of_succ_lt_succ hfuel)
      rw [if_neg hf, List.find?_cons_of_neg hf, List.eraseP_cons_of_neg hfn]
      exact ⟨l', hrun, hhead, by simpa [live] using hc'⟩

end Remove

/-! ## Iterators -/

section Iterators

variable {h : Heap α} {head : Option Ptr}

/-- One call of `next` moves past one live node. -/
theorem iterNext_chain {ns : List (Ptr × α)} {pre : List (Ptr × Option α)} {n : Ptr × α}
    (hc : Chain h.cells head (pre ++ (n :: ns).map live)) :
    iterNext h (some n.1) = ok (some n.2, link (ns.map live)) := by
  have hread : h.read n.1 = ok ⟨some n.2, link (ns.map live)⟩ := read_chain hc
  rw [iterNext, hread]
  rfl

/-- The `i`-th call of `next` returns the `i`-th element. -/
theorem nexts_chain (calls : Nat) : ∀ {ns : List (Ptr × α)} {pre : List (Ptr × Option α)},
    Chain h.cells head (pre ++ ns.map live) →
    nexts h calls (link (ns.map live)) =
      ok ((List.range calls).map fun i => (ns.map Prod.snd)[i]?) := by
  induction calls with
  | zero => exact fun _ => rfl
  | succ calls ih =>
    intro ns pre hc
    rw [List.range_succ_eq_map, nexts]
    cases ns with
    | nil =>
      have hnil := ih hc
      rw [List.map_nil, link_nil] at hnil ⊢
      rw [iterNext, ok_bind]
      simp only [hnil, ok_bind]
      simp [Function.comp_def]
    | cons n ns =>
      have hnext : Chain h.cells head (pre ++ [live n] ++ ns.map live) := by simpa using hc
      rw [List.map_cons, link_cons, live, iterNext_chain hc, ok_bind]
      simp only [ih hnext, ok_bind]
      simp [Function.comp_def]

/-- A fold goes over the elements in order. -/
theorem fold_chain {β : Type} {g : β → α → Outcome β} :
    ∀ {ns : List (Ptr × α)} {pre : List (Ptr × Option α)} {fuel : Nat} {acc : β},
    Chain h.cells head (pre ++ ns.map live) → ns.length < fuel →
    fold h g fuel acc (link (ns.map live)) = (ns.map Prod.snd).foldlM g acc := by
  intro ns
  induction ns with
  | nil =>
    intro pre fuel acc hc hfuel
    obtain ⟨fuel, rfl⟩ := Nat.exists_eq_add_of_lt hfuel
    rfl
  | cons n ns ih =>
    intro pre fuel acc hc hfuel
    obtain ⟨fuel, rfl⟩ : ∃ k, fuel = k + 1 := Nat.exists_eq_add_one.mpr (Nat.zero_lt_of_lt hfuel)
    have hnext : Chain h.cells head (pre ++ [live n] ++ ns.map live) := by simpa using hc
    rw [fold, List.map_cons, link_cons, live, iterNext_chain hc, ok_bind, List.map_cons,
      List.foldlM_cons]
    simp only [ih hnext (Nat.lt_of_succ_lt_succ hfuel)]

/-- Counting goes up by one an element. -/
theorem count_eq (xs : List α) : ∀ {a : Nat}, a + xs.length < 2 ^ 64 →
    xs.foldlM (fun a _ => addChecked 64 a 1) a = ok (a + xs.length) := by
  induction xs with
  | nil => exact fun _ => rfl
  | cons x xs ih =>
    intro a ha
    rw [List.length_cons] at ha
    have hone : addChecked 64 a 1 = ok (a + 1) := if_pos (by omega)
    rw [List.foldlM_cons, hone, ok_bind, ih (by omega), List.length_cons, Nat.add_right_comm,
      Nat.add_assoc]

/-- The writes are made to as many elements from the front. -/
def rewrite : List (α → α) → List α → List α
  | f :: writes, x :: xs => f x :: rewrite writes xs
  | _, xs => xs

/-- Writing through a mutable iterator changes the elements and nothing else. -/
theorem writeNexts_chain (writes : List (α → α)) :
    ∀ {h : Heap α} {ns : List (Ptr × α)} {pre : List (Ptr × Option α)},
    Chain h.cells head (pre ++ ns.map live) →
    ∃ (h' : Heap α) (ns' : List (Ptr × α)), writeNexts h writes (link (ns.map live)) =
        ok ((List.range writes.length).map (fun i => (ns.map Prod.snd)[i]?), h') ∧
      Chain h'.cells head (pre ++ ns'.map live) ∧
      ns'.map Prod.snd = rewrite writes (ns.map Prod.snd) := by
  induction writes with
  | nil =>
    intro h ns pre hc
    exact ⟨h, ns, rfl, hc, by rw [rewrite]; simp⟩
  | cons f writes ih =>
    intro h ns pre hc
    rw [List.length_cons, List.range_succ_eq_map, writeNexts]
    cases ns with
    | nil =>
      obtain ⟨h', ns', hrun, hc', hns⟩ := ih hc
      rw [List.map_nil, link_nil] at hrun ⊢
      refine ⟨h', ns', ?_, hc', ?_⟩
      · rw [iterMutNext, ok_bind]
        simp only [writeElem, ok_bind, hrun]
        simp [Function.comp_def]
      · rw [hns]
        cases writes <;> rfl
    | cons n ns =>
      have hread : h.read n.1 = ok ⟨some n.2, link (ns.map live)⟩ := read_chain hc
      have hset : Chain (h.write n.1 ⟨some (f n.2), link (ns.map live)⟩).cells head
          (pre ++ [live (n.1, f n.2)] ++ ns.map live) := by
        have hset' : Chain (h.write n.1 ⟨some (f n.2), link (ns.map live)⟩).cells head
            (pre ++ (n.1, some (f n.2)) :: ns.map live) := Chain.set hc (some (f n.2))
        simpa [live] using hset'
      obtain ⟨h', ns', hrun, hc', hns⟩ := ih hset
      refine ⟨h', (n.1, f n.2) :: ns', ?_, by simpa using hc', ?_⟩
      · rw [List.map_cons, link_cons, live, iterMutNext, hread, ok_bind]
        simp only [ok_bind, writeElem, hread, value, hrun]
        simp [Function.comp_def]
      · rw [List.map_cons, List.map_cons, rewrite, hns]

end Iterators
end PtrList
end Allora
