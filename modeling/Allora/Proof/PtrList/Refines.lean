import Allora.Proof.PtrList.Walks
import Mathlib.Data.List.Perm.Basic

/-!
# The list is a sequence

What the list is for needs no pointers: a push puts an element in front, the removals take one out
at a position or by a closure, and the rest only looks. `onSeq` says this of a plain sequence, and
`perform_held` is the refinement, one operation at a time. Nothing is lost and nothing comes out
twice in the sequence (`onSeq_perm`), and a run of the list returns what a run of the sequence does.
-/

set_option autoImplicit false

namespace Allora
namespace PtrList

open Outcome Linked
open scoped List

variable {α : Type}

/-! ## The sequence -/

/-- An operation on a plain sequence. -/
def Op.onSeq : Op α → List α → Answer α × List α
  | .push e, xs => (.done, e :: xs)
  | .pop, xs => (.elem xs.head?, xs.tail)
  | .removeNth 0, xs => (.elem none, xs)
  | .removeNth (k + 1), xs => (.elem xs[k]?, xs.eraseIdx k)
  | .remove f, xs => (.elem (xs.find? f), xs.eraseP f)
  | .iter calls, xs => (.elems ((List.range calls).map fun i => xs[i]?), xs)
  | .iterMut writes, xs =>
      (.elems ((List.range writes.length).map fun i => xs[i]?), rewrite writes xs)
  | .len, xs => (.count xs.length, xs)

/-- Operations on a plain sequence, one after the other. -/
def runSeq : List (Op α) → List α → List (Answer α) × List α
  | [], xs => ([], xs)
  | op :: ops, xs =>
      ((op.onSeq xs).1 :: (runSeq ops (op.onSeq xs).2).1, (runSeq ops (op.onSeq xs).2).2)

theorem length_rewrite (writes : List (α → α)) (xs : List α) :
    (rewrite writes xs).length = xs.length := by
  induction writes generalizing xs with
  | nil => rw [rewrite]; simp
  | cons f writes ih =>
    cases xs with
    | nil => rfl
    | cons x xs => rw [rewrite, List.length_cons, List.length_cons, ih]

/-- Only a push makes the sequence longer. -/
theorem length_onSeq (op : Op α) (xs : List α) : (op.onSeq xs).2.length ≤ xs.length + 1 := by
  cases op with
  | push e => exact Nat.le_refl _
  | pop => exact Nat.le_succ_of_le (List.length_tail ▸ Nat.sub_le _ _)
  | removeNth n =>
    cases n with
    | zero => exact Nat.le_succ _
    | succ k => exact Nat.le_succ_of_le (List.eraseIdx_sublist xs k).length_le
  | remove f => exact Nat.le_succ_of_le (List.eraseP_sublist).length_le
  | iter calls => exact Nat.le_succ _
  | iterMut writes => exact Nat.le_succ_of_le (Nat.le_of_eq (length_rewrite writes xs))
  | len => exact Nat.le_succ _

/-! ## Nothing comes out twice -/

/-- The element that an operation hands over to the list. -/
def Op.given : Op α → List α
  | .push e => [e]
  | _ => []

/-- The element that an answer hands back to the client. -/
def Answer.taken : Answer α → List α
  | .elem e => e.toList
  | _ => []

/-- What a client writes through a mutable iterator leaves the tag of each element alone. -/
def Op.Keeps {ι : Type} (tag : α → ι) : Op α → Prop
  | .iterMut writes => ∀ f ∈ writes, ∀ a, tag (f a) = tag a
  | _ => True

theorem map_rewrite {ι : Type} {tag : α → ι} (writes : List (α → α)) (xs : List α)
    (hkeep : ∀ f ∈ writes, ∀ a, tag (f a) = tag a) : (rewrite writes xs).map tag = xs.map tag := by
  induction writes generalizing xs with
  | nil => rw [rewrite]; simp
  | cons f writes ih =>
    cases xs with
    | nil => rfl
    | cons x xs =>
      rw [rewrite, List.map_cons, List.map_cons, hkeep f List.mem_cons_self,
        ih xs fun g hg => hkeep g (List.mem_cons_of_mem f hg)]

theorem perm_eraseIdx (xs : List α) (k : Nat) : (xs[k]?.toList ++ xs.eraseIdx k).Perm xs := by
  by_cases hk : k < xs.length
  · rw [List.getElem?_eq_getElem hk]
    exact List.getElem_cons_eraseIdx_perm hk
  · have hlen : xs.length ≤ k := Nat.le_of_not_lt hk
    rw [List.getElem?_eq_none hlen, List.eraseIdx_of_length_le hlen]
    exact List.Perm.refl xs

theorem perm_eraseP (f : α → Bool) (xs : List α) :
    ((xs.find? f).toList ++ xs.eraseP f).Perm xs := by
  induction xs with
  | nil => exact List.Perm.refl []
  | cons x xs ih =>
    by_cases hf : f x = true
    · rw [List.find?_cons_of_pos hf, List.eraseP_cons_of_pos hf]
      exact List.Perm.refl (x :: xs)
    · rw [List.find?_cons_of_neg hf, List.eraseP_cons_of_neg hf]
      exact List.perm_middle.trans (ih.cons x)

/-- What comes out and what stays is what was there and what went in. -/
theorem onSeq_perm {ι : Type} {tag : α → ι} {op : Op α} (hkeep : op.Keeps tag) (xs : List α) :
    (((op.onSeq xs).1.taken ++ (op.onSeq xs).2).map tag).Perm ((op.given ++ xs).map tag) := by
  cases op with
  | push e => exact List.Perm.refl _
  | pop =>
    cases xs with
    | nil => exact List.Perm.refl _
    | cons x xs => exact List.Perm.refl _
  | removeNth n =>
    cases n with
    | zero => exact List.Perm.refl _
    | succ k => exact (perm_eraseIdx xs k).map tag
  | remove f => exact (perm_eraseP f xs).map tag
  | iter calls => exact List.Perm.refl _
  | iterMut writes => exact List.Perm.of_eq (map_rewrite writes xs hkeep)
  | len => exact List.Perm.refl _

/-- The same of a run. -/
theorem runSeq_perm {ι : Type} {tag : α → ι} (ops : List (Op α)) (xs : List α)
    (hkeep : ∀ op ∈ ops, op.Keeps tag) :
    (((runSeq ops xs).1.flatMap Answer.taken ++ (runSeq ops xs).2).map tag).Perm
      ((ops.flatMap Op.given ++ xs).map tag) := by
  induction ops generalizing xs with
  | nil => exact List.Perm.refl _
  | cons op ops ih =>
    have hone := onSeq_perm (hkeep op List.mem_cons_self) xs
    have hrest := ih (op.onSeq xs).2 fun o ho => hkeep o (List.mem_cons_of_mem op ho)
    simp only [runSeq, List.flatMap_cons, List.map_append] at hone hrest ⊢
    calc _ = (op.onSeq xs).1.taken.map tag ++ (((runSeq ops (op.onSeq xs).2).1.flatMap
            Answer.taken).map tag ++ (runSeq ops (op.onSeq xs).2).2.map tag) := by
          rw [List.append_assoc]
      _ ~ (op.onSeq xs).1.taken.map tag ++ ((ops.flatMap Op.given).map tag ++
            (op.onSeq xs).2.map tag) := hrest.append_left _
      _ ~ (ops.flatMap Op.given).map tag ++ ((op.onSeq xs).1.taken.map tag ++
            (op.onSeq xs).2.map tag) := List.perm_append_comm_assoc ..
      _ ~ (ops.flatMap Op.given).map tag ++ (op.given.map tag ++ xs.map tag) :=
          hone.append_left _
      _ ~ op.given.map tag ++ ((ops.flatMap Op.given).map tag ++ xs.map tag) :=
          List.perm_append_comm_assoc ..
      _ = _ := by rw [List.append_assoc]

/-! ## The refinement -/

/-- The list reads `xs`: behind the dummy are live nodes with these elements, and memory holds no
other node. -/
def Held (l : PtrList α) (xs : List α) : Prop :=
  ∃ (d : Ptr) (ns : List (Ptr × α)), l.head = some d ∧
    Chain l.heap.cells (some d) ((d, none) :: ns.map live) ∧ ns.map Prod.snd = xs

/-- There are fewer nodes than addresses. -/
theorem Held.length_lt {l : PtrList α} {xs : List α} (h : Held l xs) : xs.length < 2 ^ 64 := by
  obtain ⟨d, ns, -, hc, rfl⟩ := h
  have hle := hc.nodup.length_le_card
  rw [Fintype.card_fin] at hle
  simp only [List.map_cons, List.length_cons, List.length_map] at hle ⊢
  omega

section Perform

variable {A : Allocator α} {l : PtrList α} {xs : List α} {fuel : Nat}

/-- Removing at a position, counted from zero. -/
theorem removeNth_held (h : Held l xs) (k : Nat) :
    ∃ l', l.removeNth (k + 1) = ok (xs[k]?, l') ∧ Held l' (xs.eraseIdx k) := by
  obtain ⟨d, ns, hhead, hc, rfl⟩ := h
  have hc' : Chain l.heap.cells l.head ([] ++ (d, none) :: ns.map live) := hhead ▸ hc
  have hget : (ns.map Prod.snd)[k]? = ns[k]?.map Prod.snd := List.getElem?_map ..
  rw [removeNth, hhead, deref, ok_bind, hget]
  rcases removeNthLoop_chain k none hc' with ⟨hrun, hnone⟩ | ⟨q, c, hrun, l', hun, hhead', hleft⟩
  · have hlen : (ns.map Prod.snd).length ≤ k := by
      rw [List.length_map]
      exact List.getElem?_eq_none_iff.mp hnone
    rw [hrun, hnone, List.eraseIdx_of_length_le hlen]
    exact ⟨l, rfl, d, ns, hhead, hc, rfl⟩
  · rw [hrun, ok_bind]
    refine ⟨l', hun, d, ns.eraseIdx k, hhead'.trans hhead, ?_, (List.eraseIdx_map ..).symm⟩
    rw [hhead] at hleft
    exact hleft

theorem remove_held (h : Held l xs) (hfuel : xs.length < fuel) (f : α → Bool) :
    ∃ l', l.remove fuel f = ok (xs.find? f, l') ∧ Held l' (xs.eraseP f) := by
  obtain ⟨d, ns, hhead, hc, rfl⟩ := h
  have hc' : Chain l.heap.cells l.head ([] ++ (d, none) :: ns.map live) := hhead ▸ hc
  rw [List.length_map] at hfuel
  obtain ⟨l', hrun, hhead', hleft⟩ := removeLoop_chain hc' hfuel
  rw [remove, hhead, deref, ok_bind]
  refine ⟨l', hrun, d, _, hhead'.trans hhead, ?_, (List.eraseP_map ..).symm⟩
  rw [hhead] at hleft
  exact hleft

/-- An iterator starts at the first live node. -/
theorem iter_chain {d : Ptr} {ns : List (Ptr × Option α)} (hhead : l.head = some d)
    (hc : Chain l.heap.cells (some d) ((d, none) :: ns)) : l.iter = ok (link ns) := by
  have hc' : Chain l.heap.cells (some d) ([] ++ (d, none) :: ns) := hc
  rw [iter, hhead]
  show (l.heap.read d >>= _) = _
  rw [read_chain hc', ok_bind]

theorem len_held (h : Held l xs) (hfuel : xs.length < fuel) : l.len fuel = ok xs.length := by
  have hlt := h.length_lt
  obtain ⟨d, ns, hhead, hc, rfl⟩ := h
  have hc' : Chain l.heap.cells (some d) ([(d, none)] ++ ns.map live) := hc
  rw [List.length_map] at hfuel
  rw [len, iter_chain hhead hc, ok_bind, fold_chain hc' hfuel, count_eq _ (by rwa [Nat.zero_add]),
    Nat.zero_add]

/-- **One operation refines one on the sequence**, unless the allocator refuses. -/
theorem perform_held (h : Held l xs) (hfuel : xs.length < fuel) (op : Op α) :
    ((∃ e, op = .push e) ∧ A.place l.heap = none ∧ l.perform A fuel op = .panic A.error) ∨
    ∃ l', l.perform A fuel op = ok ((op.onSeq xs).1, l') ∧ Held l' (op.onSeq xs).2 := by
  cases op with
  | push e =>
    obtain ⟨d, ns, hhead, hc, rfl⟩ := h
    obtain ⟨fuel, rfl⟩ : ∃ k, fuel = k + 1 := Nat.exists_eq_add_one.mpr (Nat.zero_lt_of_lt hfuel)
    rw [perform]
    rcases push_chain hhead hc with ⟨hnone, hrun⟩ | ⟨l', a, hrun, hhead', hc'⟩
    · exact .inl ⟨⟨e, rfl⟩, hnone, by rw [hrun]; rfl⟩
    · rw [hrun, ok_bind]
      exact .inr ⟨l', rfl, d, (a, e) :: ns, hhead', hc', rfl⟩
  | pop =>
    obtain ⟨l', hrun, hheld⟩ := removeNth_held h 0
    rw [perform, pop, hrun, ok_bind]
    refine .inr ⟨l', ?_, ?_⟩
    · rw [Op.onSeq, List.head?_eq_getElem?]
    · rwa [List.eraseIdx_zero] at hheld
  | removeNth nth =>
    cases nth with
    | zero =>
      obtain ⟨d, ns, hhead, hc, rfl⟩ := h
      refine .inr ⟨l, ?_, d, ns, hhead, hc, rfl⟩
      rw [perform, removeNth, hhead]
      rfl
    | succ k =>
      obtain ⟨l', hrun, hheld⟩ := removeNth_held h k
      rw [perform, hrun, ok_bind]
      exact .inr ⟨l', rfl, hheld⟩
  | remove f =>
    obtain ⟨l', hrun, hheld⟩ := remove_held h hfuel f
    rw [perform, hrun, ok_bind]
    exact .inr ⟨l', rfl, hheld⟩
  | iter calls =>
    obtain ⟨d, ns, hhead, hc, rfl⟩ := h
    have hc' : Chain l.heap.cells (some d) ([(d, none)] ++ ns.map live) := hc
    rw [perform, iter_chain hhead hc, ok_bind, nexts_chain calls hc', ok_bind]
    exact .inr ⟨l, rfl, d, ns, hhead, hc, rfl⟩
  | iterMut writes =>
    obtain ⟨d, ns, hhead, hc, rfl⟩ := h
    have hc' : Chain l.heap.cells (some d) ([(d, none)] ++ ns.map live) := hc
    obtain ⟨h', ns', hrun, hnew, hns⟩ := writeNexts_chain writes hc'
    rw [perform, iter_chain hhead hc, ok_bind, hrun, ok_bind]
    exact .inr ⟨⟨h', l.head⟩, rfl, d, ns', hhead, hnew, hns⟩
  | len =>
    rw [perform, len_held h hfuel, ok_bind]
    exact .inr ⟨l, rfl, h⟩

theorem run_cons {l' : PtrList α} {op : Op α} {ans : Answer α}
    (hrun : l.perform A fuel op = ok (ans, l')) (ops : List (Op α)) :
    run A fuel (op :: ops) l = run A fuel ops l' >>= fun r => ok (ans :: r.1, r.2) := by
  rw [run, hrun]
  rfl

/-- In a run from `l` a push comes to the allocator when it has no address to give. -/
def Refused (A : Allocator α) (fuel : Nat) (ops : List (Op α)) (l : PtrList α) : Prop :=
  ∃ before e after answers l', ops = before ++ .push e :: after ∧
    run A fuel before l = ok (answers, l') ∧ A.place l'.heap = none

/-- A run from any list refines a run of the sequence it reads. -/
theorem run_held (ops : List (Op α)) : ∀ {l : PtrList α} {xs : List α}, Held l xs →
    xs.length + ops.length < fuel →
    (Refused A fuel ops l ∧ run A fuel ops l = .panic A.error) ∨
    ∃ l', run A fuel ops l = ok ((runSeq ops xs).1, l') ∧ Held l' (runSeq ops xs).2 := by
  induction ops with
  | nil => exact fun h _ => .inr ⟨_, rfl, h⟩
  | cons op ops ih =>
    intro l xs h hfuel
    rw [List.length_cons] at hfuel
    have hroom : xs.length < fuel := by omega
    rcases perform_held h hroom op with ⟨⟨e, rfl⟩, hnone, hrun⟩ | ⟨l', hrun, h'⟩
    · exact .inl ⟨⟨[], e, ops, [], l, rfl, rfl, hnone⟩, by rw [run, hrun]; rfl⟩
    · have hlen := length_onSeq op xs
      rcases ih h' (by omega) with ⟨hrefused, hrest⟩ | ⟨l'', hrest, h''⟩
      · obtain ⟨before, e, after, answers, l'', rfl, hbefore, hnone⟩ := hrefused
        refine .inl ⟨⟨op :: before, e, after, (op.onSeq xs).1 :: answers, l'', rfl, ?_, hnone⟩, ?_⟩
        · rw [run_cons hrun, hbefore]
          rfl
        · rw [run_cons hrun, hrest]
          rfl
      · rw [run_cons hrun, hrest]
        exact .inr ⟨l'', rfl, h''⟩

end Perform

/-- **A list used by one thread is a sequence.** Whatever is done to a new list, either the
allocator has no node for it when it is asked, or every answer is that of the plain sequence, and
the list goes on to read what the sequence is then. Of the elements pushed, told apart by any tag
that the writes through mutable iterators keep, each one either came out once or is still there. -/
theorem list_refines (A : Allocator α) (ops : List (Op α)) {fuel : Nat}
    (hfuel : ops.length < fuel) :
    ((A.place .empty = none ∨ ∃ l, newIn A = ok l ∧ Refused A fuel ops l) ∧
      (newIn A >>= run A fuel ops) = .panic A.error) ∨
    ∃ answers xs l, runSeq ops [] = (answers, xs) ∧
      (newIn A >>= run A fuel ops) = ok (answers, l) ∧ Held l xs ∧
      ∀ {ι : Type} (tag : α → ι), (∀ op ∈ ops, op.Keeps tag) →
        ((answers.flatMap Answer.taken ++ xs).map tag).Perm
          ((ops.flatMap Op.given).map tag) := by
  rcases newIn_chain A with ⟨hnone, hnew⟩ | ⟨l, d, hnew, hhead, hc⟩
  · exact .inl ⟨.inl hnone, by rw [hnew]; rfl⟩
  have hheld : Held l [] := ⟨d, [], hhead, hc, rfl⟩
  have hroom : ([] : List α).length + ops.length < fuel := by rwa [List.length_nil, Nat.zero_add]
  rw [hnew, ok_bind]
  rcases run_held ops hheld hroom with ⟨hrefused, hrun⟩ | ⟨l', hrun, h'⟩
  · exact .inl ⟨.inr ⟨l, rfl, hrefused⟩, hrun⟩
  · refine .inr ⟨_, _, l', rfl, hrun, h', fun tag hkeep => ?_⟩
    have hperm := runSeq_perm ops [] hkeep
    rwa [List.append_nil] at hperm

/-- The first of three addresses that holds no node. -/
def firstFree {α : Type} : Allocator α where
  layout := ⟨16, 8, by decide, by decide⟩
  place h := [16, 32, 48].find? fun a => (h.cells a).isNone
  fresh h := by
    have hfree := List.find?_some h
    exact Option.isNone_iff_eq_none.mp hfree

/-- Operations on a list of numbers; the fourth puts its node where the third freed one. -/
def sixOps : List (Op Nat) :=
  [.push 5, .push 7, .removeNth 2, .push 9, .remove fun x => x = 7, .iter 2]

theorem list_refines_reuse : ∃ l, (newIn firstFree >>= run firstFree 7 sixOps) =
      ok ([.done, .done, .elem (some 5), .done, .elem (some 7), .elems [some 9, none]], l) ∧
    Held l [9] := by
  have hfuel : sixOps.length < 7 := by decide
  rcases list_refines firstFree sixOps hfuel with
    ⟨-, hpanic⟩ | ⟨answers, xs, l, hseq, hrun, hheld, -⟩
  · have hreturns : Returns (newIn firstFree >>= run firstFree 7 sixOps) := ⟨_, rfl⟩
    obtain ⟨r, hr⟩ := hreturns
    rw [hpanic] at hr
    cases hr
  · cases hseq
    exact ⟨l, hrun, hheld⟩

end PtrList
end Allora
