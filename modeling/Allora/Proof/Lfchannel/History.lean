import Allora.Lfchannel
import Mathlib.Data.List.Basic

/-!
# What is in the list

The list from `head.next` on spells out the linked messages, newest first, with the numbers
`1, 2, …` that the sender gave them: `history`. `Chain` is that list in memory. It never passes
through the dummy node, so moving `head.next` leaves it alone, and it stays below a bound that the
sender's half-done node is not below.
-/

set_option autoImplicit false

namespace Allora
namespace Lfchannel

open Outcome

/-! ## Numbers -/

section Numbers

variable {T : Type}

/-- The messages with their versions, from `k + 1` on. -/
def numbered (k : Nat) : List T → List (Entry T)
  | [] => []
  | msg :: ms => ⟨msg, UInt64.ofNat (k + 1)⟩ :: numbered (k + 1) ms

theorem numbered_append (k : Nat) (ms ms' : List T) :
    numbered k (ms ++ ms') = numbered k ms ++ numbered (k + ms.length) ms' := by
  induction ms generalizing k with
  | nil => rfl
  | cons m ms ih =>
    rw [List.cons_append, numbered, numbered, List.cons_append, ih, List.length_cons]
    congr 3
    omega

theorem map_msg_numbered (k : Nat) (ms : List T) : (numbered k ms).map Entry.msg = ms := by
  induction ms generalizing k with
  | nil => rfl
  | cons m ms ih => rw [numbered, List.map_cons, ih]

theorem version_of_mem_numbered {k : Nat} {ms : List T} {e : Entry T} (h : e ∈ numbered k ms) :
    ∃ i, k < i ∧ i ≤ k + ms.length ∧ e.version = UInt64.ofNat i := by
  induction ms generalizing k with
  | nil => cases h
  | cons m ms ih =>
    rcases List.mem_cons.mp h with rfl | hmem
    · exact ⟨k + 1, by omega, by simp, rfl⟩
    · obtain ⟨i, hlo, hhi, hv⟩ := ih hmem
      exact ⟨i, by omega, by rw [List.length_cons]; omega, hv⟩

/-- The list that `to_vec_in` finds once `ms` is linked. -/
def history (ms : List T) : List (Entry T) := (numbered 0 ms).reverse

@[simp] theorem history_nil : history ([] : List T) = [] := rfl

theorem history_concat (ms : List T) (msg : T) :
    history (ms ++ [msg]) = ⟨msg, UInt64.ofNat (ms.length + 1)⟩ :: history ms := by
  simp [history, numbered_append, numbered]

/-- The first entry carries the number of messages. -/
theorem history_eq_cons {ms : List T} (h : ms ≠ []) :
    ∃ e rest, history ms = e :: rest ∧ e.version = UInt64.ofNat ms.length := by
  obtain ⟨ms', msg, rfl⟩ := (List.eq_nil_or_concat ms).resolve_left h
  rw [List.concat_eq_append]
  refine ⟨_, _, history_concat ms' msg, ?_⟩
  rw [List.length_append, List.length_singleton]

/-- The filter of `recv_in` keeps exactly the messages after the first `d`. -/
theorem filter_history {ms : List T} {d : Nat} (hlen : ms.length < 2 ^ 64) (hd : d ≤ ms.length) :
    ((history ms).filter fun e => UInt64.ofNat d < e.version).map Entry.msg =
      (ms.drop d).reverse := by
  have hold : ∀ e ∈ numbered 0 (ms.take d), ¬ UInt64.ofNat d < e.version := by
    intro e he
    obtain ⟨i, -, hi, hv⟩ := version_of_mem_numbered he
    rw [List.length_take] at hi
    rw [hv, UInt64.ofNat_lt_iff_lt (show _ < 2 ^ 64 by omega) (show _ < 2 ^ 64 by omega)]
    omega
  have hnew : ∀ e ∈ numbered d (ms.drop d), UInt64.ofNat d < e.version := by
    intro e he
    obtain ⟨i, hlo, hi, hv⟩ := version_of_mem_numbered he
    rw [List.length_drop] at hi
    rwa [hv, UInt64.ofNat_lt_iff_lt (show _ < 2 ^ 64 by omega) (show _ < 2 ^ 64 by omega)]
  have hsplit : numbered 0 ms = numbered 0 (ms.take d) ++ numbered d (ms.drop d) := by
    conv_lhs => rw [← List.take_append_drop d ms, numbered_append]
    rw [List.length_take, Nat.zero_add, Nat.min_eq_left hd]
  rw [history, hsplit, List.filter_reverse, List.filter_append,
    List.filter_eq_nil_iff.mpr (by simpa using hold), List.filter_eq_self.mpr (by simpa using hnew),
    List.nil_append, List.map_reverse, map_msg_numbered]

end Numbers

/-! ## The list in memory -/

section Memory

variable {α : Type} {l l' : LfList α} {bound bound' : Nat} {p : Option Nat} {es : List α}

/-- The nodes from `p` on hold `es`; none is the dummy, and all are below `bound`. -/
def Chain (l : LfList α) (bound : Nat) : Option Nat → List α → Prop
  | p, [] => p = none
  | p, e :: es => ∃ a next, p = some a ∧ a ≠ l.head ∧ a < bound ∧
      l.heap[a]? = some ⟨some e, next⟩ ∧ Chain l bound next es

/-- The nodes below the bound are as they were, the dummy apart. -/
structure Keeps (l : LfList α) (bound : Nat) (l' : LfList α) (bound' : Nat) : Prop where
  head : l'.head = l.head
  bound_le : bound ≤ bound'
  node : ∀ a, a ≠ l.head → a < bound → l'.heap[a]? = l.heap[a]?

theorem Chain.keeps (hk : Keeps l bound l' bound') (h : Chain l bound p es) :
    Chain l' bound' p es := by
  induction es generalizing p with
  | nil => exact h
  | cons e es ih =>
    obtain ⟨a, next, hp, hne, hlt, hnode, hrest⟩ := h
    exact ⟨a, next, hp, by rwa [hk.head], Nat.lt_of_lt_of_le hlt hk.bound_le,
      (hk.node a hne hlt).trans hnode, ih hrest⟩

theorem Keeps.boxNode (e : α) (hb : bound ≤ l.heap.length) :
    Keeps l bound (l.boxNode e).1 bound := by
  refine ⟨rfl, Nat.le_refl _, fun a _ hlt => ?_⟩
  exact List.getElem?_append_left (Nat.lt_of_lt_of_le hlt hb)

/-- A store to the dummy, or to a node that is not in the list yet. -/
theorem Keeps.setNext {a : Nat} (next : Option Nat) (ha : a = l.head ∨ bound ≤ a)
    (hb : bound ≤ bound') : Keeps l bound (l.setNext a next) bound' := by
  refine ⟨rfl, hb, fun x hx hlt => ?_⟩
  have hne : a ≠ x := by
    rintro rfl
    rcases ha with rfl | ha
    · exact hx rfl
    · omega
  simp [LfList.setNext, hne]

theorem getElem?_setNext_self {a : Nat} {node : Node α} (next : Option Nat)
    (h : l.heap[a]? = some node) :
    (l.setNext a next).heap[a]? = some { node with next := next } := by
  simp [LfList.setNext, h]

theorem getElem?_setNext_of_ne {a b : Nat} (next : Option Nat) (h : a ≠ b) :
    (l.setNext a next).heap[b]? = l.heap[b]? := by
  simp [LfList.setNext, h]

theorem next_eq {a : Nat} {node : Node α} (h : l.heap[a]? = some node) :
    l.next a = ok node.next := by
  simp [LfList.next, h]

theorem elem_eq {a : Nat} {e : α} {next : Option Nat} (h : l.heap[a]? = some ⟨some e, next⟩) :
    l.elem (some a) = ok e := by
  simp [LfList.elem, h]

end Memory

end Lfchannel
end Allora
