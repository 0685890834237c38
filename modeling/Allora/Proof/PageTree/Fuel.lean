import Allora.Mm.PageTree

/-!
# Fuel does not matter

The loops of `page_tree.rs` are modelled with fuel. A call given more fuel answers the same or
answers where it had not (`Approx`), so "the call returns `r`" and "the call panics" mean the same
at every fuel at which the loops come to an end. One lemma per function, in call order.
-/

set_option autoImplicit false

namespace Allora
namespace PageTree

open Outcome

variable {fuel fuel' : Nat}

theorem minLink_mono (t : PageTree) (h : fuel ≤ fuel') (cur : PageLink) :
    Approx (t.minLink fuel cur) (t.minLink fuel' cur) := by
  induction fuel generalizing fuel' cur with
  | zero => exact .of_timeout _
  | succ fuel ih =>
    obtain ⟨k, rfl⟩ := Nat.exists_eq_add_of_le' (Nat.zero_lt_of_lt h)
    exact .ite (ih (Nat.le_of_succ_le_succ h) _) (.refl _)

theorem climb_mono (t : PageTree) (h : fuel ≤ fuel') (cur : PageLink) :
    Approx (t.climb fuel cur) (t.climb fuel' cur) := by
  induction fuel generalizing fuel' cur with
  | zero => exact .of_timeout _
  | succ fuel ih =>
    obtain ⟨k, rfl⟩ := Nat.exists_eq_add_of_le' (Nat.zero_lt_of_lt h)
    exact .ite (ih (Nat.le_of_succ_le_succ h) _) (.refl _)

theorem nextLink_mono (t : PageTree) (h : fuel ≤ fuel') (start : PageLink) :
    Approx (t.nextLink fuel start) (t.nextLink fuel' start) :=
  .ite (t.minLink_mono h _) (t.climb_mono h _)

theorem consecutiveFrom_mono (t : PageTree) (h : fuel ≤ fuel') (start : PageLink) (k : Nat) :
    ∀ (i : Nat) (cur : PageLink),
      Approx (t.consecutiveFrom fuel start i k cur) (t.consecutiveFrom fuel' start i k cur) := by
  induction k with
  | zero => exact fun _ _ => .refl _
  | succ k ih => exact fun i cur => (t.nextLink_mono h cur).bind fun next => .ite (ih _ _) (.refl _)

theorem findRun_mono (t : PageTree) (h : fuel ≤ fuel') (npages : Nat) {k k' : Nat} (hk : k ≤ k')
    (cur : PageLink) : Approx (t.findRun fuel npages k cur) (t.findRun fuel' npages k' cur) := by
  induction k generalizing k' cur with
  | zero => exact .of_timeout _
  | succ k ih =>
    obtain ⟨j, rfl⟩ := Nat.exists_eq_add_of_le' (Nat.zero_lt_of_lt hk)
    refine .ite ((t.consecutiveFrom_mono h cur _ _ _).bind fun found => .ite (.refl _) ?_) (.refl _)
    exact (t.nextLink_mono h cur).bind fun next => ih (Nat.le_of_succ_le_succ hk) next

theorem insertDescend_mono (t : PageTree) (n : Nat) (h : fuel ≤ fuel') (curr prev : PageLink) :
    Approx (t.insertDescend n fuel curr prev) (t.insertDescend n fuel' curr prev) := by
  induction fuel generalizing fuel' curr prev with
  | zero => exact .of_timeout _
  | succ fuel ih =>
    obtain ⟨k, rfl⟩ := Nat.exists_eq_add_of_le' (Nat.zero_lt_of_lt h)
    rw [insertDescend, insertDescend]
    split
    · exact ih (Nat.le_of_succ_le_succ h) _ _
    · exact .refl _

theorem insertFixup_mono (h : fuel ≤ fuel') (t : PageTree) (clink : PageLink) :
    Approx (insertFixup fuel t clink) (insertFixup fuel' t clink) := by
  induction fuel generalizing fuel' t clink with
  | zero => exact .of_timeout _
  | succ fuel ih =>
    obtain ⟨k, rfl⟩ := Nat.exists_eq_add_of_le' (Nat.zero_lt_of_lt h)
    exact .ite ((Approx.refl _).bind fun q => ih (Nat.le_of_succ_le_succ h) q.1 q.2) (.refl _)

theorem insert_mono (h : fuel ≤ fuel') (t : PageTree) (n : Nat) :
    Approx (t.insert fuel n) (t.insert fuel' n) :=
  (t.insertDescend_mono n h _ _).bind fun _ => insertFixup_mono h _ _

theorem deleteFixup_mono (h : fuel ≤ fuel') (t : PageTree) (alink : PageLink) :
    Approx (deleteFixup fuel t alink) (deleteFixup fuel' t alink) := by
  induction fuel generalizing fuel' t alink with
  | zero => exact .of_timeout _
  | succ fuel ih =>
    obtain ⟨k, rfl⟩ := Nat.exists_eq_add_of_le' (Nat.zero_lt_of_lt h)
    exact .ite ((Approx.refl _).bind fun q => ih (Nat.le_of_succ_le_succ h) q.1 q.2) (.refl _)

theorem delete_mono (h : fuel ≤ fuel') (t : PageTree) (n : Nat) :
    Approx (t.delete fuel n) (t.delete fuel' n) := by
  -- the three branches share what follows them
  have hfix : ∀ q : PageTree × PageLink × Color,
      Approx (if q.2.2 = .black then deleteFixup fuel q.1 q.2.1 else pure q.1)
        (if q.2.2 = .black then deleteFixup fuel' q.1 q.2.1 else pure q.1) :=
    fun q => .ite (deleteFixup_mono h _ _) (.refl _)
  refine .ite ((Approx.refl _).bind hfix) (.ite ((Approx.refl _).bind hfix) (Approx.bind ?_ hfix))
  exact (t.minLink_mono h _).bind fun _ => .refl _

theorem getMultiple_mono (h : fuel ≤ fuel') (t : PageTree) (npages : Nat) :
    Approx (t.getMultiple fuel npages) (t.getMultiple fuel' npages) := by
  refine (t.minLink_mono h _).bind fun first => (t.findRun_mono h npages h first).bind fun cur => ?_
  split
  · exact (Approx.foldlM (delete_mono h) _ t).bind fun _ => .refl _
  · exact .refl _

end PageTree
end Allora
