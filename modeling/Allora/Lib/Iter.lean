import Allora.Lib.Outcome

/-!
# Iterators

An iterator is a state and a `next` function that answers an element or, at the end, `none`. The
loops over it that are used everywhere stop at the first `none`: collecting all elements, and
looking for the first that has some property. A loop with a body goes on as long as the body has
nothing to return (`findMap`), or for all elements, with a state of its own (`fold`).
-/

set_option autoImplicit false

namespace Allora
namespace Iter

open Outcome

variable {ι α : Type} (next : ι → Outcome (ι × Option α))

/-- All elements up to the first `None`. -/
def collect : Nat → ι → Outcome (List α)
  | 0, _ => timeout
  | fuel + 1, it => do
    let (it, r) ← next it
    match r with
    | none => ok []
    | some a =>
      let as ← collect fuel it
      ok (a :: as)

/-- `Iterator::find`. -/
def find (p : α → Bool) : Nat → ι → Outcome (Option α)
  | 0, _ => timeout
  | fuel + 1, it => do
    let (it, r) ← next it
    match r with
    | none => ok none
    | some a => if p a then ok (some a) else find p fuel it

/-- `for`, with a body that may break out. -/
def findMap {β : Type} (f : α → Outcome (Option β)) : Nat → ι → Outcome (Option β)
  | 0, _ => timeout
  | fuel + 1, it => do
    let (it, r) ← next it
    match r with
    | none => ok none
    | some a => do
      match ← f a with
      | some b => ok (some b)
      | none => findMap f fuel it

/-- `for`, with a body that updates `σ`. -/
def fold {σ : Type} (f : σ → α → Outcome σ) : Nat → σ → ι → Outcome σ
  | 0, _, _ => timeout
  | fuel + 1, s, it => do
    let (it, r) ← next it
    match r with
    | none => ok s
    | some a => do
      let s ← f s a
      fold f fuel s it

variable {next} {it it' : ι} {a : α} {as : List α}

theorem collect_none (h : next it = ok (it', none)) (fuel : Nat) :
    collect next (fuel + 1) it = ok [] := by
  simp only [collect, h, ok_bind]

theorem collect_some {fuel : Nat} (h : next it = ok (it', some a))
    (hrest : collect next fuel it' = ok as) : collect next (fuel + 1) it = ok (a :: as) := by
  simp only [collect, h, ok_bind, hrest]

/-- `find` answers the first element that `collect` would have found. -/
theorem find_of_collect (p : α → Bool) :
    ∀ {fuel : Nat} {it : ι} {as : List α}, collect next fuel it = ok as →
      find next p fuel it = ok (as.find? p) := by
  intro fuel
  induction fuel with
  | zero => exact fun h => nomatch h
  | succ fuel ih =>
    intro it as h
    rw [collect] at h
    obtain ⟨⟨it', r⟩, hnext, h⟩ := bind_eq_ok.mp h
    cases r with
    | none =>
      cases h
      simp only [find, hnext, ok_bind, List.find?_nil]
    | some a =>
      obtain ⟨as', hrest, h⟩ := bind_eq_ok.mp h
      cases h
      simp only [find, hnext, ok_bind, List.find?_cons]
      cases p a with
      | true => rfl
      | false => exact ih hrest

/-- The loop goes past elements that its body has nothing to return for, to the first that it has
something for, or that it panics at. -/
theorem findMap_of_collect {β : Type} {f : α → Outcome (Option β)} {pre post : List α}
    (hpre : ∀ b ∈ pre, f b = ok none) (ha : f a ≠ ok none) : ∀ {fuel : Nat} {it : ι},
      collect next fuel it = ok (pre ++ a :: post) → findMap next f fuel it = f a := by
  induction pre with
  | nil =>
    intro fuel it h
    cases fuel with
    | zero => exact nomatch h
    | succ fuel =>
      rw [collect] at h
      obtain ⟨⟨it', r⟩, hnext, h⟩ := bind_eq_ok.mp h
      cases r with
      | none => cases h
      | some b =>
        obtain ⟨as', -, h⟩ := bind_eq_ok.mp h
        cases h
        simp only [findMap, hnext, ok_bind]
        cases hf : f a with
        | ok r =>
          cases r with
          | none => exact absurd hf ha
          | some b => rfl
        | panic msg => rfl
        | timeout => rfl
  | cons b pre ih =>
    intro fuel it h
    obtain ⟨hb, hpre⟩ := List.forall_mem_cons.mp hpre
    cases fuel with
    | zero => exact nomatch h
    | succ fuel =>
      rw [collect] at h
      obtain ⟨⟨it', r⟩, hnext, h⟩ := bind_eq_ok.mp h
      cases r with
      | none => cases h
      | some c =>
        obtain ⟨as', hrest, h⟩ := bind_eq_ok.mp h
        cases h
        simp only [findMap, hnext, ok_bind, hb]
        exact ih hpre hrest

/-- Or it comes to the end. -/
theorem findMap_none {β : Type} {f : α → Outcome (Option β)} : ∀ {fuel : Nat} {it : ι},
    collect next fuel it = ok as → (∀ b ∈ as, f b = ok none) →
      findMap next f fuel it = ok none := by
  intro fuel
  induction fuel generalizing as with
  | zero => exact fun h => nomatch h
  | succ fuel ih =>
    intro it h has
    rw [collect] at h
    obtain ⟨⟨it', r⟩, hnext, h⟩ := bind_eq_ok.mp h
    cases r with
    | none => simp only [findMap, hnext, ok_bind]
    | some b =>
      obtain ⟨as', hrest, h⟩ := bind_eq_ok.mp h
      cases h
      obtain ⟨hb, has⟩ := List.forall_mem_cons.mp has
      simp only [findMap, hnext, ok_bind, hb]
      exact ih hrest has

end Iter
end Allora
