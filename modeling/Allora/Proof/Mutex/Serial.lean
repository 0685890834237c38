import Allora.Mutex

/-!
# Critical sections run one after the other

However the threads are interleaved, the value behind a mutex is what the critical sections make of
it when each of them runs on its own, in the order in which they took the lock, and each of them
answers what it answers then. Through `map`, the closures run on the value inside the `Option`, or
not at all.
-/

set_option autoImplicit false

namespace Allora
namespace Mutex

open Monitor

variable {ι T I R U : Type}

/-! ## `map` -/

section Map

variable {use : I → T → Use T I U}

/-- Behind the lock, `map` does what the closure does. -/
theorem part_map {i j : I} {d : T} {o : Option T} (h : Part (map use) i (some d) j o) :
    ∃ e, o = some e ∧ Part use i d j e := by
  generalize hsome : some d = p at h
  induction h with
  | refl =>
    subst hsome
    exact ⟨d, rfl, .refl i d⟩
  | access _ huse ih =>
    obtain ⟨e, rfl, hpart⟩ := ih hsome
    simp only [map] at huse
    split at huse
    · next f k hf =>
      cases huse
      exact ⟨f, rfl, .access hpart hf⟩
    · cases huse

theorem section_map {i : I} {d : T} {o : Option T} {r : Option U}
    (h : Section (map use) i (some d) r o) :
    ∃ e u, o = some e ∧ r = some u ∧ Section use i d u e := by
  obtain ⟨j, hmap, huse⟩ := h
  obtain ⟨e, rfl, hpart⟩ := part_map hmap
  simp only [map] at huse
  split at huse
  · cases huse
  · next u hu =>
    cases huse
    exact ⟨e, u, rfl, rfl, j, hpart, hu⟩

theorem replay_map {d : T} {secs : List (ι × I × Option U)} {o : Option T}
    (h : Replay (map use) (some d) secs o) :
    ∃ e secs', o = some e ∧ secs = secs'.map (fun c => (c.1, c.2.1, some c.2.2)) ∧
      Replay use d secs' e := by
  induction h with
  | nil => exact ⟨d, [], rfl, rfl, .nil⟩
  | @snoc secs _ _ t i r _ hmap ih =>
    obtain ⟨e, secs', rfl, rfl, hreplay⟩ := ih
    obtain ⟨f, u, rfl, rfl, hsec⟩ := section_map hmap
    refine ⟨f, secs' ++ [(t, i, u)], rfl, ?_, .snoc hreplay hsec⟩
    simp

/-- An empty mutex stays empty, and `map` answers `None`. -/
theorem replay_map_none {secs : List (ι × I × Option U)} {o : Option T}
    (h : Replay (map use) none secs o) : o = none ∧ ∀ c ∈ secs, c.2.2 = none := by
  induction h with
  | nil => exact ⟨rfl, fun c hc => nomatch hc⟩
  | snoc _ hsec ih =>
    obtain ⟨rfl, hnone⟩ := ih
    obtain ⟨j, hpart, huse⟩ := hsec
    have hstay : ∀ {i j : I} {p q : Option T}, p = none → Part (map use) i p j q → q = none := by
      intro i j p q hp hpart
      induction hpart with
      | refl => exact hp
      | access _ hacc ih =>
        rw [ih hp] at hacc
        cases hacc
    obtain rfl := hstay rfl hpart
    cases huse
    refine ⟨rfl, ?_⟩
    intro c hc
    rcases List.mem_append.mp hc with hc | hc
    · exact hnone c hc
    · rw [List.mem_singleton.mp hc]

end Map

/-! ## Runs -/

/-- **Critical sections are atomic.** In every run, at most one thread is behind the lock, and the
flag tells whether one is. The value is what the sections that are over make of it, run as a whole
one after the other in the order in which they took the lock, and each has returned what it returns
there; if a thread is behind the lock, the value is what a part of its section makes of that. -/
theorem lock_serial [DecidableEq ι] (use : I → T → Use T I R) (data : T)
    (turns : List (Turn ι I Empty)) :
    ∃ secs d, Replay use data secs d ∧
      let (s, es) := ((guarded use).machine ι).run (start ι (Mutex.new data)) turns
      returns es = secs.map (fun c => (c.1, c.2.2)) ∧
        ((s.word = false ∧ (∀ t, s.inside t = none) ∧ s.data = d ∧
            calls es = secs.map fun c => (c.1, c.2.1)) ∨
          ∃ t i j, s.word = true ∧ s.inside t = some i ∧ (∀ u, u ≠ t → s.inside u = none) ∧
            Part use j d i s.data ∧ calls es = secs.map (fun c => (c.1, c.2.1)) ++ [(t, j)]) := by
  have hserial := (guarded use).serial data turns
  rcases hserial with ⟨hword, hin, secs, hreplay, hcalls, hreturns⟩ |
    ⟨t, i, hword, hin, secs, j, d, hreplay, hpart, hcalls, hreturns⟩
  · refine ⟨secs, _, hreplay, hreturns, Or.inl ⟨hword, ?_, rfl, hcalls⟩⟩
    intro t
    exact congrFun hin t
  · refine ⟨secs, d, hreplay, hreturns, Or.inr ⟨t, i, j, hword, ?_, ?_, hpart, hcalls⟩⟩
    · exact (congrFun hin t).trans (alone_self t i)
    · intro u hu
      exact (congrFun hin u).trans (alone_of_ne hu)

/-- **Closures are atomic**, of `map` over a mutex that was filled: those that are over have run one
after the other on the value inside. -/
theorem map_serial [DecidableEq ι] (use : I → T → Use T I U) (data : T)
    (turns : List (Turn ι I Empty)) :
    ∃ secs d, Replay use data secs d ∧
      let (s, es) := ((guarded (map use)).machine ι).run (start ι (Mutex.new (some data))) turns
      returns es = secs.map (fun c => (c.1, some c.2.2)) ∧
        (s.word = false → s.data = some d) := by
  have hserial := (guarded (map use)).serial (some data) turns
  rcases hserial with ⟨-, -, maps, hmaps, -, hreturns⟩ | ⟨-, -, hword, -, maps, -, o, hmaps, -, -,
    hreturns⟩
  · obtain ⟨d, secs, hd, rfl, hreplay⟩ := replay_map hmaps
    refine ⟨secs, d, hreplay, ?_, fun _ => hd⟩
    exact hreturns.trans (List.map_map ..)
  · obtain ⟨d, secs, -, rfl, hreplay⟩ := replay_map hmaps
    refine ⟨secs, d, hreplay, ?_, fun hfree => ?_⟩
    · exact hreturns.trans (List.map_map ..)
    · cases hword.symm.trans hfree

end Mutex
end Allora
