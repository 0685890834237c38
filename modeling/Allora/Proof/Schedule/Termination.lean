import Allora.Lib.Rotor
import Allora.Proof.Schedule.Visit
import Mathlib.Logic.Relation
import Mathlib.Order.Lattice.Nat
import Mathlib.Order.WellFounded

/-!
# When the scheduler finds a thread

`find_next_thread` follows `Redirect` slices. It may come to the same container many times, and
only the hand of that container shows that anything has happened; so what keeps it from looping is
not on the way it takes but in the slices it has not come to yet.

A `Trap` is a set of containers whose slices all lead back into the set. If the search enters one
it never comes out. If it never ends, the containers that it visits again and again are such a
set: each of them is a rotor, and a rotor that is visited again and again shows all its slices.
-/

set_option autoImplicit false

namespace Allora
namespace Sched

open Outcome Relation

/-! ## Traps -/

/-- `c` has an entry in `TS`, and one of its slices redirects to `d`. -/
def Redirects (s : Sched) (c d : Nat) : Prop := c ∈ s.keys ∧ .redirect d ∈ s.slicesOf c

/-- Containers with an entry, whose slices all redirect into the set. -/
structure Trap (s : Sched) (S : Set Nat) : Prop where
  nonempty : S.Nonempty
  entry : ∀ c ∈ S, c ∈ s.keys
  slices : ∀ c ∈ S, s.slicesOf c ≠ []
  closed : ∀ c ∈ S, ∀ slice ∈ s.slicesOf c, ∃ d ∈ S, slice = .redirect d

/-- Following redirects from `ct` one can come into a trap. -/
def TrapReachable (s : Sched) (ct : Nat) : Prop :=
  ∃ S, s.Trap S ∧ ∃ c ∈ S, ReflTransGen s.Redirects ct c

/-- A redirect by a container that has no other slices than redirects. -/
def OnlyRedirects (s : Sched) (c d : Nat) : Prop :=
  s.Redirects c d ∧ ∀ slice ∈ s.slicesOf c, ∃ e, slice = .redirect e

/-- The tables of `s` are those of `s₀`, with some hands that are in range. -/
structure Assigns (s₀ s : Sched) : Prop where
  containers : s.containers = s₀.containers
  keys : s.keys = s₀.keys
  hands : s.HandsOk

/-- `find_next_thread(ct)` returns. -/
def Terminates (s : Sched) (ct : Nat) : Prop := ∃ fuel r, (findNextThread fuel s ct).result = ok r

section Assigns

variable {s₀ s : Sched} {ct c h : Nat}

theorem Assigns.slicesOf (ha : Assigns s₀ s) (c : Nat) : s.slicesOf c = s₀.slicesOf c := by
  rw [Sched.slicesOf, ha.containers, Sched.slicesOf]

theorem Assigns.turned (ha : Assigns s₀ s) : Assigns s₀ (s.turned ct h) :=
  ⟨ha.containers, (keys_turned s ct h).trans ha.keys, ha.hands.turned⟩

theorem Assigns.hand (ha : Assigns s₀ s) (hc : c ∈ s₀.keys) : ∃ h, s.handOf c = some h :=
  mem_keys_iff.mp (ha.keys ▸ hc)

end Assigns

/-! ## A trap is not left -/

section Loops

variable {s₀ s : Sched} {S : Set Nat} {ct c : Nat}

theorem Trap.timeout (ht : s₀.Trap S) :
    ∀ (fuel : Nat) {s : Sched} {c : Nat}, Assigns s₀ s → c ∈ S →
      (findNextThread fuel s c).result = .timeout := by
  intro fuel
  induction fuel with
  | zero => exact fun _ _ => rfl
  | succ fuel ih =>
    intro s c ha hc
    obtain ⟨h, hhand⟩ := ha.hand (ht.entry c hc)
    have hlt := ha.hands.hand_lt hhand (by rw [ha.slicesOf]; exact ht.slices c hc)
    obtain ⟨slice, hslice⟩ : ∃ slice, (s.slicesOf c)[h]? = some slice :=
      ⟨_, List.getElem?_eq_getElem hlt⟩
    have hmem := List.mem_of_getElem? hslice
    rw [ha.slicesOf] at hmem
    obtain ⟨d, hd, rfl⟩ := ht.closed c hc slice hmem
    rw [findNextThread_redirect hhand hslice]
    exact ih ha.turned hd

/-- `n` redirects lead from `c` into the trap. -/
def Leads (s₀ : Sched) (S : Set Nat) : Nat → Nat → Prop
  | 0, c => c ∈ S
  | n + 1, c => ∃ d, s₀.Redirects c d ∧ Leads s₀ S n d

theorem exists_leads (hc : c ∈ S) (h : ReflTransGen s₀.Redirects ct c) : ∃ n, Leads s₀ S n ct := by
  induction h using ReflTransGen.head_induction_on with
  | refl => exact ⟨0, hc⟩
  | head hred _ ih =>
    obtain ⟨n, hn⟩ := ih
    exact ⟨n + 1, _, hred, hn⟩

/-- The least number of redirects that lead from `c` into the trap. -/
noncomputable def rank (s₀ : Sched) (S : Set Nat) (c : Nat) : Nat := sInf {n | Leads s₀ S n c}

/-- A hand of `c` that points at the trap, along a shortest way. -/
structure Aims (s₀ : Sched) (S : Set Nat) (c i : Nat) : Prop where
  lt : s₀.slicesOf c ≠ [] → i < (s₀.slicesOf c).length
  nearer : ∀ n, Leads s₀ S n c → c ∉ S → c ∈ s₀.keys ∧ ∃ d m,
    (s₀.slicesOf c)[i]? = some (.redirect d) ∧ Leads s₀ S m d ∧ rank s₀ S d < rank s₀ S c

theorem exists_aims (s₀ : Sched) (S : Set Nat) (c : Nat) : ∃ i, Aims s₀ S c i := by
  by_cases hfar : c ∉ S ∧ ∃ n, Leads s₀ S n c
  · obtain ⟨hc, hex⟩ := hfar
    have hrank : Leads s₀ S (rank s₀ S c) c := Nat.sInf_mem hex
    cases hr : rank s₀ S c with
    | zero =>
      rw [hr] at hrank
      exact absurd hrank hc
    | succ m =>
      rw [hr] at hrank
      obtain ⟨d, ⟨hkey, hred⟩, hd⟩ := hrank
      obtain ⟨i, hi⟩ := List.mem_iff_getElem?.mp hred
      refine ⟨i, fun _ => (List.getElem?_eq_some_iff.mp hi).1, fun _ _ _ => ?_⟩
      refine ⟨hkey, d, m, hi, hd, ?_⟩
      rw [hr]
      exact Nat.lt_succ_of_le (Nat.sInf_le hd)
  · exact ⟨0, List.length_pos_of_ne_nil, fun n hn hc => absurd ⟨hc, n, hn⟩ hfar⟩

/-- The search follows such hands: none of those still ahead has moved. -/
theorem aim_timeout (ht : s₀.Trap S) {aim : Nat → Nat} (haim : ∀ c, Aims s₀ S c (aim c)) :
    ∀ (fuel : Nat) {s : Sched} {c n : Nat}, Assigns s₀ s → Leads s₀ S n c →
      (∀ c' ∈ s₀.keys, rank s₀ S c' ≤ rank s₀ S c → s.handOf c' = some (aim c')) →
      (findNextThread fuel s c).result = .timeout := by
  intro fuel
  induction fuel with
  | zero => exact fun _ _ _ => rfl
  | succ fuel ih =>
    intro s c n ha hn hhands
    by_cases hc : c ∈ S
    · exact ht.timeout _ ha hc
    · obtain ⟨hkey, d, m, hslice, hd, hlt⟩ := (haim c).nearer n hn hc
      have hhand := hhands c hkey (Nat.le_refl _)
      rw [← ha.slicesOf] at hslice
      rw [findNextThread_redirect hhand hslice]
      refine ih ha.turned hd fun c' hkey' hle => ?_
      have hne : c' ≠ c := by
        rintro rfl
        omega
      rw [handOf_turned_of_ne hne]
      exact hhands c' hkey' (by omega)

/-- The tables with the hand of every container given by a function. -/
def withHands (s : Sched) (hands : Nat → Nat) : Sched :=
  { s with ts := s.ts.map (List.map fun e => (e.1, hands e.1)) }

theorem handOf_withHands {hands : Nat → Nat} (hc : c ∈ s.keys) :
    (s.withHands hands).handOf c = some (hands c) := by
  obtain ⟨h, hhand⟩ := mem_keys_iff.mp hc
  obtain ⟨cts, hts, hfind⟩ := entry_of_handOf hhand
  rw [handOf, withHands, hts]
  simp only [Option.map_some, Option.bind_some, List.find?_map]
  have hfind' : cts.find? ((fun e => decide (e.1 = c)) ∘ fun e => (e.1, hands e.1)) = some (c, h) :=
    hfind
  rw [hfind']
  rfl

theorem assigns_withHands {hands : Nat → Nat}
    (h : ∀ c, s.slicesOf c ≠ [] → hands c < (s.slicesOf c).length) :
    Assigns s (s.withHands hands) := by
  refine ⟨rfl, ?_, ?_⟩
  · rw [keys, withHands, keys]
    cases s.ts with
    | none => rfl
    | some cts => simp [Function.comp_def]
  · intro cts hts e he hne
    obtain ⟨cts', -, rfl⟩ := Option.map_eq_some_iff.mp hts
    obtain ⟨e', -, rfl⟩ := List.mem_map.mp he
    exact h e'.1 hne

/-- **From some hands the search goes into a trap that it can reach.** -/
theorem TrapReachable.exists_loop (h : s₀.TrapReachable ct) :
    ∃ s, Assigns s₀ s ∧ ∀ fuel, (findNextThread fuel s ct).result = .timeout := by
  obtain ⟨S, ht, c, hc, hpath⟩ := h
  choose aim haim using exists_aims s₀ S
  obtain ⟨n, hn⟩ := exists_leads hc hpath
  have ha : Assigns s₀ (s₀.withHands aim) := assigns_withHands fun c => (haim c).lt
  exact ⟨_, ha, fun fuel => aim_timeout ht haim fuel ha hn fun c' hc' _ => handOf_withHands hc'⟩

end Loops

/-! ## What is visited again and again -/

section Walks

variable {s₀ s : Sched} {ct : Nat}

/-- The state and the container after `n` redirects. -/
def redirected (s : Sched) (ct : Nat) : Nat → Sched × Nat
  | 0 => (s, ct)
  | n + 1 =>
    match ((redirected s ct n).1.visit (redirected s ct n).2).result with
    | ok (s', some (.redirect d)) => (s', d)
    | _ => redirected s ct n

/-- A search that does not end redirects at every step. -/
theorem redirected_step (ha : Assigns s₀ s) (hloop : ∀ fuel, (findNextThread fuel s ct).result = .timeout) :
    ∀ n, Assigns s₀ (redirected s ct n).1 ∧
      (∀ fuel, (findNextThread fuel (redirected s ct n).1 (redirected s ct n).2).result = .timeout) ∧
      ∃ h d, (redirected s ct n).1.handOf (redirected s ct n).2 = some h ∧
        (s₀.slicesOf (redirected s ct n).2)[h]? = some (.redirect d) ∧
        redirected s ct (n + 1) = ((redirected s ct n).1.turned (redirected s ct n).2 h, d) := by
  have hnext : ∀ n, Assigns s₀ (redirected s ct n).1 →
      (∀ fuel, (findNextThread fuel (redirected s ct n).1 (redirected s ct n).2).result = .timeout) →
      ∃ h d, (redirected s ct n).1.handOf (redirected s ct n).2 = some h ∧
        (s₀.slicesOf (redirected s ct n).2)[h]? = some (.redirect d) ∧
        redirected s ct (n + 1) = ((redirected s ct n).1.turned (redirected s ct n).2 h, d) := by
    intro n ha hloop
    rcases findNextThread_cases ha.hands (redirected s ct n).2 with
      ⟨-, hr⟩ | ⟨h, slice, hhand, hslice, ⟨-, hr⟩ | ⟨d, rfl, -⟩⟩
    · exact absurd ((congrArg Logged.result (hr 0)).symm.trans (hloop 1)) (by simp)
    · exact absurd ((congrArg Logged.result (hr 0)).symm.trans (hloop 1)) (by simp)
    · refine ⟨h, d, hhand, by rwa [← ha.slicesOf], ?_⟩
      rw [redirected, visit_slice hhand hslice]
  intro n
  induction n with
  | zero => exact ⟨ha, hloop, hnext 0 ha hloop⟩
  | succ n ih =>
    obtain ⟨ha, hloop, h, d, hhand, hslice, heq⟩ := ih
    have ha' : Assigns s₀ (redirected s ct (n + 1)).1 := by
      rw [heq]
      exact ha.turned
    have hloop' : ∀ fuel, (findNextThread fuel (redirected s ct (n + 1)).1
        (redirected s ct (n + 1)).2).result = .timeout := by
      intro fuel
      rw [← ha.slicesOf] at hslice
      have hthis := hloop (fuel + 1)
      rw [findNextThread_redirect hhand hslice] at hthis
      rw [heq]
      exact hthis
    exact ⟨ha', hloop', hnext (n + 1) ha' hloop'⟩

/-- The search as a walk among rotors. -/
noncomputable def walk (ha : Assigns s₀ s) (hloop : ∀ fuel, (findNextThread fuel s ct).result = .timeout) :
    Rotor.Walk Nat where
  pos n := (redirected s ct n).2
  hand n c := ((redirected s ct n).1.handOf c).getD 0
  size c := (s₀.slicesOf c).length
  turn n := by
    obtain ⟨han, -, h, d, hhand, -, heq⟩ := redirected_step ha hloop n
    rw [heq, handOf_turned_self hhand, hhand, han.slicesOf]
    rfl
  still n c hne := by
    obtain ⟨-, -, h, d, -, -, heq⟩ := redirected_step ha hloop n
    rw [heq, handOf_turned_of_ne hne]

/-- **A search that does not end has a trap within reach.** -/
theorem trapReachable_of_loop (ha : Assigns s₀ s)
    (hloop : ∀ fuel, (findNextThread fuel s ct).result = .timeout) : s₀.TrapReachable ct := by
  have hkey : ∀ n, (redirected s ct n).2 ∈ s₀.keys := by
    intro n
    obtain ⟨han, -, h, d, hhand, -, -⟩ := redirected_step ha hloop n
    rw [← han.keys]
    exact mem_keys_iff.mpr ⟨h, hhand⟩
  have hreach : ∀ n, ReflTransGen s₀.Redirects ct (redirected s ct n).2 := by
    intro n
    induction n with
    | zero => exact .refl
    | succ n ih =>
      obtain ⟨-, -, h, d, -, hslice, heq⟩ := redirected_step ha hloop n
      refine ih.tail ⟨hkey n, ?_⟩
      rw [heq]
      exact List.mem_of_getElem? hslice
  let w := walk ha hloop
  obtain ⟨c₀, hc₀⟩ := w.exists_recurrent hkey
  have hentry : ∀ c, w.Recurrent c → c ∈ s₀.keys ∧ ReflTransGen s₀.Redirects ct c ∧
      s₀.slicesOf c ≠ [] := by
    intro c hc
    obtain ⟨n, -, hn⟩ := hc 0
    have hpos : (redirected s ct n).2 = c := hn
    obtain ⟨-, -, h, d, -, hslice, -⟩ := redirected_step ha hloop n
    refine ⟨hpos ▸ hkey n, hpos ▸ hreach n, fun hnil => ?_⟩
    rw [hpos, hnil] at hslice
    cases hslice
  -- the set of containers that come up again and again is the trap
  refine ⟨{c | w.Recurrent c}, ⟨⟨c₀, hc₀⟩, fun c hc => (hentry c hc).1, fun c hc => (hentry c hc).2.2,
    fun c hc slice hmem => ?_⟩, c₀, hc₀, (hentry c₀ hc₀).2.1⟩
  obtain ⟨i, hi⟩ := List.mem_iff_getElem?.mp hmem
  have hlt : i < w.size c := (List.getElem?_eq_some_iff.mp hi).1
  have hhands : ∀ n, w.hand n c < w.size c := by
    intro n
    obtain ⟨han, -, -⟩ := redirected_step ha hloop n
    obtain ⟨h, hhand⟩ := han.hand (hentry c hc).1
    have hlt' := han.hands.hand_lt hhand (by rw [han.slicesOf]; exact (hentry c hc).2.2)
    rw [han.slicesOf] at hlt'
    show ((redirected s ct n).1.handOf c).getD 0 < _
    rw [hhand]
    exact hlt'
  -- each time the hand is at `i`, the walk goes where that slice redirects to
  have hstep : ∀ n, w.pos n = c → w.hand n c = i →
      ∃ d, slice = .redirect d ∧ w.pos (n + 1) = d := by
    intro n hpos hhand
    obtain ⟨-, -, h, d, hh, hslice, heq⟩ := redirected_step ha hloop n
    have hpos' : (redirected s ct n).2 = c := hpos
    have hhand' : ((redirected s ct n).1.handOf c).getD 0 = i := hhand
    rw [hpos'] at hh hslice
    rw [hh, Option.getD_some] at hhand'
    rw [hhand', hi] at hslice
    refine ⟨d, Option.some.inj hslice, ?_⟩
    show (redirected s ct (n + 1)).2 = d
    rw [heq]
  obtain ⟨n, -, hpos, hhand⟩ := hc.recurrent_hand hhands hlt 0
  obtain ⟨d, rfl, -⟩ := hstep n hpos hhand
  refine ⟨d, fun N => ?_, rfl⟩
  obtain ⟨n', hle, hpos', hhand'⟩ := hc.recurrent_hand hhands hlt N
  obtain ⟨d', heq, hd'⟩ := hstep n' hpos' hhand'
  cases heq
  exact ⟨n' + 1, Nat.le_succ_of_le hle, hd'⟩

end Walks

/-! ## Ways round -/

/-- A trap holds a cycle of containers that have redirects only. -/
theorem TrapReachable.exists_cycle {s : Sched} {ct : Nat} (h : s.TrapReachable ct) :
    ∃ c, ReflTransGen s.Redirects ct c ∧ TransGen s.OnlyRedirects c c := by
  obtain ⟨S, ht, c₀, hc₀, hpath⟩ := h
  by_contra hno
  have hacyclic : ∀ c, ReflTransGen s.Redirects ct c → ¬ TransGen s.OnlyRedirects c c :=
    fun c hc hcyc => hno ⟨c, hc, hcyc⟩
  -- the containers of the trap that can be reached
  let A := {c // c ∈ S ∧ ReflTransGen s.Redirects ct c}
  have hfin : Finite A :=
    Set.Finite.subset s.keys.finite_toSet fun c hc => ht.entry c hc.1
  let r : A → A → Prop := fun a b => TransGen s.OnlyRedirects b.1 a.1
  have htrans : IsTrans A r := ⟨fun _ _ _ hab hbc => hbc.trans hab⟩
  have hirrefl : Std.Irrefl r := ⟨fun a => hacyclic a.1 a.2.2⟩
  obtain ⟨a, -, hmin⟩ := (Finite.wellFounded_of_trans_of_irrefl r).has_min Set.univ
    ⟨⟨c₀, hc₀, hpath⟩, trivial⟩
  -- from any of them a redirect leads to another one
  obtain ⟨slice, hslice⟩ := List.exists_mem_of_ne_nil _ (ht.slices a.1 a.2.1)
  obtain ⟨d, hd, rfl⟩ := ht.closed a.1 a.2.1 slice hslice
  have hred : s.Redirects a.1 d := ⟨ht.entry a.1 a.2.1, hslice⟩
  refine hmin ⟨d, hd, a.2.2.tail hred⟩ trivial (.single ⟨hred, fun slice' hslice' => ?_⟩)
  obtain ⟨e, -, he⟩ := ht.closed a.1 a.2.1 slice' hslice'
  exact ⟨e, he⟩

theorem timeout_or_terminates : ∀ (fuel : Nat) {s : Sched} {ct : Nat}, s.HandsOk →
    (findNextThread fuel s ct).result = .timeout ∨ s.Terminates ct := by
  intro fuel
  induction fuel with
  | zero => exact fun _ => .inl rfl
  | succ fuel ih =>
    intro s ct hok
    rcases findNextThread_cases hok ct with
      ⟨-, hr⟩ | ⟨h, slice, -, -, ⟨-, hr⟩ | ⟨d, -, hstep⟩⟩
    · exact .inr ⟨1, _, congrArg Logged.result (hr 0)⟩
    · exact .inr ⟨1, _, congrArg Logged.result (hr 0)⟩
    · have hrest : (findNextThread fuel (s.turned ct h) d).result = .timeout ∨
          (s.turned ct h).Terminates d := ih hok.turned
      rcases hrest with hto | ⟨fuel', r, hr⟩
      · exact .inl ((congrArg Logged.result (hstep fuel)).trans hto)
      · exact .inr ⟨fuel' + 1, r, (congrArg Logged.result (hstep fuel')).trans hr⟩

/-- **The search ends from all hands exactly if no trap is within reach.** Cycles of redirects do
no harm if on every way round some container has another slice. -/
theorem findNextThread_terminates_iff (s₀ : Sched) (ct : Nat) :
    ((∀ s, Assigns s₀ s → s.Terminates ct) ↔ ¬ s₀.TrapReachable ct) ∧
    ((∀ c, ReflTransGen s₀.Redirects ct c → ¬ TransGen s₀.OnlyRedirects c c) →
      ∀ s, Assigns s₀ s → s.Terminates ct) := by
  have hno : ¬ s₀.TrapReachable ct → ∀ s, Assigns s₀ s → s.Terminates ct := by
    intro htrap s ha
    by_contra hterm
    exact htrap (trapReachable_of_loop ha fun fuel =>
      (timeout_or_terminates fuel ha.hands).resolve_right hterm)
  refine ⟨⟨fun hall htrap => ?_, hno⟩, fun hacyclic => hno fun htrap => ?_⟩
  · obtain ⟨s, ha, hloop⟩ := htrap.exists_loop
    obtain ⟨fuel, r, hr⟩ := hall s ha
    exact absurd (hr.symm.trans (hloop fuel)) (by simp)
  · obtain ⟨c, hc, hcyc⟩ := htrap.exists_cycle
    exact hacyclic c hc hcyc

end Sched
end Allora
