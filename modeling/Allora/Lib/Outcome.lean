import Mathlib.Algebra.Group.Nat.Defs
import Mathlib.Logic.Basic
import Mathlib.Tactic.Common

/-!
# `Outcome` — the results of code that may panic or loop

A Rust function of this kernel ends in one of three ways: it returns, it panics (an `unwrap` on
`None`, a failed `assert!`, an index out of bounds), or it never comes back from a loop. The model
keeps the three apart:

* `ok a` — the call returned `a`;
* `panic msg` — the call panicked, with the message the source gives;
* `timeout` — the fuel handed to a loop ran out.

Every loop of the source is a structural recursion on a `fuel : Nat`, so `timeout` is an artefact
of the model and never a claim about the code. More fuel can only turn a `timeout` into something
else; `Approx` is that order, and `Approx.bind` is what makes it a one-line argument per function.
-/

set_option autoImplicit false

namespace Allora

universe u v

/-- How a call of the modelled code ends. -/
inductive Outcome (α : Type u) : Type u
  | ok (a : α)
  | panic (msg : String)
  | timeout
  deriving Repr, DecidableEq

namespace Outcome

variable {α : Type u} {β : Type v}

/-- Sequencing: the first call that does not return decides. -/
def bind (x : Outcome α) (f : α → Outcome β) : Outcome β :=
  match x with
  | ok a => f a
  | panic msg => panic msg
  | timeout => timeout

instance : Monad Outcome where
  pure := ok
  bind := bind

instance : LawfulMonad Outcome := LawfulMonad.mk' Outcome
  (fun x => by cases x <;> rfl)
  (fun _ _ => rfl)
  (fun x _ _ => by cases x <;> rfl)

/-- `Option::unwrap`. -/
def unwrap : Option α → Outcome α
  | some a => ok a
  | none => panic "called `Option::unwrap()` on a `None` value"

/-- `Option::expect`. -/
def expect (msg : String) : Option α → Outcome α
  | some a => ok a
  | none => panic msg

/-- `assert!(p)`. -/
def assert (p : Bool) (msg : String) : Outcome Unit :=
  if p then ok () else panic msg

/-- `a + b` on unsigned integers of `w` bits, in a build that checks. -/
def addChecked (w a b : Nat) : Outcome Nat :=
  if a + b < 2 ^ w then ok (a + b) else panic "attempt to add with overflow"

/-- `a * b`. -/
def mulChecked (w a b : Nat) : Outcome Nat :=
  if a * b < 2 ^ w then ok (a * b) else panic "attempt to multiply with overflow"

/-- `a - b`. -/
def subChecked (a b : Nat) : Outcome Nat :=
  if b ≤ a then ok (a - b) else panic "attempt to subtract with overflow"

@[simp] theorem pure_eq_ok (a : α) : (pure a : Outcome α) = ok a := rfl

@[simp] theorem ok_bind {α β : Type u} (a : α) (f : α → Outcome β) : (ok a >>= f) = f a := rfl

@[simp] theorem panic_bind {α β : Type u} (msg : String) (f : α → Outcome β) :
    (panic msg >>= f) = panic msg := rfl

@[simp] theorem timeout_bind {α β : Type u} (f : α → Outcome β) :
    ((timeout : Outcome α) >>= f) = timeout := rfl

@[simp] theorem unwrap_some (a : α) : unwrap (some a) = ok a := rfl

@[simp] theorem unwrap_none :
    unwrap (none : Option α) = panic "called `Option::unwrap()` on a `None` value" := rfl

theorem unwrap_eq_ok_iff {o : Option α} {a : α} : unwrap o = ok a ↔ o = some a := by
  cases o with
  | none => simp
  | some b => simp

theorem expect_eq_ok_iff {msg : String} {o : Option α} {a : α} :
    expect msg o = ok a ↔ o = some a := by
  cases o with
  | none => simp [expect]
  | some b => simp [expect]

theorem assert_eq_ok_iff {p : Bool} {msg : String} {u : Unit} :
    assert p msg = ok u ↔ p = true := by
  cases p with
  | false => simp [assert]
  | true => simp [assert]

/-- A sequence returns exactly when both of its parts do. -/
theorem bind_eq_ok {α β : Type u} {x : Outcome α} {f : α → Outcome β} {b : β} :
    (x >>= f) = ok b ↔ ∃ a, x = ok a ∧ f a = ok b := by
  cases x with
  | ok a => simp
  | panic msg => simp
  | timeout => simp

/-! ## Iterators -/

/-- `all`, when the test returns on every element. -/
theorem allM_eq_ok {α : Type} {p : α → Outcome Bool} {q : α → Bool} {l : List α}
    (h : ∀ a ∈ l, p a = ok (q a)) : l.allM p = ok (l.all q) := by
  induction l with
  | nil => rfl
  | cons a l ih =>
    rw [List.allM, h a List.mem_cons_self, ok_bind, List.all_cons]
    cases q a with
    | false => rfl
    | true => exact ih fun b hb => h b (List.mem_cons_of_mem a hb)

/-- `find`, when the test returns on every element. -/
theorem findM?_map_eq_ok {α β : Type} {p : α → Outcome Bool} {q : β → Bool} {f : β → α}
    {l : List β} (h : ∀ b ∈ l, p (f b) = ok (q b)) :
    (l.map f).findM? p = ok ((l.find? q).map f) := by
  induction l with
  | nil => rfl
  | cons b l ih =>
    rw [List.map_cons, List.findM?, h b List.mem_cons_self, ok_bind, List.find?_cons]
    cases q b with
    | false => exact ih fun b' hb => h b' (List.mem_cons_of_mem b hb)
    | true => rfl

theorem findM?_eq_ok {α : Type} {p : α → Outcome Bool} {q : α → Bool} {l : List α}
    (h : ∀ a ∈ l, p a = ok (q a)) : l.findM? p = ok (l.find? q) := by
  simpa using findM?_map_eq_ok (f := fun a => a) h

/-- The call panicked, whatever its message. -/
def Panics (x : Outcome α) : Prop := ∃ msg, x = panic msg

theorem not_panics_ok (a : α) : ¬ Panics (ok a) := by
  rintro ⟨msg, h⟩
  cases h

/-! ## When a call returns -/

/-- The call came back. -/
def Returns (x : Outcome α) : Prop := ∃ a, x = ok a

/-- The call returns exactly when `c` holds, and then with a value that satisfies `Q`. -/
structure Exactly (x : Outcome α) (c : Prop) (Q : α → Prop) : Prop where
  returns_iff : x.Returns ↔ c
  post : ∀ {a}, x = ok a → Q a

namespace Exactly

variable {c d : Prop} {Q Q' : α → Prop}

theorem ok {a : α} (h : Q a) : (Outcome.ok a).Exactly True Q where
  returns_iff := iff_of_true ⟨a, rfl⟩ trivial
  post h' := Outcome.ok.inj h' ▸ h

theorem iff {x : Outcome α} (h : x.Exactly c Q) (hcd : c ↔ d) : x.Exactly d Q :=
  ⟨h.returns_iff.trans hcd, h.post⟩

theorem mono {x : Outcome α} (h : x.Exactly c Q) (hQ : ∀ {a}, Q a → Q' a) : x.Exactly c Q' :=
  ⟨h.returns_iff, fun hx => hQ (h.post hx)⟩

/-- A check in front of a value. -/
theorem guard {p : Prop} [Decidable p] {a : α} {msg : String} :
    (if p then Outcome.ok a else panic msg).Exactly p (· = a) := by
  by_cases hp : p
  · rw [if_pos hp]
    exact (Exactly.ok (Q := (· = a)) rfl).iff (iff_of_true trivial hp)
  · rw [if_neg hp]
    refine ⟨iff_of_false ?_ hp, fun h => ?_⟩
    · intro h
      obtain ⟨b, hb⟩ := h
      cases hb
    · cases h

/-- **Sequencing.** The second part may rely on what the first one establishes. -/
theorem bind {α β : Type u} {x : Outcome α} {f : α → Outcome β} {c d : Prop} {Q : α → Prop}
    {R : β → Prop} (hx : x.Exactly c Q) (hf : ∀ a, c → Q a → (f a).Exactly d R) :
    (x >>= f).Exactly (c ∧ d) R := by
  have hf' : ∀ {a}, x = Outcome.ok a → c ∧ (f a).Exactly d R := by
    intro a ha
    have hc := hx.returns_iff.mp ⟨a, ha⟩
    exact ⟨hc, hf a hc (hx.post ha)⟩
  constructor
  · constructor
    · intro h
      obtain ⟨b, hb⟩ := h
      obtain ⟨a, ha, hfa⟩ := bind_eq_ok.mp hb
      obtain ⟨hc, hd⟩ := hf' ha
      exact ⟨hc, hd.returns_iff.mp ⟨b, hfa⟩⟩
    · intro h
      obtain ⟨hc, hd⟩ := h
      obtain ⟨a, ha⟩ := hx.returns_iff.mpr hc
      obtain ⟨b, hb⟩ := (hf' ha).2.returns_iff.mpr hd
      exact ⟨b, bind_eq_ok.mpr ⟨a, ha, hb⟩⟩
  · intro b hb
    obtain ⟨a, ha, hfa⟩ := bind_eq_ok.mp hb
    exact (hf' ha).2.post hfa

/-- Sequencing with something that always returns. -/
theorem bind_true {α β : Type u} {x : Outcome α} {f : α → Outcome β} {c : Prop} {Q : α → Prop}
    {R : β → Prop} (hx : x.Exactly c Q) (hf : ∀ a, c → Q a → (f a).Exactly True R) :
    (x >>= f).Exactly c R :=
  (hx.bind hf).iff (and_iff_left trivial)

end Exactly

theorem subChecked_exactly {a b : Nat} : (subChecked a b).Exactly (b ≤ a) (· = a - b) :=
  Exactly.guard

theorem addChecked_exactly {w a b : Nat} :
    (addChecked w a b).Exactly (a + b < 2 ^ w) (· = a + b) :=
  Exactly.guard

/-! ## More fuel -/

/-- `x` is `y`, or has not got that far yet. -/
def Approx (x y : Outcome α) : Prop := x = timeout ∨ x = y

@[refl] theorem Approx.refl (x : Outcome α) : Approx x x := Or.inr rfl

theorem Approx.of_timeout (y : Outcome α) : Approx timeout y := Or.inl rfl

theorem Approx.bind {α β : Type u} {x y : Outcome α} {f g : α → Outcome β} (h : Approx x y)
    (hf : ∀ a, Approx (f a) (g a)) : Approx (x >>= f) (y >>= g) := by
  rcases h with rfl | rfl
  · exact Or.inl rfl
  · cases x with
    | ok a => exact hf a
    | panic msg => exact Or.inr rfl
    | timeout => exact Or.inl rfl

theorem Approx.ite {p : Prop} [Decidable p] {x y x' y' : Outcome α} (h : Approx x x')
    (h' : Approx y y') : Approx (if p then x else y) (if p then x' else y') := by
  split
  · exact h
  · exact h'

theorem Approx.foldlM {σ ι : Type} {f g : σ → ι → Outcome σ} (h : ∀ s i, Approx (f s i) (g s i)) :
    ∀ (l : List ι) (s : σ), Approx (l.foldlM f s) (l.foldlM g s)
  | [], _ => Approx.refl _
  | i :: l, s => by
    rw [List.foldlM_cons, List.foldlM_cons]
    exact (h s i).bind fun s' => Approx.foldlM h l s'

theorem Approx.eq_ok {x y : Outcome α} {a : α} (h : Approx x y) (hx : x = ok a) : y = ok a := by
  rcases h with rfl | rfl
  · cases hx
  · exact hx

theorem Approx.panics {x y : Outcome α} (h : Approx x y) (hx : Panics x) : Panics y := by
  obtain ⟨msg, rfl⟩ := hx
  rcases h with h | rfl
  · cases h
  · exact ⟨msg, rfl⟩

end Outcome

end Allora
