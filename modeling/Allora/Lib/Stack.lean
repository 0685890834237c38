import Mathlib.Data.Nat.Bitwise
import Mathlib.Logic.Function.Basic
import Mathlib.Tactic.Common

/-!
# Words in memory, and stacks of them

Memory holds bytes at addresses of `n` bits. Words of any whole number of bytes are stored with the
least significant byte first. A store changes the bytes it covers and no others, so what lies
elsewhere stays (`load_congr`, `store_apply_of_lt`, `store_apply_of_le`).

A stack grows downwards. `Stacked m a vs` says that the words `vs` lie one after another from `a`
on. Words may differ in width. A store right below a stack pushes (`Stacked.push`), and memory that
agrees on the bytes of a stack holds the same stack (`Stacked.congr`).
-/

set_option autoImplicit false

namespace Allora

/-- Bytes at addresses of `n` bits. -/
abbrev Mem (n : Nat) := BitVec n → BitVec 8

namespace Mem

variable {n w k i : Nat} {m m' : Mem n} {a b c : BitVec n} {v : BitVec w}

/-! ## Words -/

/-- The number that `k` bytes from `a` on stand for. -/
def number (m : Mem n) (a : BitVec n) : Nat → Nat
  | 0 => 0
  | k + 1 => 2 ^ 8 * number m (a + 1) k + (m a).toNat

/-- Load a word. -/
def load (w : Nat) (m : Mem n) (a : BitVec n) : BitVec w := BitVec.ofNat w (m.number a (w / 8))

/-- Store a word. -/
def store (m : Mem n) (a : BitVec n) (v : BitVec w) : Mem n := fun b =>
  if (b - a).toNat < w / 8 then v.extractLsb' (8 * (b - a).toNat) 8 else m b

theorem testBit_number (hi : i < 8 * k) :
    (m.number a k).testBit i = (m (a + BitVec.ofNat n (i / 8))).getLsbD (i % 8) := by
  induction k generalizing a i with
  | zero => omega
  | succ k ih =>
    rw [number, Nat.testBit_two_pow_mul_add _ (m a).isLt]
    by_cases h8 : i < 8
    · rw [if_pos h8, Nat.div_eq_of_lt h8, Nat.mod_eq_of_lt h8, BitVec.add_zero]
      rfl
    · have hdiv : i / 8 = (i - 8) / 8 + 1 := by omega
      have hmod : i % 8 = (i - 8) % 8 := by omega
      rw [if_neg h8, ih (by omega), hdiv, hmod, BitVec.ofNat_add, BitVec.add_assoc,
        BitVec.add_comm (1 : BitVec n)]
      rfl

theorem getLsbD_load (hi : i < w) (hw : w % 8 = 0) :
    (m.load w a).getLsbD i = (m (a + BitVec.ofNat n (i / 8))).getLsbD (i % 8) := by
  rw [load, BitVec.getLsbD_ofNat, decide_eq_true hi, Bool.true_and, testBit_number (by omega)]

/-- What was stored is loaded. -/
theorem load_store_same (hw : w % 8 = 0) (hn : w / 8 ≤ 2 ^ n) : (m.store a v).load w a = v := by
  apply BitVec.eq_of_getLsbD_eq
  intro i hi
  have hoff : (a + BitVec.ofNat n (i / 8) - a).toNat = i / 8 := by
    rw [BitVec.add_comm a, BitVec.add_sub_cancel, BitVec.toNat_ofNat, Nat.mod_eq_of_lt (by omega)]
  rw [getLsbD_load hi hw, store, hoff, if_pos (by omega), BitVec.getLsbD_extractLsb',
    decide_eq_true (Nat.mod_lt i (by decide)), Bool.true_and, Nat.div_add_mod]

/-- The address is one of the `k` from `a` on. -/
def Among (a : BitVec n) (k : Nat) (b : BitVec n) : Prop := a.toNat ≤ b.toNat ∧ b.toNat < a.toNat + k

theorem sub_lt_iff_among (h : a.toNat + k ≤ 2 ^ n) : (b - a).toNat < k ↔ Among a k b := by
  have ha := a.isLt
  have hb := b.isLt
  rw [BitVec.toNat_sub, Among]
  by_cases hab : a.toNat ≤ b.toNat
  · have hsub : 2 ^ n - a.toNat + b.toNat = b.toNat - a.toNat + 2 ^ n := by omega
    rw [hsub, Nat.add_mod_right, Nat.mod_eq_of_lt (by omega)]
    omega
  · rw [Nat.mod_eq_of_lt (by omega)]
    omega

/-- Other bytes stay. -/
theorem store_apply_of_not (h : a.toNat + w / 8 ≤ 2 ^ n) (hb : ¬ Among a (w / 8) b) :
    m.store a v b = m b := by
  rw [store, if_neg]
  rwa [sub_lt_iff_among h]

/-- Stores to different places commute. -/
theorem store_comm {w' : Nat} {v' : BitVec w'} (ha : a.toNat + w / 8 ≤ 2 ^ n)
    (hb : b.toNat + w' / 8 ≤ 2 ^ n) (h : ∀ c, Among a (w / 8) c → ¬ Among b (w' / 8) c) :
    (m.store a v).store b v' = (m.store b v').store a v := by
  funext c
  by_cases hc : Among a (w / 8) c
  · rw [store_apply_of_not hb (h c hc)]
    simp only [store, if_pos ((sub_lt_iff_among ha).mpr hc)]
  · rw [store_apply_of_not ha hc]
    unfold store
    rw [if_neg (mt (sub_lt_iff_among ha).mp hc)]

theorem among_add (h : a.toNat + w / 8 ≤ 2 ^ n) (hi : i < w / 8) :
    Among a (w / 8) (a + BitVec.ofNat n i) := by
  rw [← sub_lt_iff_among h, BitVec.add_comm a, BitVec.add_sub_cancel, BitVec.toNat_ofNat,
    Nat.mod_eq_of_lt (by omega)]
  exact hi

theorem load_congr (hw : w % 8 = 0) (ha : a.toNat + w / 8 ≤ 2 ^ n)
    (h : ∀ b, Among a (w / 8) b → m b = m' b) : m.load w a = m'.load w a := by
  apply BitVec.eq_of_getLsbD_eq
  intro i hi
  rw [getLsbD_load hi hw, getLsbD_load hi hw, h _ (among_add ha (by omega))]

/-! ## Stacks -/

/-- A word of any width. -/
structure Word where
  width : Nat
  val : BitVec width
  whole : width % 8 = 0

/-- The bytes of a word. -/
def Word.bytes (v : Word) : Nat := v.width / 8

/-- The bytes of several words. -/
def size (vs : List Word) : Nat := (vs.map Word.bytes).sum

@[simp] theorem size_nil : size [] = 0 := rfl

@[simp] theorem size_cons (v : Word) (vs : List Word) : size (v :: vs) = v.bytes + size vs := by
  simp [size]

@[simp] theorem size_append (vs us : List Word) : size (vs ++ us) = size vs + size us := by
  simp [size]

/-- The words lie one after another from `a` on. -/
def Stacked (m : Mem n) (a : BitVec n) : List Word → Prop
  | [] => True
  | v :: vs => m.load v.width a = v.val ∧ Stacked m (a + BitVec.ofNat n v.bytes) vs

theorem toNat_add_ofNat (h : a.toNat + k < 2 ^ n) : (a + BitVec.ofNat n k).toNat = a.toNat + k := by
  rw [BitVec.toNat_add, BitVec.toNat_ofNat, Nat.mod_eq_of_lt (a := k) (by omega),
    Nat.mod_eq_of_lt h]

theorem toNat_sub_ofNat (h : k ≤ a.toNat) : (a - BitVec.ofNat n k).toNat = a.toNat - k := by
  have ha := a.isLt
  rw [BitVec.toNat_sub, BitVec.toNat_ofNat, Nat.mod_eq_of_lt (a := k) (by omega)]
  have hsub : 2 ^ n - k + a.toNat = a.toNat - k + 2 ^ n := by omega
  rw [hsub, Nat.add_mod_right, Nat.mod_eq_of_lt (by omega)]

theorem Stacked.congr {vs : List Word} (hsize : a.toNat + size vs < 2 ^ n)
    (h : ∀ b, Among a (size vs) b → m b = m' b) (hm : Stacked m a vs) : Stacked m' a vs := by
  induction vs generalizing a with
  | nil => trivial
  | cons v vs ih =>
    rw [size_cons] at hsize h
    have hnext : (a + BitVec.ofNat n v.bytes).toNat = a.toNat + v.bytes :=
      toNat_add_ofNat (by omega)
    refine ⟨?_, ih (by omega) (fun b hb => h b ?_) hm.2⟩
    · rw [← hm.1]
      symm
      apply load_congr v.whole
      · show a.toNat + v.bytes ≤ 2 ^ n
        omega
      · intro b hb
        have hb' : Among a v.bytes b := hb
        unfold Among at hb'
        exact h b ⟨hb'.1, by omega⟩
    · unfold Among at hb ⊢
      omega

theorem stacked_append {vs us : List Word} :
    Stacked m a (vs ++ us) ↔ Stacked m a vs ∧ Stacked m (a + BitVec.ofNat n (size vs)) us := by
  induction vs generalizing a with
  | nil => simp [Stacked]
  | cons v vs ih =>
    rw [List.cons_append, Stacked, Stacked, ih, and_assoc, size_cons, BitVec.ofNat_add,
      BitVec.add_assoc]

/-- A store right below a stack. -/
theorem Stacked.push {v : Word} {vs : List Word} (hv : v.bytes ≤ a.toNat)
    (hsize : a.toNat + size vs < 2 ^ n) (h : Stacked m a vs) :
    Stacked (m.store (a - BitVec.ofNat n v.bytes) v.val) (a - BitVec.ofNat n v.bytes)
      (v :: vs) := by
  have hbelow : (a - BitVec.ofNat n v.bytes).toNat = a.toNat - v.bytes := toNat_sub_ofNat hv
  have hfits : (a - BitVec.ofNat n v.bytes).toNat + v.width / 8 ≤ 2 ^ n := by
    rw [hbelow, ← Word.bytes]
    omega
  refine ⟨load_store_same v.whole (by omega), ?_⟩
  rw [BitVec.sub_add_cancel]
  refine h.congr hsize fun b hb => ?_
  rw [store_apply_of_not hfits]
  intro hin
  unfold Among at hb hin
  rw [hbelow, ← Word.bytes] at hin
  omega

/-- From a memory and a stack pointer to others, the words have been pushed: they lie at the new
stack pointer, and memory has changed between the two stack pointers only. -/
structure Pushed (m : Mem n) (a : BitVec n) (vs : List Word) (m' : Mem n) (a' : BitVec n) :
    Prop where
  sp : a' = a - BitVec.ofNat n (size vs)
  stacked : Stacked m' a' vs
  outside : ∀ b, b.toNat < a.toNat - size vs ∨ a.toNat ≤ b.toNat → m' b = m b

theorem pushed_nil : Pushed m a [] m a where
  sp := (BitVec.sub_zero a).symm
  stacked := trivial
  outside _ _ := rfl

/-- One word. -/
theorem pushed_store {v : Word} (hv : v.bytes ≤ a.toNat) :
    Pushed m a [v] (m.store (a - BitVec.ofNat n v.bytes) v.val) (a - BitVec.ofNat n v.bytes) where
  sp := by rw [size_cons, size_nil, Nat.add_zero]
  stacked := Stacked.push hv (by simpa using a.isLt) trivial
  outside b hb := by
    have ha := a.isLt
    have hbelow : (a - BitVec.ofNat n v.bytes).toNat = a.toNat - v.bytes := toNat_sub_ofNat hv
    rw [size_cons, size_nil, Nat.add_zero] at hb
    apply store_apply_of_not
    · rw [hbelow, ← Word.bytes]
      omega
    · unfold Among
      rw [hbelow, ← Word.bytes]
      omega

theorem Pushed.toNat_sp {a' : BitVec n} {vs : List Word} (h : Pushed m a vs m' a')
    (hroom : size vs ≤ a.toNat) : a'.toNat = a.toNat - size vs := by
  rw [h.sp]
  exact toNat_sub_ofNat hroom

/-- Pushing some words, and then others. -/
theorem Pushed.trans {m'' : Mem n} {a' a'' : BitVec n} {vs us : List Word}
    (h : Pushed m a vs m' a') (h' : Pushed m' a' us m'' a'')
    (hroom : size us + size vs ≤ a.toNat) : Pushed m a (us ++ vs) m'' a'' := by
  have ha := a.isLt
  have ha' := h.toNat_sp (by omega)
  refine ⟨?_, ?_, ?_⟩
  · rw [h'.sp, h.sp, size_append, Nat.add_comm, BitVec.ofNat_add, BitVec.sub_sub]
  · rw [stacked_append]
    refine ⟨h'.stacked, ?_⟩
    rw [h'.sp, BitVec.sub_add_cancel]
    refine h.stacked.congr (by omega) fun b hb => (h'.outside b ?_).symm
    exact Or.inr hb.1
  · intro b hb
    rw [size_append] at hb
    rw [h'.outside b (by omega), h.outside b (by omega)]

end Mem
end Allora
