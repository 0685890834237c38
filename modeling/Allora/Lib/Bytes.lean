import Allora.Lib.Outcome
import Mathlib.Data.List.Basic

/-!
# Bytes in memory

Memory is a function from addresses to bytes. `At mem p bs` says that the bytes `bs` lie at `p`;
`at_append` takes an encoding apart at the places where a reader does. Readers are a big-endian
32-bit load, a slice, and the scan for the NUL at the end of a string; `store` writes bytes.
-/

set_option autoImplicit false

namespace Allora
namespace Bytes

open Outcome

abbrev Memory := Nat → UInt8

/-- `len` bytes from `p` on. -/
def slice (mem : Memory) (p len : Nat) : List UInt8 := (List.range len).map fun i => mem (p + i)

/-- The bytes lie at `p`. -/
def At (mem : Memory) (p : Nat) (bs : List UInt8) : Prop := slice mem p bs.length = bs

instance (mem : Memory) (p : Nat) (bs : List UInt8) : Decidable (At mem p bs) :=
  inferInstanceAs (Decidable (slice mem p bs.length = bs))

theorem slice_add (mem : Memory) (p m n : Nat) :
    slice mem p (m + n) = slice mem p m ++ slice mem (p + m) n := by
  simp only [slice, List.range_add, List.map_append, List.map_map]
  congr 2
  funext i
  exact congrArg mem (Nat.add_assoc p m i).symm

@[simp] theorem length_slice (mem : Memory) (p n : Nat) : (slice mem p n).length = n := by
  simp [slice]

theorem at_append {mem : Memory} {p : Nat} {as bs : List UInt8} :
    At mem p (as ++ bs) ↔ At mem p as ∧ At mem (p + as.length) bs := by
  rw [At, List.length_append, slice_add]
  constructor
  · exact fun h => List.append_inj h (length_slice ..)
  · exact fun ⟨has, hbs⟩ => congrArg₂ (· ++ ·) has hbs

theorem at_cons {mem : Memory} {p : Nat} {b : UInt8} {bs : List UInt8} :
    At mem p (b :: bs) ↔ mem p = b ∧ At mem (p + 1) bs := by
  rw [← List.singleton_append, at_append]
  simp [At, slice]

theorem slice_take (mem : Memory) (p : Nat) {m n : Nat} (h : n ≤ m) :
    (slice mem p m).take n = slice mem p n := by
  rw [← Nat.add_sub_of_le h, slice_add]
  exact List.take_left' (length_slice ..)

/-! ## Storing -/

/-- `bs` is written to `p`. -/
def store (mem : Memory) (p : Nat) (bs : List UInt8) : Memory :=
  fun a => if p ≤ a ∧ a < p + bs.length then bs.getD (a - p) 0 else mem a

@[simp] theorem store_nil (mem : Memory) (p : Nat) : store mem p [] = mem := by
  funext a
  rw [store, if_neg]
  simp only [List.length_nil, Nat.add_zero]
  omega

theorem slice_store (mem : Memory) (p : Nat) (bs : List UInt8) :
    slice (store mem p bs) p bs.length = bs := by
  refine List.ext_getElem (length_slice ..) fun i hi hi' => ?_
  simp only [slice, List.getElem_map, List.getElem_range, store]
  rw [if_pos ⟨by omega, by omega⟩, Nat.add_sub_cancel_left, List.getD_eq_getElem?_getD,
    List.getElem?_eq_getElem hi', Option.getD_some]

/-- **One store after the other**, where the first one ends. -/
theorem store_append (mem : Memory) (p : Nat) (as bs : List UInt8) :
    store (store mem p as) (p + as.length) bs = store mem p (as ++ bs) := by
  funext a
  simp only [store, List.length_append, List.getD_eq_getElem?_getD]
  by_cases hin : p ≤ a ∧ a < p + (as.length + bs.length)
  · rw [if_pos hin]
    by_cases hlow : a < p + as.length
    · rw [if_neg (by omega), if_pos ⟨hin.1, hlow⟩, List.getElem?_append_left (by omega)]
    · rw [if_pos ⟨by omega, by omega⟩, List.getElem?_append_right (by omega), Nat.sub_sub]
  · rw [if_neg hin, if_neg (by omega), if_neg (by omega)]

/-! ## Words -/

/-- A big-endian 32-bit load. -/
def be32 (mem : Memory) (p : Nat) : Nat :=
  (mem p).toNat * 2 ^ 24 + (mem (p + 1)).toNat * 2 ^ 16 + (mem (p + 2)).toNat * 2 ^ 8 +
    (mem (p + 3)).toNat

/-- The four bytes of a word, the most significant first. -/
def word (n : Nat) : List UInt8 :=
  [UInt8.ofNat (n / 2 ^ 24), UInt8.ofNat (n / 2 ^ 16), UInt8.ofNat (n / 2 ^ 8), UInt8.ofNat n]

@[simp] theorem length_word (n : Nat) : (word n).length = 4 := rfl

theorem be32_of_at {mem : Memory} {p n : Nat} (h : At mem p (word n)) (hn : n < 2 ^ 32) :
    be32 mem p = n := by
  simp only [word, at_cons] at h
  obtain ⟨h0, h1, h2, h3, -⟩ := h
  rw [be32, h0, h1, h2, h3]
  simp only [UInt8.toNat_ofNat']
  omega

/-! ## Strings -/

/-- `while *cur != 0`: the number of bytes before the first NUL. -/
def strlen (mem : Memory) : Nat → Nat → Outcome Nat
  | 0, _ => timeout
  | fuel + 1, cur =>
    if mem cur ≠ 0 then do
      let len ← strlen mem fuel (cur + 1)
      ok (len + 1)
    else
      ok 0

theorem strlen_of_at {mem : Memory} {s : List UInt8} :
    ∀ {fuel p : Nat}, At mem p (s ++ [0]) → (∀ b ∈ s, b ≠ 0) → s.length < fuel →
      strlen mem fuel p = ok s.length := by
  induction s with
  | nil =>
    intro fuel p h _ hf
    obtain ⟨fuel, rfl⟩ := Nat.exists_eq_succ_of_ne_zero (Nat.ne_of_gt hf)
    rw [List.nil_append, at_cons] at h
    simp [strlen, h.1]
  | cons b s ih =>
    intro fuel p h hne hf
    obtain ⟨fuel, rfl⟩ := Nat.exists_eq_succ_of_ne_zero (Nat.ne_of_gt (Nat.zero_lt_of_lt hf))
    rw [List.cons_append, at_cons] at h
    rw [List.length_cons] at hf
    have hrest := ih h.2 (fun c hc => hne c (List.mem_cons_of_mem _ hc)) (Nat.lt_of_succ_lt_succ hf)
    have hb : mem p ≠ 0 := h.1 ▸ hne b List.mem_cons_self
    simp only [strlen, hb, ne_eq, not_false_iff, if_true, hrest, ok_bind, List.length_cons]

/-! ## Padding to four bytes -/

/-- `(p + 4 - 1) & !3`. -/
def pad4 (p : Nat) : Nat := (p + 4 - 1) / 4 * 4

/-- The bytes that fill up to the next multiple of four. -/
def padding (len : Nat) : List UInt8 := List.replicate ((4 - len % 4) % 4) 0

@[simp] theorem length_padding (len : Nat) : (padding len).length = (4 - len % 4) % 4 := by
  simp [padding]

theorem pad4_add {p : Nat} (hp : 4 ∣ p) (len : Nat) :
    pad4 (p + len) = p + len + (padding len).length := by
  rw [length_padding, pad4]
  omega

theorem dvd_padded (len : Nat) : 4 ∣ len + (padding len).length := by
  rw [length_padding]
  omega

end Bytes
end Allora
