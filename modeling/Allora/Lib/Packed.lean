import Mathlib.Data.Nat.Bitwise
import Mathlib.Tactic.Common

/-!
# Fields packed into words

A word of `n` bits holds fields of `w` bits each, the first one in its low bits. A field is read by
a shift and a mask, and written by clearing its bits and setting those of the new value; that does
not touch the other fields if the value has no bit above the `w` low ones. An array of such words is
an array of fields, `per` of them to a word, and a word in which one field is replaced has the other
elements of the array as before (`field_put`). Any array of fields is packed into words (`pack`) from
which it is read again.
-/

set_option autoImplicit false

namespace Allora
namespace Packed

variable {n w k j i b : Nat} {x v : BitVec n}

/-! ## One word -/

/-- The low `w` bits. -/
def mask (n w : Nat) : BitVec n := BitVec.ofNat n (2 ^ w - 1)

/-- The field at `k`. -/
def field (w : Nat) (x : BitVec n) (k : Nat) : BitVec w := x.extractLsb' (k * w) w

/-- The field at `k` is replaced. -/
def put (w : Nat) (x : BitVec n) (k : Nat) (v : BitVec n) : BitVec n :=
  (x &&& ~~~(mask n w <<< (k * w))) ||| (v <<< (k * w))

/-- The value has `w` bits. -/
def Fits (w : Nat) (v : BitVec n) : Prop := ∀ i, w ≤ i → v.getLsbD i = false

theorem getLsbD_mask (n w i : Nat) : (mask n w).getLsbD i = (decide (i < n) && decide (i < w)) := by
  rw [mask, BitVec.getLsbD_ofNat, Nat.testBit_two_pow_sub_one]

theorem fits_of_lt (h : v.toNat < 2 ^ w) : Fits w v := by
  intro i hi
  have hle : 2 ^ w ≤ 2 ^ i := Nat.pow_le_pow_right (by decide) hi
  exact Nat.testBit_lt_two_pow (Nat.lt_of_lt_of_le h hle)

/-- Reading a field by a shift and a mask. -/
theorem shift_mask (w : Nat) (x : BitVec n) (k : Nat) :
    (x >>> (k * w)) &&& mask n w = (field w x k).setWidth n := by
  apply BitVec.eq_of_getLsbD_eq
  intro i hi
  rw [BitVec.getLsbD_and, BitVec.getLsbD_ushiftRight, getLsbD_mask, BitVec.getLsbD_setWidth, field,
    BitVec.getLsbD_extractLsb', decide_eq_true hi, Bool.true_and, Bool.true_and, Bool.and_comm]

/-- The bits around a field stay, and the field has those of the new value. -/
theorem getLsbD_put (hv : Fits w v) (hb : b < n) : (put w x k v).getLsbD b =
    if k * w ≤ b ∧ b < k * w + w then v.getLsbD (b - k * w) else x.getLsbD b := by
  rw [put, BitVec.getLsbD_or, BitVec.getLsbD_and, BitVec.getLsbD_not, BitVec.getLsbD_shiftLeft,
    BitVec.getLsbD_shiftLeft, getLsbD_mask, decide_eq_true hb, Bool.true_and, Bool.true_and]
  by_cases hlo : b < k * w
  · rw [decide_eq_true hlo, if_neg fun h => Nat.not_le_of_lt hlo h.1]
    simp
  · have hle : k * w ≤ b := Nat.le_of_not_lt hlo
    have hsub : b - k * w < n := Nat.lt_of_le_of_lt (Nat.sub_le b _) hb
    rw [decide_eq_false hlo, decide_eq_true hsub]
    by_cases hhi : b < k * w + w
    · have hin : b - k * w < w := by omega
      rw [if_pos ⟨hle, hhi⟩, decide_eq_true hin]
      simp
    · have hout : ¬ b - k * w < w := by omega
      rw [if_neg fun h => hhi h.2, decide_eq_false hout, hv _ (Nat.le_of_not_lt hout)]
      simp

theorem field_put_same (hv : Fits w v) (hk : (k + 1) * w ≤ n) :
    field w (put w x k v) k = v.setWidth w := by
  rw [Nat.succ_mul] at hk
  apply BitVec.eq_of_getLsbD_eq
  intro i hi
  rw [field, BitVec.getLsbD_extractLsb', BitVec.getLsbD_setWidth, getLsbD_put hv (by omega),
    if_pos (by omega), Nat.add_sub_cancel_left]

/-- Two fields have no bit in common. -/
theorem field_disjoint (hjk : j ≠ k) (hi : i < w) :
    ¬ (k * w ≤ j * w + i ∧ j * w + i < k * w + w) := by
  intro ⟨hlo, hhi⟩
  rcases Nat.lt_or_gt_of_ne hjk with hlt | hgt
  · have hle : (j + 1) * w ≤ k * w := Nat.mul_le_mul_right w hlt
    rw [Nat.succ_mul] at hle
    omega
  · have hle : (k + 1) * w ≤ j * w := Nat.mul_le_mul_right w hgt
    rw [Nat.succ_mul] at hle
    omega

theorem field_put_ne (hv : Fits w v) (hjk : j ≠ k) : field w (put w x k v) j = field w x j := by
  apply BitVec.eq_of_getLsbD_eq
  intro i hi
  rw [field, field, BitVec.getLsbD_extractLsb', BitVec.getLsbD_extractLsb']
  by_cases hn : j * w + i < n
  · rw [getLsbD_put hv hn, if_neg (field_disjoint hjk hi)]
  · have hge : n ≤ j * w + i := Nat.le_of_not_lt hn
    rw [BitVec.getLsbD_of_ge _ _ hge, BitVec.getLsbD_of_ge _ _ hge]

/-! ## Arrays -/

section Array

variable {per : Nat}

/-- The field at `i`, of `per` in each word. -/
def get (w per : Nat) (words : Nat → BitVec n) (i : Nat) : BitVec w :=
  field w (words (i / per)) (i % per)

/-- Two elements of one word are different fields. -/
theorem mod_ne (hdiv : j / per = i / per) (hji : j ≠ i) : j % per ≠ i % per := by
  intro hmod
  apply hji
  rw [← Nat.div_add_mod j per, ← Nat.div_add_mod i per, hdiv, hmod]

/-- **A write to a field is a write to one element** of those in its word. -/
theorem field_put (hper : 0 < per) (hn : per * w ≤ n) (hv : Fits w v) (hdiv : j / per = i / per) :
    field w (put w x (i % per) v) (j % per) =
      if j = i then v.setWidth w else field w x (j % per) := by
  by_cases hji : j = i
  · subst hji
    have hlt : (j % per + 1) * w ≤ n :=
      Nat.le_trans (Nat.mul_le_mul_right w (Nat.mod_lt j hper)) hn
    rw [if_pos rfl, field_put_same hv hlt]
  · rw [if_neg hji, field_put_ne hv (mod_ne hdiv hji)]

/-- The word that holds the fields `k * per`, `k * per + 1` and so on. -/
def pack (n w per : Nat) (f : Nat → BitVec w) (k : Nat) : BitVec n :=
  (BitVec.ofBoolListLE ((List.range n).map fun b => (f (k * per + b / w)).getLsbD (b % w))).cast
    (by rw [List.length_map, List.length_range])

theorem getLsbD_pack (f : Nat → BitVec w) (k : Nat) (hb : b < n) :
    (pack n w per f k).getLsbD b = (f (k * per + b / w)).getLsbD (b % w) := by
  rw [pack, BitVec.getLsbD_cast, BitVec.getLsbD_ofBoolListLE, List.getD_eq_getElem?_getD,
    List.getElem?_map, List.getElem?_range hb, Option.map_some, Option.getD_some]

/-- **What was packed is read.** -/
theorem get_pack (hper : 0 < per) (hn : per * w ≤ n) (f : Nat → BitVec w) (i : Nat) :
    get w per (pack n w per f) i = f i := by
  apply BitVec.eq_of_getLsbD_eq
  intro j hj
  have hle : (i % per + 1) * w ≤ n :=
    Nat.le_trans (Nat.mul_le_mul_right w (Nat.mod_lt i hper)) hn
  rw [Nat.succ_mul] at hle
  have hdiv : (i % per * w + j) / w = i % per := by
    rw [Nat.mul_comm, Nat.mul_add_div (Nat.zero_lt_of_lt hj), Nat.div_eq_of_lt hj, Nat.add_zero]
  have hmod : (i % per * w + j) % w = j := by
    rw [Nat.mul_comm, Nat.mul_add_mod, Nat.mod_eq_of_lt hj]
  have hword : i / per * per + i % per = i := by
    rw [Nat.mul_comm, Nat.div_add_mod]
  rw [get, field, BitVec.getLsbD_extractLsb', decide_eq_true hj, Bool.true_and,
    getLsbD_pack f _ (by omega), hdiv, hmod, hword]

/-- Fields of one bit: `1` shifted to the place of `i` has that bit and no other. -/
theorem getLsbD_one_shift (hn : 0 < n) (i j : Nat) :
    (decide (j / n = i / n) && ((1#n) <<< (i % n)).getLsbD (j % n)) = decide (j = i) := by
  have hlt : j % n < n := Nat.mod_lt j hn
  rw [BitVec.getLsbD_shiftLeft, decide_eq_true hlt, Bool.true_and, BitVec.getLsbD_one]
  by_cases hji : j = i
  · subst hji
    simp [hn]
  · rw [decide_eq_false hji]
    by_cases hdiv : j / n = i / n
    · have hmod : j % n ≠ i % n := mod_ne hdiv hji
      by_cases hle : j % n < i % n
      · simp [hle]
      · have hpos : j % n - i % n ≠ 0 := by omega
        simp [hpos]
    · simp [hdiv]

end Array
end Packed
end Allora
