import Allora.Checksum
import Allora.Lib.OnesComplement

/-!
# The Internet checksum

The sum is folded to the digit that it comes to modulo 65535, as a sum with the carry put back at
each step would be. What goes into the sum is not the same for every payload: the last byte of an
odd one is added as it is, where it should be the high byte of a word.
-/

set_option autoImplicit false

namespace Allora
namespace Apps

open Outcome OnesComplement

/-! ## RFC 1071 -/

/-- The big-endian words; a last byte that is alone is a high byte. -/
def beWords : List UInt8 → List Nat
  | [] => []
  | [a] => [a.toNat * 256]
  | a :: b :: rest => (a.toNat * 256 + b.toNat) :: beWords rest

/-- The complement of the end-around-carry sum. -/
def rfc1071 (payload : List UInt8) : Nat := 65535 - endAroundSum 65535 (beWords payload)

theorem beWords_le (payload : List UInt8) : ∀ d ∈ beWords payload, d ≤ 65535 := by
  induction payload using beWords.induct with
  | case1 => simp [beWords]
  | case2 a =>
    have ha := a.toNat_lt
    simp only [beWords, List.mem_singleton, forall_eq]
    omega
  | case3 a b rest ih =>
    have ha := a.toNat_lt
    have hb := b.toNat_lt
    intro d hd
    rcases List.mem_cons.mp hd with rfl | hd
    · omega
    · exact ih d hd

/-! ## What is summed -/

/-- The byte after the last pair, or 0. -/
def trailing : List UInt8 → Nat
  | [] => 0
  | [a] => a.toNat
  | _ :: _ :: rest => trailing rest

/-- The two sums differ in the weight of the last byte. -/
theorem sums (payload : List UInt8) :
    ∃ pairs, sum16 payload = pairs + trailing payload ∧
      (beWords payload).sum = pairs + 256 * trailing payload := by
  induction payload using beWords.induct with
  | case1 => exact ⟨0, rfl, rfl⟩
  | case2 a => exact ⟨0, by simp [sum16, trailing], by simp [beWords, trailing, Nat.mul_comm]⟩
  | case3 a b rest ih =>
    obtain ⟨pairs, h₁, h₂⟩ := ih
    refine ⟨a.toNat * 256 + b.toNat + pairs, ?_, ?_⟩
    · rw [sum16, h₁, trailing]
      omega
    · rw [beWords, List.sum_cons, h₂, trailing]
      omega

theorem trailing_lt (payload : List UInt8) : trailing payload < 256 := by
  induction payload using trailing.induct with
  | case1 => decide
  | case2 a => exact a.toNat_lt
  | case3 a b rest ih => exact ih

theorem trailing_eq_zero_iff (payload : List UInt8) :
    trailing payload = 0 ↔ (payload.length % 2 = 1 → payload.getLast? = some 0) := by
  induction payload using trailing.induct with
  | case1 => simp [trailing]
  | case2 a =>
    simp only [trailing, List.length_singleton, List.getLast?_singleton, Option.some.injEq]
    constructor
    · intro h _
      exact UInt8.toNat_inj.mp h
    · intro h
      rw [h trivial]
      rfl
  | case3 a b rest ih =>
    rw [trailing, ih]
    cases rest with
    | nil => simp
    | cons c rest =>
      have hmod : (a :: b :: c :: rest).length % 2 = (c :: rest).length % 2 := by
        simp only [List.length_cons]
        omega
      rw [hmod, List.getLast?_cons_cons, List.getLast?_cons_cons]

/-! ## The folding loop -/

/-- `(sum & 0xffff) + (sum >> 16)`. -/
theorem fold_eq (s : Nat) : (s &&& 0xffff) + s >>> 16 = fold 65535 s := by
  have hand : s &&& 0xffff = s % 65536 := Nat.and_two_pow_sub_one_eq_mod s 16
  rw [hand, Nat.shiftRight_eq_div_pow]
  rfl

theorem foldSum_done {s : Nat} (h : s < 65536) (fuel : Nat) : foldSum (fuel + 1) s = ok s := by
  rw [foldSum, if_neg]
  rw [Nat.shiftRight_eq_div_pow]
  omega

theorem foldSum_fold {s : Nat} (h : 65536 ≤ s) (hs : s < 2 ^ 32) (fuel : Nat) :
    foldSum (fuel + 1) s = foldSum fuel (fold 65535 s) := by
  have hadd : addChecked 32 (s &&& 0xffff) (s >>> 16) = ok (fold 65535 s) := by
    rw [addChecked, fold_eq, if_pos]
    unfold fold
    omega
  rw [foldSum, if_pos, hadd, ok_bind]
  rw [Nat.shiftRight_eq_div_pow]
  omega

/-- **Two folds are enough** for a `u32`. -/
theorem foldSum_eq {s : Nat} (hs : s < 2 ^ 32) {fuel : Nat} (hfuel : 3 ≤ fuel) :
    foldSum fuel s = ok (norm 65535 s) := by
  obtain ⟨f, rfl⟩ : ∃ f, fuel = f + 3 := ⟨fuel - 3, by omega⟩
  by_cases h₁ : s < 65536
  · rw [foldSum_done h₁, norm_of_le (by omega)]
  · rw [foldSum_fold (by omega) hs, ← norm_fold]
    have hs₂ : fold 65535 s ≤ 131070 := by
      unfold fold
      omega
    generalize fold 65535 s = s₂ at hs₂
    by_cases h₂ : s₂ < 65536
    · rw [foldSum_done h₂, norm_of_le (by omega)]
    · rw [foldSum_fold (by omega) (by omega), ← norm_fold]
      have hs₃ : fold 65535 s₂ < 65536 := by
        unfold fold
        omega
      rw [foldSum_done hs₃, norm_of_le (by omega)]

/-- The loop of the server's model comes to the same. -/
theorem foldCarry_eq (s : Nat) : foldCarry s = norm 65535 s := by
  induction s using Nat.strong_induction_on with
  | _ s ih =>
    rw [foldCarry]
    split
    · rw [← norm_fold]
      refine ih _ ?_
      omega
    · exact (norm_of_le (by omega)).symm

theorem checksum_eq (payload : List UInt8) :
    checksum payload = 65535 - norm 65535 (sum16 payload) := by
  rw [checksum, foldCarry_eq]

/-! ## The sum in 32 bits -/

theorem sum16_append {xs : List UInt8} (h : xs.length % 2 = 0) (ys : List UInt8) :
    sum16 (xs ++ ys) = sum16 xs + sum16 ys := by
  induction xs using trailing.induct with
  | case1 => simp [sum16]
  | case2 a => simp at h
  | case3 a b rest ih =>
    have hrest : rest.length % 2 = 0 := by
      simp only [List.length_cons] at h
      omega
    rw [List.cons_append, List.cons_append, sum16, sum16, ih hrest]
    omega

theorem sum16_le (xs : List UInt8) : sum16 xs ≤ 65535 * ((xs.length + 1) / 2) := by
  induction xs using trailing.induct with
  | case1 => simp [sum16]
  | case2 a =>
    have ha := a.toNat_lt
    simp only [sum16, List.length_singleton]
    omega
  | case3 a b rest ih =>
    have ha := a.toNat_lt
    have hb := b.toNat_lt
    simp only [sum16, List.length_cons]
    omega

theorem or_shiftLeft (a b : UInt8) : b.toNat ||| (a.toNat <<< 8) = a.toNat * 256 + b.toNat := by
  rw [Nat.or_comm, ← Nat.shiftLeft_add_eq_or_of_lt b.toNat_lt, Nat.shiftLeft_eq]

/-- **No addition of the loop overflows**, by induction on the number of pairs. -/
theorem sumPairs_eq {payload : List UInt8} (hlen : payload.length ≤ 131072) :
    ∀ n, 2 * n ≤ payload.length → sumPairs payload n = ok (sum16 (payload.take (2 * n))) := by
  intro n
  induction n with
  | zero => exact fun _ => rfl
  | succ n ih =>
    intro hn
    obtain ⟨a, ha⟩ : ∃ a, payload[n * 2]? = some a := ⟨_, List.getElem?_eq_getElem (by omega)⟩
    obtain ⟨b, hb⟩ : ∃ b, payload[n * 2 + 1]? = some b := ⟨_, List.getElem?_eq_getElem (by omega)⟩
    have htake : payload.take (2 * (n + 1)) = payload.take (2 * n) ++ [a, b] := by
      rw [show 2 * (n + 1) = 2 * n + 1 + 1 by omega, List.take_add_one, List.take_add_one,
        show 2 * n + 1 = n * 2 + 1 by omega, hb, Nat.mul_comm 2 n, ha]
      simp
    have hsum : sum16 (payload.take (2 * (n + 1))) =
        sum16 (payload.take (2 * n)) + (b.toNat ||| (a.toNat <<< 8)) := by
      rw [htake, sum16_append (by rw [List.length_take]; omega), or_shiftLeft]
      simp only [sum16, Nat.add_zero]
    have hbound := sum16_le (payload.take (2 * (n + 1)))
    rw [List.length_take] at hbound
    have hprev := ih (by omega)
    unfold sumPairs at hprev ⊢
    have hadd : addChecked 32 (sum16 (payload.take (2 * n))) (b.toNat ||| (a.toNat <<< 8)) =
        ok (sum16 (payload.take (2 * (n + 1)))) := by
      rw [hsum, addChecked, if_pos (by omega)]
    rw [List.range_succ, List.foldlM_append, hprev, ok_bind]
    simp only [List.foldlM_cons, List.foldlM_nil, index, ha, hb, ok_bind, hadd, pure_eq_ok]

/-- **The sum fits, and folds to the server's checksum.** -/
theorem checksum32_eq {payload : List UInt8} (hlen : payload.length ≤ 131072) {fuel : Nat}
    (hfuel : 3 ≤ fuel) : checksum32 fuel payload = ok (checksum payload) := by
  have hsum := sum16_le payload
  have hfold : foldSum fuel (sum16 payload) = ok (norm 65535 (sum16 payload)) :=
    foldSum_eq (by omega) hfuel
  have hle : norm 65535 (sum16 payload) ≤ 65535 := norm_le (by decide)
  rw [checksum32, sumPairs_eq hlen _ (by omega), ok_bind, checksum_eq]
  have hend : 0xffff - norm 65535 (sum16 payload) % 65536 = 65535 - norm 65535 (sum16 payload) := by
    rw [Nat.mod_eq_of_lt (by omega)]
  by_cases hodd : payload.length % 2 ≠ 0
  · obtain ⟨a, ha⟩ : ∃ a, payload[payload.length - 1]? = some a :=
      ⟨_, List.getElem?_eq_getElem (by omega)⟩
    have hsplit : payload = payload.take (2 * (payload.length / 2)) ++ [a] := by
      calc payload = payload.take (payload.length - 1 + 1) := by
            rw [Nat.sub_add_cancel (by omega), List.take_length]
        _ = payload.take (2 * (payload.length / 2)) ++ [a] := by
            rw [List.take_add_one, ha, show payload.length - 1 = 2 * (payload.length / 2) by omega]
            rfl
    have hadd : addChecked 32 (sum16 (payload.take (2 * (payload.length / 2)))) a.toNat =
        ok (sum16 payload) := by
      have heq : sum16 payload = sum16 (payload.take (2 * (payload.length / 2))) + a.toNat := by
        conv_lhs => rw [hsplit, sum16_append (by rw [List.length_take]; omega), sum16]
      rw [addChecked, if_pos (by omega), heq]
    simp only [if_pos hodd, index, ha, ok_bind, hadd, hfold, hend, pure_eq_ok]
  · have hall : payload.take (2 * (payload.length / 2)) = payload :=
      List.take_of_length_le (by omega)
    simp only [if_neg hodd, hall, pure_eq_ok, ok_bind, hfold, hend]

/-- **The checksum is that of RFC 1071 exactly when no byte but 0 is left over**: it has no overflow
for any payload, and an odd last byte counts only a 256th of what it should. -/
theorem checksum_rfc1071_iff (payload : List UInt8) (hlen : payload.length ≤ 131072) :
    ∃ c, (∀ fuel, 3 ≤ fuel → checksum32 fuel payload = ok c) ∧
      (c = rfc1071 payload ↔ (payload.length % 2 = 1 → payload.getLast? = some 0)) := by
  refine ⟨checksum payload, fun fuel hfuel => checksum32_eq hlen hfuel, ?_⟩
  rw [← trailing_eq_zero_iff, checksum_eq, rfc1071, endAroundSum_eq (by decide) (beWords_le payload)]
  obtain ⟨pairs, h₁, h₂⟩ := sums payload
  rw [h₁, h₂]
  have ht := trailing_lt payload
  generalize trailing payload = t at ht
  have hle₁ : norm 65535 (pairs + t) ≤ 65535 := norm_le (by decide)
  have hle₂ : norm 65535 (pairs + 256 * t) ≤ 65535 := norm_le (by decide)
  constructor
  · intro h
    have hnorm : norm 65535 (pairs + t) = norm 65535 (pairs + 256 * t) := by omega
    obtain ⟨hmod, -⟩ := norm_eq_norm_iff.mp hnorm
    -- 255 times the byte is a multiple of 255 times 257
    omega
  · rintro rfl
    rfl

/-- Two pairs. -/
theorem checksum_rfc1071_iff_twoPairs :
    checksum32 3 [0x45, 0x00, 0x00, 0x54] = ok (rfc1071 [0x45, 0x00, 0x00, 0x54]) := by
  obtain ⟨c, hc, hiff⟩ := checksum_rfc1071_iff [0x45, 0x00, 0x00, 0x54] (by decide)
  rw [hc 3 (Nat.le_refl 3), hiff.mpr (by decide)]

/-- One byte: its complement, where RFC 1071 has that of the word `0x0100`. -/
theorem odd_byte_low :
    checksum32 3 [0x01] = ok 0xfffe ∧ rfc1071 [0x01] = 0xfeff := ⟨rfl, rfl⟩

end Apps
end Allora
