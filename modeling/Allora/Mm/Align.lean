import Mathlib.Data.Nat.Bitwise
import Mathlib.Tactic.Common

/-!
# `mm/mod.rs` — pages, addresses and alignment

Addresses and sizes are natural numbers. The source rounds with masks
(`addr & !(align - 1)`, after asserting that `align` is a power of two); here rounding is
arithmetic, and `alignDown_eq_mask` is the statement that the two agree on 64-bit words at every
power of two, which are the only alignments the source ever passes.
-/

set_option autoImplicit false

namespace Allora

/-- `PAGE_SIZE = 1 << PAGE_BITS`. -/
def PAGE_SIZE : Nat := 4096

/-- `align_down`. -/
def alignDown (addr align : Nat) : Nat := addr - addr % align

/-- `align_up`. -/
def alignUp (addr align : Nat) : Nat := alignDown (addr + (align - 1)) align

/-- `page_align_down`. -/
def pageAlignDown (addr : Nat) : Nat := alignDown addr PAGE_SIZE

/-- `page_align_up`. -/
def pageAlignUp (addr : Nat) : Nat := alignUp addr PAGE_SIZE

/-- `pa!`: the address of a page. -/
def pa (pageId : Nat) : Nat := pageId * PAGE_SIZE

/-- `pgid!`: the page of an address. -/
def pgid (addr : Nat) : Nat := addr / PAGE_SIZE

/-! ## Rounding -/

theorem dvd_alignDown (addr align : Nat) : align ∣ alignDown addr align := Nat.dvd_sub_mod addr

theorem alignDown_le (addr align : Nat) : alignDown addr align ≤ addr := Nat.sub_le ..

theorem lt_alignDown_add (addr : Nat) {align : Nat} (h : 0 < align) :
    addr < alignDown addr align + align := by
  have := Nat.mod_lt addr h
  have := Nat.mod_le addr align
  rw [alignDown]
  omega

theorem alignDown_of_dvd {addr align : Nat} (h : align ∣ addr) : alignDown addr align = addr := by
  rw [alignDown, Nat.mod_eq_zero_of_dvd h, Nat.sub_zero]

theorem dvd_alignUp (addr align : Nat) : align ∣ alignUp addr align := dvd_alignDown ..

theorem le_alignUp (addr : Nat) {align : Nat} (h : 0 < align) : addr ≤ alignUp addr align := by
  have := lt_alignDown_add (addr + (align - 1)) h
  rw [alignUp]
  omega

theorem alignUp_lt (addr : Nat) {align : Nat} (h : 0 < align) :
    alignUp addr align < addr + align := by
  have := alignDown_le (addr + (align - 1)) align
  rw [alignUp]
  omega

/-- Rounding up is least. -/
theorem alignUp_le {addr align x : Nat} (hpos : 0 < align) (hle : addr ≤ x) (h : align ∣ x) :
    alignUp addr align ≤ x := by
  have hlt := alignUp_lt addr hpos
  obtain ⟨q, hq⟩ := dvd_alignUp addr align
  obtain ⟨r, rfl⟩ := h
  rw [hq] at hlt ⊢
  refine Nat.mul_le_mul_left align (Nat.le_of_lt_succ ?_)
  refine Nat.lt_of_mul_lt_mul_left (a := align) ?_
  rw [Nat.mul_succ]
  omega

theorem alignUp_of_dvd {addr align : Nat} (hpos : 0 < align) (h : align ∣ addr) :
    alignUp addr align = addr := by
  have h1 := le_alignUp addr hpos
  have h2 := alignUp_lt addr hpos
  have h3 : align ∣ alignUp addr align - addr := Nat.dvd_sub (dvd_alignUp ..) h
  have h4 := Nat.eq_zero_of_dvd_of_lt h3 (by omega)
  omega

theorem alignUp_eq_self {addr align : Nat} (hpos : 0 < align) :
    addr = alignUp addr align ↔ align ∣ addr :=
  ⟨fun h => h ▸ dvd_alignUp addr align, fun h => (alignUp_of_dvd hpos h).symm⟩

/-- What is not aligned is rounded up over the rest of its unit. -/
theorem alignUp_add_mod {addr align : Nat} (hpos : 0 < align) (h : addr % align ≠ 0) :
    alignUp addr align + addr % align = addr + align := by
  have hmod := Nat.mod_lt addr hpos
  have hdown : alignDown addr align + addr % align = addr :=
    Nat.sub_add_cancel (Nat.mod_le addr align)
  have hdvd := dvd_alignDown addr align
  have hle : alignUp addr align ≤ alignDown addr align + align :=
    alignUp_le hpos (by omega) (Nat.dvd_add hdvd (Nat.dvd_refl align))
  have hge := le_alignUp addr hpos
  -- it is a multiple above `align_down`, so it is the next one
  have hgap : align ∣ alignUp addr align - alignDown addr align :=
    Nat.dvd_sub (dvd_alignUp addr align) hdvd
  have hnext := Nat.le_of_dvd (by omega) hgap
  omega

/-- **Rounding the start up and the size down stays inside exactly where the residues make up a
unit.** -/
theorem alignUp_add_alignDown_le {align : Nat} (hpos : 0 < align) (start size : Nat) :
    alignUp start align + alignDown size align ≤ start + size ↔
      start % align = 0 ∨ align ≤ start % align + size % align := by
  have hsize : alignDown size align + size % align = size :=
    Nat.sub_add_cancel (Nat.mod_le size align)
  by_cases h : start % align = 0
  · have hup := alignUp_of_dvd hpos (Nat.dvd_of_mod_eq_zero h)
    rw [hup]
    exact iff_of_true (by omega) (Or.inl h)
  · have hup := alignUp_add_mod hpos h
    omega

/-- **`alignDown` is the mask of the source**, for a 64-bit address and a power of two. -/
theorem alignDown_eq_mask (addr : BitVec 64) {k : Nat} (hk : k < 64) :
    (addr &&& ~~~(BitVec.ofNat 64 (2 ^ k) - 1)).toNat = alignDown addr.toNat (2 ^ k) := by
  have hpos : 0 < 2 ^ k := Nat.two_pow_pos k
  have hlt : 2 ^ k < 2 ^ 64 := Nat.pow_lt_pow_right (by decide) hk
  have hmask : (BitVec.ofNat 64 (2 ^ k) - 1).toNat = 2 ^ k - 1 := by
    rw [BitVec.toNat_sub_of_le]
    · rw [BitVec.toNat_ofNat, Nat.mod_eq_of_lt hlt]
      rfl
    · rw [BitVec.le_def, BitVec.toNat_ofNat, Nat.mod_eq_of_lt hlt]
      exact hpos
  have hdown : alignDown addr.toNat (2 ^ k) = addr.toNat >>> k <<< k := by
    rw [Nat.shiftRight_eq_div_pow, Nat.shiftLeft_eq, alignDown]
    have := Nat.div_add_mod' addr.toNat (2 ^ k)
    omega
  rw [hdown]
  refine Nat.eq_of_testBit_eq fun i => ?_
  rw [BitVec.toNat_and, BitVec.toNat_not, hmask, Nat.testBit_and, Nat.sub_sub,
    Nat.add_comm 1, Nat.testBit_two_pow_sub_succ (by omega), Nat.testBit_two_pow_sub_one,
    Nat.testBit_shiftLeft, Nat.testBit_shiftRight]
  by_cases hki : k ≤ i
  · have hi : k + (i - k) = i := by omega
    rw [hi]
    by_cases h64 : i < 64
    · simp [hki, h64]
    · have : addr.toNat.testBit i = false :=
        Nat.testBit_lt_two_pow (Nat.lt_of_lt_of_le addr.isLt (Nat.pow_le_pow_right (by decide) (by omega)))
      simp [this]
  · simp [hki, Nat.lt_of_not_le hki]

end Allora
