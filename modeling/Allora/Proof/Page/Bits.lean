import Allora.Mm.Page
import Mathlib.Logic.Function.Basic

/-!
# A bitmap is a function

`Shows b n used` says that the first `n` bits of the words of `b` read as `used`. Each operation of
`bitmap.rs` then is one on `used`: a loop over bits paints a stretch of it, and `find` is `find?` over
indices. Words and masks do not appear above this file.
-/

set_option autoImplicit false

namespace Allora

open Outcome

/-- `used`, with the `c` values from `i` on set to `v`. -/
def paint (used : Nat → Bool) (i c : Nat) (v : Bool) : Nat → Bool :=
  fun j => if i ≤ j ∧ j < i + c then v else used j

/-- `c` values from `i` on are `v`. -/
def stretch (used : Nat → Bool) (i c : Nat) (v : Bool) : Bool :=
  (List.range' i c).all fun j => used j == v

theorem stretch_eq_true_iff {used : Nat → Bool} {i c : Nat} {v : Bool} :
    stretch used i c v = true ↔ ∀ j, i ≤ j → j < i + c → used j = v := by
  simp only [stretch, List.all_eq_true, List.mem_range'_1, beq_iff_eq]
  constructor
  · intro h j h1 h2
    exact h j ⟨h1, h2⟩
  · intro h j hj
    exact h j hj.1 hj.2

theorem paint_update (used : Nat → Bool) (i c : Nat) (v : Bool) :
    paint (Function.update used i v) (i + 1) c v = paint used i (c + 1) v := by
  funext j
  unfold paint
  by_cases hj : j = i
  · subst hj
    rw [if_neg (by omega), if_pos (by omega), Function.update_self]
  · rw [Function.update_of_ne hj]
    have hiff : (i + 1 ≤ j ∧ j < i + 1 + c) ↔ (i ≤ j ∧ j < i + (c + 1)) := by omega
    simp only [hiff]

theorem paint_zero (used : Nat → Bool) (i : Nat) (v : Bool) : paint used i 0 v = used := by
  funext j
  exact if_neg (by omega)

namespace Bitmap

/-- The first `n` bits of `b` are `used`. -/
structure Shows (b : Bitmap) (n : Nat) (used : Nat → Bool) : Prop where
  count : b.bitCount = n
  room : ∀ i < n, itemIndex i < b.bits.length
  bits : ∀ i < n, b.get i = ok (used i)

variable {b : Bitmap} {n i c : Nat} {used : Nat → Bool} {v : Bool}

theorem bitMask_eq (i : Nat) : bitMask i = BitVec.twoPow 64 (i % ITEM_BITS) :=
  (BitVec.twoPow_eq 64 (i % ITEM_BITS)).symm

theorem mod_lt_64 (i : Nat) : i % ITEM_BITS < 64 := Nat.mod_lt i (by decide)

/-- `get` reads one bit of one word. -/
theorem get_of_item {item : BitVec 64} (h : b.bits[itemIndex i]? = some item) :
    b.get i = ok (item.getLsbD (i % ITEM_BITS)) := by
  have hne : BitVec.twoPow 64 (i % ITEM_BITS) ≠ 0 := by
    intro heq
    have hbit := congrArg (fun x => x.getLsbD (i % ITEM_BITS)) heq
    simp [mod_lt_64] at hbit
  rw [get, h, bitMask_eq]
  show ok (item &&& BitVec.twoPow 64 (i % ITEM_BITS) != 0) = _
  rw [BitVec.and_twoPow]
  cases item.getLsbD (i % ITEM_BITS) with
  | false => rfl
  | true => simpa using hne

theorem get_new (hi : i < n) : (new n).get i = ok false := by
  have hidx : itemIndex i < itemCount n := by
    simp only [itemIndex, itemCount, ITEM_BITS]
    omega
  have hitem : (new n).bits[itemIndex i]? = some 0 := by
    simp [new, hidx]
  rw [get_of_item hitem]
  simp

theorem shows_new (n : Nat) : Shows (new n) n fun _ => false where
  count := rfl
  room i hi := by
    simp only [new, List.length_replicate, itemIndex, itemCount, ITEM_BITS]
    omega
  bits _ hi := get_new hi

/-- Changing one bit of a word changes one bit of the map. -/
theorem Shows.modify {f : BitVec 64 → BitVec 64} {g : Bool → Bool} (h : Shows b n used)
    (hi : i < n)
    (hf : ∀ item j, j < 64 → (f item).getLsbD j =
      if j = i % ITEM_BITS then g (item.getLsbD j) else item.getLsbD j) :
    ∃ b', b.modify i f = ok b' ∧ Shows b' n (Function.update used i (g (used i))) := by
  obtain ⟨item, hitem⟩ : ∃ item, b.bits[itemIndex i]? = some item :=
    ⟨_, List.getElem?_eq_getElem (h.room i hi)⟩
  have hused : used i = item.getLsbD (i % ITEM_BITS) := by
    have := (h.bits i hi).symm.trans (get_of_item hitem)
    exact Outcome.ok.inj this
  refine ⟨{ b with bits := b.bits.set (itemIndex i) (f item) }, by rw [Bitmap.modify, hitem],
    h.count, fun j hj => ?_, fun j hj => ?_⟩
  · rw [List.length_set]
    exact h.room j hj
  · by_cases hw : itemIndex j = itemIndex i
    · -- the same word
      have hset : (b.bits.set (itemIndex i) (f item))[itemIndex j]? = some (f item) := by
        rw [hw, List.getElem?_set_self (h.room i hi)]
      rw [get_of_item hset, hf item _ (mod_lt_64 j)]
      by_cases hji : j = i
      · subst hji
        rw [if_pos rfl, Function.update_self, hused]
      · have hmod : j % ITEM_BITS ≠ i % ITEM_BITS := by
          simp only [itemIndex, ITEM_BITS] at hw ⊢
          omega
        rw [if_neg hmod, Function.update_of_ne hji, ← h.bits j hj,
          get_of_item (hw ▸ hitem)]
    · -- another word
      have hji : j ≠ i := by
        intro heq
        exact hw (heq ▸ rfl)
      rw [Function.update_of_ne hji, ← h.bits j hj]
      unfold get
      rw [List.getElem?_set_ne (Ne.symm hw)]

theorem Shows.set (h : Shows b n used) (hi : i < n) (v : Bool) :
    ∃ b', b.set i v = ok b' ∧ Shows b' n (Function.update used i v) := by
  unfold Bitmap.set
  cases v with
  | true =>
    refine h.modify (g := fun _ => true) hi fun item j hj => ?_
    rw [bitMask_eq]
    by_cases hji : j = i % ITEM_BITS
    · simp [hji, mod_lt_64]
    · simp [hji, Ne.symm hji]
  | false =>
    refine h.modify (g := fun _ => false) hi fun item j hj => ?_
    rw [bitMask_eq]
    by_cases hji : j = i % ITEM_BITS
    · simp [hji, mod_lt_64]
    · simp [hji, hj]

theorem Shows.flip (h : Shows b n used) (hi : i < n) :
    ∃ b', b.flip i = ok b' ∧ Shows b' n (Function.update used i (!used i)) := by
  refine h.modify (f := (· ^^^ bitMask i)) (g := (! ·)) hi fun item j hj => ?_
  rw [bitMask_eq]
  by_cases hji : j = i % ITEM_BITS
  · simp [hji, mod_lt_64]
  · simp [hji, Ne.symm hji]

/-- A loop that sets bits one after another, where each was fit for it. -/
theorem Shows.loop (op : Bitmap → Nat → Outcome Bitmap) (fit : Bool → Prop)
    (hop : ∀ {b : Bitmap} {used : Nat → Bool} {i : Nat}, Shows b n used → i < n → fit (used i) →
      ∃ b', op b i = ok b' ∧ Shows b' n (Function.update used i v)) :
    ∀ {c i : Nat} {b : Bitmap} {used : Nat → Bool}, Shows b n used → i + c ≤ n →
      (∀ j, i ≤ j → j < i + c → fit (used j)) →
      ∃ b', (List.range' i c).foldlM op b = ok b' ∧ Shows b' n (paint used i c v)
  | 0, i, b, used, h, _, _ => ⟨b, rfl, by rwa [paint_zero]⟩
  | c + 1, i, b, used, h, hle, hfit => by
    obtain ⟨b₁, h₁, hs₁⟩ := hop h (show i < n by omega) (hfit i (Nat.le_refl _) (by omega))
    obtain ⟨b₂, h₂, hs₂⟩ := Shows.loop op fit hop hs₁ (show i + 1 + c ≤ n by omega) fun j h1 h2 => by
      rw [Function.update_of_ne (by omega)]
      exact hfit j (by omega) (by omega)
    rw [paint_update] at hs₂
    refine ⟨b₂, ?_, hs₂⟩
    rw [List.range'_succ, List.foldlM_cons, h₁, ok_bind, h₂]

theorem Shows.boundCheck (h : Shows b n used) (hle : i + c ≤ n) : b.boundCheck i c = ok () := by
  have h1 : i ≤ b.bitCount := by
    rw [h.count]
    omega
  have h2 : i + c ≤ b.bitCount := by rwa [h.count]
  simp [Bitmap.boundCheck, assert, h1, h2]

theorem Shows.setMultiple (h : Shows b n used) (hle : i + c ≤ n) (v : Bool) :
    ∃ b', b.setMultiple i c v = ok b' ∧ Shows b' n (paint used i c v) := by
  unfold Bitmap.setMultiple
  rw [h.boundCheck hle, ok_bind]
  exact Shows.loop (fun b i => b.set i v) (fun _ => True) (fun h hi _ => h.set hi v) h hle
    fun _ _ _ => trivial

theorem Shows.all (h : Shows b n used) (hle : i + c ≤ n) (v : Bool) :
    b.all i c v = ok (stretch used i c v) := by
  unfold Bitmap.all
  rw [h.boundCheck hle, ok_bind]
  refine allM_eq_ok fun j hj => ?_
  rw [List.mem_range'_1] at hj
  rw [h.bits j (by omega), ok_bind]
  rfl

/-- The lowest index from `start` on at which `c` bits are `v`. -/
def lowestFit (n start c : Nat) (v : Bool) (used : Nat → Bool) : Option Nat :=
  (List.range' start (n + 1 - c - start)).find? fun i => stretch used i c v

theorem lowestFit_some {start : Nat} (h : lowestFit n start c v used = some i) :
    start ≤ i ∧ i + c ≤ n ∧ stretch used i c v = true ∧
      ∀ j, start ≤ j → j < i → stretch used j c v = false := by
  obtain ⟨hfit, hmem, hleast⟩ := List.find?_range'_eq_some.mp h
  rw [List.mem_range'_1] at hmem
  refine ⟨hmem.1, by omega, hfit, fun j hj hji => ?_⟩
  simpa using hleast j hj hji

theorem lowestFit_none {start : Nat} (h : lowestFit n start c v used = none) (hi : start ≤ i)
    (hle : i + c ≤ n) : stretch used i c v = false := by
  simpa using List.find?_range'_eq_none.mp h i hi (by omega)

/-- The lowest index at which `c` bits are clear. -/
def firstFit (n c : Nat) (used : Nat → Bool) : Option Nat :=
  (List.range (n + 1 - c)).find? fun i => stretch used i c false

theorem lowestFit_zero (n c : Nat) (used : Nat → Bool) :
    lowestFit n 0 c false used = firstFit n c used := by
  rw [lowestFit, firstFit, Nat.sub_zero, List.range_eq_range']

theorem firstFit_some (h : firstFit n c used = some i) :
    i + c ≤ n ∧ stretch used i c false = true := by
  rw [← lowestFit_zero] at h
  obtain ⟨-, hle, hfree, -⟩ := lowestFit_some h
  exact ⟨hle, hfree⟩

theorem Shows.find (h : Shows b n used) (hc : 0 < c) (hcn : c ≤ n + 1) (start : Nat) (v : Bool) :
    b.find start c v = ok (lowestFit n start c v used) := by
  have hlast : subChecked c 1 = ok (c - 1) := if_pos hc
  have hstop : subChecked b.bitCount (c - 1) = ok (n + 1 - c) := by
    rw [h.count, subChecked, if_pos (by omega)]
    congr 1
    omega
  unfold Bitmap.find
  rw [hlast, ok_bind, hstop, ok_bind]
  refine findM?_eq_ok fun i hi => ?_
  rw [List.mem_range'_1] at hi
  exact h.all (by omega) v

theorem Shows.findAndFlip (h : Shows b n used) (hc : 0 < c) (hcn : c ≤ n + 1) (start : Nat)
    (v : Bool) :
    match lowestFit n start c v used with
    | none => b.findAndFlip start c v = ok (b, none)
    | some i => ∃ b', b.findAndFlip start c v = ok (b', some i) ∧
        Shows b' n (paint used i c (!v)) := by
  unfold Bitmap.findAndFlip
  rw [h.find hc hcn start v, ok_bind]
  cases hfit : lowestFit n start c v used with
  | none => rfl
  | some i =>
    obtain ⟨-, hle, hfree, -⟩ := lowestFit_some hfit
    obtain ⟨b', hb', hs'⟩ := Shows.loop Bitmap.flip (· = v)
      (fun h hi hf => hf ▸ h.flip hi) h hle (stretch_eq_true_iff.mp hfree)
    refine ⟨b', ?_, hs'⟩
    simp only [hb', ok_bind, pure_eq_ok]

end Bitmap
end Allora
