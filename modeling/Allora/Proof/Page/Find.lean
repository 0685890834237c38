import Allora.Proof.Page.Bits

/-!
# `find_and_flip` at every boundary

`find` takes `count - 1` from the length of the bitmap before it looks at anything, so a request
that is longer than the bitmap by two or more is an underflow. Every other request is answered as
it should be: the lowest window of bits that are all `value`, flipped, or `None`.
-/

set_option autoImplicit false

namespace Allora

open Outcome

namespace Bitmap

/-! ## Bitmaps that the source can build -/

/-- There is a word for every bit, and no more. -/
def Whole (b : Bitmap) : Prop := b.bits.length = itemCount b.bitCount

variable {b b' : Bitmap} {start count i : Nat} {value : Bool}

theorem whole_new (n : Nat) : (new n).Whole := by
  simp [Whole, new]

/-- Words are replaced, never added. -/
theorem Whole.modify {f : BitVec 64 → BitVec 64} (hb : b.Whole) (h : b.modify i f = ok b') :
    b'.Whole := by
  unfold Bitmap.modify at h
  cases hitem : b.bits[itemIndex i]? with
  | none =>
    rw [hitem] at h
    cases h
  | some item =>
    rw [hitem] at h
    cases h
    simp only [Whole, List.length_set]
    exact hb

theorem Whole.set (hb : b.Whole) (h : b.set i value = ok b') : b'.Whole := by
  cases value with
  | true => exact hb.modify h
  | false => exact hb.modify h

theorem Whole.loop {op : Bitmap → Nat → Outcome Bitmap}
    (hop : ∀ {b b' : Bitmap} {i : Nat}, b.Whole → op b i = ok b' → b'.Whole) :
    ∀ {l : List Nat} {b b' : Bitmap}, b.Whole → l.foldlM op b = ok b' → b'.Whole
  | [], _, _, hb, h => by
    cases h
    exact hb
  | i :: l, b, b', hb, h => by
    rw [List.foldlM_cons, bind_eq_ok] at h
    obtain ⟨b₁, h₁, h₂⟩ := h
    exact Whole.loop hop (hop hb h₁) h₂

theorem Whole.setMultiple (hb : b.Whole) (h : b.setMultiple start count value = ok b') :
    b'.Whole := by
  obtain ⟨-, -, h⟩ := bind_eq_ok.mp h
  exact Whole.loop (fun hb h => hb.set h) hb h

theorem Whole.findAndFlip {found : Option Nat} (hb : b.Whole)
    (h : b.findAndFlip start count value = ok (b', found)) : b'.Whole := by
  obtain ⟨r, -, h⟩ := bind_eq_ok.mp h
  cases r with
  | none =>
    cases h
    exact hb
  | some i =>
    obtain ⟨b₁, h₁, h⟩ := bind_eq_ok.mp h
    cases h
    exact Whole.loop (fun hb h => hb.modify h) hb h₁

/-- The bits of a whole bitmap, as a function. -/
def shown (b : Bitmap) (i : Nat) : Bool :=
  (b.bits[itemIndex i]?.getD 0).getLsbD (i % ITEM_BITS)

theorem Whole.shows (hb : b.Whole) : Shows b b.bitCount b.shown := by
  have hroom : ∀ i < b.bitCount, itemIndex i < b.bits.length := by
    intro i hi
    rw [show b.bits.length = itemCount b.bitCount from hb]
    simp only [itemIndex, itemCount, ITEM_BITS]
    omega
  refine ⟨rfl, hroom, fun i hi => ?_⟩
  obtain ⟨item, hitem⟩ : ∃ item, b.bits[itemIndex i]? = some item :=
    ⟨_, List.getElem?_eq_getElem (hroom i hi)⟩
  rw [get_of_item hitem, shown, hitem]
  rfl

/-! ## What `find_and_flip` is for -/

/-- A window of `count` bits from `i` on, within the bitmap and not before `start`, all `value`. -/
def Window (b : Bitmap) (start count : Nat) (value : Bool) (i : Nat) : Prop :=
  start ≤ i ∧ i + count ≤ b.bitCount ∧ ∀ j, i ≤ j → j < i + count → b.get j = ok value

/-- The answer of `find_and_flip`. -/
structure FindsAndFlips (b : Bitmap) (start count : Nat) (value : Bool) (b' : Bitmap)
    (found : Option Nat) : Prop where
  absent : found = none → b' = b ∧ ∀ i, ¬ b.Window start count value i
  window : ∀ i, found = some i → b.Window start count value i
  least : ∀ i, found = some i → ∀ j, b.Window start count value j → i ≤ j
  len : b'.bitCount = b.bitCount
  flipped : ∀ i, found = some i → ∀ j, i ≤ j → j < i + count → b'.get j = ok (!value)
  kept : ∀ i, found = some i → ∀ j < b.bitCount, ¬ (i ≤ j ∧ j < i + count) → b'.get j = b.get j

theorem Shows.window_iff {n : Nat} {used : Nat → Bool} (h : Shows b n used) :
    b.Window start count value i ↔
      start ≤ i ∧ i + count ≤ n ∧ stretch used i count value = true := by
  unfold Window
  rw [h.count, stretch_eq_true_iff]
  refine and_congr_right fun _ => and_congr_right fun hle => ?_
  refine forall₃_congr fun j _ hj => ?_
  rw [h.bits j (by omega)]
  exact ⟨Outcome.ok.inj, congrArg ok⟩

theorem Shows.findsAndFlips {n : Nat} {used : Nat → Bool} (h : Shows b n used) (hc : 0 < count)
    (hcn : count ≤ n + 1) :
    ∃ b' found, b.findAndFlip start count value = ok (b', found) ∧
      b.FindsAndFlips start count value b' found := by
  have hflip := h.findAndFlip hc hcn start value
  cases hfit : lowestFit n start count value used with
  | none =>
    rw [hfit] at hflip
    refine ⟨b, none, hflip, ⟨fun _ => ⟨rfl, fun i hi => ?_⟩, by simp, by simp, rfl, by simp, by simp⟩⟩
    obtain ⟨hs, hle, hall⟩ := h.window_iff.mp hi
    rw [lowestFit_none hfit hs hle] at hall
    cases hall
  | some i =>
    rw [hfit] at hflip
    obtain ⟨b', hrun, hshows⟩ := hflip
    obtain ⟨hs, hle, hall, hleast⟩ := lowestFit_some hfit
    refine ⟨b', some i, hrun, ⟨by simp, ?_, ?_, by rw [hshows.count, h.count], ?_, ?_⟩⟩
    · rintro _ ⟨⟩
      exact h.window_iff.mpr ⟨hs, hle, hall⟩
    · rintro _ ⟨⟩ j hj
      obtain ⟨hjs, -, hjall⟩ := h.window_iff.mp hj
      by_contra hlt
      rw [hleast j hjs (by omega)] at hjall
      cases hjall
    · rintro _ ⟨⟩ j hij hj
      rw [hshows.bits j (by omega), paint, if_pos ⟨hij, hj⟩]
    · rintro _ ⟨⟩ j hj hout
      rw [h.count] at hj
      rw [hshows.bits j hj, paint, if_neg hout, h.bits j hj]

/-- The subtraction in `find`. -/
theorem findAndFlip_underflow (hlong : b.bitCount + 1 < count) (r : Bitmap × Option Nat) :
    b.findAndFlip start count value ≠ ok r := by
  have hlast : subChecked count 1 = ok (count - 1) := if_pos (by omega)
  intro h
  unfold findAndFlip find at h
  rw [hlast, ok_bind, subChecked, if_neg (by omega)] at h
  cases h

end Bitmap

open Bitmap

/-- **A request is answered exactly when it is at most one bit longer than the bitmap**, and
`PageMap::get_multiple` inherits the underflow where it should answer `PageNotFound`. -/
theorem findAndFlip_answers_iff (b : Bitmap) (hb : b.Whole) (start count : Nat) (hc : 1 ≤ count)
    (value : Bool) :
    ((∃ b' found, b.findAndFlip start count value = ok (b', found) ∧
        b.FindsAndFlips start count value b' found) ∧
      ∀ m : PageMap, m.pool = b → (∀ i, ¬ b.Window PAGE_START count PAGE_IS_FREE i) →
        m.getMultiple count = ok (m, .error .pageNotFound)) ↔
    count ≤ b.bitCount + 1 := by
  constructor
  · rintro ⟨⟨b', found, h, -⟩, -⟩
    by_contra hlong
    exact findAndFlip_underflow (by omega) _ h
  · intro hcn
    refine ⟨hb.shows.findsAndFlips hc hcn, ?_⟩
    rintro m rfl hno
    obtain ⟨b', found, h, hfound⟩ : ∃ b' found,
        m.pool.findAndFlip PAGE_START count PAGE_IS_FREE = ok (b', found) ∧ _ :=
      hb.shows.findsAndFlips hc hcn
    cases found with
    | some i => exact absurd (hfound.window i rfl) (hno i)
    | none =>
      rw [(hfound.absent rfl).1] at h
      rw [PageMap.getMultiple, h, ok_bind]
      rfl

/-- Bits 0, 3 and 4 of five are set: the lowest two clear bits are 1 and 2. -/
theorem findAndFlip_answers_iff_fiveBits :
    ∃ b' found, (⟨5, [0b11001]⟩ : Bitmap).findAndFlip 0 2 false = ok (b', found) ∧
      (⟨5, [0b11001]⟩ : Bitmap).FindsAndFlips 0 2 false b' found :=
  ((findAndFlip_answers_iff ⟨5, [0b11001]⟩ rfl 0 2 (by decide) false).mpr (by decide)).1

/-- Five pages of a pool of three. -/
theorem getMultiple_underflows :
    (PageMap.new 4096 12288).getMultiple 5 = .panic "attempt to subtract with overflow" ∧
      (Bitmap.new 3).findAndFlip 0 5 false = .panic "attempt to subtract with overflow" :=
  ⟨rfl, rfl⟩

end Allora
