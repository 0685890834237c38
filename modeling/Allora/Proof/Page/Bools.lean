import Allora.Proof.Page.Bits

/-!
# A bitmap refines a list of booleans

The reference is a `List Bool`: an operation replaces some of its elements in place, and a window is
a run of consecutive elements. A bitmap `Reads` as a list when `get`, `is_full` and `is_none` answer
what the list says, and every sequence of calls keeps the two together, whatever the number of bits
in the last word.
-/

set_option autoImplicit false

namespace Allora

open Outcome

/-! ## The reference -/

namespace Bools

/-- The `count` elements from `start` on, replaced by `f`. -/
def assign (l : List Bool) (start count : Nat) (f : Bool → Bool) : List Bool :=
  l.mapIdx fun j x => if start ≤ j ∧ j < start + count then f x else x

/-- The `count` elements from `start` on. -/
def window (l : List Bool) (start count : Nat) : List Bool := (l.drop start).take count

/-- The lowest window, from `start` on, of `count` elements that are all `value`. -/
def lowest (l : List Bool) (start count : Nat) (value : Bool) : Option Nat :=
  (List.range l.length).find? fun i =>
    decide (start ≤ i) && window l i count == List.replicate count value

end Bools

namespace Bitmap

/-- The calls that change a bitmap. -/
inductive Op
  | set (bitIndex : Nat) (value : Bool)
  | setMultiple (start count : Nat) (value : Bool)
  | flip (bitIndex : Nat)
  | findAndFlip (start count : Nat) (value : Bool)
  deriving DecidableEq, Repr

namespace Op

/-- The call is in range of `n` bits. -/
def InRange (n : Nat) : Op → Prop
  | set i _ => i < n
  | setMultiple start count _ => start + count ≤ n
  | flip i => i < n
  | findAndFlip _ count _ => 1 ≤ count ∧ count ≤ n

instance (n : Nat) : (op : Op) → Decidable (op.InRange n)
  | set i _ => inferInstanceAs (Decidable (i < n))
  | setMultiple start count _ => inferInstanceAs (Decidable (start + count ≤ n))
  | flip i => inferInstanceAs (Decidable (i < n))
  | findAndFlip _ count _ => inferInstanceAs (Decidable (1 ≤ count ∧ count ≤ n))

/-- The call, with the answer of `find_and_flip`. -/
def call (b : Bitmap) : Op → Outcome (Bitmap × Option Nat)
  | set i value => do
      let b ← b.set i value
      pure (b, none)
  | setMultiple start count value => do
      let b ← b.setMultiple start count value
      pure (b, none)
  | flip i => do
      let b ← b.flip i
      pure (b, none)
  | findAndFlip start count value => b.findAndFlip start count value

/-- What the call does to the reference. -/
def refer (l : List Bool) : Op → List Bool × Option Nat
  | set i value => (Bools.assign l i 1 fun _ => value, none)
  | setMultiple start count value => (Bools.assign l start count fun _ => value, none)
  | flip i => (Bools.assign l i 1 not, none)
  | findAndFlip start count value =>
      match Bools.lowest l start count value with
      | some i => (Bools.assign l i count not, some i)
      | none => (l, none)

end Op

/-- A sequence of calls, with their answers. -/
def calls (b : Bitmap) : List Op → Outcome (Bitmap × List (Option Nat))
  | [] => ok (b, [])
  | op :: ops => do
      let (b, found) ← op.call b
      let (b, rest) ← calls b ops
      pure (b, found :: rest)

def refers (l : List Bool) : List Op → List Bool × List (Option Nat)
  | [] => (l, [])
  | op :: ops =>
      let (l, found) := op.refer l
      let (l, rest) := refers l ops
      (l, found :: rest)

/-- How a bitmap is made. -/
inductive Start
  | new (bitCount : Nat)
  | fromBools (value : List Bool)

namespace Start

def bitmap : Start → Outcome Bitmap
  | new n => ok (Bitmap.new n)
  | fromBools value => Bitmap.fromBools value

def bools : Start → List Bool
  | new n => List.replicate n false
  | fromBools value => value

end Start

/-- A bitmap is made, and the calls are made of it. -/
def made (s : Start) (ops : List Op) : Outcome (Bitmap × List (Option Nat)) := do
  let b ← s.bitmap
  b.calls ops

/-- The bitmap reads as the list. -/
structure Reads (b : Bitmap) (l : List Bool) : Prop where
  len : b.len = l.length
  get : ∀ i (h : i < l.length), b.get i = ok l[i]
  full : ∀ start count, start + count ≤ l.length →
    b.isFull start count = ok ((Bools.window l start count).all (· == true))
  empty : ∀ start count, start + count ≤ l.length →
    b.isNone start count = ok ((Bools.window l start count).all (· == false))

end Bitmap

/-! ## Lists as functions -/

namespace Bools

variable {l : List Bool} {start count i : Nat} {v : Bool}

/-- The list as a function; past its end it does not matter. -/
def at' (l : List Bool) (i : Nat) : Bool := l.getD i false

@[simp] theorem length_assign (l : List Bool) (start count : Nat) (f : Bool → Bool) :
    (assign l start count f).length = l.length := by
  simp [assign]

theorem at_assign (f : Bool → Bool) (hi : i < l.length) :
    at' (assign l start count f) i =
      if start ≤ i ∧ i < start + count then f (at' l i) else at' l i := by
  simp [at', assign, hi]

theorem window_eq (h : start + count ≤ l.length) :
    window l start count = (List.range' start count).map (at' l) := by
  refine List.ext_getElem ?_ ?_
  · simp only [window, List.length_take, List.length_drop, List.length_map, List.length_range']
    omega
  · intro j h1 h2
    simp only [List.length_map, List.length_range'] at h2
    have hj : start + j < l.length := by omega
    simp [window, at', hj]

/-- A window is a stretch of the function. -/
theorem all_window (h : start + count ≤ l.length) (v : Bool) :
    (window l start count).all (· == v) = stretch (at' l) start count v := by
  rw [window_eq h, stretch, List.all_map]
  rfl

theorem window_replicate (hc : 1 ≤ count) :
    window l i count = List.replicate count v ↔
      i + count ≤ l.length ∧ stretch (at' l) i count v = true := by
  constructor
  · intro h
    have hlen : (window l i count).length = count := by rw [h, List.length_replicate]
    simp only [window, List.length_take, List.length_drop] at hlen
    have hle : i + count ≤ l.length := by omega
    refine ⟨hle, ?_⟩
    rw [← all_window hle, h]
    simp
  · intro h
    obtain ⟨hle, hall⟩ := h
    rw [List.eq_replicate_iff]
    rw [← all_window hle, List.all_eq_true] at hall
    refine ⟨?_, fun b hb => eq_of_beq (hall b hb)⟩
    simp only [window, List.length_take, List.length_drop]
    omega

/-- The lowest window of the list is the one that the loop of `find` comes to first. -/
theorem lowest_eq (hc : 1 ≤ count) :
    lowest l start count v = Bitmap.lowestFit l.length start count v (at' l) := by
  have hwin : ∀ i, (decide (start ≤ i) && window l i count == List.replicate count v) = true ↔
      start ≤ i ∧ i + count ≤ l.length ∧ stretch (at' l) i count v = true := by
    intro i
    rw [Bool.and_eq_true, decide_eq_true_iff, beq_iff_eq, window_replicate hc]
  cases hfit : Bitmap.lowestFit l.length start count v (at' l) with
  | none =>
    rw [lowest, List.find?_eq_none]
    intro i _ hi
    obtain ⟨hs, hle, hall⟩ := (hwin i).mp hi
    rw [Bitmap.lowestFit_none hfit hs hle] at hall
    cases hall
  | some i =>
    obtain ⟨hs, hle, hall, hleast⟩ := Bitmap.lowestFit_some hfit
    rw [lowest, List.range_eq_range', List.find?_range'_eq_some]
    refine ⟨(hwin i).mpr ⟨hs, hle, hall⟩, ?_, fun j _ hji => ?_⟩
    · rw [List.mem_range'_1]
      omega
    · rw [Bool.not_eq_true']
      apply Bool.eq_false_iff.mpr
      intro hj
      obtain ⟨hjs, -, hjall⟩ := (hwin j).mp hj
      rw [hleast j hjs hji] at hjall
      cases hjall

end Bools

/-! ## One call -/

namespace Bitmap

open Bools

variable {b : Bitmap} {n : Nat} {l : List Bool}

theorem Shows.congr {used used' : Nat → Bool} (h : Shows b n used)
    (heq : ∀ i < n, used i = used' i) : Shows b n used' where
  count := h.count
  room := h.room
  bits i hi := heq i hi ▸ h.bits i hi

/-- The words of `b` are those of the list. -/
abbrev Holds (b : Bitmap) (l : List Bool) : Prop := Shows b l.length (at' l)

theorem Shows.assigned {used : Nat → Bool} {start count : Nat} {f : Bool → Bool}
    (h : Shows b l.length used)
    (heq : ∀ i < l.length, used i =
      if start ≤ i ∧ i < start + count then f (at' l i) else at' l i) :
    Holds b (assign l start count f) := by
  have hlen := length_assign l start count f
  refine Shows.congr (hlen.symm ▸ h) fun i hi => ?_
  rw [hlen] at hi
  rw [heq i hi, at_assign f hi]

theorem update_eq_ite (used : Nat → Bool) (i j : Nat) (v : Bool) :
    Function.update used i v j = if i ≤ j ∧ j < i + 1 then v else used j := by
  by_cases h : j = i
  · subst h
    rw [Function.update_self, if_pos (by omega)]
  · rw [Function.update_of_ne h, if_neg (by omega)]

/-- **One call** keeps bitmap and list together, and answers as the list does. -/
theorem Holds.call (h : Holds b l) {op : Op} (hop : op.InRange l.length) :
    ∃ b', op.call b = ok (b', (op.refer l).2) ∧ Holds b' (op.refer l).1 := by
  cases op with
  | set i v =>
    obtain ⟨b', hrun, hs⟩ := Shows.set h hop v
    refine ⟨b', ?_, hs.assigned fun j _ => update_eq_ite _ _ _ _⟩
    rw [Op.call, hrun, ok_bind]
    rfl
  | setMultiple start count v =>
    obtain ⟨b', hrun, hs⟩ := Shows.setMultiple h hop v
    refine ⟨b', ?_, hs.assigned fun j _ => rfl⟩
    rw [Op.call, hrun, ok_bind]
    rfl
  | flip i =>
    obtain ⟨b', hrun, hs⟩ := Shows.flip h hop
    refine ⟨b', ?_, hs.assigned fun j _ => ?_⟩
    · rw [Op.call, hrun, ok_bind]
      rfl
    · rw [update_eq_ite]
      by_cases hj : i ≤ j ∧ j < i + 1
      · have hji : j = i := by omega
        rw [if_pos hj, if_pos hj, hji]
      · rw [if_neg hj, if_neg hj]
  | findAndFlip start count v =>
    obtain ⟨hc, hcn⟩ := hop
    have hflip := Shows.findAndFlip h hc (Nat.le_succ_of_le hcn) start v
    rw [← lowest_eq hc] at hflip
    rw [Op.call, Op.refer]
    cases hfit : lowest l start count v with
    | none =>
      rw [hfit] at hflip
      exact ⟨b, hflip, h⟩
    | some i =>
      rw [hfit] at hflip
      obtain ⟨b', hrun, hs⟩ := hflip
      refine ⟨b', hrun, hs.assigned fun j _ => ?_⟩
      -- in the window every bit is `v`
      rw [lowest_eq hc] at hfit
      obtain ⟨-, -, hall, -⟩ := lowestFit_some hfit
      rw [paint]
      by_cases hj : i ≤ j ∧ j < i + count
      · rw [if_pos hj, if_pos hj, stretch_eq_true_iff.mp hall j hj.1 hj.2]
      · rw [if_neg hj, if_neg hj]

theorem Op.length_refer (l : List Bool) (op : Op) : (op.refer l).1.length = l.length := by
  cases op with
  | set i v => exact length_assign _ _ _ _
  | setMultiple start count v => exact length_assign _ _ _ _
  | flip i => exact length_assign _ _ _ _
  | findAndFlip start count v =>
    rw [Op.refer]
    cases lowest l start count v with
    | none => rfl
    | some i => exact length_assign _ _ _ _

/-! ## A sequence of calls -/

theorem length_refers (ops : List Op) : ∀ l, (refers l ops).1.length = l.length := by
  induction ops with
  | nil => exact fun _ => rfl
  | cons op ops ih => exact fun l => (ih _).trans (op.length_refer l)

/-- The sequence runs, as each call does. -/
theorem Holds.calls (ops : List Op) : ∀ {b : Bitmap} {l : List Bool}, Holds b l →
    (∀ op ∈ ops, op.InRange l.length) →
    ∃ b', b.calls ops = ok (b', (refers l ops).2) ∧ Holds b' (refers l ops).1 := by
  induction ops with
  | nil => exact fun {b l} h _ => ⟨b, rfl, h⟩
  | cons op ops ih =>
    intro b l h hops
    obtain ⟨b₁, hrun₁, h₁⟩ := Holds.call h (hops op (List.mem_cons_self ..))
    have hrest : ∀ op' ∈ ops, op'.InRange (op.refer l).1.length := by
      intro op' hop'
      rw [op.length_refer l]
      exact hops op' (List.mem_cons_of_mem _ hop')
    obtain ⟨b₂, hrun₂, h₂⟩ := ih h₁ hrest
    refine ⟨b₂, ?_, h₂⟩
    rw [Bitmap.calls, hrun₁, ok_bind]
    simp only [hrun₂, ok_bind]
    rfl

/-! ## How it is made -/

theorem holds_new (n : Nat) : Holds (new n) (List.replicate n false) := by
  have hshows := shows_new n
  rw [← List.length_replicate (n := n) (a := false)] at hshows
  refine Shows.congr (by simpa using hshows) fun i hi => ?_
  rw [List.length_replicate] at hi
  simp [at', hi]

/-- The loop of `from` is at index `k`: the elements before it have been copied. -/
theorem fromBools_loop (rest : List Bool) : ∀ {b : Bitmap} {n k : Nat} {used : Nat → Bool},
    Shows b n used → k + rest.length = n →
    ∃ b', (rest.zipIdx k).foldlM (fun b e => b.set e.2 e.1) b = ok b' ∧
      Shows b' n fun i => if i < k then used i else at' rest (i - k) := by
  induction rest with
  | nil =>
    intro b n k used h hn
    refine ⟨b, rfl, h.congr fun i hi => ?_⟩
    rw [List.length_nil] at hn
    rw [if_pos (by omega)]
  | cons x rest ih =>
    intro b n k used h hn
    rw [List.length_cons] at hn
    obtain ⟨b₁, hrun₁, h₁⟩ := h.set (show k < n by omega) x
    obtain ⟨b₂, hrun₂, h₂⟩ := ih h₁ (show k + 1 + rest.length = n by omega)
    refine ⟨b₂, ?_, h₂.congr fun i hi => ?_⟩
    · rw [List.zipIdx_cons, List.foldlM_cons, hrun₁, ok_bind]
      exact hrun₂
    · rcases Nat.lt_trichotomy i k with hik | hik | hik
      · rw [if_pos (by omega), if_pos hik, Function.update_of_ne (by omega)]
      · subst hik
        rw [if_pos (by omega), if_neg (by omega), Function.update_self, Nat.sub_self]
        rfl
      · rw [if_neg (by omega), if_neg (by omega)]
        obtain ⟨m, hm⟩ : ∃ m, i - k = m + 1 := ⟨i - k - 1, by omega⟩
        rw [hm, show i - (k + 1) = m by omega]
        rfl

theorem Start.holds (s : Start) : ∃ b, s.bitmap = ok b ∧ Holds b s.bools := by
  cases s with
  | new n => exact ⟨Bitmap.new n, rfl, holds_new n⟩
  | fromBools value =>
    obtain ⟨b, hrun, h⟩ := fromBools_loop value (shows_new value.length) (Nat.zero_add _)
    refine ⟨b, hrun, h.congr fun i _ => ?_⟩
    rw [if_neg (Nat.not_lt_zero i)]
    rfl

/-- A bitmap that is made and called within its range. -/
theorem made_holds (s : Start) {ops : List Op} (hops : ∀ op ∈ ops, op.InRange s.bools.length) :
    ∃ b, made s ops = ok (b, (refers s.bools ops).2) ∧ Holds b (refers s.bools ops).1 := by
  obtain ⟨b₀, hmade, h₀⟩ := s.holds
  obtain ⟨b, hrun, h⟩ := Holds.calls ops h₀ hops
  refine ⟨b, ?_, h⟩
  rw [made, hmade, ok_bind, hrun]

/-! ## What is read -/

theorem at_eq {i : Nat} (h : i < l.length) : at' l i = l[i] := by
  simp [at', h]

theorem Holds.reads (h : Holds b l) : Reads b l where
  len := h.count
  get i hi := by
    rw [← at_eq hi]
    exact h.bits i hi
  full start count hle := by
    rw [all_window hle]
    exact Shows.all h hle true
  empty start count hle := by
    rw [all_window hle]
    exact Shows.all h hle false

/-- `==` compares what is read. -/
theorem Reads.eq_iff {b' : Bitmap} {l' : List Bool} (h : Reads b l) (h' : Reads b' l') :
    b.eq b' = ok (decide (l = l')) := by
  rw [Bitmap.eq, h.len, h'.len]
  by_cases hlen : l.length = l'.length
  · rw [if_pos hlen]
    have hall : (List.range l.length).allM (fun i => do
        let x ← b.get i
        let y ← b'.get i
        pure (x == y)) =
        ok ((List.range l.length).all fun i => at' l i == at' l' i) := by
      refine allM_eq_ok fun i hi => ?_
      rw [List.mem_range] at hi
      have hi' : i < l'.length := hlen ▸ hi
      rw [h.get i hi, ok_bind, h'.get i hi', ok_bind, at_eq hi, at_eq hi']
      rfl
    rw [hall]
    congr 1
    rw [Bool.eq_iff_iff, List.all_eq_true, decide_eq_true_iff]
    constructor
    · intro heq
      refine List.ext_getElem hlen fun i h1 h2 => ?_
      have hbit := heq i (List.mem_range.mpr h1)
      rw [at_eq h1, at_eq h2] at hbit
      exact eq_of_beq hbit
    · rintro rfl i _
      exact beq_self_eq_true _
  · rw [if_neg hlen, decide_eq_false fun heq => hlen (congrArg List.length heq)]
    rfl

/-- **A bitmap is a vector of booleans.** However it is made and whatever is called on it within its
range, it answers as the reference does and reads as the reference reads, and `==` of two of them
is equality of their references. -/
theorem bitmap_refines (s : Start) (ops : List Op) (hops : ∀ op ∈ ops, op.InRange s.bools.length) :
    ∃ b, made s ops = ok (b, (refers s.bools ops).2) ∧ Reads b (refers s.bools ops).1 ∧
      (refers s.bools ops).1.length = s.bools.length ∧
      ∀ s' ops', (∀ op ∈ ops', Op.InRange s'.bools.length op) →
        ∃ b', made s' ops' = ok (b', (refers s'.bools ops').2) ∧
          b.eq b' = ok (decide ((refers s.bools ops).1 = (refers s'.bools ops').1)) := by
  obtain ⟨b, hrun, h⟩ := made_holds s hops
  refine ⟨b, hrun, h.reads, length_refers ops s.bools, fun s' ops' hops' => ?_⟩
  obtain ⟨b', hrun', h'⟩ := made_holds s' hops'
  exact ⟨b', hrun', h.reads.eq_iff h'.reads⟩

/-- The bits from 62 to 65 of 70 are set, across two words; then the lowest two of them that are
next to each other from 63 on are flipped back. -/
theorem bitmap_refines_across :
    ∃ b, made (.new 70) [.setMultiple 62 4 true, .findAndFlip 63 2 true] =
        ok (b, [none, some 63]) ∧
      b.get 62 = ok true ∧ b.get 63 = ok false ∧ b.get 64 = ok false ∧ b.get 65 = ok true := by
  obtain ⟨b, hrun, hreads, -⟩ := bitmap_refines (.new 70)
    [.setMultiple 62 4 true, .findAndFlip 63 2 true] (by decide)
  exact ⟨b, hrun, hreads.get 62 (by decide), hreads.get 63 (by decide), hreads.get 64 (by decide),
    hreads.get 65 (by decide)⟩

end Bitmap
end Allora
