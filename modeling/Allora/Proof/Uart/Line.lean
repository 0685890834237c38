import Allora.Uart

/-!
# What is typed is what is read

`typedLine` is the line editor that `read_line` should be: a byte is added at the end or the last
one taken away, until the line is ended or full. The two counters of the source follow it as long as
no byte is erased from an empty line. There `max_len` goes up although `count` cannot go down, and
from then on the buffer is taken for longer than it is.
-/

set_option autoImplicit false

namespace Allora
namespace Uart

open Outcome

/-! ## The editor -/

/-- The line after one more byte. -/
def typeKey (line : List UInt8) (cur : UInt8) : List UInt8 :=
  if erases cur then line.dropLast else line ++ [cur]

/-- The line, and the input after it; `none` as long as more has to be typed. -/
def typedLine (n : Nat) : List UInt8 → List UInt8 → Option (List UInt8 × List UInt8)
  | line, [] => if line.length < n then none else some (line, [])
  | line, cur :: input =>
    if line.length < n then
      if endsLine cur then some (line, input) else typedLine n (typeKey line cur) input
    else
      some (line, cur :: input)

/-- No byte is erased from an empty line before the line is ended or full. -/
def NoEmptyErase (n : Nat) : List UInt8 → List UInt8 → Prop
  | _, [] => True
  | line, cur :: input => line.length < n → endsLine cur = false →
      (erases cur = true → line ≠ []) ∧ NoEmptyErase n (typeKey line cur) input

/-! ## The property -/

/-- The states in which the loop tests `max_len`. -/
inductive Reaches (echo : Bool) : List UInt8 → ReadLine → ReadLine → Prop
  | here (input : List UInt8) (s : ReadLine) : Reaches echo input s s
  | turn {cur : UInt8} {input : List UInt8} {s s' s'' : ReadLine} (more : s.maxLen > 0)
      (goes : endsLine cur = false) (key : s.key echo cur = ok s')
      (rest : Reaches echo input s' s'') : Reaches echo (cur :: input) s s''

/-- The counters always make up the length of the buffer, and the line that is typed is returned,
with the input after it left; nothing panics. -/
def ReadsTyped (u : Uart) (buf : List UInt8) (echo : Bool) : Prop :=
  (∀ s, Reaches echo u.input ⟨buf, buf.length, 0, u.output⟩ s → s.count + s.maxLen = buf.length) ∧
  match typedLine buf.length [] u.input with
  | none => u.readLine buf echo = timeout
  | some (line, rest) => ∃ output buf', u.readLine buf echo = ok (⟨rest, output⟩, buf', line)

/-! ## The invariant -/

/-- The buffer holds the line, and the counters are right. -/
structure Holds (n : Nat) (line : List UInt8) (s : ReadLine) : Prop where
  length : s.buf.length = n
  count : s.count = line.length
  total : s.count + s.maxLen = n
  line : s.buf.take s.count = line

variable {echo : Bool} {n : Nat} {line input : List UInt8} {s : ReadLine} {cur : UInt8}

theorem holds_init (buf output : List UInt8) : Holds buf.length [] ⟨buf, buf.length, 0, output⟩ :=
  ⟨rfl, rfl, Nat.zero_add _, List.take_zero⟩

theorem Holds.maxLen_pos_iff (h : Holds n line s) : s.maxLen > 0 ↔ line.length < n := by
  have hc := h.count
  have ht := h.total
  omega

theorem key_erase (hcur : erases cur = true) :
    s.key echo cur = ok { s with
      output := if echo && s.count > 0 then s.output ++ [0x08, 0x20, 0x08] else s.output
      count := (checkedSub s.count 1).getD 0
      maxLen := (checkedAdd s.maxLen 1).getD 0 } := by
  rw [ReadLine.key, if_pos hcur]

theorem key_append (hcur : erases cur = false) (hlt : s.count < s.buf.length)
    (hlen : s.buf.length < 2 ^ 64) (hmax : 0 < s.maxLen) :
    s.key echo cur = ok ⟨s.buf.set s.count cur, s.maxLen - 1, s.count + 1,
      if echo then s.output ++ [cur] else s.output⟩ := by
  have hstore : store s.buf s.count cur = ok (s.buf.set s.count cur) := if_pos hlt
  have hadd : addChecked 64 s.count 1 = ok (s.count + 1) := if_pos (by omega)
  have hsub : subChecked s.maxLen 1 = ok (s.maxLen - 1) := if_pos (by omega)
  rw [ReadLine.key, if_neg (by simp [hcur]), hstore, ok_bind, hadd, ok_bind, hsub, ok_bind]
  rfl

/-- An erased byte, of a line that has one. -/
theorem Holds.erase (h : Holds n line s) (hn : n < 2 ^ 64) (hcur : erases cur = true)
    (hne : line ≠ []) : ∃ s', s.key echo cur = ok s' ∧ Holds n line.dropLast s' := by
  have hpos : 0 < line.length := List.length_pos_iff.mpr hne
  have hc := h.count
  have ht := h.total
  have hsub : (checkedSub s.count 1).getD 0 = s.count - 1 := by
    rw [checkedSub, if_pos (by omega), Option.getD_some]
  have hadd : (checkedAdd s.maxLen 1).getD 0 = s.maxLen + 1 := by
    rw [checkedAdd, if_pos (by omega), Option.getD_some]
  have hkey : s.key echo cur = _ := key_erase hcur
  rw [hsub, hadd] at hkey
  refine ⟨_, hkey, h.length, ?_, ?_, ?_⟩
  · rw [List.length_dropLast, hc]
  · show s.count - 1 + (s.maxLen + 1) = n
    omega
  · show s.buf.take (s.count - 1) = line.dropLast
    rw [← h.line, List.dropLast_eq_take, List.take_take, List.length_take, h.length]
    congr 1
    omega

/-- An ordinary byte, while there is room. -/
theorem Holds.append (h : Holds n line s) (hn : n < 2 ^ 64) (hcur : erases cur = false)
    (hroom : line.length < n) : ∃ s', s.key echo cur = ok s' ∧ Holds n (line ++ [cur]) s' := by
  have hc := h.count
  have ht := h.total
  have hlen := h.length
  have hlt : s.count < s.buf.length := by omega
  refine ⟨_, key_append hcur hlt (by omega) (by omega), ?_, ?_, ?_, ?_⟩
  · show (s.buf.set s.count cur).length = n
    rw [List.length_set, hlen]
  · show s.count + 1 = (line ++ [cur]).length
    rw [List.length_append, List.length_singleton, hc]
  · show s.count + 1 + (s.maxLen - 1) = n
    omega
  · show (s.buf.set s.count cur).take (s.count + 1) = line ++ [cur]
    rw [List.take_succ_eq_append_getElem (by rwa [List.length_set]), List.getElem_set_self,
      List.take_set_of_le (Nat.le_refl _), h.line]

/-- **One byte**: the loop follows the editor. -/
theorem Holds.key (h : Holds n line s) (hn : n < 2 ^ 64) (hroom : line.length < n)
    (hne : erases cur = true → line ≠ []) :
    ∃ s', s.key echo cur = ok s' ∧ Holds n (typeKey line cur) s' := by
  cases hcur : erases cur with
  | true =>
    rw [typeKey, if_pos hcur]
    exact h.erase hn hcur (hne hcur)
  | false =>
    rw [typeKey, if_neg (by simp [hcur])]
    exact h.append hn hcur hroom

/-- An erase on an empty line puts the counters out of step. -/
theorem Holds.empty_erase (h : Holds n [] s) (hroom : 0 < n) (hcur : erases cur = true) :
    ∃ s', s.key echo cur = ok s' ∧ s'.count + s'.maxLen ≠ n := by
  have hc : s.count = 0 := h.count
  have ht := h.total
  refine ⟨_, key_erase hcur, ?_⟩
  show (checkedSub s.count 1).getD 0 + (checkedAdd s.maxLen 1).getD 0 ≠ n
  have hsub : (checkedSub s.count 1).getD 0 = 0 := by
    rw [hc]
    rfl
  rw [hsub, checkedAdd]
  split
  · rw [Option.getD_some]
    omega
  · exact Nat.ne_of_lt hroom

/-! ## The whole loop -/

/-- **The loop reads what is typed**, by induction on the input. -/
theorem readLineLoop_typed (echo : Bool) (hn : n < 2 ^ 64) :
    ∀ (input : List UInt8) {line : List UInt8} {s : ReadLine}, Holds n line s →
      NoEmptyErase n line input →
      match typedLine n line input with
      | none => readLineLoop echo input s = timeout
      | some (line', rest) => ∃ s', readLineLoop echo input s = ok (s', rest) ∧ Holds n line' s' := by
  intro input
  induction input with
  | nil =>
    intro line s h _
    rw [readLineLoop, typedLine]
    by_cases hroom : line.length < n
    · rw [if_pos hroom, if_pos (h.maxLen_pos_iff.mpr hroom)]
    · rw [if_neg hroom, if_neg (fun hpos => hroom (h.maxLen_pos_iff.mp hpos))]
      exact ⟨s, rfl, h⟩
  | cons cur input ih =>
    intro line s h hno
    rw [readLineLoop, typedLine]
    by_cases hroom : line.length < n
    · rw [if_pos hroom, if_pos (h.maxLen_pos_iff.mpr hroom)]
      cases hend : endsLine cur with
      | true => exact ⟨s, rfl, h⟩
      | false =>
        obtain ⟨hne, hrest⟩ := hno hroom hend
        obtain ⟨s', hkey, h'⟩ : ∃ s', s.key echo cur = ok s' ∧ _ := h.key hn hroom hne
        simp only [Bool.false_eq_true, if_false, hkey, ok_bind]
        exact ih h' hrest
    · rw [if_neg hroom, if_neg (fun hpos => hroom (h.maxLen_pos_iff.mp hpos))]
      exact ⟨s, rfl, h⟩

/-- The counters are right in every state of the loop. -/
theorem reaches_total {s'' : ReadLine} (hn : n < 2 ^ 64) (hreach : Reaches echo input s s'') :
    ∀ {line : List UInt8}, Holds n line s → NoEmptyErase n line input →
      s''.count + s''.maxLen = n := by
  induction hreach with
  | here input s => exact fun h _ => h.total
  | turn more goes key _ ih =>
    intro line h hno
    have hroom := h.maxLen_pos_iff.mp more
    obtain ⟨hne, hrest⟩ := hno hroom goes
    obtain ⟨s', hkey, h'⟩ := h.key hn hroom hne
    cases Outcome.ok.inj (key.symm.trans hkey)
    exact ih h' hrest

/-- And in some state they are wrong, if a byte is erased from an empty line. -/
theorem reaches_wrong (hn : n < 2 ^ 64) :
    ∀ (input : List UInt8) {line : List UInt8} {s : ReadLine}, Holds n line s →
      ¬ NoEmptyErase n line input →
      ∃ s', Reaches echo input s s' ∧ s'.count + s'.maxLen ≠ n := by
  intro input
  induction input with
  | nil => exact fun _ hno => absurd trivial hno
  | cons cur input ih =>
    intro line s h hno
    simp only [NoEmptyErase, not_forall] at hno
    obtain ⟨hroom, hend, hno⟩ := hno
    have hmore := h.maxLen_pos_iff.mpr hroom
    by_cases hne : erases cur = true → line ≠ []
    · obtain ⟨s', hkey, h'⟩ := h.key hn hroom hne
      obtain ⟨s'', hreach, hwrong⟩ := ih h' fun hrest => hno ⟨hne, hrest⟩
      exact ⟨s'', .turn hmore hend hkey hreach, hwrong⟩
    · simp only [not_forall, not_not] at hne
      obtain ⟨hcur, rfl⟩ := hne
      obtain ⟨s', hkey, hwrong⟩ := h.empty_erase hroom hcur
      exact ⟨s', .turn hmore hend hkey (.here input s'), hwrong⟩

/-- **A line is read as it is typed exactly when no byte is erased from an empty line**, for every
buffer and every input, with echo or without. -/
theorem readLine_typed_iff (u : Uart) (buf : List UInt8) (hbuf : buf.length < 2 ^ 64)
    (echo : Bool) : ReadsTyped u buf echo ↔ NoEmptyErase buf.length [] u.input := by
  have hinit := holds_init buf u.output
  constructor
  · rintro ⟨htotal, -⟩
    by_contra hno
    obtain ⟨s, hreach, hwrong⟩ := reaches_wrong hbuf u.input hinit hno
    exact hwrong (htotal s hreach)
  · intro hno
    refine ⟨fun s hreach => reaches_total hbuf hreach hinit hno, ?_⟩
    have hloop := readLineLoop_typed echo hbuf u.input hinit hno
    cases htyped : typedLine buf.length [] u.input with
    | none =>
      rw [htyped] at hloop
      simp only at hloop ⊢
      rw [readLine, hloop]
      rfl
    | some r =>
      obtain ⟨line, rest⟩ := r
      rw [htyped] at hloop
      obtain ⟨s, hrun, h⟩ := hloop
      have hc := h.total
      have hslice : s.count ≤ s.buf.length := by
        rw [h.length]
        omega
      refine ⟨if echo then s.output ++ [0x0a] else s.output, s.buf, ?_⟩
      rw [readLine, hrun, ok_bind]
      simp only [if_pos hslice, h.line]

/-- `ab`, delete, `c`, return. -/
theorem readLine_typed_iff_edited :
    ReadsTyped ⟨[97, 98, 0x7f, 99, 0x0d], []⟩ [0, 0, 0, 0] true :=
  (readLine_typed_iff _ _ (by decide) true).mpr
    (by simp [NoEmptyErase, typeKey, erases, endsLine])

/-- Backspace, `a`, `b`, `c`, into two bytes. -/
theorem backspace_then_three_panics :
    readLine ⟨[0x08, 97, 98, 99], []⟩ [0, 0] false = .panic "index out of bounds" ∧
      typedLine 2 [] [0x08, 97, 98, 99] = some ([97, 98], [99]) :=
  ⟨rfl, rfl⟩

/-- A full buffer that is taken for one longer. -/
theorem loop_past_end {c : UInt8} {rest : List UInt8} (hc : erases c = false)
    (hce : endsLine c = false) :
    ∀ (keys : List UInt8) {s : ReadLine}, (∀ k ∈ keys, erases k = false ∧ endsLine k = false) →
      s.buf.length < 2 ^ 64 → s.count + keys.length = s.buf.length → s.maxLen = keys.length + 1 →
      readLineLoop echo (keys ++ c :: rest) s = .panic "index out of bounds" := by
  intro keys
  induction keys with
  | nil =>
    intro s _ _ hfull hmax
    rw [List.length_nil] at hfull hmax
    have hstore : store s.buf s.count c = .panic "index out of bounds" := if_neg (by omega)
    have hkey : s.key echo c = .panic "index out of bounds" := by
      rw [ReadLine.key, if_neg (by simp [hc]), hstore, panic_bind]
    rw [List.nil_append, readLineLoop, if_pos (by omega), if_neg (by simp [hce]), hkey, panic_bind]
  | cons k keys ih =>
    intro s hkeys hlen hfull hmax
    obtain ⟨hk, hke⟩ := hkeys k List.mem_cons_self
    rw [List.length_cons] at hfull hmax
    rw [List.cons_append, readLineLoop, if_pos (by omega), if_neg (by simp [hke]),
      key_append hk (by omega) hlen (by omega), ok_bind]
    refine ih (fun k' hk' => hkeys k' (List.mem_cons_of_mem _ hk')) ?_ ?_ ?_
    · simpa using hlen
    · simp only [List.length_set]
      omega
    · show s.maxLen - 1 = keys.length + 1
      omega

/-- **One erase on the empty line, and one byte more than there is room for**: the index is out of
bounds, for every buffer that is not empty. -/
theorem readLine_past_end {erase c : UInt8} {buf keys rest output : List UInt8}
    (herase : erases erase = true) (hc : erases c = false ∧ endsLine c = false)
    (hkeys : ∀ k ∈ keys, erases k = false ∧ endsLine k = false) (hpos : 0 < buf.length)
    (hbuf : buf.length + 1 < 2 ^ 64) (hfull : keys.length = buf.length) (echo : Bool) :
    readLine ⟨erase :: (keys ++ c :: rest), output⟩ buf echo = .panic "index out of bounds" := by
  have hne : endsLine erase = false := by
    rcases Bool.or_eq_true _ _ |>.mp herase with h | h
    · rw [eq_of_beq h]
      rfl
    · rw [eq_of_beq h]
      rfl
  have hadd : (checkedAdd buf.length 1).getD 0 = buf.length + 1 := by
    rw [checkedAdd, if_pos hbuf, Option.getD_some]
  rw [readLine, readLineLoop, if_pos hpos, if_neg (by simp [hne]), key_erase herase, ok_bind,
    loop_past_end hc.1 hc.2 keys hkeys, panic_bind]
  · exact Nat.lt_of_succ_lt hbuf
  · show (checkedSub 0 1).getD 0 + keys.length = buf.length
    rw [hfull]
    exact Nat.zero_add _
  · show (checkedAdd buf.length 1).getD 0 = keys.length + 1
    rw [hadd, hfull]

end Uart
end Allora
