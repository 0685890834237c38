import Mathlib.Data.List.DropRight
import Mathlib.Tactic.Common

/-!
# Text as bytes

`bytes` are the UTF-8 bytes of a text, `fromUtf8` reads them back. A reader that is given the first
`n` bytes of a text finds a text there exactly if byte `n` is the boundary of two characters
(`fromUtf8_take`), and then it is the longest beginning of the text that fits.
-/

set_option autoImplicit false

namespace Allora
namespace Text

/-- The bytes of a text. -/
def bytes (s : String) : List UInt8 := s.toByteArray.data.toList

/-- The text of these bytes, if they are one. -/
def fromUtf8 (b : List UInt8) : Option String := String.fromUTF8? b.toByteArray

/-- `c` is dropped from the end. -/
def trimEnd (s : String) (c : Char) : String := String.ofList (s.toList.rdropWhile (· = c))

/-- `c`, `k` times. -/
def pad (c : Char) (k : Nat) : String := String.ofList (List.replicate k c)

variable {s t d : String} {c : Char} {n : Nat}

@[simp] theorem length_bytes (s : String) : (bytes s).length = s.utf8ByteSize := rfl

@[simp] theorem bytes_append (s t : String) : bytes (s ++ t) = bytes s ++ bytes t := by
  simp [bytes]

theorem toByteArray_bytes (s : String) : (bytes s).toByteArray = s.toByteArray := by
  refine ByteArray.ext ?_
  rw [List.data_toByteArray, bytes]

theorem fromUtf8_bytes (s : String) : fromUtf8 (bytes s) = some s := by
  rw [fromUtf8, toByteArray_bytes, String.fromUTF8?, dif_pos s.isValidUTF8]
  rfl

/-- What is read has these bytes. -/
theorem bytes_of_fromUtf8 {b : List UInt8} (h : fromUtf8 b = some s) : bytes s = b := by
  rw [fromUtf8, String.fromUTF8?] at h
  by_cases hb : b.toByteArray.IsValidUTF8
  · rw [dif_pos hb] at h
    cases h
    show b.toByteArray.data.toList = b
    exact List.toList_data_toByteArray
  · rw [dif_neg hb] at h
    cases h

/-! ## Beginnings -/

/-- Byte `n` of the text is a boundary of characters. -/
def Boundary (d : String) (n : Nat) : Prop := ∃ s t, d = s ++ t ∧ s.utf8ByteSize = n

theorem take_bytes (s t : String) : (bytes (s ++ t)).take s.utf8ByteSize = bytes s := by
  rw [bytes_append, ← length_bytes, List.take_left]

/-- **The first `n` bytes of a text are a text exactly if byte `n` is a boundary.** -/
theorem fromUtf8_take (h : n ≤ d.utf8ByteSize) :
    (∃ s, fromUtf8 ((bytes d).take n) = some s) ↔ Boundary d n := by
  constructor
  · intro hread
    obtain ⟨s, hs⟩ := hread
    have hbytes := bytes_of_fromUtf8 hs
    have hextract : d.toByteArray.extract 0 n = s.toByteArray := by
      rw [← toByteArray_bytes s, hbytes]
      refine ByteArray.ext ?_
      rw [List.data_toByteArray, ByteArray.data_extract, ← Array.toList_inj, Array.toList_extract]
      simp [bytes, List.extract_eq_take_drop]
    have hvalid : String.Pos.Raw.IsValid d ⟨n⟩ := by
      rw [String.Pos.Raw.isValid_iff_isValidUTF8_extract_zero]
      refine ⟨h, ?_⟩
      show (d.toByteArray.extract 0 n).IsValidUTF8
      rw [hextract]
      exact s.isValidUTF8
    obtain ⟨s₁, s₂, heq, hpos⟩ := String.Pos.Raw.isValid_iff_exists_append.mp hvalid
    exact ⟨s₁, s₂, heq, (congrArg String.Pos.Raw.byteIdx hpos).symm⟩
  · intro hb
    obtain ⟨s, t, rfl, rfl⟩ := hb
    exact ⟨s, by rw [take_bytes, fromUtf8_bytes]⟩

/-- `s` is a beginning of `d`. -/
def IsPrefix (s d : String) : Prop := ∃ t, d = s ++ t

/-- `s` is the longest beginning of `d` that fits in `n` bytes. -/
structure LongestPrefix (d : String) (n : Nat) (s : String) : Prop where
  isPrefix : IsPrefix s d
  fits : s.utf8ByteSize ≤ n
  longest : ∀ s', IsPrefix s' d → s'.utf8ByteSize ≤ n → IsPrefix s' s

/-- Of two beginnings of a text one is a beginning of the other. -/
theorem IsPrefix.total {s' : String} (h : IsPrefix s d) (h' : IsPrefix s' d) :
    IsPrefix s s' ∨ IsPrefix s' s := by
  obtain ⟨t, rfl⟩ := h
  obtain ⟨t', heq⟩ := h'
  rw [← String.toList_inj, String.toList_append, String.toList_append,
    List.append_eq_append_iff] at heq
  rcases heq with ⟨u, hu, -⟩ | ⟨u, hu, -⟩
  · refine Or.inl ⟨String.ofList u, ?_⟩
    rw [← String.toList_inj, String.toList_append, String.toList_ofList, hu]
  · refine Or.inr ⟨String.ofList u, ?_⟩
    rw [← String.toList_inj, String.toList_append, String.toList_ofList, hu]

theorem longestPrefix_self (h : d.utf8ByteSize ≤ n) : LongestPrefix d n d where
  isPrefix := ⟨"", String.append_empty.symm⟩
  fits := h
  longest _ h' _ := h'

/-- A beginning that ends at the last byte is the longest. -/
theorem longestPrefix_append (s t : String) : LongestPrefix (s ++ t) s.utf8ByteSize s where
  isPrefix := ⟨t, rfl⟩
  fits := Nat.le_refl _
  longest s' hs' hfits := by
    have hs : IsPrefix s (s ++ t) := ⟨t, rfl⟩
    rcases hs.total hs' with hlong | hshort
    · obtain ⟨u, rfl⟩ := hlong
      rw [String.utf8ByteSize_append] at hfits
      have hu : u = "" := String.utf8ByteSize_eq_zero_iff.mp (by omega)
      refine ⟨"", ?_⟩
      rw [hu, String.append_empty, String.append_empty]
    · exact hshort

/-! ## Padding -/

theorem bytes_pad_nul (k : Nat) : bytes (pad (Char.ofNat 0) k) = List.replicate k 0 := by
  rw [bytes, pad, String.toByteArray_ofList, List.utf8Encode, List.toList_data_toByteArray]
  induction k with
  | zero => rfl
  | succ k ih =>
    rw [List.replicate_succ, List.flatMap_cons, ih, List.replicate_succ]
    rfl

/-- Padding goes, and nothing else where the text does not hold `c`. -/
theorem trimEnd_pad (h : c ∉ d.toList) (k : Nat) : trimEnd (d ++ pad c k) c = d := by
  have hself : d.toList.rdropWhile (· = c) = d.toList := by
    rw [List.rdropWhile_eq_self_iff]
    intro hl hlast
    exact h (of_decide_eq_true hlast ▸ List.getLast_mem hl)
  have hdrop : (d.toList ++ List.replicate k c).rdropWhile (· = c) = d.toList := by
    induction k with
    | zero => rw [List.replicate_zero, List.append_nil, hself]
    | succ k ih =>
      rw [List.replicate_succ', ← List.append_assoc, List.rdropWhile_concat_pos _ _ _ (by simp), ih]
  rw [trimEnd, String.toList_append, pad, String.toList_ofList, hdrop, String.ofList_toList]

theorem trimEnd_self (h : c ∉ d.toList) : trimEnd d c = d := by
  have hpad := trimEnd_pad h 0
  rwa [show pad c 0 = "" from rfl, String.append_empty] at hpad

end Text
end Allora
