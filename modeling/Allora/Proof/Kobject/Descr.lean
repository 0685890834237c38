import Allora.Kobject

/-!
# The description of a kernel object

`_kobject_create` keeps the first 32 bytes of a description, wherever they end, and `descr` unwraps
their decoding. It panics for a text whose byte 32 is inside a character, and for no other.
-/

set_option autoImplicit false

namespace Allora

open Outcome Text

/-- What `descr` answers for an object that was created with the description `d`: the longest
beginning of it that fits, all of it if it does. -/
def DescrReads (kind : KObjectKind) (pageId size : Nat) (d : String) : Prop :=
  ∃ s, (kobjectCreate kind pageId size (bytes d)).descrStr = ok s ∧
    LongestPrefix d KOBJ_DESCR_LEN s ∧ (d.utf8ByteSize ≤ KOBJ_DESCR_LEN → s = d)

variable {d : String}

theorem descrBuf_short (h : d.utf8ByteSize ≤ KOBJ_DESCR_LEN) :
    descrBuf (bytes d) = bytes (d ++ pad (Char.ofNat 0) (KOBJ_DESCR_LEN - d.utf8ByteSize)) := by
  rw [descrBuf, bytes_append, bytes_pad_nul, length_bytes,
    List.take_of_length_le (by rwa [length_bytes])]

theorem descrBuf_long (h : KOBJ_DESCR_LEN ≤ d.utf8ByteSize) :
    descrBuf (bytes d) = (bytes d).take KOBJ_DESCR_LEN := by
  rw [descrBuf, length_bytes, Nat.sub_eq_zero_of_le h, List.replicate_zero, List.append_nil]

theorem descrStr_eq (kind : KObjectKind) (pageId size : Nat) (d : String) :
    (kobjectCreate kind pageId size (bytes d)).descrStr =
      match fromUtf8 (descrBuf (bytes d)) with
      | some s => ok (trimEnd s (Char.ofNat 0))
      | none => .panic "called `Result::unwrap()` on an `Err` value: Utf8Error" := rfl

theorem descrReads_of_short (kind : KObjectKind) (pageId size : Nat)
    (hnul : Char.ofNat 0 ∉ d.toList) (h : d.utf8ByteSize ≤ KOBJ_DESCR_LEN) :
    DescrReads kind pageId size d := by
  refine ⟨d, ?_, longestPrefix_self h, fun _ => rfl⟩
  rw [descrStr_eq, descrBuf_short h, fromUtf8_bytes]
  exact congrArg ok (trimEnd_pad hnul _)

theorem descrReads_of_boundary (kind : KObjectKind) (pageId size : Nat)
    (hnul : Char.ofNat 0 ∉ d.toList) (h : Boundary d KOBJ_DESCR_LEN) :
    DescrReads kind pageId size d := by
  obtain ⟨s, t, rfl, hs⟩ := h
  rw [String.toList_append, List.mem_append, not_or] at hnul
  have hlong : KOBJ_DESCR_LEN ≤ (s ++ t).utf8ByteSize := by
    rw [String.utf8ByteSize_append, hs]
    exact Nat.le_add_right ..
  refine ⟨s, ?_, hs ▸ longestPrefix_append s t, fun hshort => ?_⟩
  · rw [descrStr_eq, descrBuf_long hlong, ← hs, take_bytes, fromUtf8_bytes]
    exact congrArg ok (trimEnd_self hnul.1)
  · -- nothing comes after the boundary
    rw [String.utf8ByteSize_append] at hshort
    have ht : t = "" := String.utf8ByteSize_eq_zero_iff.mp (by omega)
    rw [ht, String.append_empty]

/-- Inside a character the bytes that are kept are no text. -/
theorem descrStr_panics (kind : KObjectKind) (pageId size : Nat)
    (hlong : ¬ d.utf8ByteSize ≤ KOBJ_DESCR_LEN) (h : ¬ Boundary d KOBJ_DESCR_LEN) :
    Panics (kobjectCreate kind pageId size (bytes d)).descrStr := by
  have hle : KOBJ_DESCR_LEN ≤ d.utf8ByteSize := by omega
  rw [descrStr_eq, descrBuf_long hle]
  cases hread : fromUtf8 ((bytes d).take KOBJ_DESCR_LEN) with
  | some s => exact absurd ((fromUtf8_take hle).mp ⟨s, hread⟩) h
  | none => exact ⟨_, rfl⟩

/-- **The description is read back exactly if it fits, or byte 32 is a boundary of characters.** -/
theorem descr_reads_iff (kind : KObjectKind) (pageId size : Nat) (d : String)
    (hnul : Char.ofNat 0 ∉ d.toList) :
    DescrReads kind pageId size d ↔
      d.utf8ByteSize ≤ 32 ∨ ∃ s t, d = s ++ t ∧ s.utf8ByteSize = 32 := by
  constructor
  · intro h
    by_contra hno
    rw [not_or] at hno
    obtain ⟨s, hs, -⟩ := h
    obtain ⟨msg, hmsg⟩ := descrStr_panics kind pageId size hno.1 hno.2
    cases hs.symm.trans hmsg
  · intro h
    rcases h with h | h
    · exact descrReads_of_short kind pageId size hnul h
    · exact descrReads_of_boundary kind pageId size hnul h

theorem descr_reads_iff_container : DescrReads .container 3 96 "root container" :=
  (descr_reads_iff .container 3 96 "root container" (by decide)).mpr (Or.inl (by decide))

/-- Thirty-one letters, and one of two bytes. -/
def longDescr : String := String.ofList (List.replicate 31 'a' ++ ['é'])

theorem descr_panics_inside_char : Char.ofNat 0 ∉ longDescr.toList ∧
    ¬ DescrReads .container 3 96 longDescr := by
  have hlong : ¬ longDescr.utf8ByteSize ≤ KOBJ_DESCR_LEN := by decide
  have hin : ¬ Boundary longDescr KOBJ_DESCR_LEN := by
    rw [← fromUtf8_take (by omega)]
    have hnone : fromUtf8 ((bytes longDescr).take KOBJ_DESCR_LEN) = none := by decide
    rw [hnone]
    exact fun h => nomatch h.choose_spec
  refine ⟨by decide, fun h => ?_⟩
  obtain ⟨s, hs, -⟩ := h
  obtain ⟨msg, hmsg⟩ := descrStr_panics .container 3 96 hlong hin
  cases hs.symm.trans hmsg

end Allora
