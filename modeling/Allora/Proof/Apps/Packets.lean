import Allora.Proof.Apps.Checksum
import Allora.Proof.Apps.Net

/-!
# The packets that go out

A packet is patched in the buffer of its request, a few bytes at a time. `byte_put_at` and `byte_put`
say what one `put` does to a byte, and everything else about a buffer follows from its bytes.

A field of two bytes that is 0 and then receives the checksum makes the whole verify: the sum and its
complement are all ones. `Reply` is what one piece of output makes of a buffer.
-/

set_option autoImplicit false

namespace Allora
namespace Apps

open Outcome OnesComplement

variable {w : World} {b c v : List UInt8} {i j k n : Nat}

/-! ## Bytes and parts -/

theorem byte_put_at (h : k + v.length ≤ b.length) (hk : k ≤ i) (hi : i < k + v.length) :
    byte (put b k v) i = byte v (i - k) := by
  have htake : (b.take k).length = k := by
    rw [List.length_take]
    omega
  simp only [byte, List.getD_eq_getElem?_getD, put, List.append_assoc]
  rw [List.getElem?_append_right (by omega), htake, List.getElem?_append_left (by omega)]

/-- A part is its bytes. -/
theorem part_ext (hb : i + n ≤ b.length) (hc : j + n ≤ c.length)
    (h : ∀ t < n, byte b (i + t) = byte c (j + t)) : part b i n = part c j n := by
  refine List.ext_getElem (by rw [length_part hb, length_part hc]) fun t ht _ => ?_
  rw [length_part hb] at ht
  have hbyte := h t ht
  simp only [byte, List.getD_eq_getElem?_getD] at hbyte
  rw [List.getElem?_eq_getElem (by omega), List.getElem?_eq_getElem (by omega), Option.getD_some,
    Option.getD_some] at hbyte
  simpa only [part, List.getElem_take, List.getElem_drop] using hbyte

theorem part_self (b : List UInt8) : part b 0 b.length = b := by simp [part]

theorem byte_part (ht : j < n) : byte (part b i n) j = byte b (i + j) := by
  simp only [byte, List.getD_eq_getElem?_getD, part]
  rw [List.getElem?_take_of_lt ht, List.getElem?_drop]

theorem part_put_eq (h : Whole b) (hk : k + v.length ≤ 1526) (hn : v.length = n) :
    part (put b k v) k n = v := by
  have hle : k + v.length ≤ b.length := h ▸ hk
  subst hn
  conv_rhs => rw [← part_self v]
  refine part_ext (by rwa [length_put hle]) (by omega) fun t ht => ?_
  rw [byte_put_at hle (by omega) (by omega)]
  congr 1
  omega

theorem part_put_ne (h : Whole b) (hk : k + v.length ≤ 1526) (hn : i + n ≤ 1526)
    (hi : i + n ≤ k ∨ k + v.length ≤ i) : part (put b k v) i n = part b i n := by
  have hle : k + v.length ≤ b.length := h ▸ hk
  have hin : i + n ≤ b.length := h ▸ hn
  refine part_ext (by rwa [length_put hle]) hin fun t ht => ?_
  exact byte_put hle (by omega)

/-- What is written within a part is written to the part. -/
theorem part_put_within (hn : i + n ≤ b.length) (hi : i ≤ k) (hk : k + v.length ≤ i + n) :
    part (put b k v) i n = put (part b i n) (k - i) v := by
  have hle : k + v.length ≤ b.length := by omega
  have hlen : (part b i n).length = n := length_part hn
  have hput : (put (part b i n) (k - i) v).length = n := by rw [length_put (by omega), hlen]
  have hself : part (put (part b i n) (k - i) v) 0 n = put (part b i n) (k - i) v := by
    conv_rhs => rw [← part_self (put (part b i n) (k - i) v), hput]
  rw [← hself]
  refine part_ext (by rwa [length_put hle]) (by rw [hput]; omega) fun t ht => ?_
  rw [Nat.zero_add]
  by_cases hin : k ≤ i + t ∧ i + t < k + v.length
  · rw [byte_put_at hle hin.1 hin.2, byte_put_at (by omega) (by omega) (by omega)]
    congr 1
    omega
  · rw [byte_put hle (by omega), byte_put (by omega) (by omega), byte_part ht]

theorem length_half (n : Nat) : (half n).length = 2 := rfl

theorem be16_put_half (h : k + 2 ≤ b.length) (hn : n < 65536) : be16 (put b k (half n)) k = n := by
  rw [be16, byte_put_at h (Nat.le_refl k) (by rw [length_half]; omega),
    byte_put_at h (by omega) (by rw [length_half]; omega), Nat.sub_self, Nat.add_sub_cancel_left]
  show (UInt8.ofNat (n / 256)).toNat * 256 + (UInt8.ofNat n).toNat = n
  rw [UInt8.toNat_ofNat', UInt8.toNat_ofNat']
  omega

theorem be16_part (h : j + 2 ≤ n) : be16 (part b i n) j = be16 b (i + j) := by
  rw [be16, byte_part (by omega), byte_part (by omega)]
  rfl

/-! ## Patching -/

/-- `payload` has the checksum 0, in 32 bits. -/
def Verifies (payload : List UInt8) : Prop := ∀ fuel, 3 ≤ fuel → checksum32 fuel payload = ok 0

theorem verifies_iff (h : b.length ≤ 131072) : Verifies b ↔ checksum b = 0 := by
  constructor
  · intro hv
    exact Outcome.ok.inj ((checksum32_eq h (Nat.le_refl 3)).symm.trans (hv 3 (Nat.le_refl 3)))
  · intro hc fuel hfuel
    rw [checksum32_eq h hfuel, hc]

theorem sum16_pair (x y : UInt8) (rest : List UInt8) :
    sum16 ([x, y] ++ rest) = x.toNat * 256 + y.toNat + sum16 rest := rfl

/-- A word that was 0 adds to the sum. -/
theorem sum16_put_half (hk : k % 2 = 0) (hle : k + 2 ≤ b.length) (hzero : be16 b k = 0)
    (hn : n < 65536) : sum16 (put b k (half n)) = sum16 b + n := by
  have htake : (b.take k).length % 2 = 0 := by
    rw [List.length_take]
    omega
  have hsplit : b = b.take k ++ ([byte b k, byte b (k + 1)] ++ b.drop (k + 2)) := by
    conv_lhs => rw [← List.take_append_drop k b]
    congr 1
    rw [List.drop_eq_getElem_cons (by omega), List.drop_eq_getElem_cons (by omega)]
    simp only [byte, List.getD_eq_getElem?_getD, List.getElem?_eq_getElem (show k < b.length by omega),
      List.getElem?_eq_getElem (show k + 1 < b.length by omega), Option.getD_some]
    rfl
  have hword : (UInt8.ofNat (n / 256)).toNat * 256 + (UInt8.ofNat n).toNat = n := by
    rw [UInt8.toNat_ofNat', UInt8.toNat_ofNat']
    omega
  have hold : sum16 b = sum16 (b.take k) + sum16 (b.drop (k + 2)) := by
    conv_lhs => rw [hsplit, sum16_append htake, sum16_pair]
    have hz : (byte b k).toNat * 256 + (byte b (k + 1)).toNat = 0 := hzero
    rw [hz, Nat.zero_add]
  rw [put, List.append_assoc, sum16_append htake, length_half, half, sum16_pair, hword, hold]
  omega

/-- **A payload with its own checksum in it verifies.** -/
theorem checksum_patch (hk : k % 2 = 0) (hle : k + 2 ≤ b.length) (hzero : be16 b k = 0) :
    checksum (put b k (half (checksum b))) = 0 := by
  have hlt : checksum b < 65536 := by
    rw [checksum_eq]
    omega
  rw [checksum_eq, sum16_put_half hk hle hzero hlt, checksum_eq,
    norm_add_complement (by decide) (sum16 b), Nat.sub_self]

/-- **The IP header verifies** once its checksum is set. -/
theorem setIpChecksum_verifies (h : Whole b) : checksum (part (setIpChecksum b) 14 20) = 0 := by
  have h₁ : Whole (put b 24 (half 0)) := whole_put h (by rw [length_half]; decide)
  have hlen : (put b 24 (half 0)).length = 1526 := h₁
  have hpart : (part (put b 24 (half 0)) 14 20).length = 20 := length_part (by rw [hlen]; decide)
  have hzero : be16 (part (put b 24 (half 0)) 14 20) 10 = 0 := by
    rw [be16_part (by decide)]
    exact be16_put_half (by rw [h]; decide) (by decide)
  rw [setIpChecksum, part_put_within (by rw [hlen]; decide) (by decide) (by rw [length_half]; decide)]
  exact checksum_patch (by decide) (by rw [hpart]; decide) hzero

/-! ## One piece of output -/

/-- The bytes that no piece of output touches: addresses, protocol, ports. -/
def Header (i : Nat) : Prop := i < 16 ∨ 18 ≤ i ∧ i < 24 ∨ 26 ≤ i ∧ i < 38

/-- The bytes of the headers are as they were. -/
def SameHeaders (b c : List UInt8) : Prop := ∀ i, Header i → byte c i = byte b i

theorem SameHeaders.refl (b : List UInt8) : SameHeaders b b := fun _ _ => rfl

theorem SameHeaders.trans {d : List UInt8} (h : SameHeaders b c) (h' : SameHeaders c d) :
    SameHeaders b d := fun i hi => (h' i hi).trans (h i hi)

theorem SameHeaders.put (h : SameHeaders b c) (hc : Whole c) (hk : k + v.length ≤ 1526)
    (hout : ∀ i, Header i → i < k ∨ k + v.length ≤ i) : SameHeaders b (Apps.put c k v) :=
  fun i hi => (byte_put (hc ▸ hk) (hout i hi)).trans (h i hi)

/-- A part of the headers. -/
theorem SameHeaders.part_eq (h : SameHeaders b c) (hb : Whole b) (hc : Whole c)
    (hn : i + n ≤ 1526) (hin : ∀ t < n, Header (i + t)) : part c i n = part b i n :=
  part_ext (hc ▸ hn) (hb ▸ hn) fun t ht => h (i + t) (hin t ht)

/-- What one piece of output makes of the buffer `b`. -/
structure Reply (b output f : List UInt8) : Prop where
  whole : Whole f
  ipLength : be16 f 16 = 28 + output.length
  udpLength : be16 f 38 = 8 + output.length
  payload : part f 42 output.length = output
  header : checksum (part f 14 20) = 0
  same : SameHeaders b f

theorem SameHeaders.setIpChecksum (h : SameHeaders b c) (hc : Whole c) :
    SameHeaders b (setIpChecksum c) := by
  have hout : ∀ i, Header i → i < 24 ∨ 24 + 2 ≤ i := by
    intro i hi
    unfold Header at hi
    omega
  have h₁ : SameHeaders b (Apps.put c 24 (half 0)) := h.put hc (by decide) hout
  have hc₁ : Whole (Apps.put c 24 (half 0)) := whole_put hc (by decide)
  exact h₁.put hc₁ (by rw [length_half]; decide) hout

/-- The UDP length and checksum, and what comes after them. -/
theorem put_udp {x y : UInt8} {output : List UInt8} (h : Whole b) (hlen : output.length ≤ 1484)
    (hl : x.toNat * 256 + y.toNat = 8 + output.length) (hip : be16 b 16 = 28 + output.length)
    (hv : checksum (part b 14 20) = 0) (hsame : SameHeaders c b) :
    Reply c output (put (put (put b 38 [x]) 39 [y, 0, 0]) 42 output) := by
  have h₁ : Whole (put b 38 [x]) := whole_put h (by simp)
  have h₂ : Whole (put (put b 38 [x]) 39 [y, 0, 0]) := whole_put h₁ (by simp)
  have hout : ∀ i, Header i → ∀ l, 38 ≤ l → i < l := by
    intro i hi l hl
    unfold Header at hi
    omega
  have hsame₁ := hsame.put (k := 38) (v := [x]) h (by simp) fun i hi => .inl (hout i hi 38 (by omega))
  have hsame₂ := hsame₁.put (k := 39) (v := [y, 0, 0]) h₁ (by simp) fun i hi =>
    .inl (hout i hi 39 (by omega))
  refine ⟨whole_put h₂ (by omega), ?_, ?_, part_put_eq h₂ (by omega) rfl, ?_,
    hsame₂.put h₂ (by omega) fun i hi => .inl (hout i hi 42 (by omega))⟩
  · rw [be16_put h₂ (by omega) (by omega), be16_put h₁ (by simp) (by simp), be16_put h (by simp)
      (by simp), hip]
  · have hx : byte (put (put (put b 38 [x]) 39 [y, 0, 0]) 42 output) 38 = x := by
      rw [byte_put (by rw [h₂]; omega) (by omega), byte_put (by rw [h₁]; simp) (by omega),
        byte_put_at (by rw [h]; simp) (by omega) (by simp)]
      rfl
    have hy : byte (put (put (put b 38 [x]) 39 [y, 0, 0]) 42 output) 39 = y := by
      rw [byte_put (by rw [h₂]; omega) (by omega), byte_put_at (by rw [h₁]; simp) (by omega)
        (by simp)]
      rfl
    rw [be16, hx, hy, hl]
  · rw [part_put_ne h₂ (by omega) (by omega) (by omega), part_put_ne h₁ (by simp) (by omega)
      (by omega), part_put_ne h (by simp) (by omega) (by omega), hv]

/-- The IP length and the header's checksum. -/
theorem put_ipLength {len : Nat} (h : Whole b) (hlen : len < 65536) :
    Whole (setIpChecksum (put b 16 (half len))) ∧
      be16 (setIpChecksum (put b 16 (half len))) 16 = len ∧
      checksum (part (setIpChecksum (put b 16 (half len))) 14 20) = 0 ∧
      SameHeaders b (setIpChecksum (put b 16 (half len))) := by
  have h₁ : Whole (put b 16 (half len)) := whole_put h (by rw [length_half]; decide)
  have hkept : Kept (put b 16 (half len)) (setIpChecksum (put b 16 (half len))) :=
    Kept.setIpChecksum ⟨h₁, rfl⟩
  have hsame : SameHeaders b (put b 16 (half len)) := by
    refine (SameHeaders.refl b).put h (by rw [length_half]; decide) fun i hi => ?_
    unfold Header at hi
    rw [length_half]
    omega
  refine ⟨hkept.whole, ?_, setIpChecksum_verifies h₁, hsame.setIpChecksum h₁⟩
  rw [hkept.length]
  exact be16_put_half (by rw [h]; decide) hlen

/-- **A good piece of output becomes a packet.** -/
theorem reply_spec {s : Sending} {output : List UInt8} (h : Whole s.1)
    (hgood : Good output.length) :
    ∃ f, reply s output = ok (f, s.2 ++ [f]) ∧ Reply s.1 output f := by
  obtain ⟨hlow, hlen⟩ := hgood
  obtain ⟨h₁, hip, hv, hsame⟩ := put_ipLength h (show 28 + output.length < 65536 by omega)
  have hmod : (8 + output.length + 20) % 65536 = 28 + output.length := by omega
  have hadd : addChecked 8 (output.length % 256) 8 = ok (output.length % 256 + 8) :=
    if_pos (by omega)
  have hbytes : (UInt8.ofNat ((8 + output.length) / 256)).toNat * 256 +
      (UInt8.ofNat (output.length % 256 + 8)).toNat = 8 + output.length := by
    rw [UInt8.toNat_ofNat', UInt8.toNat_ofNat']
    omega
  have hf := put_udp h₁ hlen hbytes hip hv hsame
  refine ⟨_, ?_, hf⟩
  unfold reply
  simp only [hmod, hadd, ok_bind]
  generalize hb : put (put _ 38 _) 39 _ = b₂
  have hb₂ : (b₂.drop 34).length = 1492 := by
    rw [List.length_drop, ← hb, whole_put (whole_put h₁ (by simp)) (by simp)]
  rw [range, if_pos ⟨by omega, by omega⟩, ok_bind]
  rfl

/-! ## All of the output -/

/-- The packets that pieces of output become, each in the buffer the one before left. -/
structure Replies (b : List UInt8) (outs : List (List UInt8)) (s s' : Sending) : Prop where
  whole : Whole s'.1
  same : SameHeaders b s'.1
  sent : ∃ fs, s'.2 = s.2 ++ fs ∧ List.Forall₂ (Reply b) outs fs

theorem Reply.of_same {output f : List UInt8} (h : SameHeaders c b) (hf : Reply b output f) :
    Reply c output f :=
  ⟨hf.whole, hf.ipLength, hf.udpLength, hf.payload, hf.header, h.trans hf.same⟩

/-- By induction on the pieces. -/
theorem foldlM_reply {outs : List (List UInt8)} :
    ∀ {s : Sending}, Whole s.1 → SameHeaders b s.1 → (∀ out ∈ outs, Good out.length) →
      ∃ s', outs.foldlM reply s = ok s' ∧ Replies b outs s s' := by
  induction outs with
  | nil =>
    intro s hs hsame _
    exact ⟨s, rfl, hs, hsame, [], (List.append_nil _).symm, .nil⟩
  | cons out outs ih =>
    intro s hs hsame hgood
    obtain ⟨f, hf, hreply⟩ := reply_spec hs (hgood out List.mem_cons_self)
    have hreply' := hreply.of_same hsame
    obtain ⟨s', hs', h⟩ := ih (s := (f, s.2 ++ [f])) hreply'.whole hreply'.same
      fun o ho => hgood o (List.mem_cons_of_mem _ ho)
    obtain ⟨fs, hfs, hall⟩ := h.sent
    refine ⟨s', by rw [List.foldlM_cons, hf, ok_bind, hs'], h.whole, h.same, f :: fs, ?_,
      .cons hreply' hall⟩
    rw [hfs, List.append_assoc]
    rfl

/-- A piece that is not good is never sent. -/
theorem good_of_foldlM_reply {outs : List (List UInt8)} :
    ∀ {s s' : Sending}, Whole s.1 → outs.foldlM reply s = ok s' → ∀ out ∈ outs, Good out.length := by
  induction outs with
  | nil =>
    intro s s' _ _ out hout
    cases hout
  | cons o outs ih =>
    intro s s' hs h out hout
    rw [List.foldlM_cons] at h
    obtain ⟨s₁, h₁, hrest⟩ := bind_eq_ok.mp h
    rcases List.mem_cons.mp hout with rfl | hout
    · exact (reply_exactly hs).returns_iff.mp ⟨s₁, h₁⟩
    · exact ih ((reply_exactly hs).post h₁) hrest out hout

/-! ## The way back -/

/-- The addresses are those of an answer. -/
structure Turned (w : World) (request b : List UInt8) : Prop where
  whole : Whole b
  ethDst : part b 0 6 = part request 6 6
  ethSrc : part b 6 6 = List.ofFn w.mac
  ipSrc : part b 26 4 = ADDR
  ipDst : part b 30 4 = part request 26 4
  rest : ∀ i, 12 ≤ i ∧ i < 18 ∨ 22 ≤ i ∧ i < 26 ∨ 34 ≤ i → byte b i = byte request i

theorem swapEth_spec (h : Whole b) :
    Whole (swapEth w b) ∧ part (swapEth w b) 0 6 = part b 6 6 ∧
      part (swapEth w b) 6 6 = List.ofFn w.mac ∧ ∀ i, 12 ≤ i → byte (swapEth w b) i = byte b i := by
  have h6 : (part b 6 6).length = 6 := length_part (by rw [h]; decide)
  have hmac : (List.ofFn w.mac).length = 6 := List.length_ofFn
  have h₁ : Whole (put b 0 (part b 6 6)) := whole_put h (by omega)
  refine ⟨whole_put h₁ (by omega), ?_, part_put_eq h₁ (by omega) hmac, fun i hi => ?_⟩
  · rw [swapEth, part_put_ne h₁ (by omega) (by omega) (by omega), part_put_eq h (by omega) h6]
  · rw [swapEth, byte_put (by rw [h₁]; omega) (by omega), byte_put (by rw [h]; omega) (by omega)]

theorem swapIp_spec (h : Whole b) :
    Whole (swapIp b) ∧ part (swapIp b) 26 4 = ADDR ∧ part (swapIp b) 30 4 = part b 26 4 ∧
      ∀ i, i < 18 ∨ 22 ≤ i ∧ i < 26 ∨ 34 ≤ i → byte (swapIp b) i = byte b i := by
  have h4 : (part b 26 4).length = 4 := length_part (by rw [h]; decide)
  have haddr : ADDR.length = 4 := rfl
  have h₁ : Whole (put b 30 (part b 26 4)) := whole_put h (by omega)
  have h₂ : Whole (put (put b 30 (part b 26 4)) 26 ADDR) := whole_put h₁ (by omega)
  have h₃ : Whole (put (put (put b 30 (part b 26 4)) 26 ADDR) 18 (half 0)) :=
    whole_put h₂ (by rw [length_half]; decide)
  refine ⟨whole_put h₃ (by rw [length_half]; decide), ?_, ?_, fun i hi => ?_⟩
  · rw [swapIp, part_put_ne h₃ (by decide) (by decide) (by decide), part_put_ne h₂ (by decide)
      (by decide) (by decide), part_put_eq h₁ (by decide) haddr]
  · rw [swapIp, part_put_ne h₃ (by decide) (by decide) (by decide), part_put_ne h₂ (by decide)
      (by decide) (by decide), part_put_ne h₁ (by decide) (by decide) (by decide),
      part_put_eq h (by omega) h4]
  · rw [swapIp, byte_put (by rw [h₃]; decide) (by rw [length_half]; omega),
      byte_put (by rw [h₂]; decide) (by rw [length_half]; omega),
      byte_put (by rw [h₁]; decide) (by omega), byte_put (by rw [h]; omega) (by omega)]

theorem turned (w : World) (h : Whole b) : Turned w b (swapIp (swapEth w b)) := by
  obtain ⟨he, hdst, hsrc, hrest⟩ := swapEth_spec (w := w) h
  obtain ⟨hi, hisrc, hidst, hirest⟩ := swapIp_spec he
  have hlen : b.length = 1526 := h
  have helen : (swapEth w b).length = 1526 := he
  have hilen : (swapIp (swapEth w b)).length = 1526 := hi
  refine ⟨hi, ?_, ?_, hisrc, ?_, fun i hi' => ?_⟩
  · rw [← hdst]
    exact part_ext (by omega) (by omega) fun t ht => hirest _ (by omega)
  · rw [← hsrc]
    exact part_ext (by omega) (by omega) fun t ht => hirest _ (by omega)
  · rw [hidst]
    exact part_ext (by omega) (by omega) fun t ht => hrest _ (by omega)
  · rw [hirest i (by omega), hrest i (by omega)]

end Apps
end Allora
