import Allora.Proof.Apps.Emits
import Allora.Proof.Apps.Packets

/-!
# What a request is answered with

A line for the shell is answered with one packet for each piece of output and one for the end of the
line, all in the buffer of the request. Every packet is as it should be as long as the low byte of
each length leaves room for the 8 that is added to it: `output.len() as u8 + 8` is a sum of bytes.
-/

set_option autoImplicit false

namespace Allora
namespace Apps

open Outcome

variable {w : World} {b v : List UInt8} {k : Nat}

/-! ## UDP -/

/-- Two writes side by side. -/
theorem put_put {j : Nat} (hj : j = k + v.length) (hk : j ≤ b.length) (u : List UInt8) :
    put (put b k v) j u = put b k (v ++ u) := by
  subst hj
  have hlen : (b.take k ++ v).length = k + v.length := by
    rw [List.length_append, List.length_take]
    omega
  have hdrop : (put b k v).drop (k + v.length + u.length) = b.drop (k + (v ++ u).length) := by
    rw [put, List.drop_append, List.drop_of_length_le (by rw [hlen]; omega), hlen, List.drop_drop,
      List.nil_append, List.length_append]
    congr 1
    omega
  have htake : (put b k v).take (k + v.length) = b.take k ++ v := List.take_left' hlen
  rw [put, hdrop, htake, put, List.append_assoc (b.take k)]

/-- The buffer that the shell writes its output into. -/
def udpBuffer (w : World) (b : List UInt8) : List UInt8 :=
  let b := swapIp (swapEth w b)
  put (put b 34 (part b 36 2)) 36 (part b 34 2)

theorem udpBuffer_spec (w : World) (h : Whole b) :
    Turned w b (swapIp (swapEth w b)) ∧ Whole (udpBuffer w b) ∧
      part (udpBuffer w b) 34 2 = part b 36 2 ∧ part (udpBuffer w b) 36 2 = part b 34 2 ∧
      ∀ i, i < 34 → byte (udpBuffer w b) i = byte (swapIp (swapEth w b)) i := by
  have ht := turned w h
  have hlen : (swapIp (swapEth w b)).length = 1526 := ht.whole
  have hb : b.length = 1526 := h
  have hs : (part (swapIp (swapEth w b)) 34 2).length = 2 := length_part (by omega)
  have hd : (part (swapIp (swapEth w b)) 36 2).length = 2 := length_part (by omega)
  have h₁ : Whole (put (swapIp (swapEth w b)) 34 (part (swapIp (swapEth w b)) 36 2)) :=
    whole_put ht.whole (by omega)
  refine ⟨ht, whole_put h₁ (by omega), ?_, ?_, fun i hi => ?_⟩
  · rw [udpBuffer, part_put_ne h₁ (by omega) (by omega) (by omega), part_put_eq ht.whole (by omega) hd]
    exact part_ext (by omega) (by omega) fun t _ => ht.rest _ (by omega)
  · rw [udpBuffer, part_put_eq h₁ (by omega) hs]
    exact part_ext (by omega) (by omega) fun t _ => ht.rest _ (by omega)
  · rw [udpBuffer, byte_put (by rw [h₁]; omega) (by omega), byte_put (by omega) (by omega)]

/-- **The packet `f` answers `request` with `out`.** -/
structure Answers (w : World) (request out f : List UInt8) : Prop where
  ipLength : be16 f 16 = 28 + out.length
  udpLength : be16 f 38 = 8 + out.length
  payload : part f 42 out.length = out
  header : Verifies (part f 14 20)
  ethDst : part f 0 6 = part request 6 6
  ethSrc : part f 6 6 = List.ofFn w.mac
  ipSrc : part f 26 4 = ADDR
  ipDst : part f 30 4 = part request 26 4
  srcPort : part f 34 2 = part request 36 2
  dstPort : part f 36 2 = part request 34 2

theorem length_part_le (b : List UInt8) (i n : Nat) : (part b i n).length ≤ n := by
  rw [part, List.length_take]
  exact Nat.min_le_left _ _

theorem Reply.answers {out f : List UInt8} (h : Whole b) (hf : Reply (udpBuffer w b) out f) :
    Answers w b out f := by
  obtain ⟨ht, hu, hsrc, hdst, hrest⟩ := udpBuffer_spec w h
  have hin : ∀ {i n : Nat}, i + n ≤ 16 ∨ 26 ≤ i ∧ i + n ≤ 38 → part f i n = part (udpBuffer w b) i n :=
    fun hn => hf.same.part_eq hu hf.whole (by omega) fun t ht => by unfold Header; omega
  have hback : ∀ {i n : Nat}, i + n ≤ 34 →
      part (udpBuffer w b) i n = part (swapIp (swapEth w b)) i n :=
    fun hn => part_ext (by rw [hu]; omega) (by rw [ht.whole]; omega) fun t _ => hrest _ (by omega)
  refine ⟨hf.ipLength, hf.udpLength, hf.payload, ?_, ?_, ?_, ?_, ?_, ?_, ?_⟩
  · have hle := length_part_le f 14 20
    exact (verifies_iff (by omega)).mpr hf.header
  · rw [hin (by omega), hback (by omega), ht.ethDst]
  · rw [hin (by omega), hback (by omega), ht.ethSrc]
  · rw [hin (by omega), hback (by omega), ht.ipSrc]
  · rw [hin (by omega), hback (by omega), ht.ipDst]
  · rw [hin (by omega), hsrc]
  · rw [hin (by omega), hdst]

/-- The packet for the end of the line. -/
def lastPacket (b : List UInt8) : List UInt8 :=
  put (setIpChecksum (put b 16 (half (8 + 1 + 20)))) 38 [0, 9, 0, 0, 10]

theorem lastPacket_reply {c : List UInt8} (h : Whole b) (hsame : SameHeaders c b) :
    Reply c [10] (lastPacket b) := by
  obtain ⟨h₁, hip, hv, hsame₁⟩ := put_ipLength h (show 29 < 65536 by decide)
  have hf : Reply c [10] _ := put_udp (x := 0) (y := 9) h₁ (by decide) rfl hip hv
    (hsame.trans hsame₁)
  have hlen : (setIpChecksum (put b 16 (half 29))).length = 1526 := h₁
  have hput : put (put (put (setIpChecksum (put b 16 (half 29))) 38 [0]) 39 [9, 0, 0]) 42 [10] =
      lastPacket b := by
    have hfirst : put (put (setIpChecksum (put b 16 (half 29))) 38 [0]) 39 [9, 0, 0] =
        put (setIpChecksum (put b 16 (half 29))) 38 [0, 9, 0, 0] :=
      put_put rfl (by rw [hlen]; decide) _
    rw [hfirst]
    exact put_put rfl (by rw [hlen]; decide) _
  rw [← hput]
  exact hf

theorem iteration_udp {frame : Frame} {sh : Shell} (h : ForShell frame.bytes) :
    iteration w frame sh =
      udp w frame.bytes sh >>= fun r => pure (r.1, r.2.1.2, r.2.2) := by
  obtain ⟨hip, haddr, hproto, hport⟩ := h
  unfold iteration
  dsimp only
  rw [if_neg (by rw [hip]; decide), if_pos ⟨hip, haddr⟩, if_neg (by rw [hproto]; decide),
    if_pos ⟨hproto, hport⟩]

/-- The line, its output, and the end of the line. -/
theorem udp_def (w : World) (b : List UInt8) (sh : Shell) :
    udp w b sh = lineOf b >>= fun line =>
      sh.doLine w reply line (udpBuffer w b, []) >>= fun r =>
        ok (r.1, if r.2.2 then r.2.1 else send (lastPacket r.2.1.1, r.2.1.2), r.2.2) := by
  unfold udp
  congr 1
  funext line
  show sh.doLine w reply line (udpBuffer w b, []) >>= _ = _
  congr 1
  funext r
  obtain ⟨sh', s, exit⟩ := r
  cases exit with
  | true => rfl
  | false => rfl

/-- The lines that the packets of a request answer. -/
def answered (outs : List (List UInt8)) (exit : Bool) : List (List UInt8) :=
  outs ++ if exit then [] else [[10]]

/-- A run that returned has met only good pieces. -/
theorem udp_good {sh sh' : Shell} {s : Sending} {exit : Bool} (h : Whole b)
    (hudp : udp w b sh = ok (sh', s, exit)) :
    ∃ line outs, lineOf b = ok line ∧ sh.doLine w record line [] = ok (sh', outs, exit) ∧
      ∀ out ∈ outs, Good out.length := by
  rw [udp_def] at hudp
  obtain ⟨line, hline, hudp⟩ := bind_eq_ok.mp hudp
  obtain ⟨⟨sh₁, s₁, exit₁⟩, hdo, hend⟩ := bind_eq_ok.mp hudp
  obtain ⟨outs, hemits, hfold⟩ := Shell.doLine_emits.mp hdo
  have heq := Outcome.ok.inj hend
  simp only [Prod.mk.injEq] at heq
  obtain ⟨rfl, -, rfl⟩ := heq
  exact ⟨line, outs, hline, hemits,
    good_of_foldlM_reply (s := (udpBuffer w b, [])) (udpBuffer_spec w h).2.1 hfold⟩

/-- Good pieces become packets, and the end of the line one more. -/
theorem udp_replies {sh sh' : Shell} {line : List UInt8} {outs : List (List UInt8)} {exit : Bool}
    (h : Whole b) (hline : lineOf b = ok line)
    (hemits : sh.doLine w record line [] = ok (sh', outs, exit))
    (hgood : ∀ out ∈ outs, Good out.length) :
    ∃ s, udp w b sh = ok (sh', s, exit) ∧
      List.Forall₂ (Reply (udpBuffer w b)) (answered outs exit) s.2 := by
  have hu : Whole (udpBuffer w b) := (udpBuffer_spec w h).2.1
  obtain ⟨s, hfold, hr⟩ := foldlM_reply (s := (udpBuffer w b, [])) hu (.refl _) hgood
  obtain ⟨fs, hfs, hall⟩ := hr.sent
  rw [List.nil_append] at hfs
  rw [udp_def, hline, ok_bind, Shell.doLine_emits.mpr ⟨outs, hemits, hfold⟩, ok_bind]
  cases exit with
  | true =>
    refine ⟨s, rfl, ?_⟩
    rw [answered, if_pos rfl, List.append_nil, hfs]
    exact hall
  | false =>
    refine ⟨_, rfl, ?_⟩
    show List.Forall₂ _ _ (s.2 ++ [lastPacket s.1])
    rw [answered, if_neg Bool.false_ne_true, hfs]
    exact List.rel_append hall (.cons (lastPacket_reply hr.whole hr.same) .nil)

/-- **Every piece of output is answered rightly exactly when the low byte of each length is below
248**, in the order of the output, and with a packet for the end of the line after them. -/
theorem udp_answers_iff (w : World) (frame : Frame) (sh : Shell) {sh' : Shell} {line : List UInt8}
    {outs : List (List UInt8)} {exit : Bool} (hshell : ForShell frame.bytes)
    (hline : lineOf frame.bytes = ok line) (hemits : sh.doLine w record line [] = ok (sh', outs, exit))
    (hlen : ∀ out ∈ outs, out.length ≤ 1484) :
    (∃ sent, iteration w frame sh = ok (sh', sent, exit) ∧
        List.Forall₂ (Answers w frame.bytes) (answered outs exit) sent) ↔
      ∀ out ∈ outs, out.length % 256 < 248 := by
  have hb : Whole frame.bytes := frame.length_eq
  rw [iteration_udp hshell]
  constructor
  · rintro ⟨sent, hsent, -⟩ out hout
    obtain ⟨⟨sh₁, s₁, exit₁⟩, hudp, -⟩ := bind_eq_ok.mp hsent
    obtain ⟨line', outs', hline', hemits', hgood⟩ := udp_good hb hudp
    cases Outcome.ok.inj (hline.symm.trans hline')
    have heq := Outcome.ok.inj (hemits.symm.trans hemits')
    simp only [Prod.mk.injEq] at heq
    obtain ⟨-, rfl, -⟩ := heq
    exact (hgood out hout).1
  · intro hlow
    obtain ⟨s, hudp, hall⟩ := udp_replies hb hline hemits fun out hout =>
      ⟨hlow out hout, hlen out hout⟩
    refine ⟨s.2, by rw [hudp]; rfl, hall.imp fun _ _ hf => hf.answers hb⟩

/-- A packet that brings `text` for the shell. -/
def lineFrame (text : List UInt8) (h : text.length ≤ 1484) : Frame where
  bytes := List.replicate 12 0 ++ [0x08, 0x00] ++ List.replicate 9 0 ++ [0x11] ++
    List.replicate 6 0 ++ ADDR ++ [0, 0, 0, 44] ++ half (8 + text.length) ++ [0, 0] ++ text ++
      List.replicate (1484 - text.length) 0
  length_eq := by
    have haddr : ADDR.length = 4 := rfl
    simp only [List.length_append, List.length_replicate, length_half, List.length_cons,
      List.length_nil]
    omega

/-- What a word that is no command is answered with. -/
def unknownOutput (word : List UInt8) : List (List UInt8) :=
  [ascii ['U', 'n', 'k', 'n', 'o', 'w', 'n', ' ', 'c', 'o', 'm', 'm', 'a', 'n', 'd', ' ', '"'], word,
    ascii ['"']]

set_option maxRecDepth 20000 in
/-- `foo`. -/
theorem udp_answers_iff_foo :
    ∃ sent, iteration noWorld (lineFrame [102, 111, 111, 10] (by decide)) ⟨none, none, []⟩ =
        ok (⟨none, none, []⟩, sent, false) ∧
      List.Forall₂ (Answers noWorld (lineFrame [102, 111, 111, 10] (by decide)).bytes)
        (answered (unknownOutput [102, 111, 111]) false) sent := by
  have hline : lineOf (lineFrame [102, 111, 111, 10] (by decide)).bytes =
      ok ([102, 111, 111, 10] ++ List.replicate 1020 0) := rfl
  have hemits : (⟨none, none, []⟩ : Shell).doLine noWorld record
      ([102, 111, 111, 10] ++ List.replicate 1020 0) [] =
      ok (⟨none, none, []⟩, unknownOutput [102, 111, 111], false) := rfl
  exact (udp_answers_iff noWorld (lineFrame [102, 111, 111, 10] (by decide)) ⟨none, none, []⟩
    ⟨rfl, rfl, rfl, rfl, rfl⟩ hline hemits (by decide)).mpr (by decide)

set_option maxRecDepth 20000 in
/-- A word of 248 letters. -/
theorem long_word_overflows :
    iteration noWorld (lineFrame (List.replicate 248 97 ++ [10]) (by decide)) ⟨none, none, []⟩ =
        .panic "attempt to add with overflow" ∧
      lineOf (lineFrame (List.replicate 248 97 ++ [10]) (by decide)).bytes =
        ok (List.replicate 248 97 ++ [10] ++ List.replicate 775 0) ∧
      (⟨none, none, []⟩ : Shell).doLine noWorld record
          (List.replicate 248 97 ++ [10] ++ List.replicate 775 0) [] =
        ok (⟨none, none, []⟩, unknownOutput (List.replicate 248 97), false) :=
  ⟨rfl, rfl, rfl⟩

end Apps
end Allora
