import Allora.Lib.Related
import Allora.Proof.Apps.Answers

/-!
# Patched checksums verify

Where two bytes are 0 and become the checksum of the whole, the whole has the checksum 0. Every IP
header that is sent is such a whole. So is the message of a ping, from four bytes on; a shorter one
does not reach the end of its own checksum, and never verifies.
-/

set_option autoImplicit false

namespace Allora
namespace Apps

open Outcome OnesComplement

variable {w : World} {b : List UInt8}

/-! ## Pings -/

/-- The ICMP message of a packet. -/
def message (f : List UInt8) : List UInt8 := part f 34 (be16 f 16 - 20)

/-- Less than four bytes, the first of them 0. -/
theorem checksum_short (hlen : b.length < 4) (hzero : byte b 0 = 0) : checksum b ≠ 0 := by
  have hsum : sum16 b ≤ 510 := by
    match b, hlen with
    | [], _ => simp [sum16]
    | [x], _ =>
      have hx := x.toNat_lt
      simp only [sum16]
      omega
    | [x, y], _ =>
      have hx : x = 0 := hzero
      have hy := y.toNat_lt
      subst hx
      simp only [sum16, UInt8.toNat_zero]
      omega
    | [x, y, z], _ =>
      have hx : x = 0 := hzero
      have hy := y.toNat_lt
      have hz := z.toNat_lt
      subst hx
      simp only [sum16, UInt8.toNat_zero]
      omega
  rw [checksum_eq, norm_of_le (by omega)]
  omega

/-- The buffer of a ping before the checksum of its message is put in. -/
def pingBuffer (w : World) (b : List UInt8) : List UInt8 :=
  put (put (setIpChecksum (swapIp (swapEth w b))) 34 [0]) 36 (half 0)

theorem pingBuffer_spec (w : World) (h : Whole b) :
    Whole (pingBuffer w b) ∧ be16 (pingBuffer w b) 16 = be16 b 16 ∧
      checksum (part (pingBuffer w b) 14 20) = 0 ∧ byte (pingBuffer w b) 23 = byte b 23 ∧
      byte (pingBuffer w b) 34 = 0 ∧ be16 (pingBuffer w b) 36 = 0 := by
  have ht := turned w h
  have hk : Kept b (setIpChecksum (swapIp (swapEth w b))) :=
    (Kept.swapEth ⟨h, rfl⟩).swapIp.setIpChecksum
  have hsame := (SameHeaders.refl (swapIp (swapEth w b))).setIpChecksum ht.whole
  have h₁ : Whole (put (setIpChecksum (swapIp (swapEth w b))) 34 [0]) :=
    whole_put hk.whole (by simp)
  have hlen : (setIpChecksum (swapIp (swapEth w b))).length = 1526 := hk.whole
  have hlen₁ : (put (setIpChecksum (swapIp (swapEth w b))) 34 [0]).length = 1526 := h₁
  have h0 : (half 0).length = 2 := rfl
  refine ⟨whole_put h₁ (by omega), ?_, ?_, ?_, ?_, ?_⟩
  · rw [pingBuffer, be16_put h₁ (by omega) (by omega), be16_put hk.whole (by simp) (by simp),
      hk.length]
  · rw [pingBuffer, part_put_ne h₁ (by omega) (by omega) (by omega),
      part_put_ne hk.whole (by simp) (by omega) (by omega), setIpChecksum_verifies ht.whole]
  · rw [pingBuffer, byte_put (by omega) (by omega), byte_put (by simp [hlen]) (by omega),
      hsame 23 (by unfold Header; omega), ht.rest 23 (by omega)]
  · rw [pingBuffer, byte_put (by omega) (by omega),
      byte_put_at (by simp [hlen]) (by omega) (by simp)]
    rfl
  · exact be16_put_half (by omega) (by decide)

theorem icmp_eq (w : World) (h : Whole b) (hlo : 20 ≤ be16 b 16) (hhi : be16 b 16 ≤ 1512) :
    icmp w b = ok (send (put (pingBuffer w b) 36
      (half (checksum (part (pingBuffer w b) 34 (be16 b 16 - 20)))), [])) := by
  obtain ⟨hp, hl, -⟩ := pingBuffer_spec w h
  have hlen : ((pingBuffer w b).drop 34).length = 1492 := by rw [List.length_drop, hp]
  have hsub : subChecked (be16 (pingBuffer w b) 16) 20 = ok (be16 b 16 - 20) := by
    rw [hl, subChecked, if_pos hlo]
  have hrange : range ((pingBuffer w b).drop 34) 0 (be16 b 16 - 20) =
      ok (part (pingBuffer w b) 34 (be16 b 16 - 20)) := by
    rw [range, if_pos ⟨by omega, by omega⟩, List.drop_zero]
    rfl
  show subChecked (be16 (pingBuffer w b) 16) 20 >>= _ = _
  rw [hsub, ok_bind]
  show range ((pingBuffer w b).drop 34) 0 (be16 b 16 - 20) >>= _ = _
  rw [hrange, ok_bind]
  rfl

/-- The checksum of the message is put into a buffer that has 0 in its place. -/
theorem message_verifies_iff {p : List UInt8} (hp : Whole p) (hlo : 20 ≤ be16 p 16)
    (hhi : be16 p 16 ≤ 1512) (h34 : byte p 34 = 0) (h36 : be16 p 36 = 0) :
    checksum (message (put p 36 (half (checksum (part p 34 (be16 p 16 - 20)))))) = 0 ↔
      24 ≤ be16 p 16 := by
  have hlen : p.length = 1526 := hp
  have hplen : (part p 34 (be16 p 16 - 20)).length = be16 p 16 - 20 := length_part (by omega)
  generalize hc : checksum (part p 34 (be16 p 16 - 20)) = c
  have hsum : (half c).length = 2 := length_half c
  have hmsg : message (put p 36 (half c)) = part (put p 36 (half c)) 34 (be16 p 16 - 20) := by
    rw [message, be16_put hp (by omega) (by omega)]
  rw [hmsg]
  by_cases h4 : 24 ≤ be16 p 16
  · -- the checksum lies within the message
    refine iff_of_true ?_ h4
    rw [part_put_within (by omega) (by omega) (by omega), ← hc]
    apply checksum_patch (by decide) (by omega)
    rw [be16_part (by omega), h36]
  · refine iff_of_false (checksum_short ?_ ?_) h4
    · have hle := length_part_le (put p 36 (half c)) 34 (be16 p 16 - 20)
      omega
    · by_cases h0 : be16 p 16 - 20 = 0
      · rw [h0]
        rfl
      · rw [byte_part (by omega), byte_put (by omega) (by omega), h34]

/-- **The reply to a ping**: its header verifies, and its message does from four bytes on. -/
theorem icmp_spec {s : Sending} (h : Whole b) (hicmp : icmp w b = ok s) :
    ∃ f, s.2 = [f] ∧ Whole f ∧ checksum (part f 14 20) = 0 ∧ byte f 23 = byte b 23 ∧
      (checksum (message f) = 0 ↔ 24 ≤ be16 b 16) := by
  obtain ⟨hlo, hhi⟩ := (icmp_exactly h).returns_iff.mp ⟨s, hicmp⟩
  obtain ⟨hp, hl, hv, h23, h34, h36⟩ := pingBuffer_spec w h
  have hiff := message_verifies_iff hp (by omega) (by omega) h34 h36
  have hlen : (pingBuffer w b).length = 1526 := hp
  rw [icmp_eq w h hlo hhi, ← hl] at hicmp
  have heq := Outcome.ok.inj hicmp
  generalize hc : half (checksum (part (pingBuffer w b) 34 (be16 (pingBuffer w b) 16 - 20))) = c
    at *
  have hsum : c.length = 2 := by rw [← hc, length_half]
  generalize pingBuffer w b = p at *
  subst heq
  refine ⟨put p 36 c, rfl, whole_put hp (by omega), ?_, ?_, hl ▸ hiff⟩
  · rw [part_put_ne hp (by omega) (by omega) (by omega), hv]
  · rw [byte_put (by omega) (by omega), h23]

/-! ## Every packet -/

/-- The header verifies, and the message of a ping. -/
def Sound (f : List UInt8) : Prop :=
  Verifies (part f 14 20) ∧ (byte f 23 = 0x1 → Verifies (message f))

theorem iteration_icmp {frame : Frame} {sh : Shell} (h : Ping frame.bytes) :
    iteration w frame sh = icmp w frame.bytes >>= fun s => pure (sh, s.2, false) := by
  obtain ⟨hip, haddr, hproto⟩ := h
  unfold iteration
  dsimp only
  rw [if_neg (by rw [hip]; decide), if_pos ⟨hip, haddr⟩, if_pos hproto]

/-- Only pings and lines for the shell are answered in IP. -/
theorem iteration_other {frame : Frame} {sh : Shell} (hip : be16 frame.bytes 12 = 0x0800)
    (hping : ¬ Ping frame.bytes) (hshell : ¬ ForShell frame.bytes) :
    iteration w frame sh = ok (sh, [], false) := by
  unfold iteration
  dsimp only
  rw [if_neg (by rw [hip]; decide)]
  by_cases haddr : be16 frame.bytes 12 = 0x0800 ∧ part frame.bytes 30 4 = ADDR
  · rw [if_pos haddr, if_neg fun h => hping ⟨haddr.1, haddr.2, h⟩,
      if_neg fun h => hshell ⟨haddr.1, haddr.2, h⟩]
    rfl
  · rw [if_neg haddr]
    rfl

theorem length_message_le {f : List UInt8} (hf : Whole f) : (message f).length ≤ 1526 := by
  have hlen : f.length = 1526 := hf
  rw [message, part, List.length_take, List.length_drop]
  omega

theorem Sound.of_checksum {f : List UInt8} (hf : Whole f) (h : checksum (part f 14 20) = 0)
    (hmsg : byte f 23 = 0x1 → checksum (message f) = 0) : Sound f := by
  have hle := length_message_le hf
  have hle' := length_part_le f 14 20
  exact ⟨(verifies_iff (by omega)).mpr h, fun h23 => (verifies_iff (by omega)).mpr (hmsg h23)⟩

theorem Sound.checksum_message {f : List UInt8} (hf : Whole f) (h : Sound f)
    (h23 : byte f 23 = 0x1) : checksum (message f) = 0 := by
  have hle := length_message_le hf
  exact (verifies_iff (by omega)).mp (h.2 h23)

/-- A packet that answers a line is no ping. -/
theorem Reply.sound {out f : List UInt8} (h : Whole b) (hproto : byte b 23 = 0x11)
    (hf : Reply (udpBuffer w b) out f) : Sound f := by
  apply Sound.of_checksum hf.whole hf.header
  intro h23
  obtain ⟨ht, -, -, -, hrest⟩ := udpBuffer_spec w h
  rw [hf.same 23 (by unfold Header; omega), hrest 23 (by omega), ht.rest 23 (by omega),
    hproto] at h23
  cases h23

theorem udp_sound {sh sh' : Shell} {s : Sending} {exit : Bool} (h : Whole b)
    (hproto : byte b 23 = 0x11) (hudp : udp w b sh = ok (sh', s, exit)) : ∀ f ∈ s.2, Sound f := by
  obtain ⟨line, outs, hline, hemits, hgood⟩ := udp_good h hudp
  obtain ⟨s', hudp', hall⟩ := udp_replies h hline hemits hgood
  have heq := Outcome.ok.inj (hudp.symm.trans hudp')
  simp only [Prod.mk.injEq] at heq
  obtain ⟨-, rfl, -⟩ := heq
  exact Related.forall_right hall fun f out _ hf => hf.sound h hproto

/-- What has gone out when some pieces of output have been taken, whatever comes then. -/
theorem replies_sound {outs : List (List UInt8)} {s : Sending} (h : Whole b)
    (hproto : byte b 23 = 0x11) (hrun : outs.foldlM reply (udpBuffer w b, []) = ok s) :
    ∀ f ∈ s.2, Sound f := by
  have hu : Whole (udpBuffer w b) := (udpBuffer_spec w h).2.1
  have hgood := good_of_foldlM_reply (s := (udpBuffer w b, [])) hu hrun
  obtain ⟨s', hrun', hr⟩ := foldlM_reply (s := (udpBuffer w b, [])) hu (.refl _) hgood
  cases hrun.symm.trans hrun'
  obtain ⟨fs, hfs, hall⟩ := hr.sent
  rw [hfs, List.nil_append]
  exact Related.forall_right hall fun f out _ hf => hf.sound h hproto

/-- **What the server patches verifies**: any payload with a gap for its checksum, and every packet,
unless it answers a ping of less than four bytes. An iteration that panics may have sent packets
before: the answers to the pieces of output that the shell had handed over by then. -/
theorem patched_verifies_iff (payload : List UInt8) (k : Nat) (w : World) (frame : Frame)
    (sh : Shell) :
    (payload.length ≤ 131072 → k % 2 = 0 → k + 2 ≤ payload.length → byte payload k = 0 →
      byte payload (k + 1) = 0 → ∀ fuel, 3 ≤ fuel →
      ∃ c, checksum32 fuel payload = ok c ∧ Verifies (put payload k (half c))) ∧
    (∀ sh' sent exit, iteration w frame sh = ok (sh', sent, exit) → be16 frame.bytes 12 = 0x0800 →
      ((∀ f ∈ sent, Sound f) ↔ (Ping frame.bytes → 24 ≤ be16 frame.bytes 16))) ∧
    ∀ (outs : List (List UInt8)) (s : Sending), ForShell frame.bytes →
      outs.foldlM reply (udpBuffer w frame.bytes, []) = ok s → ∀ f ∈ s.2, Sound f := by
  refine ⟨?_, ?_, ?_⟩
  · intro hlen hk hle h₁ h₂ fuel hfuel
    have hzero : be16 payload k = 0 := by rw [be16, h₁, h₂]; rfl
    have hput : (put payload k (half (checksum payload))).length = payload.length :=
      length_put (by rwa [length_half])
    refine ⟨checksum payload, checksum32_eq hlen hfuel, ?_⟩
    exact (verifies_iff (by rwa [hput])).mpr (checksum_patch hk hle hzero)
  · intro sh' sent exit hrun hip
    have hb : Whole frame.bytes := frame.length_eq
    by_cases hping : Ping frame.bytes
    · rw [iteration_icmp hping] at hrun
      obtain ⟨s, hicmp, hend⟩ := bind_eq_ok.mp hrun
      cases hend
      obtain ⟨f, hs, hf, hv, h23, hiff⟩ := icmp_spec hb hicmp
      rw [hs, List.forall_mem_singleton, ← hiff]
      have hf23 : byte f 23 = 0x1 := h23.trans hping.2.2
      constructor
      · intro hsound _
        exact hsound.checksum_message hf hf23
      · intro hmsg
        exact .of_checksum hf hv fun _ => hmsg hping
    · refine iff_of_true ?_ fun h => absurd h hping
      by_cases hshell : ForShell frame.bytes
      · rw [iteration_udp hshell] at hrun
        obtain ⟨⟨sh₁, s, exit₁⟩, hudp, hend⟩ := bind_eq_ok.mp hrun
        cases hend
        exact udp_sound hb hshell.2.2.1 hudp
      · rw [iteration_other hip hping hshell] at hrun
        cases hrun
        simp
  · intro outs s hshell hrun
    exact replies_sound frame.length_eq hshell.2.2.1 hrun

/-- A ping for our address whose IP length is `len`, and what follows its IP header. -/
def pingBytes (len : Nat) (rest : List UInt8) : List UInt8 :=
  List.replicate 12 0 ++ [0x08, 0x00] ++ List.replicate 2 0 ++ half len ++ List.replicate 5 0 ++
    [0x1] ++ List.replicate 6 0 ++ ADDR ++ rest

theorem ping_pingBytes (len : Nat) (rest : List UInt8) : Ping (pingBytes len rest) := by
  have h12 : byte (pingBytes len rest) 12 = 0x08 := rfl
  have h13 : byte (pingBytes len rest) 13 = 0x00 := rfl
  refine ⟨?_, rfl, rfl⟩
  rw [be16, h12, h13]
  rfl

def pingFrame (len : Nat) : Frame where
  bytes := pingBytes len (List.replicate 1492 0)
  length_eq := by
    have haddr : ADDR.length = 4 := rfl
    simp only [pingBytes, List.length_append, List.length_replicate, length_half, haddr,
      List.length_cons, List.length_nil]

theorem pingFrame_answered (len : Nat) (sh : Shell) (hlen : be16 (pingFrame len).bytes 16 = len)
    (hlo : 20 ≤ len) (hhi : len ≤ 1512) :
    ∃ f, iteration noWorld (pingFrame len) sh = ok (sh, [f], false) ∧
      checksum (part f 14 20) = 0 ∧ Whole f ∧ byte f 23 = 0x1 ∧
      (checksum (message f) = 0 ↔ 24 ≤ len) := by
  have hb : Whole (pingFrame len).bytes := (pingFrame len).length_eq
  have hping : Ping (pingFrame len).bytes := ping_pingBytes len (List.replicate 1492 0)
  have hicmp := icmp_eq noWorld hb (by omega) (by omega)
  obtain ⟨f, hs, hf, hv, h23, hiff⟩ := icmp_spec hb hicmp
  rw [hlen] at hiff
  refine ⟨f, ?_, hv, hf, h23.trans hping.2.2, hiff⟩
  rw [iteration_icmp hping, hicmp, ok_bind, hs]
  rfl

set_option maxRecDepth 20000 in
/-- `00 00 12 34`, and a ping with a message of eight bytes. -/
theorem patched_verifies_iff_ping :
    (∃ c, checksum32 3 [0, 0, 0x12, 0x34] = ok c ∧ Verifies (put [0, 0, 0x12, 0x34] 0 (half c))) ∧
      ∃ f, iteration noWorld (pingFrame 28) ⟨none, none, []⟩ = ok (⟨none, none, []⟩, [f], false) ∧
        Sound f := by
  obtain ⟨hgap, hping, -⟩ :=
    patched_verifies_iff [0, 0, 0x12, 0x34] 0 noWorld (pingFrame 28) ⟨none, none, []⟩
  refine ⟨hgap (by decide) (by decide) (by decide) (by decide) (by decide) 3 (by decide), ?_⟩
  obtain ⟨f, hrun, -⟩ := pingFrame_answered 28 ⟨none, none, []⟩ rfl (by decide) (by decide)
  have hsound := (hping _ _ _ hrun rfl).mpr fun _ => (by decide)
  exact ⟨f, hrun, hsound f (List.mem_singleton_self f)⟩

set_option maxRecDepth 20000 in
/-- A message of two bytes has no room for its checksum. -/
theorem two_byte_ping_fails :
    ∃ f, iteration noWorld (pingFrame 22) ⟨none, none, []⟩ = ok (⟨none, none, []⟩, [f], false) ∧
      ¬ Verifies (message f) := by
  obtain ⟨f, hrun, -, hf, -, hiff⟩ :=
    pingFrame_answered 22 ⟨none, none, []⟩ rfl (by decide) (by decide)
  refine ⟨f, hrun, fun hv => ?_⟩
  have hle := length_message_le hf
  exact absurd (hiff.mp ((verifies_iff (by omega)).mp hv)) (by decide)

end Apps
end Allora
