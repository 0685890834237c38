import Allora.Apps
import Allora.Proof.Virtio.Requests

/-!
# When one iteration of `Net::run` returns

Three lengths decide. `ip.length` cuts the range of an ICMP checksum, the length of a UDP packet
cuts the line out of it, and the length of each piece of the shell's output is stored with
`output.len() as u8 + 8`. None of them is checked first. A command also has to find room in the
rings of the disk and of the entropy source.

Every part comes with an `Outcome.Exactly`: the condition under which it returns, and that the
buffer keeps its 1526 bytes. The conditions are put together by `Exactly.bind`.
-/

set_option autoImplicit false

namespace Allora
namespace Apps

open Outcome Virtio

variable {w : World} {b v : List UInt8} {i k n : Nat}

/-! ## Buffers -/

/-- The size of the buffer. -/
def Whole (b : List UInt8) : Prop := b.length = 1526

theorem length_put (h : k + v.length ≤ b.length) : (put b k v).length = b.length := by
  simp only [put, List.length_append, List.length_take, List.length_drop]
  omega

theorem whole_put (h : Whole b) (hk : k + v.length ≤ 1526) : Whole (put b k v) :=
  (length_put (h ▸ hk)).trans h

theorem length_part (h : i + n ≤ b.length) : (part b i n).length = n := by
  simp only [part, List.length_take, List.length_drop]
  omega

/-- Bytes outside of the range written stay. -/
theorem byte_put (h : k + v.length ≤ b.length) (hi : i < k ∨ k + v.length ≤ i) :
    byte (put b k v) i = byte b i := by
  simp only [byte, List.getD_eq_getElem?_getD]
  congr 1
  rcases hi with hi | hi
  · rw [put, List.append_assoc, List.getElem?_append_left (by rw [List.length_take]; omega),
      List.getElem?_take_of_lt hi]
  · have hlen : (b.take k ++ v).length = k + v.length := by
      rw [List.length_append, List.length_take]
      omega
    rw [put, List.getElem?_append_right (hlen ▸ hi), hlen, List.getElem?_drop]
    congr 1
    omega

theorem be16_put (h : Whole b) (hk : k + v.length ≤ 1526) (hi : i + 1 < k ∨ k + v.length ≤ i) :
    be16 (put b k v) i = be16 b i := by
  have hk' : k + v.length ≤ b.length := h ▸ hk
  rw [be16, be16, byte_put hk' (by omega), byte_put hk' (by omega)]

theorem range_exactly {start stop : Nat} :
    (range b start stop).Exactly (start ≤ stop ∧ stop ≤ b.length)
      (· = (b.take stop).drop start) :=
  Exactly.guard

/-- What happens to a buffer on its way back: it keeps its size and the IP length. -/
structure Kept (b b' : List UInt8) : Prop where
  whole : Whole b'
  length : be16 b' 16 = be16 b 16

theorem Kept.put {b b' : List UInt8} (h : Kept b b') (hk : k + v.length ≤ 1526)
    (hi : k + v.length ≤ 16 ∨ 18 ≤ k) : Kept b (put b' k v) where
  whole := whole_put h.whole hk
  length := by rw [be16_put h.whole hk (by omega), h.length]

theorem Kept.swapEth {b b' : List UInt8} (h : Kept b b') : Kept b (swapEth w b') := by
  have h6 : (part b' 6 6).length = 6 := length_part (by rw [h.whole]; decide)
  have hmac : (List.ofFn w.mac).length = 6 := List.length_ofFn
  apply Kept.put
  · exact h.put (by omega) (by omega)
  · omega
  · omega

theorem Kept.swapIp {b b' : List UInt8} (h : Kept b b') : Kept b (swapIp b') := by
  have h4 : (part b' 26 4).length = 4 := length_part (by rw [h.whole]; decide)
  have h1 : Kept b (Apps.put b' 30 (part b' 26 4)) := h.put (by omega) (by omega)
  have h2 := h1.put (k := 26) (v := ADDR) (by decide) (by decide)
  have h3 := h2.put (k := 18) (v := half 0) (by decide) (by decide)
  exact h3.put (by decide) (by decide)

theorem Kept.setIpChecksum {b b' : List UInt8} (h : Kept b b') : Kept b (setIpChecksum b') := by
  have h1 := h.put (k := 24) (v := half 0) (by decide) (by decide)
  exact h1.put (by simp [half]) (by simp [half])

/-! ## The two kinds of replies -/

/-- The reply to a ping. -/
theorem icmp_exactly (h : Whole b) :
    (icmp w b).Exactly (20 ≤ be16 b 16 ∧ be16 b 16 ≤ 1512) fun _ => True := by
  have h0 : Kept b b := ⟨h, rfl⟩
  have h1 : Kept b (setIpChecksum (swapIp (swapEth w b))) := h0.swapEth.swapIp.setIpChecksum
  have h2 := h1.put (k := 34) (v := [0]) (by simp) (by simp)
  have h3 := h2.put (k := 36) (v := half 0) (by simp [half]) (by simp [half])
  have hrest := h3.whole
  unfold Whole at hrest
  unfold icmp
  dsimp only
  rw [h3.length]
  refine Exactly.bind subChecked_exactly fun len h20 hlen => ?_
  refine Exactly.iff (Exactly.bind_true range_exactly fun payload _ _ => Exactly.ok trivial) ?_
  rw [List.length_drop, hrest]
  omega

/-- The lengths that a piece of output may have. -/
def Good (n : Nat) : Prop := n % 256 < 248 ∧ n ≤ 1484

instance : DecidablePred Good := fun _ => inferInstanceAs (Decidable (_ ∧ _))

theorem reply_exactly {s : Sending} {output : List UInt8} (h : Whole s.1) :
    (reply s output).Exactly (Good output.length) fun s' => Whole s'.1 := by
  have h1 : Whole (put s.1 16 (half ((8 + output.length + 20) % 65536))) :=
    whole_put h (by simp [half])
  have h2 := (Kept.setIpChecksum ⟨h1, rfl⟩).whole
  have h3 := whole_put (k := 38) (v := [UInt8.ofNat ((8 + output.length) / 256)]) h2 (by simp)
  unfold reply Good
  dsimp only
  refine Exactly.bind (addChecked_exactly.iff (by omega)) fun low _ hlow => ?_
  have h4 := whole_put (k := 39) (v := [UInt8.ofNat low, 0, 0]) h3 (by simp)
  have hrest := h4
  unfold Whole at hrest
  refine Exactly.bind_true (range_exactly.iff ?_) fun _ hn _ => Exactly.ok ?_
  · rw [List.length_drop, hrest]
    omega
  · exact whole_put h4 (by omega)

/-- The ring of a device, if there is one, takes `k` more requests. For the entries from 64 on this
rests on a device that writes nothing but `used.idx`: the elements that it would write to the used
ring lie behind the queue from there on. -/
def Room (o : Option Queue) (k : Nat) : Prop := ∀ q ∈ o, k ≤ QUEUE_LEN - q.availIdx.toNat

theorem Room.mono {o : Option Queue} {j k : Nat} (h : Room o k) (hjk : j ≤ k) : Room o j :=
  fun q hq => Nat.le_trans hjk (h q hq)

/-- `⌈len / 512⌉`, the rounds of `write_random`. -/
def sectors (len : Nat) : Nat := (len + 511) / 512

/-- The rounds of `read`. -/
def rounds (len : Nat) : Nat := (len - 1) / 512 + 1

/-- **What a line needs.** Room in the rings for each round of its loop, sectors that fit into 64
bits, and pieces of output whose low byte leaves space for the 8 of the header. -/
def LineOk (sh : Shell) (line : List UInt8) : Prop :=
  match Shell.command line with
  | .rand => Room sh.entropy 1
  | .writeRand words =>
    let k := sectors (argument words 1 0)
    argument words 0 0 + k < 2 ^ 64 ∧ Room sh.entropy k ∧ Room sh.blk k
  | .read words =>
    let len := argument words 1 512
    Room sh.blk (rounds len) ∧ len % 256 < 248
  | .exit => True
  | .unknown => line.length % 256 < 248

/-- A ping for our address. -/
def Ping (b : List UInt8) : Prop :=
  be16 b 12 = 0x0800 ∧ part b 30 4 = ADDR ∧ byte b 23 = 0x1

/-- A UDP packet for our address and port 44. -/
def ForShell (b : List UInt8) : Prop :=
  be16 b 12 = 0x0800 ∧ part b 30 4 = ADDR ∧ byte b 23 = 0x11 ∧ byte b 36 = 0 ∧ byte b 37 = 44

/-- The line that a packet brings, filled up with zeros. -/
def lineIn (b : List UInt8) : List UInt8 :=
  part b 42 (be16 b 38 - 8) ++ List.replicate (1024 - (be16 b 38 - 8)) 0

/-- **What a frame needs.** The lengths in its headers cover the headers themselves and stay within
the buffers, and its line can be carried out. Frames that are neither pings nor lines for the shell
need nothing. -/
def Safe (frame : Frame) (sh : Shell) : Prop :=
  (Ping frame.bytes → 20 ≤ be16 frame.bytes 16 ∧ be16 frame.bytes 16 ≤ 1512) ∧
  (ForShell frame.bytes →
    (8 ≤ be16 frame.bytes 38 ∧ be16 frame.bytes 38 ≤ 1032) ∧
      LineOk sh (Shell.firstLine (lineIn frame.bytes)))

/-- Everything answers with zeros. -/
def noWorld : World := ⟨fun _ => 0, fun _ _ => 0, fun _ _ _ => 0, 0, 0, 0⟩

end Apps
end Allora
