import Allora.Virtio

/-!
# `apps/` — the shell, and its server on the network

`Net::run` answers pings and ARP requests, and hands the payload of UDP packets for port 44 to the
shell as a line. Each piece of output goes back as one packet, built in the buffer the request came
in. The lengths that slices are cut with come out of that buffer.

The buffer is a list of 1526 bytes, and headers are read and written at their offsets in it. What
the devices answer, and the addresses of buffers on the stack, come from a `World`. Overflow panics,
as in the debug build. Devices complete every request, and clear an interrupt that is acknowledged.
-/

set_option autoImplicit false

namespace Allora

open Outcome Virtio

namespace Apps

/-- What comes from outside. -/
structure World where
  mac : Fin 6 → UInt8
  random : Nat → Nat → UInt8
  sector : Nat → Nat → Nat → UInt8
  hdr : BitVec 64
  data : BitVec 64
  status : BitVec 64

def ascii (s : List Char) : List UInt8 := s.map fun c => UInt8.ofNat c.toNat

/-! ## `apps/shell.rs` -/

/-- `Shell`: the queues of the two devices, if they are there, and what has been written to the
disk. -/
structure Shell where
  blk : Option Queue
  entropy : Option Queue
  written : List (Nat × List UInt8)

/-- `from_utf8(..).ok().and_then(|s| s.parse().ok())`, for `u64` and for `usize`: digits, after a
plus sign or not. What is not ASCII is no digit. -/
def parseUnsigned (s : List UInt8) : Option Nat :=
  let digits := if s.head? = some 43 then s.tail else s
  if digits ≠ [] ∧ digits.all (fun b => 48 ≤ b && b ≤ 57) then
    let n := digits.foldl (fun n b => n * 10 + (b.toNat - 48)) 0
    if n < 2 ^ 64 then some n else none
  else
    none

/-- `words.next()`, parsed, `unwrap_or(default)`; the `i`th call. -/
def argument (words : List (List UInt8)) (i default : Nat) : Nat :=
  (words[i]?.bind parseUnsigned).getD default

namespace Shell

/-- `self.entropy.map(|e| e.read(buf))`, into a zeroed buffer. -/
def entropyRead (w : World) (sh : Shell) (len : Nat) : Outcome (Shell × List UInt8) :=
  match sh.entropy with
  | none => ok (sh, List.replicate len 0)
  | some q => do
    let q' ← q.request (.entropyRead w.data (BitVec.ofNat 32 len))
    pure ({ sh with entropy := some q' }, (List.range len).map (w.random q.availIdx.toNat))

/-- `self.blk.map(|blk| blk.read(sector, &mut data))`. -/
def blkRead (w : World) (sh : Shell) (sector : Nat) (data : List UInt8) :
    Outcome (Shell × List UInt8) :=
  match sh.blk with
  | none => ok (sh, data)
  | some q => do
    let q' ← q.request (.blkRead w.hdr w.data w.status)
    pure ({ sh with blk := some q' }, (List.range 512).map (w.sector q.availIdx.toNat sector))

/-- `self.blk.map(|blk| blk.write(sector, &outdata))`. -/
def blkWrite (w : World) (sh : Shell) (sector : Nat) (outdata : List UInt8) : Outcome Shell :=
  match sh.blk with
  | none => ok sh
  | some q => do
    let q' ← q.request (.blkWrite w.hdr w.data w.status)
    pure { sh with blk := some q', written := (sector, outdata) :: sh.written }

variable {σ : Type} (w : World) (f : σ → List UInt8 → Outcome σ)

def getRandom (sh : Shell) (s : σ) : Outcome (Shell × σ) := do
  let (sh, data) ← sh.entropyRead w 16
  let s ← f s (ascii ['R', 'a', 'n', 'd', 'o', 'm', ':', ' '])
  let s ← f s data
  pure (sh, s)

/-- `*b = ((*b as u32 * 100) / 272 + 32) as u8`. -/
def printable (b : UInt8) : UInt8 := UInt8.ofNat (b.toNat * 100 / 272 + 32)

/-- The loop of `write_random`. -/
def writeRandomLoop (sh : Shell) (sector len : Nat) : Outcome Shell :=
  if len = 0 then
    ok sh
  else do
    let curlen := min 512 len
    let (sh, curbuf) ← sh.entropyRead w curlen
    let outdata := curbuf.map printable ++ List.replicate (512 - curlen) 0
    let sh ← sh.blkWrite w sector outdata
    let sector ← addChecked 64 sector 1
    writeRandomLoop sh sector (len - curlen)
  termination_by len

def writeRandom (sh : Shell) (words : List (List UInt8)) (s : σ) : Outcome (Shell × σ) := do
  let sh ← sh.writeRandomLoop w (argument words 0 0) (argument words 1 0)
  let s ← f s (ascii ['d', 'o', 'n', 'e'])
  pure (sh, s)

/-- The loop of `read`. -/
def readLoop (sh : Shell) (sector : Nat) (data : List UInt8) (len : Nat) (s : σ) :
    Outcome (Shell × σ) := do
  let (sh, data) ← sh.blkRead w sector data
  if _h : len > 512 then
    let s ← f s data
    readLoop sh sector data (len - 512) s
  else
    let s ← f s (data.take len)
    pure (sh, s)
  termination_by len
  decreasing_by omega

/-- `read`: the sector stays the same in every round. -/
def read (sh : Shell) (words : List (List UInt8)) (s : σ) : Outcome (Shell × σ) :=
  sh.readLoop w f (argument words 0 0) (List.replicate 512 0) (argument words 1 512) s

/-- Up to the first end of a line. -/
def firstLine (line : List UInt8) : List UInt8 := line.takeWhile fun c => c ≠ 10 ∧ c ≠ 13

/-- `line.split(|c| *c == b' ')`. -/
def splitWords (line : List UInt8) : List (List UInt8) := line.splitOnP (· == 32)

/-- The commands. -/
inductive Command
  | rand
  | writeRand (words : List (List UInt8))
  | read (words : List (List UInt8))
  | exit
  | unknown

/-- What the first word of a line says. -/
def command (line : List UInt8) : Command :=
  match splitWords line with
  | [] => .unknown
  | word :: words =>
    if word = ascii ['r', 'a', 'n', 'd'] then .rand
    else if word = ascii ['w', 'r', 'i', 't', 'e', 'r', 'a', 'n', 'd'] then .writeRand words
    else if word = ascii ['r', 'e', 'a', 'd'] then .read words
    else if word = ascii ['e', 'x', 'i', 't'] then .exit
    else .unknown

/-- `do_line`; the last component is its result. -/
def doLine (sh : Shell) (line : List UInt8) (s : σ) : Outcome (Shell × σ × Bool) :=
  let line := firstLine line
  match command line with
  | .rand => do
    let (sh, s) ← sh.getRandom w f s
    pure (sh, s, false)
  | .writeRand words => do
    let (sh, s) ← sh.writeRandom w f words s
    pure (sh, s, false)
  | .read words => do
    let (sh, s) ← sh.read w f words s
    pure (sh, s, false)
  | .exit => pure (sh, s, true)
  | .unknown => do
    let s ← f s (ascii ['U', 'n', 'k', 'n', 'o', 'w', 'n', ' ', 'c', 'o', 'm', 'm', 'a', 'n', 'd',
      ' ', '"'])
    let s ← f s line
    let s ← f s (ascii ['"'])
    pure (sh, s, false)

end Shell

/-! ## `apps/net.rs` -/

/-- A buffer of 1526 bytes. -/
structure Frame where
  bytes : List UInt8
  length_eq : bytes.length = 1526

def byte (b : List UInt8) (i : Nat) : UInt8 := b.getD i 0

/-- A big-endian `u16`. -/
def be16 (b : List UInt8) (i : Nat) : Nat := (byte b i).toNat * 256 + (byte b (i + 1)).toNat

def half (n : Nat) : List UInt8 := [UInt8.ofNat (n / 256), UInt8.ofNat n]

def part (b : List UInt8) (i len : Nat) : List UInt8 := (b.drop i).take len

/-- Bytes written over those from `i` on. -/
def put (b : List UInt8) (i : Nat) (bs : List UInt8) : List UInt8 :=
  b.take i ++ bs ++ b.drop (i + bs.length)

/-- `&slice[start..stop]`. -/
def range (b : List UInt8) (start stop : Nat) : Outcome (List UInt8) :=
  if start ≤ stop ∧ stop ≤ b.length then
    ok ((b.take stop).drop start)
  else
    .panic "range out of bounds"

/-- The sum of `checksum`: pairs of bytes, and the last byte if it is alone. -/
def sum16 : List UInt8 → Nat
  | [] => 0
  | [a] => a.toNat
  | a :: b :: rest => a.toNat * 256 + b.toNat + sum16 rest

/-- `while (sum >> 16) != 0`. -/
def foldCarry (sum : Nat) : Nat :=
  if _h : sum / 65536 ≠ 0 then foldCarry (sum % 65536 + sum / 65536) else sum
  termination_by sum
  decreasing_by omega

def checksum (payload : List UInt8) : Nat := 65535 - foldCarry (sum16 payload)

def ADDR : List UInt8 := [192, 168, 14, 4]

/-- `eth_header.dst_mac = eth_header.src_mac; eth_header.src_mac = mac`. -/
def swapEth (w : World) (b : List UInt8) : List UInt8 :=
  put (put b 0 (part b 6 6)) 6 (List.ofFn w.mac)

/-- `ip.checksum = 0; ip.checksum = checksum(&eth_payload[..20])`. -/
def setIpChecksum (b : List UInt8) : List UInt8 :=
  let b := put b 24 (half 0)
  put b 24 (half (checksum (part b 14 20)))

/-- The IP header goes back where it came from. -/
def swapIp (b : List UInt8) : List UInt8 :=
  let b := put b 30 (part b 26 4)
  let b := put b 26 ADDR
  let b := put b 18 (half 0)
  put b 20 (half 0)

/-- The buffer, and the frames that have been sent. -/
abbrev Sending := List UInt8 × List (List UInt8)

def send (s : Sending) : Sending := (s.1, s.2 ++ [s.1])

/-- An ARP request for our address is answered. -/
def arp (w : World) (b : List UInt8) : Sending :=
  if be16 b 14 = 1 ∧ be16 b 16 = 0x0800 ∧ be16 b 20 = 1 ∧ part b 38 4 = ADDR then
    let b := swapEth w b
    let b := put b 20 (half 2)
    let b := put b 32 (part b 22 6)
    let b := put b 38 (part b 28 4)
    let b := put b 22 (List.ofFn w.mac)
    let b := put b 28 ADDR
    send (b, [])
  else
    (b, [])

def icmp (w : World) (b : List UInt8) : Outcome Sending := do
  let b := setIpChecksum (swapIp (swapEth w b))
  let b := put b 34 [0]
  let b := put b 36 (half 0)
  let len ← subChecked (be16 b 16) 20
  let payload ← range (b.drop 34) 0 len
  pure (send (put b 36 (half (checksum payload)), []))

/-- One piece of output, as a packet. -/
def reply (s : Sending) (output : List UInt8) : Outcome Sending := do
  let b := put s.1 16 (half ((8 + output.length + 20) % 65536))
  let b := setIpChecksum b
  let b := put b 38 [UInt8.ofNat ((8 + output.length) / 256)]
  let low ← addChecked 8 (output.length % 256) 8
  let b := put b 39 [UInt8.ofNat low, 0, 0]
  let _ ← range (b.drop 34) 8 (8 + output.length)
  pure (send (put b 42 output, s.2))

/-- `line[..(length - 8)].copy_from_slice(&ip_payload[8..length])`, in 1024 zeroed bytes. -/
def lineOf (b : List UInt8) : Outcome (List UInt8) := do
  let length := be16 b 38
  let len ← subChecked length 8
  let _ ← range (List.replicate 1024 0) 0 len
  let payload ← range (b.drop 34) 8 length
  pure (put (List.replicate 1024 0) 0 payload)

/-- UDP, port 44. -/
def udp (w : World) (b : List UInt8) (sh : Shell) : Outcome (Shell × Sending × Bool) := do
  let line ← lineOf b
  let b := swapIp (swapEth w b)
  let (s0, d0) := (part b 34 2, part b 36 2)
  let b := put (put b 34 d0) 36 s0
  let (sh, s, exit) ← sh.doLine w reply line (b, [])
  if exit then
    pure (sh, s, true)
  else
    let b := setIpChecksum (put s.1 16 (half (8 + 1 + 20)))
    let b := put b 38 [0, 9, 0, 0, 10]
    pure (sh, send (b, s.2), false)

/-- One iteration of `Net::run`: the shell, the frames that were sent, and whether `run` returns. -/
def iteration (w : World) (frame : Frame) (sh : Shell) :
    Outcome (Shell × List (List UInt8) × Bool) := do
  let b := frame.bytes
  if be16 b 12 = 0x0806 then
    pure (sh, (arp w b).2, false)
  else if be16 b 12 = 0x0800 ∧ part b 30 4 = ADDR then
    if byte b 23 = 0x1 then do
      let s ← icmp w b
      pure (sh, s.2, false)
    else if byte b 23 = 0x11 ∧ byte b 36 = 0 ∧ byte b 37 = 44 then do
      let (sh, s, exit) ← udp w b sh
      pure (sh, s.2, exit)
    else
      pure (sh, [], false)
  else
    pure (sh, [], false)

end Apps
end Allora
