import Allora.Apps
import Allora.Lib.Bytes

/-!
# The shell on any devices

The loops of the shell ask a disk for sectors, and a source of random bytes. Here the three requests
are parameters. `Devices.drivers` puts the drivers in for them, and the loops are those of `Shell`
then. An honest disk is one that answers with what it has and keeps what it is given; it never runs
out of ring, as the drivers do.
-/

set_option autoImplicit false

namespace Allora
namespace Apps

open Outcome Bytes

/-- What the shell asks devices in a state `δ` for. -/
structure Devices (δ : Type) where
  entropyRead : δ → Nat → Outcome (δ × List UInt8)
  blkRead : δ → Nat → List UInt8 → Outcome (δ × List UInt8)
  blkWrite : δ → Nat → List UInt8 → Outcome δ

namespace Devices

variable {δ σ : Type} (D : Devices δ) (f : σ → List UInt8 → Outcome σ)

/-- The loop of `write_random`. -/
def writeRandomLoop (d : δ) (sector len : Nat) : Outcome δ :=
  if len = 0 then
    ok d
  else do
    let curlen := min 512 len
    let (d, curbuf) ← D.entropyRead d curlen
    let outdata := curbuf.map Shell.printable ++ List.replicate (512 - curlen) 0
    let d ← D.blkWrite d sector outdata
    let sector ← addChecked 64 sector 1
    writeRandomLoop d sector (len - curlen)
  termination_by len

/-- `write_random`. -/
def writeRandom (d : δ) (words : List (List UInt8)) (s : σ) : Outcome (δ × σ) := do
  let d ← D.writeRandomLoop d (argument words 0 0) (argument words 1 0)
  let s ← f s (ascii ['d', 'o', 'n', 'e'])
  pure (d, s)

/-- The loop of `read`. -/
def readLoop (d : δ) (sector : Nat) (data : List UInt8) (len : Nat) (s : σ) : Outcome (δ × σ) := do
  let (d, data) ← D.blkRead d sector data
  if _h : len > 512 then
    let s ← f s data
    readLoop d sector data (len - 512) s
  else
    let s ← f s (data.take len)
    pure (d, s)
  termination_by len
  decreasing_by omega

/-- `read`. -/
def read (d : δ) (words : List (List UInt8)) (s : σ) : Outcome (δ × σ) :=
  D.readLoop f d (argument words 0 0) (List.replicate 512 0) (argument words 1 512) s

/-- The virtio drivers. -/
def drivers (w : World) : Devices Shell where
  entropyRead := Shell.entropyRead w
  blkRead := Shell.blkRead w
  blkWrite := Shell.blkWrite w

/-- The same devices, with a log of the sectors that were written. -/
def logged : Devices (δ × List (Nat × List UInt8)) where
  entropyRead d n := do
    let (d₁, bs) ← D.entropyRead d.1 n
    pure ((d₁, d.2), bs)
  blkRead d sector data := do
    let (d₁, bs) ← D.blkRead d.1 sector data
    pure ((d₁, d.2), bs)
  blkWrite d sector bs := do
    let d₁ ← D.blkWrite d.1 sector bs
    pure (d₁, d.2 ++ [(sector, bs)])

/-- A disk whose `read` answers with the bytes that it has. -/
structure Honest (D : Devices δ) (disk : δ → Memory) : Prop where
  read : ∀ d sector data, ∃ d', D.blkRead d sector data =
    ok (d', slice (disk d) (512 * sector) 512) ∧ disk d' = disk d
  write : ∀ {d d' sector bs}, D.blkWrite d sector bs = ok d' →
    disk d' = store (disk d) (512 * sector) bs
  random : ∀ {d d' n bs}, D.entropyRead d n = ok (d', bs) → bs.length = n ∧ disk d' = disk d

/-- A disk in memory. -/
def ram : Devices Memory where
  entropyRead d n := ok (d, List.replicate n 0)
  blkRead d sector _ := ok (d, slice d (512 * sector) 512)
  blkWrite d sector bs := ok (store d (512 * sector) bs)

theorem ram_honest : Honest ram id where
  read d sector _ := ⟨d, rfl, rfl⟩
  write h := (Outcome.ok.inj h).symm
  random h := by
    cases h
    exact ⟨List.length_replicate, rfl⟩

end Devices

/-! ## With the drivers -/

theorem Shell.writeRandomLoop_drivers (w : World) {sh : Shell} {sector len : Nat} :
    (Devices.drivers w).writeRandomLoop sh sector len = sh.writeRandomLoop w sector len := by
  induction len using Nat.strongRecOn generalizing sh sector with
  | ind len ih =>
    rw [Devices.writeRandomLoop, Shell.writeRandomLoop]
    by_cases h0 : len = 0
    · rw [if_pos h0, if_pos h0]
    · rw [if_neg h0, if_neg h0]
      simp only [ih (len - min 512 len) (by omega)]
      rfl

theorem Shell.readLoop_drivers {σ : Type} (w : World) (f : σ → List UInt8 → Outcome σ)
    {sector len : Nat} {sh : Shell} {data : List UInt8} {s : σ} :
    (Devices.drivers w).readLoop f sh sector data len s = sh.readLoop w f sector data len s := by
  induction len using Nat.strongRecOn generalizing sh data s with
  | ind len ih =>
    rw [Devices.readLoop, Shell.readLoop]
    by_cases hlen : len > 512
    · simp only [dif_pos hlen, ih (len - 512) (by omega)]
      rfl
    · simp only [dif_neg hlen]
      rfl

/-- **`read` and `write_random` are these loops with the drivers put in.** -/
theorem Shell.commands_drivers {σ : Type} (w : World) (f : σ → List UInt8 → Outcome σ) (sh : Shell)
    (words : List (List UInt8)) (s : σ) :
    (Devices.drivers w).read f sh words s = sh.read w f words s ∧
      (Devices.drivers w).writeRandom f sh words s = sh.writeRandom w f words s := by
  constructor
  · exact readLoop_drivers w f
  · rw [Devices.writeRandom, writeRandomLoop_drivers]
    rfl

end Apps
end Allora
