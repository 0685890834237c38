import Allora.Disk
import Allora.Proof.Apps.Emits

/-!
# What `read` makes of a disk

`write_random` goes from sector to sector, and what it has written lies on the disk in one piece.
`read` counts the length down but stays at its sector. So it emits the first 512 bytes over and
over, and these are the bytes that were asked for only where the disk repeats itself.
-/

set_option autoImplicit false

namespace Allora
namespace Apps

open Outcome Bytes Devices

/-- The first 512 bytes at `p` over and over, `len` bytes in all. -/
def cycle (mem : Memory) (p len : Nat) : List UInt8 :=
  (List.range len).map fun i => mem (p + i % 512)

/-- From `p` on there is nothing new after 512 bytes. -/
def Repeats (mem : Memory) (p len : Nat) : Prop := ∀ i < len, mem (p + i % 512) = mem (p + i)

theorem cycle_eq_slice_iff {mem : Memory} {p len : Nat} :
    cycle mem p len = slice mem p len ↔ Repeats mem p len := by
  simp only [cycle, slice, List.map_inj_left, List.mem_range, Repeats]

theorem cycle_of_le {mem : Memory} {p len : Nat} (h : len ≤ 512) :
    cycle mem p len = slice mem p len := by
  rw [cycle_eq_slice_iff]
  intro i hi
  rw [Nat.mod_eq_of_lt (by omega)]

theorem cycle_add (mem : Memory) (p len : Nat) :
    cycle mem p (512 + len) = slice mem p 512 ++ cycle mem p len := by
  rw [← cycle_of_le (Nat.le_refl 512)]
  simp only [cycle, List.range_add, List.map_append, List.map_map]
  congr 2
  funext i
  simp only [Function.comp_apply, Nat.add_mod_left]

namespace Devices

variable {δ σ : Type} {D : Devices δ} {disk : δ → Memory} {f : σ → List UInt8 → Outcome σ}
  {d d' : δ} {s s' : σ} {sector len : Nat}

/-- **The loop of `read`**: the disk stays, and the pieces are the first sector again and again. -/
theorem readLoop_spec (hD : Honest D disk) {data : List UInt8} {acc : List (List UInt8)} :
    ∃ d' outs, D.readLoop record d sector data len acc = ok (d', acc ++ outs) ∧
      disk d' = disk d ∧ outs.flatten = cycle (disk d) (512 * sector) len := by
  induction len using Nat.strongRecOn generalizing d data acc with
  | ind len ih =>
    obtain ⟨d₁, hread, hdisk⟩ := hD.read d sector data
    rw [readLoop, hread, ok_bind]
    by_cases hlen : len > 512
    · simp only [dif_pos hlen, record, ok_bind]
      obtain ⟨d₂, outs, hloop, hdisk₂, houts⟩ := ih (len - 512) (by omega)
      refine ⟨d₂, slice (disk d) (512 * sector) 512 :: outs, ?_, hdisk₂.trans hdisk, ?_⟩
      · rw [hloop, List.append_assoc, List.singleton_append]
      · rw [List.flatten_cons, houts, hdisk, ← cycle_add, Nat.add_sub_of_le (by omega)]
    · simp only [dif_neg hlen, record, ok_bind, pure_eq_ok]
      refine ⟨d₁, [(slice (disk d) (512 * sector) 512).take len], rfl, hdisk, ?_⟩
      rw [List.flatten_singleton, slice_take _ _ (by omega), cycle_of_le (by omega)]

theorem read_spec (hD : Honest D disk) (d : δ) (words : List (List UInt8)) :
    ∃ d' outs, D.read record d words [] = ok (d', outs) ∧
      outs.flatten = cycle (disk d) (512 * argument words 0 0) (argument words 1 512) := by
  obtain ⟨d', outs, hloop, -, houts⟩ := readLoop_spec hD
  exact ⟨d', outs, hloop, houts⟩

/-! ## Writing -/

theorem logged_entropyRead {log log' : List (Nat × List UInt8)} {n : Nat} {bs : List UInt8} :
    D.logged.entropyRead (d, log) n = ok ((d', log'), bs) ↔
      D.entropyRead d n = ok (d', bs) ∧ log' = log := by
  simp only [logged, bind_eq_ok, pure_eq_ok, Outcome.ok.injEq, Prod.mk.injEq]
  constructor
  · rintro ⟨⟨d₁, bs₁⟩, h, ⟨rfl, rfl⟩, rfl⟩
    exact ⟨h, rfl⟩
  · rintro ⟨h, rfl⟩
    exact ⟨_, h, ⟨rfl, rfl⟩, rfl⟩

theorem logged_blkWrite {log log' : List (Nat × List UInt8)} {bs : List UInt8} :
    D.logged.blkWrite (d, log) sector bs = ok (d', log') ↔
      D.blkWrite d sector bs = ok d' ∧ log' = log ++ [(sector, bs)] := by
  simp only [logged, bind_eq_ok, pure_eq_ok, Outcome.ok.injEq, Prod.mk.injEq]
  constructor
  · rintro ⟨d₁, h, rfl, rfl⟩
    exact ⟨h, rfl⟩
  · rintro ⟨h, rfl⟩
    exact ⟨d', h, rfl, rfl⟩

/-- What a run of `write_random` logs: sectors one after the other, which the disk has then. -/
structure Written (sector len : Nat) (new : List (Nat × List UInt8)) : Prop where
  sectors : new.map Prod.fst = List.range' sector new.length
  long : len ≤ ((new.map Prod.snd).flatten).length
  full : ∀ b ∈ new, b.2.length = 512

/-- **The loop of `write_random`**: by induction on the length that is left; a sector lies right
before those that are written after it. -/
theorem writeRandomLoop_spec (hD : Honest D disk) {log log' : List (Nat × List UInt8)}
    (h : D.logged.writeRandomLoop (d, log) sector len = ok (d', log')) :
    ∃ new, log' = log ++ new ∧ Written sector len new ∧
      disk d' = store (disk d) (512 * sector) (new.map Prod.snd).flatten := by
  induction len using Nat.strongRecOn generalizing d log sector with
  | ind len ih =>
    rw [writeRandomLoop] at h
    by_cases h0 : len = 0
    · rw [if_pos h0] at h
      cases h
      refine ⟨[], (List.append_nil _).symm, ⟨rfl, by omega, by simp⟩, ?_⟩
      simp
    · rw [if_neg h0] at h
      obtain ⟨⟨⟨d₁, log₁⟩, bs⟩, hrandom, h⟩ := bind_eq_ok.mp h
      obtain ⟨⟨d₂, log₂⟩, hwrite, h⟩ := bind_eq_ok.mp h
      obtain ⟨sector', hadd, h⟩ := bind_eq_ok.mp h
      obtain ⟨hrandom₁, rfl⟩ := logged_entropyRead.mp hrandom
      obtain ⟨hwrite₁, rfl⟩ := logged_blkWrite.mp hwrite
      have hsector := addChecked_exactly.post hadd
      subst hsector
      obtain ⟨hbs, hdisk₁⟩ := hD.random hrandom₁
      have hdisk₂ := hD.write hwrite₁
      obtain ⟨new, rfl, hnew, hdisk⟩ := ih (len - min 512 len) (by omega) h
      generalize hblock : bs.map Shell.printable ++ List.replicate (512 - min 512 len) 0 = block
        at *
      have hfull : block.length = 512 := by
        rw [← hblock, List.length_append, List.length_map, hbs, List.length_replicate]
        omega
      refine ⟨(sector, block) :: new, by rw [List.append_assoc, List.singleton_append], ?_, ?_⟩
      · constructor
        · rw [List.map_cons, List.length_cons, List.range'_succ, hnew.sectors]
        · have hlong := hnew.long
          rw [List.map_cons, List.flatten_cons, List.length_append, hfull]
          omega
        · exact List.forall_mem_cons.mpr ⟨hfull, hnew.full⟩
      · rw [hdisk, hdisk₂, hdisk₁, List.map_cons, List.flatten_cons, ← store_append, hfull,
          Nat.mul_add]

/-! ## Reading it back -/

/-- **`read` hands on the bytes of the disk exactly where the disk repeats its first sector**, and
the bytes that `write_random` has written exactly where they repeat theirs. -/
theorem read_exact_iff (hD : Honest D disk) {words : List (List UInt8)}
    (hsector : argument words 0 0 = sector) (hlen : argument words 1 512 = len) :
    (∀ d, ∃ d' outs, D.read record d words [] = ok (d', outs) ∧
      (outs.flatten = slice (disk d) (512 * sector) len ↔
        Repeats (disk d) (512 * sector) len)) ∧
    ∀ {σ : Type} {f : σ → List UInt8 → Outcome σ} {d d' given log s s'},
      argument given 0 0 = sector → argument given 1 0 = len →
      D.logged.writeRandom f (d, []) given s = ok ((d', log), s') →
      log.map Prod.fst = List.range' sector log.length ∧
        ∃ d'' outs, D.read record d' words [] = ok (d'', outs) ∧
          (outs.flatten = (log.map Prod.snd).flatten.take len ↔
            Repeats (disk d') (512 * sector) len) := by
  subst hsector hlen
  constructor
  · intro d
    obtain ⟨d', outs, hread, houts⟩ := read_spec hD d words
    exact ⟨d', outs, hread, houts ▸ cycle_eq_slice_iff⟩
  · intro σ f d d' given log s s' hgiven hlen hwrite
    obtain ⟨⟨d₁, log₁⟩, hloop, hwrite⟩ := bind_eq_ok.mp hwrite
    obtain ⟨s₁, -, hend⟩ := bind_eq_ok.mp hwrite
    cases hend
    obtain ⟨new, hnew, hwritten, hdisk⟩ := writeRandomLoop_spec hD hloop
    rw [List.nil_append] at hnew
    subst hnew
    rw [hgiven] at hdisk hwritten
    rw [hlen] at hwritten
    obtain ⟨d'', outs, hread, houts⟩ := read_spec hD d' words
    -- what has been written is what lies there
    have hslice : slice (disk d') (512 * argument words 0 0) (argument words 1 512) =
        (log.map Prod.snd).flatten.take (argument words 1 512) := by
      rw [← slice_take _ _ hwritten.long, hdisk, slice_store]
    exact ⟨hwritten.sectors, d'', outs, hread, by rw [houts, ← hslice, cycle_eq_slice_iff]⟩

/-- A disk in memory takes every sector. -/
theorem ram_writes {d : Memory} {log : List (Nat × List UInt8)} (h : sector + len < 2 ^ 64) :
    (ram.logged.writeRandomLoop (d, log) sector len).Returns := by
  induction len using Nat.strongRecOn generalizing d log sector with
  | ind len ih =>
    rw [writeRandomLoop]
    by_cases h0 : len = 0
    · rw [if_pos h0]
      exact ⟨_, rfl⟩
    · rw [if_neg h0]
      simp only [logged, ram, ok_bind, pure_eq_ok]
      rw [addChecked, if_pos (by omega), ok_bind]
      exact ih (len - min 512 len) (by omega) (by omega)

/-- `0 600`: on a disk that repeats itself, and on a new one that is written first. -/
theorem read_exact_iff_ram :
    (∃ d' outs, ram.read record (fun a => UInt8.ofNat a) [[48], [54, 48, 48]] [] = ok (d', outs) ∧
      outs.flatten = slice (fun a => UInt8.ofNat a) 0 600) ∧
    ∃ d' log, ram.logged.writeRandom record (fun _ => 0, []) [[48], [54, 48, 48]] [] =
        ok ((d', log), [ascii ['d', 'o', 'n', 'e']]) ∧
      log.map Prod.fst = List.range' 0 log.length := by
  have hsector : argument [[48], [54, 48, 48]] 0 0 = 0 := rfl
  have hlen : ∀ default, argument [[48], [54, 48, 48]] 1 default = 600 := fun _ => rfl
  obtain ⟨hread, hback⟩ := read_exact_iff ram_honest hsector (hlen 512)
  constructor
  · obtain ⟨d', outs, hrun, hiff⟩ := hread fun a => UInt8.ofNat a
    refine ⟨d', outs, hrun, hiff.mpr fun i _ => ?_⟩
    show UInt8.ofNat (512 * 0 + i % 512) = UInt8.ofNat (512 * 0 + i)
    rw [← UInt8.toNat_inj, UInt8.toNat_ofNat', UInt8.toNat_ofNat']
    omega
  · have hreturns : (ram.logged.writeRandomLoop (fun _ => 0, []) 0 600).Returns :=
      ram_writes (by decide)
    obtain ⟨⟨d', log⟩, hloop⟩ := hreturns
    have hrun : ram.logged.writeRandom record (fun _ => 0, []) [[48], [54, 48, 48]] [] =
        ok ((d', log), [ascii ['d', 'o', 'n', 'e']]) := by
      rw [writeRandom, hsector, hlen 0, hloop]
      rfl
    exact ⟨d', log, hrun, (hback hsector (hlen 0) hrun).1⟩

/-- `0 513`, where the second sector is another one. -/
theorem second_sector_missed :
    ∃ d' outs, ram.read record (fun a => if a < 512 then 0 else 1) [[48], [53, 49, 51]] [] =
        ok (d', outs) ∧
      outs.flatten ≠ slice (fun a => if a < 512 then 0 else 1) 0 513 := by
  obtain ⟨d', outs, hread, houts⟩ :=
    read_spec ram_honest (fun a => if a < 512 then 0 else 1) [[48], [53, 49, 51]]
  refine ⟨d', outs, hread, fun heq => ?_⟩
  have hrep := cycle_eq_slice_iff.mp (houts.symm.trans heq)
  exact absurd (hrep 512 (by decide)) (by decide)

end Devices
end Apps
end Allora
