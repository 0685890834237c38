import Allora.Virtio

/-!
# How many requests the disk and the entropy source take

The drivers index the available ring with the free-running counter itself, so the 129th request
panics. Before that, the `VirtQUsed` that they share with the device runs out: its elements are two
`u16`s wide, and a device writes elements of 8 bytes. The 65th lies outside.
-/

set_option autoImplicit false

namespace Allora
namespace Virtio

open Outcome

variable {q q' : Queue} {r : Request}

namespace Queue

theorem setDescs_frame (q : Queue) (descs : List VirtQDesc) :
    (q.setDescs descs).ring = q.ring ∧ (q.setDescs descs).availIdx = q.availIdx ∧
      (q.setDescs descs).usedIdx = q.usedIdx := by
  unfold setDescs
  generalize descs.zipIdx = ds
  induction ds generalizing q with
  | nil => exact ⟨rfl, rfl, rfl⟩
  | cons d ds ih => exact ih (q.setDesc d.2 d.1)

/-- A request can be submitted as long as the counter is an index of the ring. -/
theorem submit_eq_ok_iff :
    q.submit r = ok q' ↔ q.availIdx.toNat < QUEUE_LEN ∧
      q' = { (q.setDescs r.descs).setRing q.availIdx.toNat 0 with availIdx := q.availIdx + 1 } := by
  obtain ⟨-, hidx, -⟩ := setDescs_frame q r.descs
  unfold submit pushHead
  rw [hidx]
  by_cases hlt : q.availIdx.toNat < QUEUE_LEN
  · have hbump : q.availIdx.toNat + 1 < 2 ^ 16 := Nat.lt_of_le_of_lt hlt (by decide)
    rw [if_pos hlt, ok_bind, bumpIdx]
    simp only [setRing, hidx, if_pos hbump, ok.injEq, hlt, true_and]
    exact eq_comm
  · rw [if_neg hlt, panic_bind]
    simp [hlt]

theorem request_eq_ok_iff :
    q.request r = ok q' ↔ q.availIdx.toNat < QUEUE_LEN ∧
      q' = { (q.setDescs r.descs).setRing q.availIdx.toNat 0 with
        availIdx := q.availIdx + 1, usedIdx := q.usedIdx + 1 } := by
  have hused := (setDescs_frame q r.descs).2.2
  unfold request
  rw [bind_eq_ok]
  simp only [submit_eq_ok_iff, pure_eq_ok, ok.injEq]
  constructor
  · intro h
    obtain ⟨q₁, ⟨hlt, rfl⟩, rfl⟩ := h
    exact ⟨hlt, by simp [complete, setRing, hused]⟩
  · intro h
    obtain ⟨hlt, rfl⟩ := h
    exact ⟨_, ⟨hlt, rfl⟩, by simp [complete, setRing, hused]⟩

end Queue

/-- Requests one after another, from a new queue. -/
def requests (rs : List Request) : Outcome Queue := rs.foldlM Queue.request .new

theorem requests_concat (rs : List Request) (r : Request) :
    requests (rs ++ [r]) = requests rs >>= fun q => q.request r := by
  rw [requests, List.foldlM_append]
  congr 1
  funext q
  rw [List.foldlM_cons]
  exact bind_pure _

/-- Both counters count the requests. -/
theorem requests_counters {rs : List Request} (h : rs.length ≤ QUEUE_LEN) :
    ∃ q, requests rs = ok q ∧ q.availIdx = BitVec.ofNat 16 rs.length ∧
      q.usedIdx = BitVec.ofNat 16 rs.length := by
  induction rs using List.reverseRecOn with
  | nil => exact ⟨.new, rfl, rfl, rfl⟩
  | append_singleton rs r ih =>
    rw [List.length_append, List.length_singleton] at h
    obtain ⟨q, hq, havail, hused⟩ := ih (Nat.le_of_succ_le h)
    have hlt : q.availIdx.toNat < QUEUE_LEN := by
      rw [havail, BitVec.toNat_ofNat]
      exact Nat.lt_of_le_of_lt (Nat.mod_le _ _) h
    have hreq := (Queue.request_eq_ok_iff (r := r)).mpr ⟨hlt, rfl⟩
    rw [requests_concat, hq, ok_bind, hreq, List.length_append, List.length_singleton]
    refine ⟨_, rfl, ?_, ?_⟩
    · show q.availIdx + 1 = _
      rw [havail, BitVec.ofNat_add]
      rfl
    · show q.usedIdx + 1 = _
      rw [hused, BitVec.ofNat_add]
      rfl

/-- The next request keeps to the queue: the head of its chain goes to slot `available.idx mod 128`
of the ring, the counter goes up by one without overflow, and what the device writes when it is done
lies inside `VirtQUsed`. -/
structure Keeps (q : Queue) (r : Request) : Prop where
  submits : ∃ q', q.submit r = ok q' ∧
    q'.ring = Function.update q.ring (q.availIdx.toNat % QUEUE_LEN) 0 ∧
    q'.availIdx.toNat = q.availIdx.toNat + 1
  inside : (usedElement q.usedIdx).1 + (usedElement q.usedIdx).2 ≤ USED_SIZE

theorem keeps_of_lt {n : Nat} (hn : n < 64) (havail : q.availIdx = BitVec.ofNat 16 n)
    (hused : q.usedIdx = BitVec.ofNat 16 n) (r : Request) : Keeps q r := by
  have hnat : q.availIdx.toNat = n := by
    rw [havail, BitVec.toNat_ofNat]
    exact Nat.mod_eq_of_lt (by omega)
  have hnat' : q.usedIdx.toNat = n := by rw [hused, ← havail, hnat]
  have hlt : q.availIdx.toNat < QUEUE_LEN := by
    rw [hnat, QUEUE_LEN]
    omega
  refine ⟨⟨_, Queue.submit_eq_ok_iff.mpr ⟨hlt, rfl⟩, ?_, ?_⟩, ?_⟩
  · rw [Nat.mod_eq_of_lt hlt]
    simp [Queue.setRing, (Queue.setDescs_frame q r.descs).1]
  · show (q.availIdx + 1).toNat = _
    rw [BitVec.toNat_add, hnat]
    exact Nat.mod_eq_of_lt (show n + 1 < 2 ^ 16 by omega)
  · simp only [usedElement, hnat', USED_SIZE, QUEUE_LEN]
    omega

/-- **The first 64 requests keep to the queue, and no more.** -/
theorem requests_keep_iff (rs : List Request) :
    (∀ pre r post, rs = pre ++ r :: post → ∃ q, requests pre = ok q ∧ Keeps q r) ↔
      rs.length ≤ 64 := by
  constructor
  · intro hall
    by_contra hlong
    rw [Nat.not_le] at hlong
    -- the 65th request finds both counters at 64
    obtain ⟨q, hq, hkeeps⟩ := hall (rs.take 64) rs[64] (rs.drop 65) (by simp)
    have hlen : (rs.take 64).length = 64 := List.length_take_of_le (Nat.le_of_lt hlong)
    obtain ⟨q', hq', -, hused⟩ := requests_counters
      (show (rs.take 64).length ≤ QUEUE_LEN by rw [hlen]; decide)
    cases hq.symm.trans hq'
    have hinside := hkeeps.inside
    rw [hused, hlen] at hinside
    revert hinside
    decide
  · intro hlen pre r post hrs
    have hpre : pre.length < 64 := by
      rw [hrs, List.length_append, List.length_cons] at hlen
      omega
    obtain ⟨q, hq, havail, hused⟩ := requests_counters
      (show pre.length ≤ QUEUE_LEN from Nat.le_of_lt (Nat.lt_of_lt_of_le hpre (by decide)))
    exact ⟨q, hq, keeps_of_lt hpre havail hused r⟩

/-- **The element of the 65th request lies outside**: it ends at byte 524 of 520. -/
theorem used_element_outside :
    ¬ ∀ (rs pre : List Request) (r : Request) (post : List Request), rs = pre ++ r :: post →
      ∃ q, requests pre = ok q ∧ Keeps q r := by
  intro hall
  obtain ⟨q, hq, hkeeps⟩ := hall _ (List.replicate 64 (.entropyRead 0 1)) (.entropyRead 0 1) [] rfl
  obtain ⟨q', hq', -, hused⟩ := requests_counters
    (show (List.replicate 64 (Request.entropyRead 0 1)).length ≤ QUEUE_LEN by decide)
  cases hq.symm.trans hq'
  have hinside := hkeeps.inside
  rw [hused, List.length_replicate] at hinside
  revert hinside
  decide

end Virtio
end Allora
