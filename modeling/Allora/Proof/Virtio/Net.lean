import Allora.Virtio

/-!
# One chain at a time

The driver waits for `used.idx = available.idx` and knows nothing else about the device. That this
is enough is an invariant over the cursors of both: at a queue where no call is in progress
everything has caught up, `last_avail` included (`Resting`), and the one call in progress is ahead by
one from the moment it moves `available.idx` (`Flying`) until the device has counted its chain as
used (`Done`). The counters are never compared except for equality, so it makes no difference that
they wrap. The same phases show that nobody is ever stuck: one of the two can always bring the call
in progress closer to its end (`toGo`).
-/

set_option autoImplicit false

namespace Allora
namespace Virtio

variable {s : Net} {es : List NetEvent} {c : NetCall} {qnum : Qnum}

/-! ## Traces -/

@[simp] theorem begun_append (es es' : List NetEvent) : begun (es ++ es') = begun es ++ begun es' :=
  List.filterMap_append

@[simp] theorem returned_append (es es' : List NetEvent) :
    returned (es ++ es') = returned es ++ returned es' :=
  List.filterMap_append

@[simp] theorem usedChains_append (qnum : Qnum) (es es' : List NetEvent) :
    usedChains qnum (es ++ es') = usedChains qnum es ++ usedChains qnum es' :=
  List.filterMap_append

@[simp] theorem chainsOf_append (qnum : Qnum) (cs cs' : List NetCall) :
    chainsOf qnum (cs ++ cs') = chainsOf qnum cs ++ chainsOf qnum cs' := by
  simp [chainsOf]

theorem chainsOf_self (c : NetCall) : chainsOf c.qnum [c] = [c.chain] := by simp [chainsOf]

/-! ## The invariant -/

/-- What there is at one queue: the queue itself, the device, the chains it has used, and the chains
of the calls that have returned. -/
structure Side where
  queue : Queue
  device : Device
  used : List (List VirtQDesc)
  done : List (List VirtQDesc)

def side (s : Net) (es : List NetEvent) (qnum : Qnum) : Side :=
  ⟨s.queues qnum, s.devices qnum, usedChains qnum es, chainsOf qnum (returned es)⟩

/-- Nothing is under way. -/
structure Quiet (v : Side) : Prop where
  task : v.device.task = none
  taken : v.device.lastAvail = v.queue.availIdx
  used : v.queue.usedIdx = v.queue.availIdx

/-- No call is in progress, and the device has used the chains of those that were. -/
def Resting (v : Side) : Prop := Quiet v ∧ v.used = v.done

/-- Both descriptors of the call are in place. -/
def Placed (v : Side) (c : NetCall) : Prop :=
  v.queue.descriptors 0 = c.desc0 ∧ v.queue.descriptors 1 = c.desc1

/-- How far the device can be in reading the chain of `c`. -/
def Reading (c : NetCall) (t : Task) : Prop :=
  t = ⟨[], some 0⟩ ∨ t = ⟨[c.desc0], some 1⟩ ∨ t = ⟨c.chain, none⟩

/-- The device has not taken the chain that is available, or is reading it. -/
def Taking (v : Side) (c : NetCall) : Prop :=
  (v.device.task = none ∧ v.device.lastAvail = v.queue.usedIdx ∧
    v.queue.ring (v.queue.usedIdx.toNat % QUEUE_LEN) = 0) ∨
  v.device.lastAvail = v.queue.availIdx ∧ ∃ t, v.device.task = some t ∧ Reading c t

/-- The device owns the chain of `c`. -/
structure Flying (v : Side) (c : NetCall) : Prop where
  placed : Placed v c
  ahead : v.queue.availIdx = v.queue.usedIdx + 1
  taking : Taking v c
  chains : v.used = v.done

/-- The device has used the chain of `c`. -/
def Done (v : Side) (c : NetCall) : Prop := Quiet v ∧ v.used = v.done ++ [c.chain]

/-- What the call in progress has done so far. -/
def PcOk (v : Side) : Pc → Prop
  | .idle | .desc0 _ => Resting v
  | .desc1 c => Resting v ∧ v.queue.descriptors 0 = c.desc0
  | .ring c => Resting v ∧ Placed v c
  | .idx c => Resting v ∧ Placed v c ∧ v.queue.ring (v.queue.availIdx.toNat % QUEUE_LEN) = 0
  | .notify c | .wait c => Flying v c ∨ Done v c
  | .compare c used => Flying v c ∧ used ≠ v.queue.availIdx ∨ Done v c

/-- `calls` are all the calls there are. -/
structure Inv (calls : List NetCall) (s : Net) (es : List NetEvent) : Prop where
  all : begun es ++ s.calls = calls
  current : begun es = returned es ++ s.pc.call.toList
  own : ∀ c, s.pc.call = some c → PcOk (side s es c.qnum) s.pc
  others : ∀ qnum, s.pc.call.map NetCall.qnum ≠ some qnum → Resting (side s es qnum)

theorem inv_start (calls : List NetCall) : Inv calls (.start calls) [] where
  all := rfl
  current := rfl
  own c hc := by cases hc
  others _ _ := ⟨⟨rfl, rfl, rfl⟩, rfl⟩

theorem Inv.other {calls : List NetCall} (h : Inv calls s es) (hc : s.pc.call = some c)
    (hne : c.qnum ≠ qnum) : Resting (side s es qnum) := by
  refine h.others qnum ?_
  rw [hc]
  intro heq
  exact hne (Option.some.inj heq)

theorem Inv.own_of {calls : List NetCall} {pc : Pc} (h : Inv calls s es) (hpc : s.pc = pc)
    (hc : pc.call = some c) : PcOk (side s es c.qnum) pc := by
  subst hpc
  exact h.own c hc

/-! ## The driver -/

section Driver

variable {calls : List NetCall}

/-- The driver writes to the queue of its call; nothing is seen of it. -/
theorem Inv.write {q : Queue} {pc : Pc} (h : Inv calls s es) (hc : s.pc.call = some c)
    (hpc : pc.call = some c) (hok : PcOk { side s es c.qnum with queue := q } pc) :
    Inv calls (s.write c.qnum q pc) (es ++ []) := by
  have hside : side (s.write c.qnum q pc) es c.qnum = { side s es c.qnum with queue := q } := by
    simp [side, Net.write]
  rw [List.append_nil]
  refine ⟨h.all, ?_, fun c' hc' => ?_, fun qnum hq => ?_⟩
  · show begun es = returned es ++ pc.call.toList
    rw [h.current, hc, hpc]
  · cases hpc.symm.trans hc'
    rwa [hside]
  · have hne : c.qnum ≠ qnum := by
      intro heq
      exact hq (congrArg (Option.map NetCall.qnum) hpc |>.trans (congrArg some heq))
    simpa [side, Net.write, hne.symm] using h.other hc hne

/-- The driver goes on without writing. -/
theorem Inv.goto {pc : Pc} (h : Inv calls s es) (hc : s.pc.call = some c) (hpc : pc.call = some c)
    (hok : PcOk (side s es c.qnum) pc) : Inv calls { s with pc := pc } (es ++ []) := by
  have hwrite : s.write c.qnum (s.queues c.qnum) pc = { s with pc := pc } := by
    simp [Net.write]
  rw [← hwrite]
  exact h.write hc hpc hok

/-- A call begins. -/
theorem Inv.begins {rest : List NetCall} (h : Inv calls s es) (hpc : s.pc = .idle)
    (hcalls : s.calls = c :: rest) :
    Inv calls { s with pc := .desc0 c, calls := rest } (es ++ [.began c]) := by
  have hrest : ∀ qnum, Resting (side s es qnum) := fun qnum => h.others qnum (by simp [hpc, Pc.call])
  have hside : ∀ qnum, side { s with pc := .desc0 c, calls := rest } (es ++ [.began c]) qnum =
      side s es qnum := by
    intro qnum
    simp [side, usedChains, returned]
  refine ⟨?_, ?_, fun c' hc' => ?_, fun qnum _ => ?_⟩
  · rw [← h.all, hcalls]
    simp [begun]
  · rw [begun_append, h.current, hpc]
    simp [begun, returned, Pc.call]
  · cases hc'
    rw [hside]
    exact hrest c.qnum
  · rw [hside]
    exact hrest qnum

/-- The indices are equal: the chain has been used, and the call returns. -/
theorem Inv.returns {used : BitVec 16} (h : Inv calls s es) (hpc : s.pc = .compare c used)
    (hd : Done (side s es c.qnum) c) :
    Inv calls { s with pc := .idle } (es ++ [.returned c]) := by
  have hcall : s.pc.call = some c := by
    rw [hpc]
    rfl
  refine ⟨?_, ?_, fun c' hc' => ?_, fun qnum _ => ?_⟩
  · rw [← h.all]
    simp [begun]
  · rw [begun_append, h.current, hcall]
    simp [begun, returned, Pc.call]
  · cases hc'
  · by_cases hq : c.qnum = qnum
    · subst hq
      refine ⟨⟨hd.1.task, hd.1.taken, hd.1.used⟩, ?_⟩
      have hused := hd.2
      simpa [side, usedChains, returned, chainsOf] using hused
    · simpa [side, usedChains, returned, chainsOf, hq] using h.other hcall hq

/-- Another index is never equal to its successor. -/
theorem ne_add_one (x : BitVec 16) : x ≠ x + 1 := by bv_omega

theorem driverStep_inv (h : Inv calls s es) :
    Inv calls s.driverStep.1 (es ++ s.driverStep.2) := by
  unfold Net.driverStep
  cases hpc : s.pc with
  | idle =>
    cases hcalls : s.calls with
    | nil => simpa using h
    | cons c rest => exact h.begins hpc hcalls
  | desc0 c =>
    obtain ⟨hq, hu⟩ := h.own_of hpc rfl
    exact h.write (by rw [hpc]; rfl) rfl ⟨⟨⟨hq.task, hq.taken, hq.used⟩, hu⟩, by
      simp [Queue.setDesc]⟩
  | desc1 c =>
    obtain ⟨⟨hq, hu⟩, h0⟩ := h.own_of hpc rfl
    refine h.write (by rw [hpc]; rfl) rfl ⟨⟨⟨hq.task, hq.taken, hq.used⟩, hu⟩, ?_, ?_⟩
    · simpa [Queue.setDesc, side] using h0
    · simp [Queue.setDesc]
  | ring c =>
    obtain ⟨⟨hq, hu⟩, hplaced⟩ := h.own_of hpc rfl
    exact h.write (by rw [hpc]; rfl) rfl ⟨⟨⟨hq.task, hq.taken, hq.used⟩, hu⟩, hplaced, by
      simp [Queue.setRing]⟩
  | idx c =>
    obtain ⟨⟨hq, hu⟩, hplaced, hring⟩ := h.own_of hpc rfl
    have hused := hq.used
    -- from here on the device owns the chain
    refine h.write (by rw [hpc]; rfl) rfl (Or.inl ⟨hplaced, ?_, Or.inl ⟨hq.task, ?_, ?_⟩, hu⟩)
    · exact congrArg (· + 1) hused.symm
    · exact hq.taken.trans hused.symm
    · rw [← hused] at hring
      exact hring
  | notify c =>
    have hown := h.own_of hpc rfl
    exact h.goto (by rw [hpc]; rfl) rfl hown
  | wait c =>
    refine h.goto (by rw [hpc]; rfl) rfl ?_
    rcases h.own_of hpc rfl with hf | hd
    · refine Or.inl ⟨hf, ?_⟩
      rw [hf.ahead]
      exact ne_add_one _
    · exact Or.inr hd
  | compare c used =>
    have hown := h.own_of hpc rfl
    by_cases hne : used ≠ (s.queues c.qnum).availIdx
    · simp only [if_pos hne]
      refine h.goto (by rw [hpc]; rfl) rfl ?_
      rcases hown with hf | hd
      · exact Or.inl hf.1
      · exact Or.inr hd
    · simp only [if_neg hne]
      rcases hown with hf | hd
      · exact absurd hf.2 hne
      · exact h.returns hpc hd

end Driver

/-! ## The device -/

section Device

variable {calls : List NetCall}

/-- The device moves at a queue. What it does there is seen only as the chains it uses. -/
theorem Inv.device {s' : Net} {es' : List NetEvent} {v : Side} (h : Inv calls s es)
    (hpc : s'.pc = s.pc) (hcalls : s'.calls = s.calls) (hbegun : begun es' = [])
    (hret : returned es' = []) (hside : side s' (es ++ es') qnum = v)
    (hothers : ∀ qnum', qnum' ≠ qnum → side s' (es ++ es') qnum' = side s es qnum')
    (hown : ∀ c, s.pc.call = some c → c.qnum = qnum → PcOk v s.pc)
    (hrest : s.pc.call.map NetCall.qnum ≠ some qnum → Resting v) :
    Inv calls s' (es ++ es') := by
  refine ⟨?_, ?_, fun c hc => ?_, fun qnum' hq => ?_⟩
  · rw [begun_append, hbegun, List.append_nil, hcalls]
    exact h.all
  · rw [begun_append, returned_append, hbegun, hret, List.append_nil, List.append_nil, hpc]
    exact h.current
  · rw [hpc] at hc ⊢
    by_cases hq : c.qnum = qnum
    · rw [hq, hside]
      exact hown c hc hq
    · rw [hothers _ hq]
      exact h.own c hc
  · rw [hpc] at hq
    by_cases hqq : qnum' = qnum
    · subst hqq
      rw [hside]
      exact hrest hq
    · rw [hothers _ hqq]
      exact h.others qnum' hq

/-- The phases in which the device has something to do. -/
theorem pcOk_cases {v : Side} {pc : Pc} (hc : pc.call = some c) (h : PcOk v pc) :
    Quiet v ∨ Flying v c ∧ ∀ v' : Side, v'.queue.availIdx = v.queue.availIdx →
      Flying v' c ∨ Done v' c → PcOk v' pc := by
  cases pc with
  | idle => cases hc
  | desc0 c' => exact Or.inl h.1
  | desc1 c' => exact Or.inl h.1.1
  | ring c' => exact Or.inl h.1.1
  | idx c' => exact Or.inl h.1.1
  | notify c' =>
    cases hc
    rcases h with hf | hd
    · exact Or.inr ⟨hf, fun _ _ h' => h'⟩
    · exact Or.inl hd.1
  | wait c' =>
    cases hc
    rcases h with hf | hd
    · exact Or.inr ⟨hf, fun _ _ h' => h'⟩
    · exact Or.inl hd.1
  | compare c' used =>
    cases hc
    rcases h with hf | hd
    · refine Or.inr ⟨hf.1, fun v' hv' h' => ?_⟩
      rcases h' with hf' | hd'
      · exact Or.inl ⟨hf', hv' ▸ hf.2⟩
      · exact Or.inr hd'
    · exact Or.inl hd.1

/-- The chain of the call in progress has been used, or none but those of earlier calls. -/
theorem pcOk_chains {v : Side} {pc : Pc} (hc : pc.call = some c) (h : PcOk v pc) :
    v.used = v.done ∨ Done v c := by
  cases pc with
  | idle => cases hc
  | desc0 c' => exact Or.inl h.2
  | desc1 c' => exact Or.inl h.1.2
  | ring c' => exact Or.inl h.1.2
  | idx c' => exact Or.inl h.1.2
  | notify c' =>
    cases hc
    exact h.imp_left Flying.chains
  | wait c' =>
    cases hc
    exact h.imp_left Flying.chains
  | compare c' used =>
    cases hc
    exact h.imp_left fun hf => hf.1.chains

/-- The device does nothing at a quiet queue. -/
theorem deviceStep_quiet (h : Quiet (side s es qnum)) : s.deviceStep qnum = (s, []) := by
  have htask : (s.devices qnum).task = none := h.task
  have htaken : (s.devices qnum).lastAvail = (s.queues qnum).availIdx := h.taken
  simp only [Net.deviceStep, htask, htaken, if_pos]

/-- What the device can do to a queue and to itself, and what is seen of it. -/
theorem deviceStep_cases (s : Net) (qnum : Qnum) :
    s.deviceStep qnum = (s, []) ∨ (∃ d, s.deviceStep qnum = (s.setDevice qnum d, [])) ∨
      ∃ d got, s.deviceStep qnum = ({ s.setDevice qnum d with
        queues := Function.update s.queues qnum
          { s.queues qnum with usedIdx := (s.queues qnum).usedIdx + 1 } }, [.used qnum got]) := by
  simp only [Net.deviceStep]
  split
  · split
    · exact Or.inl rfl
    · exact Or.inr (Or.inl ⟨_, rfl⟩)
  · exact Or.inr (Or.inl ⟨_, rfl⟩)
  · exact Or.inr (Or.inr ⟨_, _, rfl⟩)

/-- What the device never touches. -/
theorem deviceStep_frame (s : Net) (qnum : Qnum) :
    (s.deviceStep qnum).1.pc = s.pc ∧ (s.deviceStep qnum).1.calls = s.calls ∧
      begun (s.deviceStep qnum).2 = [] ∧ returned (s.deviceStep qnum).2 = [] ∧
      ((s.deviceStep qnum).1.queues qnum).availIdx = (s.queues qnum).availIdx ∧
      ∀ es qnum', qnum' ≠ qnum → side (s.deviceStep qnum).1 (es ++ (s.deviceStep qnum).2) qnum' =
        side s es qnum' := by
  rcases deviceStep_cases s qnum with h | ⟨d, h⟩ | ⟨d, got, h⟩
  · rw [h]
    exact ⟨rfl, rfl, rfl, rfl, rfl, fun es qnum' _ => by rw [List.append_nil]⟩
  · rw [h]
    refine ⟨rfl, rfl, rfl, rfl, rfl, fun es qnum' hne => ?_⟩
    simp [side, Net.setDevice, hne]
  · rw [h]
    refine ⟨rfl, rfl, rfl, rfl, by simp, fun es qnum' hne => ?_⟩
    simp [side, Net.setDevice, hne, usedChains, returned, hne.symm]

/-- The chain of a call goes from its first descriptor to its second, and ends there. -/
theorem flags_desc0 (c : NetCall) : c.desc0.flags.getLsbD 0 = true := by
  unfold NetCall.desc0
  cases c.qnum
  · exact (by decide : (3 : BitVec 16).getLsbD 0 = true)
  · exact (by decide : (1 : BitVec 16).getLsbD 0 = true)

theorem flags_desc1 (c : NetCall) : c.desc1.flags.getLsbD 0 = false := by
  unfold NetCall.desc1
  cases c.qnum
  · exact (by decide : (2 : BitVec 16).getLsbD 0 = false)
  · exact (by decide : (0 : BitVec 16).getLsbD 0 = false)

/-- The device at the chain of a call: it takes it, reads its two descriptors, and counts it as
used. -/
theorem deviceStep_taking (h : Flying (side s es c.qnum) c) :
    ((s.devices c.qnum).task = none ∧ s.deviceStep c.qnum =
      (s.setDevice c.qnum ⟨(s.queues c.qnum).availIdx, some ⟨[], some 0⟩⟩, [])) ∨
    (s.devices c.qnum).lastAvail = (s.queues c.qnum).availIdx ∧
      (((s.devices c.qnum).task = some ⟨[], some 0⟩ ∧ s.deviceStep c.qnum =
          (s.setDevice c.qnum { s.devices c.qnum with task := some ⟨[c.desc0], some 1⟩ }, [])) ∨
        ((s.devices c.qnum).task = some ⟨[c.desc0], some 1⟩ ∧ s.deviceStep c.qnum =
          (s.setDevice c.qnum { s.devices c.qnum with task := some ⟨c.chain, none⟩ }, [])) ∨
        ((s.devices c.qnum).task = some ⟨c.chain, none⟩ ∧ s.deviceStep c.qnum =
          ({ s.setDevice c.qnum { s.devices c.qnum with task := none } with
            queues := Function.update s.queues c.qnum
              { s.queues c.qnum with usedIdx := (s.queues c.qnum).usedIdx + 1 } },
            [.used c.qnum c.chain]))) := by
  have hahead : (s.queues c.qnum).availIdx = (s.queues c.qnum).usedIdx + 1 := h.ahead
  have h0 : (s.queues c.qnum).descriptors 0 = c.desc0 := h.placed.1
  have h1 : (s.queues c.qnum).descriptors 1 = c.desc1 := h.placed.2
  rcases h.taking with ⟨htask, htaken, hring⟩ | ⟨htaken, t, htask, hread⟩
  · -- not taken yet: the ring says 0
    have htask' : (s.devices c.qnum).task = none := htask
    have htaken' : (s.devices c.qnum).lastAvail = (s.queues c.qnum).usedIdx := htaken
    have hring' : (s.queues c.qnum).ring ((s.queues c.qnum).usedIdx.toNat % QUEUE_LEN) = 0 := hring
    have hne : (s.queues c.qnum).usedIdx ≠ (s.queues c.qnum).availIdx := by
      rw [hahead]
      exact ne_add_one _
    refine Or.inl ⟨htask', ?_⟩
    simp only [Net.deviceStep, htask', htaken', if_neg hne, hring']
    rw [hahead]
  · have htask' : (s.devices c.qnum).task = some t := htask
    refine Or.inr ⟨htaken, ?_⟩
    rcases hread with rfl | rfl | rfl
    · -- the first descriptor has a next one
      have hzero : (0 : BitVec 16).toNat = 0 := rfl
      refine Or.inl ⟨htask', ?_⟩
      simp only [Net.deviceStep, htask', hzero, h0, flags_desc0, if_pos, List.nil_append]
      rfl
    · -- the second has none
      have hone : (1 : BitVec 16).toNat = 1 := rfl
      refine Or.inr (Or.inl ⟨htask', ?_⟩)
      simp only [Net.deviceStep, htask', hone, h1, flags_desc1]
      rfl
    · -- all of it is read
      refine Or.inr (Or.inr ⟨htask', ?_⟩)
      simp only [Net.deviceStep, htask']

/-- The device takes the chain it is given, reads it to its end, and counts it as used. -/
theorem deviceStep_flying (h : Flying (side s es c.qnum) c) :
    Flying (side (s.deviceStep c.qnum).1 (es ++ (s.deviceStep c.qnum).2) c.qnum) c ∨
      Done (side (s.deviceStep c.qnum).1 (es ++ (s.deviceStep c.qnum).2) c.qnum) c := by
  have hahead : (s.queues c.qnum).availIdx = (s.queues c.qnum).usedIdx + 1 := h.ahead
  have hchains : usedChains c.qnum es = chainsOf c.qnum (returned es) := h.chains
  rcases deviceStep_taking h with ⟨-, hstep⟩ | ⟨htaken, hreads⟩
  · rw [hstep, List.append_nil]
    refine Or.inl ⟨h.placed, hahead, Or.inr ⟨?_, ⟨[], some 0⟩, ?_, Or.inl rfl⟩, hchains⟩
    · simp [side, Net.setDevice]
    · simp [side, Net.setDevice]
  · rcases hreads with ⟨-, hstep⟩ | ⟨-, hstep⟩ | ⟨-, hstep⟩
    · rw [hstep, List.append_nil]
      refine Or.inl ⟨h.placed, hahead, Or.inr ⟨?_, ⟨[c.desc0], some 1⟩, ?_, Or.inr (Or.inl rfl)⟩,
        hchains⟩
      · simpa [side, Net.setDevice] using htaken
      · simp [side, Net.setDevice]
    · rw [hstep, List.append_nil]
      refine Or.inl ⟨h.placed, hahead, Or.inr ⟨?_, ⟨c.chain, none⟩, ?_, Or.inr (Or.inr rfl)⟩,
        hchains⟩
      · simpa [side, Net.setDevice] using htaken
      · simp [side, Net.setDevice]
    · rw [hstep]
      refine Or.inr ⟨⟨?_, ?_, ?_⟩, ?_⟩
      · simp [side, Net.setDevice]
      · simpa [side, Net.setDevice] using htaken
      · simpa [side] using hahead.symm
      · simpa [side, usedChains, returned] using hchains

theorem deviceStep_inv (h : Inv calls s es) (qnum : Qnum) :
    Inv calls (s.deviceStep qnum).1 (es ++ (s.deviceStep qnum).2) := by
  obtain ⟨hpc, hcalls, hbegun, hret, hidx, hothers⟩ := deviceStep_frame s qnum
  have hquiet : Quiet (side s es qnum) →
      Inv calls (s.deviceStep qnum).1 (es ++ (s.deviceStep qnum).2) := by
    intro hq
    rw [deviceStep_quiet hq, List.append_nil]
    exact h
  by_cases hcall : s.pc.call.map NetCall.qnum = some qnum
  · obtain ⟨c, hc, rfl⟩ := Option.map_eq_some_iff.mp hcall
    rcases pcOk_cases hc (h.own c hc) with hq | ⟨hf, hnext⟩
    · exact hquiet hq
    · refine h.device hpc hcalls hbegun hret rfl (hothers es) (fun c' _ _ => ?_) fun hne => ?_
      · exact hnext _ hidx (deviceStep_flying hf)
      · exact absurd hcall hne
  · exact hquiet (h.others qnum hcall).1

end Device

/-! ## Runs -/

theorem run_inv (calls : List NetCall) (turns : List Turn) :
    Inv calls (netMachine.run (.start calls) turns).1 (netMachine.run (.start calls) turns).2 := by
  refine netMachine.run_invariant (G := fun _ => True) (fun _ => trivial) (inv_start calls)
    (fun s es t h _ => ?_) turns trivial
  cases t with
  | driver => exact driverStep_inv h
  | device qnum => exact deviceStep_inv h qnum

/-- The device owns a chain of the queue: one is available and not used, by the counters or by what
the device itself remembers. -/
def Owns (s : Net) (qnum : Qnum) : Prop :=
  (s.queues qnum).availIdx ≠ (s.queues qnum).usedIdx ∨ (s.devices qnum).task ≠ none ∨
    (s.devices qnum).lastAvail ≠ (s.queues qnum).availIdx

/-- The driver is about to write a descriptor or a slot of the ring of this queue. -/
def Writes (s : Net) (qnum : Qnum) : Prop :=
  ∃ c : NetCall, c.qnum = qnum ∧ (s.pc = .desc0 c ∨ s.pc = .desc1 c ∨ s.pc = .ring c)

/-- Only then do they change. -/
theorem driverStep_keeps (h : ¬ Writes s qnum) :
    (s.driverStep.1.queues qnum).descriptors = (s.queues qnum).descriptors ∧
      (s.driverStep.1.queues qnum).ring = (s.queues qnum).ring := by
  have hother : ∀ (c : NetCall) (q : Queue) (pc : Pc), c.qnum ≠ qnum →
      (s.write c.qnum q pc).queues qnum = s.queues qnum := by
    intro c q pc hne
    simp [Net.write, hne.symm]
  cases hpc : s.pc with
  | idle =>
    cases hcalls : s.calls with
    | nil => simp [Net.driverStep, hpc, hcalls]
    | cons c rest => simp [Net.driverStep, hpc, hcalls]
  | desc0 c =>
    have hne : c.qnum ≠ qnum := fun hq => h ⟨c, hq, Or.inl hpc⟩
    simp [Net.driverStep, hpc, hother _ _ _ hne]
  | desc1 c =>
    have hne : c.qnum ≠ qnum := fun hq => h ⟨c, hq, Or.inr (Or.inl hpc)⟩
    simp [Net.driverStep, hpc, hother _ _ _ hne]
  | ring c =>
    have hne : c.qnum ≠ qnum := fun hq => h ⟨c, hq, Or.inr (Or.inr hpc)⟩
    simp [Net.driverStep, hpc, hother _ _ _ hne]
  | idx c =>
    by_cases hq : qnum = c.qnum
    · simp [Net.driverStep, hpc, Net.write, hq]
    · simp [Net.driverStep, hpc, Net.write, hq]
  | notify c => simp [Net.driverStep, hpc]
  | wait c => simp [Net.driverStep, hpc]
  | compare c used =>
    by_cases hu : used = (s.queues c.qnum).availIdx
    · simp [Net.driverStep, hpc, hu]
    · simp [Net.driverStep, hpc, hu]

/-- At most one chain is under way. -/
theorem Inv.window {calls : List NetCall} (h : Inv calls s es) (qnum : Qnum) :
    (s.queues qnum).availIdx - (s.queues qnum).usedIdx = 0 ∨
      (s.queues qnum).availIdx - (s.queues qnum).usedIdx = 1 := by
  have hquiet : Quiet (side s es qnum) →
      (s.queues qnum).availIdx - (s.queues qnum).usedIdx = 0 := by
    intro hq
    rw [show (s.queues qnum).usedIdx = (s.queues qnum).availIdx from hq.used]
    exact BitVec.sub_self _
  by_cases hcall : s.pc.call.map NetCall.qnum = some qnum
  · obtain ⟨c, hc, rfl⟩ := Option.map_eq_some_iff.mp hcall
    rcases pcOk_cases hc (h.own c hc) with hq | ⟨hf, -⟩
    · exact Or.inl (hquiet hq)
    · refine Or.inr ?_
      rw [show (s.queues c.qnum).availIdx = (s.queues c.qnum).usedIdx + 1 from hf.ahead]
      bv_omega
  · exact Or.inl (hquiet (h.others qnum hcall).1)

/-- While the driver writes, nothing is under way. -/
theorem Inv.not_owns {calls : List NetCall} (h : Inv calls s es) (hw : Writes s qnum) :
    ¬ Owns s qnum := by
  have hq : Quiet (side s es qnum) := by
    obtain ⟨c, rfl, hpc | hpc | hpc⟩ := hw
    · exact (h.own_of hpc rfl).1
    · exact (h.own_of hpc rfl).1.1
    · exact (h.own_of hpc rfl).1.1
  intro howns
  rcases howns with hne | hne | hne
  · exact hne hq.used.symm
  · exact hne hq.task
  · exact hne hq.taken

/-- The device has used the chains of the calls that have returned, and perhaps that of the call in
progress. -/
theorem Inv.chains {calls : List NetCall} (h : Inv calls s es) (qnum : Qnum) :
    chainsOf qnum (returned es) <+: usedChains qnum es ∧
      usedChains qnum es <+: chainsOf qnum (begun es) := by
  rw [h.current, chainsOf_append]
  have hequal : usedChains qnum es = chainsOf qnum (returned es) →
      chainsOf qnum (returned es) <+: usedChains qnum es ∧ usedChains qnum es <+:
        chainsOf qnum (returned es) ++ chainsOf qnum s.pc.call.toList := by
    intro heq
    rw [heq]
    exact ⟨List.prefix_rfl, List.prefix_append _ _⟩
  by_cases hcall : s.pc.call.map NetCall.qnum = some qnum
  · obtain ⟨c, hc, rfl⟩ := Option.map_eq_some_iff.mp hcall
    have hdone : Done (side s es c.qnum) c → chainsOf c.qnum (returned es) <+:
        usedChains c.qnum es ∧ usedChains c.qnum es <+:
          chainsOf c.qnum (returned es) ++ chainsOf c.qnum s.pc.call.toList := by
      intro hd
      rw [show usedChains c.qnum es = chainsOf c.qnum (returned es) ++ [c.chain] from hd.2, hc]
      rw [Option.toList_some, chainsOf_self]
      exact ⟨List.prefix_append _ _, List.prefix_rfl⟩
    have hown := h.own c hc
    rcases pcOk_chains hc hown with heq | hd
    · exact hequal heq
    · exact hdone hd
  · exact hequal (h.others qnum hcall).2

/-- Calls in turn, at every moment: at each queue the counters are equal or one apart, the driver
leaves descriptors and ring alone while the device owns a chain, the device has used exactly the
chains that the calls set up, in order, and a call has returned only if its chain has been used. -/
structure InTurn (calls : List NetCall) (s : Net) (es : List NetEvent) : Prop where
  all : begun es ++ s.calls = calls
  current : begun es = returned es ++ s.pc.call.toList
  window : ∀ qnum, (s.queues qnum).availIdx - (s.queues qnum).usedIdx = 0 ∨
    (s.queues qnum).availIdx - (s.queues qnum).usedIdx = 1
  exclusive : ∀ qnum, Owns s qnum → ¬ Writes s qnum ∧
    (s.driverStep.1.queues qnum).descriptors = (s.queues qnum).descriptors ∧
    (s.driverStep.1.queues qnum).ring = (s.queues qnum).ring
  returned_used : ∀ qnum, chainsOf qnum (returned es) <+: usedChains qnum es
  used_begun : ∀ qnum, usedChains qnum es <+: chainsOf qnum (begun es)

/-- **Driver and device agree on one chain at a time**, for all calls and all interleavings. -/
theorem net_calls_in_turn (calls : List NetCall) (turns : List Turn) :
    InTurn calls (netMachine.run (.start calls) turns).1
      (netMachine.run (.start calls) turns).2 := by
  have h := run_inv calls turns
  refine ⟨h.all, h.current, h.window, fun qnum howns => ?_, fun qnum => (h.chains qnum).1,
    fun qnum => (h.chains qnum).2⟩
  have hw : ¬ Writes _ qnum := fun hw => h.not_owns hw howns
  exact ⟨hw, driverStep_keeps hw⟩

/-! ## Progress -/

/-- The steps that the device still has to make for the call in progress at a queue. -/
def left (s : Net) (qnum : Qnum) : Nat :=
  if (s.queues qnum).usedIdx = (s.queues qnum).availIdx then 0
  else
    match (s.devices qnum).task with
    | none => 4
    | some ⟨_, some i⟩ => if i = 0 then 3 else 2
    | some ⟨_, none⟩ => 1

/-- How far the driver is from the end of its calls. A comparison with an old `used.idx` sends it back
to the loop. -/
def toGo (s : Net) : Nat :=
  13 * s.calls.length +
    match s.pc with
    | .idle => 0
    | .desc0 _ => 12
    | .desc1 _ => 11
    | .ring _ => 10
    | .idx _ => 9
    | .notify c => 4 + left s c.qnum
    | .wait c => 2 + left s c.qnum
    | .compare c used => (if used = (s.queues c.qnum).availIdx then 1 else 3) + left s c.qnum

theorem left_le (s : Net) (qnum : Qnum) : left s qnum ≤ 4 := by
  rw [left]
  split
  · exact Nat.zero_le 4
  · split
    · exact Nat.le_refl 4
    · split <;> decide
    · decide

/-- Every step of the device at the chain in progress is one less. -/
theorem left_flying (h : Flying (side s es c.qnum) c) :
    left (s.deviceStep c.qnum).1 c.qnum < left s c.qnum := by
  have hahead : (s.queues c.qnum).availIdx = (s.queues c.qnum).usedIdx + 1 := h.ahead
  have hne : (s.queues c.qnum).usedIdx ≠ (s.queues c.qnum).availIdx := by
    rw [hahead]
    exact ne_add_one _
  rcases deviceStep_taking h with ⟨htask, hstep⟩ | ⟨-, hreads⟩
  · rw [hstep]
    simp [left, Net.setDevice, htask, hne]
  · rcases hreads with ⟨htask, hstep⟩ | ⟨htask, hstep⟩ | ⟨htask, hstep⟩
    · rw [hstep]
      simp [left, Net.setDevice, htask, hne]
    · rw [hstep]
      simp [left, Net.setDevice, htask, hne]
    · rw [hstep]
      simp [left, htask, hahead]

/-- The device brings its own part down, and touches nothing else that counts. -/
theorem toGo_flying (h : Flying (side s es c.qnum) c)
    (hpc : s.pc = .notify c ∨ s.pc = .wait c ∨ ∃ used, s.pc = .compare c used) :
    toGo (s.deviceStep c.qnum).1 < toGo s := by
  obtain ⟨hsame, hcalls, -, -, hidx, -⟩ := deviceStep_frame s c.qnum
  have hlt := left_flying h
  rw [toGo, toGo, hsame, hcalls]
  apply Nat.add_lt_add_left
  rcases hpc with hpc | hpc | ⟨used, hpc⟩
  · rw [hpc]
    exact Nat.add_lt_add_left hlt 4
  · rw [hpc]
    exact Nat.add_lt_add_left hlt 2
  · simp only [hpc, hidx]
    exact Nat.add_lt_add_left hlt _

/-- As long as there is a call, the driver or the device can come closer. -/
theorem exists_closer {calls : List NetCall} (h : Inv calls s es)
    (hmore : ¬ (s.pc = .idle ∧ s.calls = [])) : ∃ t, toGo (netMachine.step s t).1 < toGo s := by
  cases hpc : s.pc with
  | idle =>
    cases hcalls : s.calls with
    | nil => exact absurd ⟨hpc, hcalls⟩ hmore
    | cons c rest =>
      refine ⟨.driver, ?_⟩
      have hnext : (netMachine.step s .driver).1 = { s with pc := .desc0 c, calls := rest } := by
        simp [netMachine, Net.driverStep, hpc, hcalls]
      rw [hnext, toGo, toGo, hpc, hcalls, List.length_cons]
      show 13 * rest.length + 12 < 13 * (rest.length + 1) + 0
      omega
  | desc0 c =>
    refine ⟨.driver, ?_⟩
    simp [netMachine, Net.driverStep, toGo, hpc, Net.write]
  | desc1 c =>
    refine ⟨.driver, ?_⟩
    simp [netMachine, Net.driverStep, toGo, hpc, Net.write]
  | ring c =>
    refine ⟨.driver, ?_⟩
    simp [netMachine, Net.driverStep, toGo, hpc, Net.write]
  | idx c =>
    refine ⟨.driver, ?_⟩
    have hnotify : (netMachine.step s .driver).1.pc = .notify c := by
      simp [netMachine, Net.driverStep, hpc, Net.write]
    have hcalls : (netMachine.step s .driver).1.calls = s.calls := by
      simp [netMachine, Net.driverStep, hpc, Net.write]
    have hle := left_le (netMachine.step s .driver).1 c.qnum
    rw [toGo, toGo, hnotify, hcalls, hpc]
    show _ + (4 + _) < _ + 9
    omega
  | notify c =>
    rcases h.own_of hpc rfl with hf | hd
    · exact ⟨.device c.qnum, toGo_flying hf (.inl hpc)⟩
    · refine ⟨.driver, ?_⟩
      simp [netMachine, Net.driverStep, toGo, hpc, left]
  | wait c =>
    rcases h.own_of hpc rfl with hf | hd
    · exact ⟨.device c.qnum, toGo_flying hf (.inr (.inl hpc))⟩
    · refine ⟨.driver, ?_⟩
      have hused : (s.queues c.qnum).usedIdx = (s.queues c.qnum).availIdx := hd.1.used
      simp [netMachine, Net.driverStep, toGo, hpc, left, hused]
  | compare c used =>
    rcases h.own_of hpc rfl with ⟨hf, -⟩ | hd
    · exact ⟨.device c.qnum, toGo_flying hf (.inr (.inr ⟨used, hpc⟩))⟩
    · refine ⟨.driver, ?_⟩
      by_cases hu : used = (s.queues c.qnum).availIdx
      · have hidle : (netMachine.step s .driver).1 = { s with pc := .idle } := by
          simp [netMachine, Net.driverStep, hpc, hu]
        rw [hidle, toGo, toGo, hpc]
        show 13 * s.calls.length + 0 <
          _ + ((if used = (s.queues c.qnum).availIdx then 1 else 3) + left s c.qnum)
        rw [if_pos hu]
        omega
      · simp [netMachine, Net.driverStep, toGo, hpc, hu, left]

/-- **No call need wait for ever.** From wherever driver and device have got to, there is a way in
which all the calls return. -/
theorem net_calls_can_return (calls : List NetCall) (turns : List Turn) :
    ∃ more, returned (netMachine.run (.start calls) (turns ++ more)).2 = calls := by
  obtain ⟨more, hidle, hnone⟩ := netMachine.exists_run (P := Inv calls)
    (Q := fun s => s.pc = .idle ∧ s.calls = []) toGo (run_inv calls)
    (fun _ _ h hmore => exists_closer h hmore) turns
  refine ⟨more, ?_⟩
  have h := run_inv calls (turns ++ more)
  have hall := h.all
  rw [h.current, hidle, hnone] at hall
  simpa [Pc.call] using hall

/-- A read that returns: the device reads the chain while the driver waits. -/
example : returned (netMachine.run (.start [⟨.read, 16, 32⟩])
    (List.replicate 8 .driver ++ List.replicate 4 (.device .read) ++
      List.replicate 3 .driver)).2 = [⟨.read, 16, 32⟩] := by
  decide

end Virtio
end Allora
