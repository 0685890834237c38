import Allora.Proof.Lfchannel.Runs

/-!
# The first read of an empty channel

`recv_in` tests for news by reading the version of the first real node. Until the sender has linked
one there is no such node, and `head.next` is null. A run is safe exactly when no `recv_in` comes to
that read before the first message is linked; it may well have begun before.

`Waiting` is the invariant for runs that meet this. It is `Inv`, except that it does not ask a
receiver that has begun, and not yet read, for a linked message.
-/

set_option autoImplicit false

namespace Allora
namespace Lfchannel

open Outcome

variable {T : Type}

/-! ## The property and the condition -/

/-- A step of the receiver reads through no null pointer, and a `recv_in` that finds nothing new
answers `None` and leaves the rest, `last_seen` included, as it was. -/
def RecvSafe (s : Sys T) (es : List (Event T)) : Turn → Prop
  | .sender => True
  | .receiver => (∃ r, s.receiverStep = ok r) ∧
      ∀ lastSeen, s.receiver = .checked lastSeen → delivered es = linked es →
        s.receiverStep = ok ({ s with receiver := .idle }, [.returned none])

/-- The first version is read only once a message is linked. -/
def SendFirst (s : Sys T) (es : List (Event T)) : Turn → Prop
  | .sender => True
  | .receiver => ∀ lastSeen, s.receiver = .checked lastSeen → linked es ≠ []

/-! ## The invariant -/

/-- The receiver has begun and not read yet, or the state is one of `Inv`. -/
def Waiting (msgs : List T) (s : Sys T) (es : List (Event T)) : Prop :=
  ∃ bound next d,
    (s.receiver = .checked (UInt64.ofNat d) ∧
      Inv msgs { s with receiver := .idle } es bound next d) ∨
    ((∀ lastSeen, s.receiver ≠ .checked lastSeen) ∧ Inv msgs s es bound next d)

section Receiver

variable {msgs : List T} {s : Sys T} {es : List (Event T)} {bound d : Nat} {next : Option Nat}

/-- The other parts of the invariant do not look at the receiver. -/
theorem Inv.setReceiver {pc : ReceiverPc T} (h : Inv msgs s es bound next d)
    (hpc : ReceiverOk es s.channel.chan bound d pc) :
    Inv msgs { s with receiver := pc } es bound next d :=
  ⟨h.shared, h.destroy, h.sender, h.lastSeen, hpc, h.delivered⟩

theorem Inv.waiting (h : Inv msgs s es bound next d) : Waiting msgs s es := by
  refine ⟨bound, next, d, ?_⟩
  cases hpc : s.receiver with
  | checked lastSeen =>
    have hr := h.receiver
    rw [hpc] at hr
    rw [hr.1]
    exact .inl ⟨rfl, h.setReceiver trivial⟩
  | _ => exact .inr ⟨by simp, h⟩

/-- With a message linked, a waiting receiver is one of `Inv`. -/
theorem Inv.of_checked (h : Inv msgs { s with receiver := .idle } es bound next d)
    (hpc : s.receiver = .checked (UInt64.ofNat d)) (hne : linked es ≠ []) :
    Inv msgs s es bound next d := by
  refine ⟨h.shared, h.destroy, h.sender, h.lastSeen, ?_, h.delivered⟩
  rw [hpc]
  exact ⟨rfl, hne⟩

/-- The sender does not look at the receiver either. -/
theorem senderStep_setReceiver (pc : ReceiverPc T) {s' : Sys T} {es' : List (Event T)}
    (h : s.senderStep = ok (s', es')) :
    ({ s with receiver := pc } : Sys T).senderStep = ok ({ s' with receiver := pc }, es') := by
  unfold Sys.senderStep at h ⊢
  cases hpc : s.sender with
  | idle =>
    cases htodo : s.todo with
    | nil =>
      simp only [hpc, htodo] at h ⊢
      cases h
      simp only [hpc, htodo]
    | cons msg todo =>
      simp only [hpc, htodo] at h ⊢
      cases h
      rfl
  | bumped entry =>
    simp only [hpc] at h ⊢
    obtain ⟨found, hfound, h⟩ := bind_eq_ok.mp h
    cases h
    rw [hfound]
    rfl
  | read entry node found =>
    simp only [hpc] at h ⊢
    cases h
    rfl
  | stored entry node found =>
    simp only [hpc] at h ⊢
    obtain ⟨now, hnow, h⟩ := bind_eq_ok.mp h
    rw [hnow, ok_bind]
    split at h
    · cases h
      rw [if_pos ‹_›]
    · cases h
  | panicked msg =>
    simp only [hpc] at h ⊢
    cases h
    simp only [hpc]

end Receiver

/-! ## One step -/

section Steps

variable {msgs : List T} {s : Sys T} {es : List (Event T)}

theorem senderStep_waiting (h : Waiting msgs s es) :
    ∃ s' es', s.senderStep = ok (s', es') ∧ Waiting msgs s' (es ++ es') := by
  obtain ⟨bound, next, d, ⟨hpc, hinv⟩ | ⟨-, hinv⟩⟩ := h
  · obtain ⟨s', es', bound', next', hstep, hinv'⟩ := senderStep_inv hinv
    have hstep' := senderStep_setReceiver s.receiver hstep
    refine ⟨_, _, hstep', bound', next', d, .inl ⟨hpc, ?_⟩⟩
    exact hinv'.setReceiver trivial
  · obtain ⟨s', es', bound', next', hstep, hinv'⟩ := senderStep_inv hinv
    exact ⟨s', es', hstep, hinv'.waiting⟩

/-- The receiver begins, whether or not anything was sent. -/
theorem receiverStep_begin {bound d : Nat} {next : Option Nat} (h : Inv msgs s es bound next d)
    (hpc : s.receiver = .idle) :
    ∃ s', s.receiverStep = ok (s', [.began]) ∧ Waiting msgs s' (es ++ [.began]) := by
  have hstep : s.receiverStep = ok ({ s with receiver := .checked s.lastSeen }, [.began]) := by
    simp [Sys.receiverStep, hpc, h.destroy]
  have hl : linked (es ++ [.began]) = linked es := by simp [linked]
  have hsnt : sent (es ++ [.began]) = sent es := by simp [sent]
  refine ⟨_, hstep, bound, next, d, .inl ⟨by rw [h.lastSeen], ?_, h.destroy, ?_, h.lastSeen, trivial,
    h.delivered.concat (by simp)⟩⟩
  · rw [hl]
    exact h.shared
  · rw [hl, hsnt]
    exact h.sender

theorem receiverStep_waiting (hlen : msgs.length < 2 ^ 64) (h : Waiting msgs s es)
    (hfirst : SendFirst s es .receiver) :
    ∃ s' es', s.receiverStep = ok (s', es') ∧ Waiting msgs s' (es ++ es') := by
  obtain ⟨bound, next, d, ⟨hpc, hinv⟩ | ⟨hnot, hinv⟩⟩ := h
  · have hinv' := hinv.of_checked hpc (hfirst _ hpc)
    obtain ⟨s', es', hstep, hnew⟩ := receiverStep_first hlen hinv' hpc
    exact ⟨s', es', hstep, hnew.waiting⟩
  · cases hpc : s.receiver with
    | idle =>
      obtain ⟨s', hstep, hnew⟩ := receiverStep_begin hinv hpc
      exact ⟨s', _, hstep, hnew⟩
    | checked lastSeen => exact absurd hpc (hnot lastSeen)
    | walking lastSeen cur vec =>
      obtain ⟨s', hstep, hnew⟩ := receiverStep_walk hinv hpc
      exact ⟨s', [], hstep, by rw [List.append_nil]; exact hnew.waiting⟩
    | collected lastSeen vec =>
      obtain ⟨s', es', n, hstep, hnew⟩ := receiverStep_return hlen hinv hpc
      exact ⟨s', es', hstep, hnew.waiting⟩
    | panicked msg =>
      have hr := hinv.receiver
      rw [hpc] at hr
      cases hr

/-- A read of an empty channel goes through null. -/
theorem receiverStep_null {bound d : Nat} {next : Option Nat} {lastSeen : UInt64}
    (h : Inv msgs { s with receiver := .idle } es bound next d)
    (hpc : s.receiver = .checked lastSeen) (hnil : linked es = []) :
    s.receiverStep = .panic "null pointer" := by
  have hchain := h.shared.chain
  rw [hnil, history_nil] at hchain
  have hhead : s.channel.chan.heap[s.channel.chan.head]? = some ⟨none, next⟩ := h.shared.head
  rw [show next = none from hchain] at hhead
  simp only [Sys.receiverStep, hpc, LfList.first, LfList.startRead, next_eq hhead, ok_bind]
  rfl

/-- With everything delivered, the first version is not newer than `last_seen`. -/
theorem receiverStep_none {bound d : Nat} {next : Option Nat} (hlen : msgs.length < 2 ^ 64)
    (h : Inv msgs s es bound next d) (hpc : s.receiver = .checked (UInt64.ofNat d))
    (hne : linked es ≠ []) (hall : delivered es = linked es) :
    s.receiverStep = ok ({ s with receiver := .idle }, [.returned none]) := by
  obtain ⟨e, hfirst, hcmp⟩ := first_eq hlen h hne
  have hd : (linked es).length ≤ d := by
    have htake := h.delivered.eq_take
    rw [hall] at htake
    have hlength := congrArg List.length htake
    rw [List.length_take] at hlength
    omega
  simp only [Sys.receiverStep, hpc, hfirst, ok_bind]
  rw [if_pos (hcmp.mpr hd)]

/-- At a waiting state the two conditions are the same. -/
theorem recvSafe_iff_sendFirst (hlen : msgs.length < 2 ^ 64) (h : Waiting msgs s es) (t : Turn) :
    RecvSafe s es t ↔ SendFirst s es t := by
  cases t with
  | sender => exact Iff.rfl
  | receiver =>
    constructor
    · rintro ⟨⟨r, hstep⟩, -⟩ lastSeen hpc hnil
      obtain ⟨bound, next, d, ⟨-, hinv⟩ | ⟨hnot, -⟩⟩ := h
      · rw [receiverStep_null hinv hpc hnil] at hstep
        cases hstep
      · exact hnot lastSeen hpc
    · intro hfirst
      obtain ⟨s', es', hstep, -⟩ := receiverStep_waiting hlen h hfirst
      refine ⟨⟨_, hstep⟩, fun lastSeen hpc hall => ?_⟩
      obtain ⟨bound, next, d, ⟨hpc', hinv⟩ | ⟨hnot, -⟩⟩ := h
      · have hne := hfirst _ hpc'
        exact receiverStep_none hlen (hinv.of_checked hpc' hne) hpc' hne hall
      · exact absurd hpc (hnot lastSeen)

end Steps

/-! ## Every schedule -/

/-- **A run never reads through null exactly when it links before it reads**: before every step of
the schedule the receiver is safe, if and only if every read of the first version comes after a
message was linked. -/
theorem receiver_safe_iff {msgs : List T} (hlen : msgs.length < 2 ^ 64) (turns : List Turn) :
    (machine T).Throughout RecvSafe (.new msgs) turns ↔
      (machine T).Throughout SendFirst (.new msgs) turns := by
  refine (machine T).throughout_iff (P := Waiting msgs) (inv_new msgs).waiting ?_ ?_ turns
  · intro s es t h hfirst
    cases t with
    | sender =>
      obtain ⟨s', es', hstep, h'⟩ := senderStep_waiting h
      simp only [machine, hstep]
      exact h'
    | receiver =>
      obtain ⟨s', es', hstep, h'⟩ := receiverStep_waiting hlen h hfirst
      simp only [machine, hstep]
      exact h'
  · intro s es t h
    exact recvSafe_iff_sendFirst hlen h t

/-- A `recv_in` that begins before the message is linked, and reads after. -/
def readsAfterLink : List Turn := [.receiver, .sender, .sender, .sender, .sender, .receiver]

theorem sendFirst_sender {s : Sys T} {turns : List Turn}
    (h : (machine T).Throughout SendFirst s turns) :
    (machine T).Throughout SendFirst s (turns ++ [.sender]) :=
  (machine T).throughout_concat.mpr ⟨h, trivial⟩

theorem receiver_safe_readsAfterLink :
    (machine Nat).Throughout RecvSafe (.new [10]) readsAfterLink := by
  refine (receiver_safe_iff (by decide) readsAfterLink).mpr ?_
  have hbegin : (machine Nat).Throughout SendFirst (.new [10]) ([] ++ [.receiver]) :=
    (machine Nat).throughout_concat.mpr
      ⟨(machine Nat).throughout_nil _ _, by simp [SendFirst, Sys.new]⟩
  have hlink := sendFirst_sender (sendFirst_sender (sendFirst_sender (sendFirst_sender hbegin)))
  refine (machine Nat).throughout_concat.mpr ⟨hlink, ?_⟩
  show SendFirst _ _ .receiver
  intro lastSeen _ hnil
  cases hnil

/-- The receiver runs first: the very first `recv_in` reads through null. -/
theorem recv_first_reads_null :
    ¬ (machine Nat).Throughout RecvSafe (.new [10]) [.receiver, .receiver] ∧
      ((machine Nat).run (.new [10]) [.receiver, .receiver]).1.receiver =
        .panicked "null pointer" := by
  refine ⟨fun h => ?_, rfl⟩
  obtain ⟨⟨r, hstep⟩, -⟩ := h [.receiver] .receiver (List.prefix_refl _)
  cases hstep

end Lfchannel
end Allora
