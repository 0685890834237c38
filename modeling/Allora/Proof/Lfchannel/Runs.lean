import Allora.Proof.Lfchannel.History

/-!
# Every interleaving of the sender and the receiver

`Inv` ties the shared list, the two program counters and the trace together. `ms` is the list of
linked messages and `d` the number of delivered ones; the receiver's `last_seen` is `d`, and while
it walks, what it has copied and what is still ahead of it make up the history of some first `n`
messages, `d < n`. A send that lands meanwhile does not touch that history.
-/

set_option autoImplicit false

namespace Allora
namespace Lfchannel

open Outcome

variable {T : Type}

/-! ## Traces -/

section Traces

variable {es pre post : List (Event T)} {e : Event T} {n : Nat}

@[simp] theorem sent_append (es es' : List (Event T)) : sent (es ++ es') = sent es ++ sent es' :=
  List.filterMap_append

@[simp] theorem linked_append (es es' : List (Event T)) :
    linked (es ++ es') = linked es ++ linked es' :=
  List.filterMap_append

@[simp] theorem batches_append (es es' : List (Event T)) :
    batches (es ++ es') = batches es ++ batches es' :=
  List.filterMap_append

@[simp] theorem delivered_append (es es' : List (Event T)) :
    delivered (es ++ es') = delivered es ++ delivered es' := by
  simp [delivered]

theorem concat_eq_append_cons {α : Type} {es pre post : List α} {e x : α}
    (h : es ++ [e] = pre ++ x :: post) :
    (∃ post', post = post' ++ [e] ∧ es = pre ++ x :: post') ∨ (e = x ∧ es = pre ∧ post = []) := by
  rcases List.eq_nil_or_concat post with rfl | ⟨post', y, rfl⟩
  · obtain ⟨hes, he⟩ := List.append_inj' h rfl
    cases he
    exact .inr ⟨rfl, hes, rfl⟩
  · rw [List.concat_eq_append, ← List.cons_append, ← List.append_assoc] at h
    obtain ⟨hes, he⟩ := List.append_inj' h rfl
    cases he
    exact .inl ⟨post', List.concat_eq_append, hes⟩

theorem LinkedFirst.of_append {es' : List (Event T)} (h : LinkedFirst (es ++ es')) :
    LinkedFirst es := by
  intro pre post hes
  exact h pre (post ++ es') (by rw [hes]; simp)

/-- At most `n` messages were linked whenever a `recv_in` began. -/
def Covers (es : List (Event T)) (n : Nat) : Prop :=
  ∀ pre post, es = pre ++ .began :: post → (linked pre).length ≤ n

/-- At most `n` messages were linked when the last completed `recv_in` began. -/
def Completed (es : List (Event T)) (n : Nat) : Prop :=
  ∀ pre post, es = pre ++ .began :: post → (∃ r, .returned r ∈ post) → (linked pre).length ≤ n

theorem covers_linked (es : List (Event T)) : Covers es (linked es).length := by
  rintro pre post rfl
  simp

theorem Covers.completed (h : Covers es n) : Completed es n := fun pre post hes _ => h pre post hes

theorem Covers.concat (h : Covers es n) (he : e ≠ .began) : Covers (es ++ [e]) n := by
  intro pre post hes
  rcases concat_eq_append_cons hes with ⟨post', -, hes'⟩ | ⟨rfl, -, -⟩
  · exact h pre post' hes'
  · exact absurd rfl he

theorem Completed.concat (h : Completed es n) (he : ∀ r, e ≠ .returned r) :
    Completed (es ++ [e]) n := by
  rintro pre post hes ⟨r, hr⟩
  rcases concat_eq_append_cons hes with ⟨post', rfl, hes'⟩ | ⟨rfl, -, rfl⟩
  · refine h pre post' hes' ⟨r, (List.mem_append.mp hr).resolve_right fun hr' => ?_⟩
    exact he r (List.mem_singleton.mp hr').symm
  · cases hr

end Traces

/-! ## The invariant -/

/-- The sender is in the middle of sending `msg`, the message after `ms`. -/
structure Sending (msgs todo ms snt : List T) (version : UInt64) (entry : Entry T) : Prop where
  version_eq : version = UInt64.ofNat (ms.length + 1)
  entry_eq : entry.version = UInt64.ofNat (ms.length + 1)
  sent_eq : snt = ms ++ [entry.msg]
  todo_eq : msgs = ms ++ entry.msg :: todo

/-- The sender's program counter; `next` is what `head.next` holds. -/
def SenderOk (msgs ms snt : List T) (s : Sys T) (bound : Nat) (next : Option Nat) :
    SenderPc T → Prop
  | .idle => s.channel.version = UInt64.ofNat ms.length ∧ snt = ms ∧ msgs = ms ++ s.todo
  | .bumped entry => Sending msgs s.todo ms snt s.channel.version entry
  | .read entry node found =>
      Sending msgs s.todo ms snt s.channel.version entry ∧ found = next ∧
        node ≠ s.channel.chan.head ∧ bound ≤ node ∧
        s.channel.chan.heap[node]? = some ⟨some entry, none⟩
  | .stored entry node found =>
      Sending msgs s.todo ms snt s.channel.version entry ∧ found = next ∧
        node ≠ s.channel.chan.head ∧ bound ≤ node ∧
        s.channel.chan.heap[node]? = some ⟨some entry, next⟩
  | .panicked _ => False

/-- The receiver copies the first `n` messages, some of them new. -/
structure Snapshot (es : List (Event T)) (d n : Nat) : Prop where
  new : d < n
  le : n ≤ (linked es).length
  covers : Covers es n

/-- The receiver's program counter. -/
def ReceiverOk (es : List (Event T)) (l : LfList (Entry T)) (bound d : Nat) : ReceiverPc T → Prop
  | .idle => True
  | .checked lastSeen => lastSeen = UInt64.ofNat d ∧ linked es ≠ []
  | .walking lastSeen cur vec => lastSeen = UInt64.ofNat d ∧
      -- nothing read yet, or the last entry read is the one at `cur`
      ((cur = l.head ∧ vec = [] ∧ d < (linked es).length) ∨
        ∃ n seen e rest, Snapshot es d n ∧ vec = seen ++ [e] ∧
          history ((linked es).take n) = seen ++ e :: rest ∧ Chain l bound (some cur) (e :: rest))
  | .collected lastSeen vec => lastSeen = UInt64.ofNat d ∧
      ∃ n, Snapshot es d n ∧ vec = history ((linked es).take n)
  | .panicked _ => False

/-- What has been returned. -/
structure Delivered (es : List (Event T)) (d : Nat) : Prop where
  le : d ≤ (linked es).length
  eq_take : delivered es = (linked es).take d
  nonempty : ∀ batch ∈ batches es, batch ≠ []
  completed : Completed es d

/-- The shared list. -/
structure Shared (l : LfList (Entry T)) (bound : Nat) (next : Option Nat) (ms : List T) : Prop where
  head : l.heap[l.head]? = some ⟨none, next⟩
  bound_le : bound ≤ l.heap.length
  chain : Chain l bound next (history ms)

/-- The invariant of every interleaving. -/
structure Inv (msgs : List T) (s : Sys T) (es : List (Event T)) (bound : Nat) (next : Option Nat)
    (d : Nat) : Prop where
  shared : Shared s.channel.chan bound next (linked es)
  destroy : s.channel.destroy = false
  sender : SenderOk msgs (linked es) (sent es) s bound next s.sender
  lastSeen : s.lastSeen = UInt64.ofNat d
  receiver : ReceiverOk es s.channel.chan bound d s.receiver
  delivered : Delivered es d

theorem inv_new (msgs : List T) : Inv msgs (Sys.new msgs) [] 1 none 0 where
  shared := ⟨rfl, Nat.le_refl _, rfl⟩
  destroy := rfl
  sender := ⟨rfl, rfl, rfl⟩
  lastSeen := rfl
  receiver := trivial
  delivered := ⟨Nat.zero_le _, rfl, by simp [batches], by simp [Completed]⟩

section Frames

variable {es : List (Event T)} {e : Event T} {l l' : LfList (Entry T)} {bound bound' d n : Nat}
  {pc : ReceiverPc T}

/-- A send that lands does not change the first `n` messages. -/
theorem Snapshot.concat (h : Snapshot es d n) (he : e ≠ .began) :
    Snapshot (es ++ [e]) d n ∧ (linked (es ++ [e])).take n = (linked es).take n := by
  have hle := h.le
  refine ⟨⟨h.new, ?_, h.covers.concat he⟩, ?_⟩
  · rw [linked_append, List.length_append]
    omega
  · rw [linked_append, List.take_append_of_le_length hle]

/-- The receiver does not notice a store by the sender. -/
theorem ReceiverOk.keeps (hk : Keeps l bound l' bound') (h : ReceiverOk es l bound d pc) :
    ReceiverOk es l' bound' d pc := by
  cases pc with
  | walking lastSeen cur vec =>
    obtain ⟨hls, ⟨hcur, hvec, hd⟩ | ⟨n, seen, x, rest, hsnap, hvec, hist, hchain⟩⟩ := h
    · exact ⟨hls, .inl ⟨hcur.trans hk.head.symm, hvec, hd⟩⟩
    · exact ⟨hls, .inr ⟨n, seen, x, rest, hsnap, hvec, hist, hchain.keeps hk⟩⟩
  | _ => exact h

/-- Nor that a message was sent or linked. -/
theorem ReceiverOk.concat (h : ReceiverOk es l bound d pc) (he : e ≠ .began) :
    ReceiverOk (es ++ [e]) l bound d pc := by
  cases pc with
  | idle => trivial
  | checked lastSeen => exact ⟨h.1, by simp [h.2]⟩
  | walking lastSeen cur vec =>
    obtain ⟨hls, ⟨hcur, hvec, hd⟩ | ⟨n, seen, x, rest, hsnap, hvec, hist, hchain⟩⟩ := h
    · refine ⟨hls, .inl ⟨hcur, hvec, ?_⟩⟩
      rw [linked_append, List.length_append]
      omega
    · obtain ⟨hsnap', htake⟩ := hsnap.concat he
      exact ⟨hls, .inr ⟨n, seen, x, rest, hsnap', hvec, by rw [htake, hist], hchain⟩⟩
  | collected lastSeen vec =>
    obtain ⟨hls, n, hsnap, hvec⟩ := h
    obtain ⟨hsnap', htake⟩ := hsnap.concat he
    exact ⟨hls, n, hsnap', by rw [htake, hvec]⟩
  | panicked msg => cases h

/-- Only a `returned` event changes what was delivered. -/
theorem Delivered.concat (h : Delivered es d) (he : ∀ r, e ≠ .returned r) :
    Delivered (es ++ [e]) d := by
  have hb : batches [e] = [] := by
    cases e with
    | returned r => exact absurd rfl (he r)
    | _ => rfl
  have hle := h.le
  refine ⟨?_, ?_, ?_, h.completed.concat he⟩
  · rw [linked_append, List.length_append]
    omega
  · rw [delivered_append, linked_append, List.take_append_of_le_length hle, h.eq_take,
      delivered, hb, List.flatMap_nil, List.append_nil]
  · rw [batches_append, hb, List.append_nil]
    exact h.nonempty

end Frames

theorem SenderOk.linked_le {msgs ms snt : List T} {s : Sys T} {bound : Nat} {next : Option Nat}
    (h : SenderOk msgs ms snt s bound next s.sender) :
    ms <+: snt ∧ snt <+: msgs ∧ ms.length ≤ msgs.length := by
  have hsending : ∀ {entry : Entry T}, Sending msgs s.todo ms snt s.channel.version entry →
      ms <+: snt ∧ snt <+: msgs ∧ ms.length ≤ msgs.length := by
    intro entry hs
    rw [hs.sent_eq, hs.todo_eq]
    exact ⟨by simp, ⟨s.todo, by simp⟩, by simp⟩
  cases hpc : s.sender with
  | idle =>
    rw [hpc] at h
    obtain ⟨-, rfl, rfl⟩ := h
    exact ⟨List.prefix_refl _, by simp, by simp⟩
  | bumped entry =>
    rw [hpc] at h
    exact hsending h
  | read entry node found =>
    rw [hpc] at h
    exact hsending h.1
  | stored entry node found =>
    rw [hpc] at h
    exact hsending h.1
  | panicked msg =>
    rw [hpc] at h
    cases h

/-! ## One step -/

section Steps

variable {msgs : List T} {s : Sys T} {es : List (Event T)} {bound d : Nat} {next : Option Nat}

/-- `fetch_add`. -/
theorem senderStep_bump {msg : T} {todo : List T} (h : Inv msgs s es bound next d)
    (hpc : s.sender = .idle) (htodo : s.todo = msg :: todo) :
    ∃ s', s.senderStep = ok (s', [.sent msg]) ∧
      Inv msgs s' (es ++ [.sent msg]) bound next d := by
  have hs := h.sender
  rw [hpc] at hs
  obtain ⟨hversion, hsent, hmsgs⟩ := hs
  have hbump : s.channel.version + 1 = UInt64.ofNat ((linked es).length + 1) := by
    rw [hversion, UInt64.ofNat_add]
    rfl
  have hl : linked (es ++ [.sent msg]) = linked es := by simp [linked]
  let s' : Sys T := { s with
    channel := { s.channel with version := s.channel.version + 1 }
    todo := todo
    sender := .bumped ⟨msg, s.channel.version + 1⟩ }
  have hstep : s.senderStep = ok (s', [.sent msg]) := by simp only [Sys.senderStep, hpc, htodo, s']
  refine ⟨s', hstep, ?_, h.destroy, ?_, h.lastSeen, h.receiver.concat (by simp),
    h.delivered.concat (by simp)⟩
  · rw [hl]
    exact h.shared
  · rw [hl]
    refine ⟨hbump, hbump, ?_, ?_⟩
    · rw [sent_append, hsent]
      rfl
    · rw [hmsgs, htodo]

/-- The node is made, and `head.next` read. -/
theorem senderStep_read {entry : Entry T} (h : Inv msgs s es bound next d)
    (hpc : s.sender = .bumped entry) :
    ∃ s', s.senderStep = ok (s', []) ∧ Inv msgs s' es bound next d := by
  have hs := h.sender
  rw [hpc] at hs
  have hbound := h.shared.bound_le
  have hkeeps : Keeps s.channel.chan bound (s.channel.chan.boxNode entry).1 bound :=
    .boxNode entry hbound
  have hlt : s.channel.chan.head < s.channel.chan.heap.length :=
    (List.getElem?_eq_some_iff.mp h.shared.head).1
  have hhead : (s.channel.chan.boxNode entry).1.heap[s.channel.chan.head]? = some ⟨none, next⟩ := by
    rw [LfList.boxNode, List.getElem?_append_left hlt, h.shared.head]
  have hnext : (s.channel.chan.boxNode entry).1.next s.channel.chan.head = ok next := next_eq hhead
  let s' : Sys T := { s with
    channel := { s.channel with chan := (s.channel.chan.boxNode entry).1 }
    sender := .read entry s.channel.chan.heap.length next }
  have hstep : s.senderStep = ok (s', []) := by
    simp only [Sys.senderStep, hpc]
    show ((s.channel.chan.boxNode entry).1.next s.channel.chan.head >>= _) = _
    rw [hnext, ok_bind]
    rfl
  refine ⟨s', hstep, ⟨hhead, ?_, h.shared.chain.keeps hkeeps⟩, h.destroy,
    ⟨hs, rfl, Ne.symm (Nat.ne_of_lt hlt), hbound, ?_⟩, h.lastSeen, h.receiver.keeps hkeeps,
    h.delivered⟩
  · simp only [s', LfList.boxNode, List.length_append]
    omega
  · simp [s', LfList.boxNode]

/-- `node.next` is set. -/
theorem senderStep_store {entry : Entry T} {node : Nat} {found : Option Nat}
    (h : Inv msgs s es bound next d) (hpc : s.sender = .read entry node found) :
    ∃ s', s.senderStep = ok (s', []) ∧ Inv msgs s' es bound next d := by
  have hs := h.sender
  rw [hpc] at hs
  obtain ⟨hsending, rfl, hne, hle, hnode⟩ := hs
  have hbound := h.shared.bound_le
  have hkeeps : Keeps s.channel.chan bound (s.channel.chan.setNext node found) bound :=
    .setNext found (.inr hle) (Nat.le_refl _)
  let s' : Sys T := { s with
    channel := { s.channel with chan := s.channel.chan.setNext node found }
    sender := .stored entry node found }
  have hstep : s.senderStep = ok (s', []) := by simp only [Sys.senderStep, hpc, s']
  refine ⟨s', hstep, ⟨?_, ?_, h.shared.chain.keeps hkeeps⟩, h.destroy,
    ⟨hsending, rfl, hne, hle, getElem?_setNext_self found hnode⟩, h.lastSeen,
    h.receiver.keeps hkeeps, h.delivered⟩
  · exact (getElem?_setNext_of_ne found hne).trans h.shared.head
  · simpa [s', LfList.setNext] using hbound

/-- The compare-exchange: it succeeds, and the node is the first of the list. -/
theorem senderStep_link {entry : Entry T} {node : Nat} {found : Option Nat}
    (h : Inv msgs s es bound next d) (hpc : s.sender = .stored entry node found) :
    ∃ s', s.senderStep = ok (s', [.linked entry.msg]) ∧
      Inv msgs s' (es ++ [.linked entry.msg]) (node + 1) (some node) d := by
  have hs := h.sender
  rw [hpc] at hs
  obtain ⟨hsending, rfl, hne, hle, hnode⟩ := hs
  have hkeeps : Keeps s.channel.chan bound
      (s.channel.chan.setNext s.channel.chan.head (some node)) (node + 1) :=
    .setNext _ (.inl rfl) (by omega)
  have hlt : node < s.channel.chan.heap.length := (List.getElem?_eq_some_iff.mp hnode).1
  have hl : linked (es ++ [.linked entry.msg]) = linked es ++ [entry.msg] := by simp [linked]
  have hsnt : sent (es ++ [.linked entry.msg]) = sent es := by simp [sent]
  let s' : Sys T := { s with
    channel := { s.channel with
      chan := s.channel.chan.setNext s.channel.chan.head (some node) }
    sender := .idle }
  have hstep : s.senderStep = ok (s', [.linked entry.msg]) := by
    simp only [Sys.senderStep, hpc, next_eq h.shared.head, ok_bind, if_true, s']
  refine ⟨s', hstep, ⟨getElem?_setNext_self _ h.shared.head, ?_, ?_⟩, h.destroy, ⟨?_, ?_, ?_⟩, h.lastSeen,
    (h.receiver.keeps hkeeps).concat (by simp), h.delivered.concat (by simp)⟩
  · rw [show s'.channel.chan.heap.length = s.channel.chan.heap.length by simp [s', LfList.setNext]]
    exact hlt
  · -- the new node is in front of the old list
    rw [hl, history_concat, ← hsending.entry_eq]
    exact ⟨node, found, rfl, hne, Nat.lt_succ_self _,
      (getElem?_setNext_of_ne _ hne.symm).trans hnode, h.shared.chain.keeps hkeeps⟩
  · rw [hl, List.length_append]
    exact hsending.version_eq
  · rw [hl, hsnt]
    exact hsending.sent_eq
  · rw [hl, hsending.todo_eq]
    exact List.append_cons _ _ _

/-- **The sender keeps the invariant, and does not panic.** -/
theorem senderStep_inv (h : Inv msgs s es bound next d) :
    ∃ s' es' bound' next', s.senderStep = ok (s', es') ∧
      Inv msgs s' (es ++ es') bound' next' d := by
  cases hpc : s.sender with
  | idle =>
    cases htodo : s.todo with
    | nil =>
      refine ⟨s, [], bound, next, by simp only [Sys.senderStep, hpc, htodo], ?_⟩
      rwa [List.append_nil]
    | cons msg todo =>
      obtain ⟨s', hstep, h'⟩ := senderStep_bump h hpc htodo
      exact ⟨s', _, bound, next, hstep, h'⟩
  | bumped entry =>
    obtain ⟨s', hstep, h'⟩ := senderStep_read h hpc
    exact ⟨s', [], bound, next, hstep, by rwa [List.append_nil]⟩
  | read entry node found =>
    obtain ⟨s', hstep, h'⟩ := senderStep_store h hpc
    exact ⟨s', [], bound, next, hstep, by rwa [List.append_nil]⟩
  | stored entry node found =>
    obtain ⟨s', hstep, h'⟩ := senderStep_link h hpc
    exact ⟨s', _, _, _, hstep, h'⟩
  | panicked msg =>
    have hs := h.sender
    rw [hpc] at hs
    cases hs

/-- What the emptiness test finds: the first entry is the newest linked one. -/
theorem first_eq (hlen : msgs.length < 2 ^ 64) (h : Inv msgs s es bound next d)
    (hne : linked es ≠ []) :
    ∃ e, s.channel.chan.first = ok e ∧
      (e.version ≤ UInt64.ofNat d ↔ (linked es).length ≤ d) := by
  have hle := h.sender.linked_le.2.2
  have hd := h.delivered.le
  obtain ⟨e, rest, hist, hversion⟩ := history_eq_cons hne
  have hchain := h.shared.chain
  rw [hist] at hchain
  obtain ⟨a, next', rfl, -, -, hnode, -⟩ := hchain
  refine ⟨e, ?_, ?_⟩
  · rw [LfList.first, LfList.startRead, next_eq h.shared.head, ok_bind, elem_eq hnode]
  · rw [hversion, UInt64.ofNat_le_iff_le (show _ < 2 ^ 64 by omega) (show _ < 2 ^ 64 by omega)]

/-- The receiver reads the first version: it leaves with nothing, or starts to walk. -/
theorem receiverStep_first {lastSeen : UInt64} (hlen : msgs.length < 2 ^ 64)
    (h : Inv msgs s es bound next d) (hpc : s.receiver = .checked lastSeen) :
    ∃ s' es', s.receiverStep = ok (s', es') ∧ Inv msgs s' (es ++ es') bound next d := by
  have hr := h.receiver
  rw [hpc] at hr
  obtain ⟨rfl, hne⟩ := hr
  have hd := h.delivered.le
  obtain ⟨e, hfirst, hcmp⟩ := first_eq hlen h hne
  simp only [Sys.receiverStep, hpc, hfirst, ok_bind]
  by_cases hold : (linked es).length ≤ d
  · -- everything linked is delivered, so everything linked before this call began is
    rw [if_pos (hcmp.mpr hold)]
    have hl : linked (es ++ [.returned none]) = linked es := by simp [linked]
    have hsnt : sent (es ++ [.returned none]) = sent es := by simp [sent]
    have hb : batches (es ++ [.returned none]) = batches es := by simp [batches]
    refine ⟨_, _, rfl, by rw [hl]; exact h.shared, h.destroy, by rw [hl, hsnt]; exact h.sender,
      h.lastSeen, trivial, ?_⟩
    refine ⟨by rwa [hl], ?_, by rw [hb]; exact h.delivered.nonempty, ?_⟩
    · rw [delivered, hb, hl]
      exact h.delivered.eq_take
    · have hcov := (covers_linked (es ++ [.returned none])).completed
      rwa [hl, show (linked es).length = d by omega] at hcov
  · rw [if_neg fun hc => hold (hcmp.mp hc)]
    refine ⟨_, [], rfl, ?_⟩
    rw [List.append_nil]
    exact ⟨h.shared, h.destroy, h.sender, h.lastSeen, ⟨rfl, .inl ⟨rfl, rfl, by omega⟩⟩, h.delivered⟩

/-- One node of `to_vec_in`. -/
theorem receiverStep_walk {lastSeen : UInt64} {cur : Nat} {vec : List (Entry T)}
    (h : Inv msgs s es bound next d) (hpc : s.receiver = .walking lastSeen cur vec) :
    ∃ s', s.receiverStep = ok (s', []) ∧ Inv msgs s' es bound next d := by
  have hr := h.receiver
  rw [hpc] at hr
  simp only [Sys.receiverStep, hpc]
  -- what is ahead of the receiver, and the batch it belongs to
  have hahead : lastSeen = UInt64.ofNat d ∧ ∃ n p rest, Snapshot es d n ∧
      history ((linked es).take n) = vec ++ rest ∧ s.channel.chan.next cur = ok p ∧
      Chain s.channel.chan bound p rest := by
    obtain ⟨hls, ⟨rfl, rfl, hd⟩ | ⟨n, seen, e, rest, hsnap, rfl, hist, hchain⟩⟩ := hr
    · refine ⟨hls, _, next, _, ⟨hd, Nat.le_refl _, covers_linked es⟩, rfl, next_eq h.shared.head, ?_⟩
      rw [List.take_length]
      exact h.shared.chain
    · obtain ⟨a, p, ha, -, -, hnode, hrest⟩ := hchain
      cases ha
      exact ⟨hls, n, p, rest, hsnap, by simpa using hist, next_eq hnode, hrest⟩
  obtain ⟨hls, n, p, rest, hsnap, hist, hnext, hchain⟩ := hahead
  rw [hnext, ok_bind]
  cases rest with
  | nil =>
    cases hchain
    rw [List.append_nil] at hist
    exact ⟨_, rfl, h.shared, h.destroy, h.sender, h.lastSeen, ⟨hls, n, hsnap, hist.symm⟩,
      h.delivered⟩
  | cons e rest =>
    have hchain' := hchain
    obtain ⟨a, next', rfl, -, -, hnode, -⟩ := hchain'
    simp only [elem_eq hnode, ok_bind]
    exact ⟨_, rfl, h.shared, h.destroy, h.sender, h.lastSeen,
      ⟨hls, .inr ⟨n, vec, e, rest, hsnap, rfl, hist, hchain⟩⟩, h.delivered⟩

/-- The batch is returned and `last_seen` set. -/
theorem receiverStep_return {lastSeen : UInt64} {vec : List (Entry T)} (hlen : msgs.length < 2 ^ 64)
    (h : Inv msgs s es bound next d) (hpc : s.receiver = .collected lastSeen vec) :
    ∃ s' es' n, s.receiverStep = ok (s', es') ∧ Inv msgs s' (es ++ es') bound next n := by
  have hr := h.receiver
  rw [hpc] at hr
  obtain ⟨rfl, n, hsnap, rfl⟩ := hr
  have hle := h.sender.linked_le.2.2
  have hnew := hsnap.new
  have hn := hsnap.le
  have hlength : ((linked es).take n).length = n := by rw [List.length_take, Nat.min_eq_left hn]
  have hne : (linked es).take n ≠ [] := List.ne_nil_of_length_pos (by omega)
  obtain ⟨e, rest, hist, hversion⟩ := history_eq_cons hne
  have hbatch := filter_history (show ((linked es).take n).length < 2 ^ 64 by omega)
    (show d ≤ _ by omega)
  rw [hist] at hbatch
  simp only [Sys.receiverStep, hpc, hist, List.head?_cons, unwrap_some, ok_bind, hbatch]
  rw [hlength] at hversion
  generalize hr : (((linked es).take n).drop d).reverse = batch
  have hl : linked (es ++ [.returned (some batch)]) = linked es := by simp [linked]
  have hsnt : sent (es ++ [.returned (some batch)]) = sent es := by simp [sent]
  have hb : batches (es ++ [.returned (some batch)]) = batches es ++ [batch] := by simp [batches]
  refine ⟨_, _, n, rfl, by rw [hl]; exact h.shared, h.destroy, by rw [hl, hsnt]; exact h.sender,
    hversion, trivial, ?_⟩
  refine ⟨by rwa [hl], ?_, ?_, (hsnap.covers.concat (by simp)).completed⟩
  · -- the delivered messages and the new batch make up the first `n`
    have hprev : delivered es = ((linked es).take n).take d := by
      rw [List.take_take, Nat.min_eq_left (Nat.le_of_lt hnew)]
      exact h.delivered.eq_take
    rw [hl, delivered, hb, List.flatMap_append, List.flatMap_singleton, ← hr, List.reverse_reverse]
    show delivered es ++ _ = _
    rw [hprev, List.take_append_drop]
  · intro b hmem
    rw [hb] at hmem
    rcases List.mem_append.mp hmem with hmem | hmem
    · exact h.delivered.nonempty b hmem
    · rw [List.mem_singleton.mp hmem, ← hr]
      refine List.ne_nil_of_length_pos ?_
      rw [List.length_reverse, List.length_drop]
      omega

/-- **The receiver keeps the invariant, and does not panic.** -/
theorem receiverStep_inv (hlen : msgs.length < 2 ^ 64) (h : Inv msgs s es bound next d)
    (hfirst : ∀ r, s.receiverStep = ok r → LinkedFirst (es ++ r.2)) :
    ∃ s' es' d', s.receiverStep = ok (s', es') ∧ Inv msgs s' (es ++ es') bound next d' := by
  cases hpc : s.receiver with
  | idle =>
    have hstep : s.receiverStep = ok ({ s with receiver := .checked s.lastSeen }, [.began]) := by
      simp [Sys.receiverStep, hpc, h.destroy]
    have hl : linked (es ++ [.began]) = linked es := by simp [linked]
    have hsnt : sent (es ++ [.began]) = sent es := by simp [sent]
    have hne : linked es ≠ [] := hfirst _ hstep es [] rfl
    exact ⟨_, _, d, hstep, by rw [hl]; exact h.shared, h.destroy, by rw [hl, hsnt]; exact h.sender,
      h.lastSeen, ⟨h.lastSeen, by rwa [hl]⟩, h.delivered.concat (by simp)⟩
  | checked lastSeen =>
    obtain ⟨s', es', hstep, h'⟩ := receiverStep_first hlen h hpc
    exact ⟨s', es', d, hstep, h'⟩
  | walking lastSeen cur vec =>
    obtain ⟨s', hstep, h'⟩ := receiverStep_walk h hpc
    exact ⟨s', [], d, hstep, by rwa [List.append_nil]⟩
  | collected lastSeen vec => exact receiverStep_return hlen h hpc
  | panicked msg =>
    have hr := h.receiver
    rw [hpc] at hr
    cases hr

end Steps

/-! ## Every schedule -/

theorem run_inv {msgs : List T} (hlen : msgs.length < 2 ^ 64) (turns : List Turn) :
    LinkedFirst ((machine T).run (.new msgs) turns).2 →
      ∃ bound next d, Inv msgs ((machine T).run (.new msgs) turns).1
        ((machine T).run (.new msgs) turns).2 bound next d := by
  refine (machine T).run_invariant (P := fun s es => ∃ bound next d, Inv msgs s es bound next d)
    LinkedFirst.of_append ⟨1, none, 0, inv_new msgs⟩ ?_ turns
  rintro s es turn ⟨bound, next, d, h⟩ hfirst
  cases turn with
  | sender =>
    obtain ⟨s', es', bound', next', hstep, h'⟩ := senderStep_inv h
    simp only [machine, hstep]
    exact ⟨bound', next', d, h'⟩
  | receiver =>
    have hfirst' : ∀ r, s.receiverStep = ok r → LinkedFirst (es ++ r.2) := by
      intro r hr
      simpa only [machine, hr] using hfirst
    obtain ⟨s', es', d', hstep, h'⟩ := receiverStep_inv hlen h hfirst'
    simp only [machine, hstep]
    exact ⟨bound, next, d', h'⟩

/-- **No message is lost, duplicated or reordered**, under every interleaving of the sender's and
the receiver's steps. -/
theorem channel_delivers {msgs : List T} (hlen : msgs.length < 2 ^ 64) (turns : List Turn)
    {s : Sys T} {es : List (Event T)} (hrun : (machine T).run (.new msgs) turns = (s, es))
    (hfirst : LinkedFirst es) :
    (∀ msg, s.sender ≠ .panicked msg) ∧ (∀ msg, s.receiver ≠ .panicked msg) ∧
    (∀ batch ∈ batches es, batch ≠ []) ∧
    delivered es <+: sent es ∧ sent es <+: msgs ∧
    ∀ pre post, es = pre ++ .began :: post → (∃ r, .returned r ∈ post) →
      linked pre <+: delivered es := by
  have hinv := run_inv hlen turns
  rw [hrun] at hinv
  obtain ⟨bound, next, d, h⟩ := hinv hfirst
  obtain ⟨hlinked, hsent, -⟩ := h.sender.linked_le
  have htake : delivered es <+: linked es := by
    rw [h.delivered.eq_take]
    exact List.take_prefix _ _
  refine ⟨fun msg hpc => ?_, fun msg hpc => ?_, h.delivered.nonempty, htake.trans hlinked, hsent, ?_⟩
  · have hs := h.sender
    rw [hpc] at hs
    exact hs
  · have hr := h.receiver
    rw [hpc] at hr
    exact hr
  · intro pre post hes hret
    have hpre : linked pre <+: linked es := by
      rw [hes, linked_append]
      exact List.prefix_append _ _
    refine List.prefix_of_prefix_length_le hpre htake ?_
    rw [h.delivered.eq_take, List.length_take, Nat.min_eq_left h.delivered.le]
    exact h.delivered.completed pre post hes hret

theorem linkedFirst_of_linked {es es' : List (Event T)} {msg : T} (h : .began ∉ es) :
    LinkedFirst (es ++ .linked msg :: es') := by
  intro pre post heq
  rcases List.append_eq_append_iff.mp heq with ⟨mid, rfl, hmid⟩ | ⟨mid, rfl, hmid⟩
  · cases mid with
    | nil => cases hmid
    | cons e mid =>
      cases hmid
      simp [linked]
  · cases mid with
    | nil => cases hmid
    | cons e mid =>
      cases hmid
      simp at h

/-- Two messages; the second is linked while the receiver walks, and comes with the next batch. -/
def twoMessages : List Turn :=
  [.sender, .sender, .sender, .sender, .receiver, .receiver, .receiver, .sender, .sender, .sender,
    .sender, .receiver, .receiver, .receiver, .receiver, .receiver, .receiver, .receiver, .receiver]

theorem channel_delivers_twoMessages :
    batches ((machine Nat).run (.new [10, 20]) twoMessages).2 = [[10], [20]] ∧
      delivered ((machine Nat).run (.new [10, 20]) twoMessages).2 <+:
        sent ((machine Nat).run (.new [10, 20]) twoMessages).2 := by
  refine ⟨rfl, (channel_delivers (by decide) twoMessages rfl ?_).2.2.2.1⟩
  show LinkedFirst ([.sent 10] ++ .linked 10 :: _)
  exact linkedFirst_of_linked (by simp)

end Lfchannel
end Allora
