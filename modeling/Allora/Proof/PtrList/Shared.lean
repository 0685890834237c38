import Allora.SharedList
import Allora.Proof.PtrList.Refines

/-!
# Threads share a list

However the threads are interleaved, the list behaves as one whose operations take effect at once:
a push where its compare-exchange succeeds, an iteration where `iter` reads the first link, however
long the iterator is walked after that and whatever is pushed meanwhile.

Nodes are never unlinked here, so what a link once led to stays a suffix of the list. That is what
a thread keeps of its load, and what an iterator keeps of the list it started on. The
compare-exchange compares addresses only; that it never takes a longer list for the one it loaded
follows from the suffix, since two suffixes that start at the same node are the same.
-/

set_option autoImplicit false

namespace Allora
namespace SharedList

open Outcome PtrList Linked

variable {ι α : Type} [DecidableEq ι]

/-! ## A list whose operations take effect at once -/

/-- The elements, how many there were when each thread last loaded the first link, and what there
was when it began to iterate. -/
structure Atomic (ι α : Type) where
  items : List α
  loads : ι → Nat
  snaps : ι → List α

namespace Atomic

def after (sp : Atomic ι α) : Event ι α → Atomic ι α
  | .loaded t => { sp with loads := Function.update sp.loads t sp.items.length }
  | .pushed _ elem => { sp with items := elem :: sp.items }
  | .retried _ => sp
  | .began t => { sp with snaps := Function.update sp.snaps t sp.items }
  | .finished _ _ => sp

/-- A push tries again only if another one was done since its load, and an iterator that comes to
its end has given out what was there when it began. -/
def Allows (sp : Atomic ι α) : Event ι α → Prop
  | .retried t => sp.loads t < sp.items.length
  | .finished t elems => elems = sp.snaps t
  | _ => True

end Atomic

/-- After the events of a trace. -/
def atomic (es : List (Event ι α)) : Atomic ι α :=
  es.foldl Atomic.after ⟨[], fun _ => 0, fun _ => []⟩

/-- Each event is one that the atomic list allows. -/
def Explained : List (Event ι α) → Prop := Always fun pre e => (atomic pre).Allows e

@[simp] theorem atomic_concat (es : List (Event ι α)) (e : Event ι α) :
    atomic (es ++ [e]) = (atomic es).after e := by
  rw [atomic, List.foldl_append]
  rfl

/-- What a push has put into the list. -/
def Event.elem : Event ι α → Option α
  | .pushed _ elem => some elem
  | _ => none

/-- The elements pushed, the last one first. -/
def pushes (es : List (Event ι α)) : List α := (es.filterMap Event.elem).reverse

/-! ## What holds at every moment -/

section Invariant

/-- What `t` sees of the list is one that was there before. -/
def Seen (ns : List (Ptr × α)) (first : Option Ptr) (P : List (Ptr × α) → Prop) : Prop :=
  ∃ post, post <:+ ns ∧ first = link (post.map live) ∧ P post

/-- The node that a thread is about to link in. -/
def Pc.new : Pc α → Option (α × Ptr)
  | .load elem new => some (elem, new)
  | .store elem new _ => some (elem, new)
  | .exchange elem new _ => some (elem, new)
  | _ => none

/-- What the links a thread has read have to do with the list. -/
def Pc.At (A : Allocator α) (sp : Atomic ι α) (h : Heap α) (ns : List (Ptr × α)) (t : ι) : Pc α → Prop
  | .store _ _ old => Seen ns old fun post => post.length = sp.loads t
  | .exchange elem new old => h.cells new = some ⟨some elem, old⟩ ∧
      Seen ns old fun post => post.length = sp.loads t
  | .next it seen => Seen ns it fun post => seen ++ post.map Prod.snd = sp.snaps t
  | .panicked msg => msg = A.error
  | _ => True

/-- The list, from its dummy on. -/
structure Reads (l : PtrList α) (d : Ptr) (ns : List (Ptr × α)) : Prop where
  head : l.head = some d
  seg : Seg l.heap.cells (some d) ((d, none) :: ns.map live) none
  nodup : (d :: ns.map Prod.fst).Nodup

/-- A node outside the list, with `elem` in it. -/
def Owns (h : Heap α) (d : Ptr) (ns : List (Ptr × α)) (n : α × Ptr) : Prop :=
  (∃ next, h.cells n.2 = some ⟨some n.1, next⟩) ∧ n.2 ∉ d :: ns.map Prod.fst

structure Inv (A : Allocator α) (s : State ι α) (sp : Atomic ι α) (d : Ptr) (ns : List (Ptr × α)) : Prop where
  reads : Reads s.list d ns
  items : sp.items = ns.map Prod.snd
  owns : ∀ t n, (s.pc t).new = some n → Owns s.list.heap d ns n
  apart : ∀ t u n m, (s.pc t).new = some n → (s.pc u).new = some m → n.2 = m.2 → t = u
  stands : ∀ t, (s.pc t).At A sp s.list.heap ns t

variable {A : Allocator α} {s : State ι α} {sp sp' : Atomic ι α} {l : PtrList α} {h : Heap α} {d a : Ptr}
  {ns ns' : List (Ptr × α)} {t : ι} {pc : Pc α}

/-! ### Reading the list -/

theorem Seen.mono {first : Option Ptr} {P : List (Ptr × α) → Prop} (hseen : Seen ns first P)
    (hsuf : ns <:+ ns') : Seen ns' first P := by
  obtain ⟨post, hpost, hfirst, hP⟩ := hseen
  exact ⟨post, hpost.trans hsuf, hfirst, hP⟩

namespace Reads

theorem dummy (hr : Reads l d ns) : l.heap.read d = ok ⟨none, link (ns.map live)⟩ := by
  obtain ⟨-, k, hcell, hrest⟩ := hr.seg
  rw [read_of_cell hcell, hrest.link_eq]

/-- A node of the list leads on to the suffix behind it. -/
theorem node {n : Ptr × α} {post : List (Ptr × α)} (hr : Reads l d ns) (hpost : n :: post <:+ ns) :
    l.heap.read n.1 = ok ⟨some n.2, link (post.map live)⟩ := by
  obtain ⟨pre, rfl⟩ := hpost
  obtain ⟨-, k, -, hrest⟩ := hr.seg
  rw [List.map_append] at hrest
  obtain ⟨m, -, -, j, hcell, hend⟩ := seg_append.mp hrest
  have hcell' : l.heap.cells n.1 = some ⟨some n.2, j⟩ := hcell
  rw [read_of_cell hcell', hend.link_eq]

/-- Only the nodes of the list matter. -/
theorem congr (hr : Reads l d ns) (hmem : ∀ p ∈ d :: ns.map Prod.fst, h.cells p = l.heap.cells p) :
    Reads { l with heap := h } d ns := by
  refine ⟨hr.head, hr.seg.congr ?_, hr.nodup⟩
  intro n hn
  refine hmem n.1 ?_
  rcases List.mem_cons.mp hn with rfl | hn
  · exact List.mem_cons_self
  · obtain ⟨m, hm, rfl⟩ := List.mem_map.mp hn
    exact List.mem_cons_of_mem _ (List.mem_map_of_mem hm)

/-- **The compare-exchange of a push that succeeds.** -/
theorem link_in {elem : α} (hr : Reads l d ns) (ha : a ∉ d :: ns.map Prod.fst)
    (hcell : l.heap.cells a = some ⟨some elem, link (ns.map live)⟩) :
    Reads { l with heap := l.heap.write d ⟨none, some a⟩ } d ((a, elem) :: ns) := by
  obtain ⟨hfst, k, hd, hrest⟩ := hr.seg
  obtain ⟨hdns, hnodup⟩ := List.nodup_cons.mp hr.nodup
  have hne : ∀ p, p ≠ d → (l.heap.write d ⟨none, some a⟩).cells p = l.heap.cells p :=
    fun p hp => Function.update_of_ne hp _ _
  have had : a ≠ d := fun heq => ha (heq ▸ List.mem_cons_self)
  refine ⟨hr.head, ⟨rfl, some a, Function.update_self .., rfl, link (ns.map live), ?_, ?_⟩, ?_⟩
  · exact (hne a had).trans hcell
  · rw [hrest.link_eq] at hrest
    refine hrest.congr fun n hn => hne n.1 ?_
    obtain ⟨m, hm, rfl⟩ := List.mem_map.mp hn
    intro heq
    have heq' : m.1 = d := heq
    exact hdns (heq' ▸ List.mem_map_of_mem hm)
  · rw [List.map_cons, List.nodup_cons, List.mem_cons, not_or]
    rw [List.mem_cons, not_or] at ha
    exact ⟨⟨had.symm, hdns⟩, List.nodup_cons.mpr ⟨ha.2, hnodup⟩⟩

/-- What a client of the list would find in it. -/
theorem nexts (hr : Reads l d ns) : ∀ {post : List (Ptr × α)}, post <:+ ns →
    PtrList.nexts l.heap (post.length + 1) (link (post.map live)) =
      ok (post.map (some ∘ Prod.snd) ++ [none]) := by
  intro post
  induction post with
  | nil => exact fun _ => rfl
  | cons n post ih =>
    intro hpost
    have hrest := ih ((List.suffix_cons n post).trans hpost)
    have hread := hr.node hpost
    rw [List.length_cons, PtrList.nexts]
    show (l.heap.read n.1 >>= _) >>= _ = _
    rw [hread, ok_bind]
    show (PtrList.nexts l.heap (post.length + 1) _ >>= _) = _
    rw [hrest]
    rfl

end Reads

/-! ### The threads that do not move -/

omit [DecidableEq ι] in
/-- What a thread stands by survives a step of another. -/
theorem Pc.At.frame (hat : pc.At A sp h ns t) {h' : Heap α} (hsuf : ns <:+ ns')
    (hloads : sp'.loads t = sp.loads t) (hsnaps : sp'.snaps t = sp.snaps t)
    (hcells : ∀ n, pc.new = some n → h'.cells n.2 = h.cells n.2) : pc.At A sp' h' ns' t := by
  cases pc with
  | store elem new old =>
    rw [Pc.At, hloads]
    exact hat.mono hsuf
  | exchange elem new old =>
    rw [Pc.At, hloads, hcells (elem, new) rfl]
    exact ⟨hat.1, hat.2.mono hsuf⟩
  | next it seen =>
    rw [Pc.At, hsnaps]
    exact hat.mono hsuf
  | panicked msg => exact hat
  | idle => exact trivial
  | boxing => exact trivial
  | load => exact trivial
  | begin => exact trivial

/-- **A step of `t`.** What it does to memory leaves the list and the nodes of the other threads
alone, or links its own node in; the rest is what it has to show for itself. -/
theorem Inv.moves (hI : Inv A s sp d ns) (t : ι) {pc : Pc α} {l : PtrList α}
    (hreads : Reads l d ns') (hitems : sp'.items = ns'.map Prod.snd) (hsuf : ns <:+ ns')
    (hother : ∀ u, u ≠ t → sp'.loads u = sp.loads u ∧ sp'.snaps u = sp.snaps u)
    (hcells : ∀ u n, u ≠ t → (s.pc u).new = some n →
      l.heap.cells n.2 = s.list.heap.cells n.2 ∧ n.2 ∉ d :: ns'.map Prod.fst)
    (hown : ∀ n, pc.new = some n → Owns l.heap d ns' n)
    (hapart : ∀ u n m, u ≠ t → pc.new = some n → (s.pc u).new = some m → n.2 ≠ m.2)
    (hat : pc.At A sp' l.heap ns' t) :
    Inv A ⟨l, Function.update s.pc t pc⟩ sp' d ns' := by
  have hself : Function.update s.pc t pc t = pc := Function.update_self ..
  have hrest : ∀ u, u ≠ t → Function.update s.pc t pc u = s.pc u :=
    fun u hu => Function.update_of_ne hu _ _
  refine ⟨hreads, hitems, ?_, ?_, ?_⟩
  · intro u n hn
    by_cases hu : u = t
    · subst hu
      exact hown n ((congrArg Pc.new hself).symm.trans hn)
    · have hn' : (s.pc u).new = some n := (congrArg Pc.new (hrest u hu)).symm.trans hn
      obtain ⟨⟨next, hnext⟩, -⟩ := hI.owns u n hn'
      obtain ⟨hcell, hout⟩ := hcells u n hu hn'
      exact ⟨⟨next, hcell.trans hnext⟩, hout⟩
  · intro u v n m hn hm hnm
    by_cases hu : u = t
    · by_cases hv : v = t
      · exact hu.trans hv.symm
      · rw [hu] at hn
        have h1 : pc.new = some n := (congrArg Pc.new hself).symm.trans hn
        have h2 : (s.pc v).new = some m := (congrArg Pc.new (hrest v hv)).symm.trans hm
        exact absurd hnm (hapart v n m hv h1 h2)
    · have h1 : (s.pc u).new = some n := (congrArg Pc.new (hrest u hu)).symm.trans hn
      by_cases hv : v = t
      · rw [hv] at hm
        have h2 : pc.new = some m := (congrArg Pc.new hself).symm.trans hm
        exact absurd hnm.symm (hapart u m n hu h2 h1)
      · have h2 : (s.pc v).new = some m := (congrArg Pc.new (hrest v hv)).symm.trans hm
        exact hI.apart u v n m h1 h2 hnm
  · intro u
    show (Function.update s.pc t pc u).At A sp' l.heap ns' u
    by_cases hu : u = t
    · subst hu
      rw [hself]
      exact hat
    · rw [hrest u hu]
      obtain ⟨hloads, hsnaps⟩ := hother u hu
      exact (hI.stands u).frame hsuf hloads hsnaps fun n hn => (hcells u n hu hn).1

/-- A step that leaves memory alone. -/
theorem Inv.goto (hI : Inv A s sp d ns) (t : ι) {pc : Pc α} (hitems : sp'.items = sp.items)
    (hother : ∀ u, u ≠ t → sp'.loads u = sp.loads u ∧ sp'.snaps u = sp.snaps u)
    (hnew : pc.new = none ∨ pc.new = (s.pc t).new) (hat : pc.At A sp' s.list.heap ns t) :
    Inv A (s.goto t pc) sp' d ns := by
  have hold : ∀ n, pc.new = some n → (s.pc t).new = some n := by
    intro n hn
    rcases hnew with hnone | hsame
    · rw [hnone] at hn
      cases hn
    · exact hsame ▸ hn
  refine hI.moves t hI.reads (hitems.trans hI.items) (List.suffix_refl ns) hother ?_ ?_ ?_ hat
  · exact fun u n _ hn => ⟨rfl, (hI.owns u n hn).2⟩
  · exact fun n hn => hI.owns t n (hold n hn)
  · exact fun u n m hu hn hm heq => hu (hI.apart t u n m (hold n hn) hm heq).symm

/-- A step that writes one node, which is not in the list and no other thread's. -/
theorem Inv.writes (hI : Inv A s sp d ns) (t : ι) {elem : α} {next : Option Ptr} {pc : Pc α}
    (hcells : h.cells = Function.update s.list.heap.cells a (some ⟨some elem, next⟩))
    (ha : a ∉ d :: ns.map Prod.fst) (hfree : ∀ u m, u ≠ t → (s.pc u).new = some m → a ≠ m.2)
    (hnew : pc.new = some (elem, a)) (hat : pc.At A sp h ns t) :
    Inv A ((s.withHeap h).goto t pc) sp d ns := by
  have hne : ∀ p, p ≠ a → h.cells p = s.list.heap.cells p := by
    intro p hp
    rw [hcells]
    exact Function.update_of_ne hp _ _
  have hlist : Reads { s.list with heap := h } d ns :=
    hI.reads.congr fun p hp => hne p fun heq => ha (heq ▸ hp)
  have hout : ∀ u n, u ≠ t → (s.pc u).new = some n →
      h.cells n.2 = s.list.heap.cells n.2 ∧ n.2 ∉ d :: ns.map Prod.fst :=
    fun u n hu hn => ⟨hne n.2 (hfree u n hu hn).symm, (hI.owns u n hn).2⟩
  refine hI.moves t hlist hI.items (List.suffix_refl ns) (fun u _ => ⟨rfl, rfl⟩) hout ?_ ?_ hat
  · intro n hn
    cases hnew.symm.trans hn
    have hcell : h.cells a = some ⟨some elem, next⟩ := by
      rw [hcells]
      exact Function.update_self ..
    exact ⟨⟨next, hcell⟩, ha⟩
  · intro u n m hu hn hm
    cases hnew.symm.trans hn
    exact hfree u m hu hm

end Invariant

/-! ## Steps -/

section Steps

variable {A : Allocator α} {s : State ι α} {sp : Atomic ι α} {d : Ptr} {ns : List (Ptr × α)}

/-- A step does nothing that the atomic list sees, or one thing that it allows. -/
inductive Follows (A : Allocator α) (sp : Atomic ι α) (d : Ptr) (ns : List (Ptr × α)) :
    State ι α × List (Event ι α) → Prop
  | silent {s : State ι α} (h : Inv A s sp d ns) : Follows A sp d ns (s, [])
  | event {s : State ι α} {e : Event ι α} (hallow : sp.Allows e)
      (h : ∃ ns', Inv A s (sp.after e) d ns') : Follows A sp d ns (s, [e])

/-- `Box::new_in`: the new node is nobody's. -/
theorem boxing_follows {t : ι} {elem : α} (hI : Inv A s sp d ns) :
    Follows A sp d ns (s.go A t (.boxing elem)) := by
  rw [State.go, Heap.boxNew]
  cases hplace : A.place s.list.heap with
  | none =>
    have hat : (Pc.panicked A.error : Pc α).At A sp s.list.heap ns t := rfl
    exact .silent (hI.goto t rfl (fun _ _ => ⟨rfl, rfl⟩) (.inl rfl) hat)
  | some a =>
    have hfree : s.list.heap.cells a = none := A.fresh hplace
    refine .silent (hI.writes t (a := a) rfl ?_ ?_ rfl trivial)
    · intro ha
      rcases List.mem_cons.mp ha with rfl | ha
      · obtain ⟨-, k, hcell, -⟩ := hI.reads.seg
        cases hfree.symm.trans hcell
      · obtain ⟨n, hn, rfl⟩ := List.mem_map.mp ha
        obtain ⟨pre, post, rfl⟩ := List.append_of_mem hn
        have hread := hI.reads.node ⟨pre, rfl⟩
        rw [Heap.read, hfree] at hread
        cases hread
    · intro u m _ hm heq
      obtain ⟨⟨next, hcell⟩, -⟩ := hI.owns u m hm
      cases (heq ▸ hfree).symm.trans hcell

theorem load_follows {t : ι} {elem : α} {new : Ptr} (hI : Inv A s sp d ns)
    (hpc : s.pc t = .load elem new) : Follows A sp d ns (s.load t elem new) := by
  simp only [State.load, hI.reads.head, hI.reads.dummy]
  refine .event (e := .loaded t) trivial ⟨ns, hI.goto t rfl ?_ (.inr (by rw [hpc]; rfl)) ?_⟩
  · exact fun u hu => ⟨Function.update_of_ne hu _ _, rfl⟩
  · refine ⟨ns, List.suffix_refl ns, rfl, ?_⟩
    show ns.length = Function.update sp.loads t sp.items.length t
    rw [Function.update_self, hI.items, List.length_map]

/-- The store goes to the thread's own node. -/
theorem store_follows {t : ι} {elem : α} {new : Ptr} {old : Option Ptr} (hI : Inv A s sp d ns)
    (hpc : s.pc t = .store elem new old) : Follows A sp d ns (s.go A t (.store elem new old)) := by
  have hnew : (s.pc t).new = some (elem, new) := by
    rw [hpc]
    rfl
  have hat := hI.stands t
  rw [hpc] at hat
  obtain ⟨⟨next, hcell⟩, hout⟩ := hI.owns t _ hnew
  have hstore : s.list.heap.store new old = ok (s.list.heap.write new ⟨some elem, old⟩) := by
    rw [Heap.store, read_of_cell hcell]
    rfl
  rw [State.go, hstore]
  refine .silent (hI.writes t (a := new) rfl hout ?_ rfl ⟨Function.update_self .., hat⟩)
  exact fun u m hu hm heq => hu (hI.apart t u _ m hnew hm heq).symm

/-- **The compare-exchange** links the node in front of what it loaded, or the list has grown
since. -/
theorem exchange_follows {t : ι} {elem : α} {new : Ptr} {old : Option Ptr} (hI : Inv A s sp d ns)
    (hpc : s.pc t = .exchange elem new old) : Follows A sp d ns (s.exchange t elem new old) := by
  have hnew : (s.pc t).new = some (elem, new) := by
    rw [hpc]
    rfl
  have hat := hI.stands t
  rw [hpc] at hat
  obtain ⟨hcell, post, hpost, hold, hlen⟩ := hat
  have hout := (hI.owns t _ hnew).2
  simp only [State.exchange, hI.reads.head, Heap.compareExchange, hI.reads.dummy, ok_bind]
  by_cases hfirst : link (ns.map live) = old
  · rw [if_pos hfirst]
    rw [← hfirst] at hcell
    refine .event (e := .pushed t elem) trivial ⟨(new, elem) :: ns, ?_⟩
    refine hI.moves t (hI.reads.link_in hout hcell) ?_ (List.suffix_cons _ ns)
      (fun _ _ => ⟨rfl, rfl⟩) ?_ ?_ ?_ trivial
    · show elem :: sp.items = elem :: ns.map Prod.snd
      rw [hI.items]
    · intro u n hu hn
      have hn' := (hI.owns u n hn).2
      refine ⟨Function.update_of_ne (List.ne_of_not_mem_cons hn') _ _, ?_⟩
      rw [List.map_cons, List.mem_cons, List.mem_cons, not_or, not_or]
      rw [List.mem_cons, not_or] at hn'
      exact ⟨hn'.1, fun heq => hu (hI.apart u t n _ hn hnew heq), hn'.2⟩
    · exact fun n hn => by cases hn
    · exact fun u n m _ hn => by cases hn
  · rw [if_neg hfirst]
    have hback : Inv A (s.goto t (.load elem new)) sp d ns :=
      hI.goto t rfl (fun _ _ => ⟨rfl, rfl⟩) (.inr (by rw [hnew]; rfl)) trivial
    refine .event (e := .retried t) ?_ ⟨ns, hback⟩
    -- a suffix of the same length would be the whole list
    have hne : post ≠ ns := fun heq => hfirst (by rw [hold, heq])
    show sp.loads t < sp.items.length
    rw [hI.items, List.length_map, ← hlen]
    exact Nat.lt_of_le_of_ne hpost.length_le fun heq => hne (hpost.eq_of_length heq)

theorem begin_follows {t : ι} (hI : Inv A s sp d ns) : Follows A sp d ns (s.go A t .begin) := by
  have hiter : s.list.iter = ok (link (ns.map live)) := by
    rw [iter, hI.reads.head]
    show (s.list.heap.read d >>= _) = _
    rw [hI.reads.dummy, ok_bind]
  rw [State.go, hiter]
  refine .event (e := .began t) trivial ⟨ns, hI.goto t rfl ?_ (.inl rfl) ?_⟩
  · exact fun u hu => ⟨rfl, Function.update_of_ne hu _ _⟩
  · refine ⟨ns, List.suffix_refl ns, rfl, ?_⟩
    show ns.map Prod.snd = Function.update sp.snaps t sp.items t
    rw [Function.update_self, hI.items]

theorem next_follows {t : ι} {it : Option Ptr} {seen : List α} (hI : Inv A s sp d ns)
    (hpc : s.pc t = .next it seen) : Follows A sp d ns (s.go A t (.next it seen)) := by
  have hat := hI.stands t
  rw [hpc] at hat
  obtain ⟨post, hpost, rfl, hsnap⟩ := hat
  rw [State.go]
  cases post with
  | nil =>
    rw [List.map_nil, List.append_nil] at hsnap
    exact .event (e := .finished t seen) hsnap
      ⟨ns, hI.goto t rfl (fun _ _ => ⟨rfl, rfl⟩) (.inl rfl) trivial⟩
  | cons n post =>
    have hnext : iterNext s.list.heap (link ((n :: post).map live)) =
        ok (some n.2, link (post.map live)) := by
      show (s.list.heap.read n.1 >>= _) = _
      rw [hI.reads.node hpost]
      rfl
    rw [hnext]
    refine .silent (hI.goto t rfl (fun _ _ => ⟨rfl, rfl⟩) (.inl rfl) ?_)
    refine ⟨post, (List.suffix_cons n post).trans hpost, rfl, ?_⟩
    show seen ++ [n.2] ++ post.map Prod.snd = sp.snaps t
    rw [← hsnap, List.append_assoc]
    rfl

/-- A call or the end of one, at which a thread has no node. -/
theorem Inv.quiet {t : ι} {pc : Pc α} (hI : Inv A s sp d ns) (hnew : pc.new = none)
    (hat : pc.At A sp s.list.heap ns t) : Follows A sp d ns (s.goto t pc, []) :=
  .silent (hI.goto t rfl (fun _ _ => ⟨rfl, rfl⟩) (.inl hnew) hat)

theorem go_follows {t : ι} (hI : Inv A s sp d ns) : Follows A sp d ns (s.go A t (s.pc t)) := by
  cases hpc : s.pc t with
  | idle => exact .silent hI
  | boxing elem => exact boxing_follows hI
  | load elem new => exact load_follows hI hpc
  | store elem new old => exact store_follows hI hpc
  | exchange elem new old => exact exchange_follows hI hpc
  | begin => exact begin_follows hI
  | next it seen => exact next_follows hI hpc
  | panicked msg => exact .silent hI

/-- **Every step of the list is one of the atomic list.** -/
theorem step_follows (hI : Inv A s sp d ns) (turn : Turn ι α) :
    Follows A sp d ns (s.step A turn) := by
  cases turn with
  | push t elem =>
    rw [State.step]
    split
    · exact hI.quiet rfl trivial
    · exact .silent hI
  | iter t =>
    rw [State.step]
    split
    · exact hI.quiet rfl trivial
    · exact .silent hI
  | stop t =>
    rw [State.step]
    split
    · exact hI.quiet rfl trivial
    · exact .silent hI
  | go t => exact go_follows hI

end Steps

/-! ## Runs -/

/-- The elements of the atomic list. -/
theorem atomic_items (es : List (Event ι α)) : (atomic es).items = pushes es := by
  induction es using List.reverseRecOn with
  | nil => exact rfl
  | append_singleton es e ih =>
    rw [atomic_concat, pushes, List.filterMap_append, List.reverse_append]
    cases e with
    | pushed t elem => exact congrArg (elem :: ·) ih
    | loaded => exact ih
    | retried => exact ih
    | began => exact ih
    | finished => exact ih

/-- Nobody is using a new list. -/
theorem Inv.init {A : Allocator α} {l : PtrList α} {d : Ptr} (hhead : l.head = some d)
    (hc : Chain l.heap.cells (some d) [(d, none)]) :
    Inv A (start ι l) (atomic []) d [] where
  reads := ⟨hhead, hc.seg, List.nodup_singleton d⟩
  items := rfl
  owns := fun t n hn => by cases hn
  apart := fun t u n m hn => by cases hn
  stands := fun t => trivial

theorem run_inv {A : Allocator α} {l : PtrList α} {d : Ptr} (hI : Inv A (start ι l) (atomic []) d [])
    (turns : List (Turn ι α)) :
    Explained ((machine ι A).run (start ι l) turns).2 ∧
      ∃ ns, Inv A ((machine ι A).run (start ι l) turns).1
        (atomic ((machine ι A).run (start ι l) turns).2) d ns := by
  refine (machine ι A).run_invariant (P := fun s es => Explained es ∧ ∃ ns, Inv A s (atomic es) d ns)
    (G := fun _ => True) (fun _ => trivial) ⟨Always.nil, [], hI⟩ ?_ turns trivial
  rintro s es turn ⟨hes, ns, h⟩ -
  have hfollows : Follows A (atomic es) d ns (s.step A turn) := step_follows h turn
  show Explained (es ++ (s.step A turn).2) ∧
    ∃ ns, Inv A (s.step A turn).1 (atomic (es ++ (s.step A turn).2)) d ns
  generalize s.step A turn = r at hfollows ⊢
  cases hfollows with
  | silent h =>
    rw [List.append_nil]
    exact ⟨hes, ns, h⟩
  | event hallow h =>
    refine ⟨Always.concat hes hallow, ?_⟩
    rw [atomic_concat]
    exact h

/-- **Threads that push and iterate see one list.** In every interleaving each event is one of a
list whose operations take effect at once: a finished iteration has given out exactly the elements
that were there when it began, and a push tries again only if another has succeeded since its load.
Memory holds what was pushed, the last first and nothing else, in every state; and the only panic
is that of the allocator. -/
theorem shared_list {A : Allocator α} {l : PtrList α} (hnew : newIn A = ok l)
    (turns : List (Turn ι α)) :
    let (s, es) := (machine ι A).run (start ι l) turns
    Explained es ∧
      (s.list.iter >>= nexts s.list.heap ((pushes es).length + 1)) =
        ok ((pushes es).map some ++ [none]) ∧
      ∀ t msg, s.pc t = .panicked msg → msg = A.error := by
  rcases newIn_chain A with ⟨-, hpanic⟩ | ⟨l', d, hok, hhead, hc⟩
  · cases hnew.symm.trans hpanic
  · cases hnew.symm.trans hok
    have hrun := run_inv (A := A) (Inv.init hhead hc) turns
    generalize (machine ι A).run (start ι l) turns = r at hrun ⊢
    obtain ⟨s, es⟩ := r
    obtain ⟨hes, ns, hI⟩ := hrun
    have hitems : ns.map Prod.snd = pushes es := hI.items.symm.trans (atomic_items es)
    refine ⟨hes, ?_, fun t msg ht => ?_⟩
    · show (s.list.iter >>= nexts s.list.heap ((pushes es).length + 1)) = _
      rw [← hitems, List.length_map, iter, hI.reads.head]
      show (_ >>= fun node => _) >>= _ = _
      rw [hI.reads.dummy, ok_bind, ok_bind, hI.reads.nexts (List.suffix_refl ns), List.map_map]
    · have hat := hI.stands t
      rw [ht] at hat
      exact hat

/-- Two pushes meet: both load the empty list, and the second to swing the link has to go back. An
iteration that begins before it has another go does not see it. -/
def sharedTurns : List (Turn Nat Nat) :=
  [.push 0 5, .push 1 7, .go 0, .go 1, .go 0, .go 1, .go 0, .go 1, .go 0, .go 1, .iter 2, .go 2,
    .go 1, .go 1, .go 1, .go 2, .go 2]

theorem shared_list_meet : ∃ l, newIn firstFree = ok l ∧
    ((machine Nat firstFree).run (start Nat l) sharedTurns).2 =
      [.loaded 0, .loaded 1, .pushed 0 5, .retried 1, .began 2, .loaded 1, .pushed 1 7,
        .finished 2 [5]] ∧
    ∀ t msg, ((machine Nat firstFree).run (start Nat l) sharedTurns).1.pc t = .panicked msg →
      msg = "allocation error: Layout \x7b size: 16, align: 8 (1 << 3) \x7d" := by
  obtain ⟨l, hnew⟩ : ∃ l : PtrList Nat, newIn firstFree = ok l := ⟨_, rfl⟩
  have h := shared_list hnew sharedTurns
  cases hnew
  exact ⟨_, rfl, rfl, h.2.2⟩

end SharedList
end Allora
