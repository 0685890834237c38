import Allora.Mm.PageTree

/-!
# A tree stored in memory

The link between the two levels of the page tree. `Stored mem p s` says that the abstract tree `s`
is laid out in `mem` with every parent, left and right link as the shape of `s` demands, below a
parent link `p`; `Around mem root ctx h` says the same of the ancestors around a hole whose link is
`h`. `At t ctx s` is the two together: the pointer structure `t` holds the tree `ctx.plug s`, and
the code stands at the root of `s`.

The point of `At` is that moving through parent links costs nothing (`At.up`, `At.down`: the same
memory, read at another focus), so a step of a fixup loop is verified by walking to the nodes it
writes and applying one of three local lemmas — paint a node, rotate at a node, replace a
subtree.
-/

set_option autoImplicit false

namespace Allora
namespace PageTree

open Outcome

/-- The link to a tree. -/
def link : Tree Nat → PageLink
  | .nil => none
  | .node _ _ n _ => some n

/-- The link to the nearest ancestor. -/
def top : Ctx Nat → PageLink
  | [] => none
  | f :: _ => some f.key

/-- A node with its child link on side `d` named first. -/
def cell (d : Dir) (n : Nat) (p near far : PageLink) (c : Color) : PageNode :=
  match d with
  | .left => ⟨n, p, near, far, c⟩
  | .right => ⟨n, p, far, near, c⟩

/-- The tree is laid out in memory below the parent link `p`. -/
def Stored (mem : Nat → PageNode) : PageLink → Tree Nat → Prop
  | _, .nil => True
  | p, .node c l n r =>
      mem n = ⟨n, p, link l, link r, c⟩ ∧ Stored mem (some n) l ∧ Stored mem (some n) r

/-- The ancestors are laid out in memory around a hole whose link is `h`. -/
def Around (mem : Nat → PageNode) (root : PageLink) : Ctx Nat → PageLink → Prop
  | [], h => root = h
  | f :: ctx, h =>
      mem f.key = cell f.dir f.key (top ctx) h (link f.sib) f.color ∧
        Stored mem (some f.key) f.sib ∧ Around mem root ctx (some f.key)

/-- `t` holds the tree `ctx.plug s`, and the focus is the root of `s`. -/
structure At (t : PageTree) (ctx : Ctx Nat) (s : Tree Nat) : Prop where
  around : Around t.mem t.root ctx (link s)
  stored : Stored t.mem (top ctx) s
  nodup : (Ctx.plug ctx s).toList.Nodup

/-- Memory outside the pages of `L` is untouched. -/
def Framed (L : List Nat) (t t' : PageTree) : Prop := ∀ k, k ∉ L → t'.mem k = t.mem k

theorem Framed.refl (L : List Nat) (t : PageTree) : Framed L t t := fun _ _ => rfl

theorem Framed.trans {L : List Nat} {t t' t'' : PageTree} (h : Framed L t t')
    (h' : Framed L t' t'') : Framed L t t'' := fun k hk => (h' k hk).trans (h k hk)

theorem Framed.mono {L L' : List Nat} {t t' : PageTree} (h : Framed L t t')
    (hs : ∀ k ∈ L, k ∈ L') : Framed L' t t' := fun k hk => h k fun hm => hk (hs k hm)

/-! ## Reading -/

@[simp] theorem link_nil : link .nil = none := rfl
@[simp] theorem link_node (c : Color) (l : Tree Nat) (n : Nat) (r : Tree Nat) :
    link (.node c l n r) = some n := rfl
@[simp] theorem link_branch (d : Dir) (c : Color) (s : Tree Nat) (n : Nat) (u : Tree Nat) :
    link (.branch d c s n u) = some n := by cases d <;> rfl
@[simp] theorem top_nil : top [] = none := rfl
@[simp] theorem top_cons (f : Frame Nat) (ctx : Ctx Nat) : top (f :: ctx) = some f.key := rfl

section Cell

variable (d : Dir) (n : Nat) (p near far : PageLink) (c : Color)

@[simp] theorem cell_n : (cell d n p near far c).n = n := by cases d <;> rfl
@[simp] theorem cell_parent : (cell d n p near far c).parent = p := by cases d <;> rfl
@[simp] theorem cell_color : (cell d n p near far c).color = c := by cases d <;> rfl
@[simp] theorem cell_child : (cell d n p near far c).child d = near := by cases d <;> rfl
@[simp] theorem cell_child_flip : (cell d n p near far c).child d.flip = far := by
  cases d <;> rfl
@[simp] theorem cell_setChild (l : PageLink) :
    (cell d n p near far c).setChild d l = cell d n p l far c := by cases d <;> rfl
@[simp] theorem cell_setChild_flip (l : PageLink) :
    (cell d n p near far c).setChild d.flip l = cell d n p near l c := by cases d <;> rfl
@[simp] theorem cell_setParent (q : PageLink) :
    (cell d n p near far c).setParent q = cell d n q near far c := by cases d <;> rfl
@[simp] theorem cell_setColor (c' : Color) :
    (cell d n p near far c).setColor c' = cell d n p near far c' := by cases d <;> rfl

end Cell

theorem link_eq_some {s : Tree Nat} {n : Nat} (h : link s = some n) : n ∈ s.toList := by
  cases s with
  | nil => cases h
  | node c l m r => cases h; simp

@[simp] theorem stored_nil (mem : Nat → PageNode) (p : PageLink) : Stored mem p .nil := trivial

@[simp] theorem stored_branch {mem : Nat → PageNode} {p : PageLink} {d : Dir} {c : Color}
    {s u : Tree Nat} {n : Nat} :
    Stored mem p (.branch d c s n u) ↔
      mem n = cell d n p (link s) (link u) c ∧ Stored mem (some n) s ∧ Stored mem (some n) u := by
  cases d with
  | left => rfl
  | right =>
    simp only [Tree.branch, Stored, cell]
    tauto

theorem Stored.congr {mem mem' : Nat → PageNode} {s : Tree Nat} :
    ∀ {p : PageLink}, Stored mem p s → (∀ k ∈ s.toList, mem' k = mem k) → Stored mem' p s := by
  induction s with
  | nil => exact fun _ _ => trivial
  | node c l n r ihl ihr =>
    intro p h hk
    obtain ⟨hn, hl, hr⟩ := h
    refine ⟨?_, ihl hl fun k hm => hk k ?_, ihr hr fun k hm => hk k ?_⟩
    · rw [hk n (by simp), hn]
    · simp [hm]
    · simp [hm]

theorem Around.congr {mem mem' : Nat → PageNode} {root : PageLink} {ctx : Ctx Nat} :
    ∀ {h : PageLink}, Around mem root ctx h → (∀ k ∈ Ctx.keys ctx, mem' k = mem k) →
      Around mem' root ctx h := by
  induction ctx with
  | nil => exact fun h _ => h
  | cons f ctx ih =>
    intro h ha hk
    obtain ⟨hf, hs, hr⟩ := ha
    refine ⟨?_, hs.congr fun k hm => hk k ?_, ih hr fun k hm => hk k ?_⟩
    · rw [hk f.key (by simp), hf]
    · simp [hm]
    · simp [hm]

/-- Hanging a stored tree below another parent is a write to its root only. -/
theorem Stored.reparent {mem : Nat → PageNode} {p q : PageLink} {s : Tree Nat}
    (h : Stored mem p s) (hnd : s.toList.Nodup) {mem' : Nat → PageNode}
    (hroot : ∀ n, link s = some n → mem' n = (mem n).setParent q)
    (hk : ∀ k ∈ s.toList, link s ≠ some k → mem' k = mem k) : Stored mem' q s := by
  cases s with
  | nil => trivial
  | node c l n r =>
    obtain ⟨hn, hl, hr⟩ := h
    have hnl : n ∉ l.toList ∧ n ∉ r.toList := by
      simp only [Tree.toList_node, List.nodup_append, List.nodup_cons] at hnd
      exact ⟨fun hm => hnd.2.2 n hm n (by simp) rfl, hnd.2.1.1⟩
    refine ⟨?_, hl.congr fun k hm => hk k (by simp [hm]) ?_,
      hr.congr fun k hm => hk k (by simp [hm]) ?_⟩
    · rw [hroot n rfl, hn]; rfl
    · rintro ⟨⟩; exact hnl.1 hm
    · rintro ⟨⟩; exact hnl.2 hm

end PageTree
end Allora
