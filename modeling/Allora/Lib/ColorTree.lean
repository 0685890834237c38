import Mathlib.Data.List.Nodup
import Mathlib.Tactic.Common

/-!
# Coloured binary trees with a focus

The abstract side of a red-black tree that is written with parent pointers. A fixup loop of such a
tree stands at one node and moves through its parent, its sibling and its grandparent, so the
structure it works on is not a tree but a tree *with a focus*: a subtree `t` and the path `ctx` of
ancestors around it. `Ctx.plug ctx t` is the whole tree; a step of a loop is a rewrite of a pair
`(ctx, t)`.

Two families of facts are kept here, and both are about arbitrary keys:

* **order** — `Ctx.toList_plug` splits the in-order sequence of the whole tree at the focus, which
  is what makes "a rotation keeps the sequence" a local computation;
* **colour** — `Tree.NoRedRed` (no red node has a red child) splits the same way
  (`Ctx.noRedRed_plug`), and so do equal black heights (`Ctx.balanced_plug`).

Everything is written for both directions at once: `Tree.branch d` builds a node whose child on
side `d` is named first, so a rotation and its mirror image are one term.
-/

set_option autoImplicit false

namespace Allora

/-- The colour of a node. -/
inductive Color
  | red
  | black
  deriving DecidableEq, Repr

/-- A side of a node. -/
inductive Dir
  | left
  | right
  deriving DecidableEq, Repr

/-- The other side. -/
def Dir.flip : Dir → Dir
  | left => right
  | right => left

@[simp] theorem Dir.flip_left : Dir.left.flip = Dir.right := rfl
@[simp] theorem Dir.flip_right : Dir.right.flip = Dir.left := rfl
@[simp] theorem Dir.flip_flip (d : Dir) : d.flip.flip = d := by cases d <;> rfl
@[simp] theorem Dir.flip_ne (d : Dir) : d.flip ≠ d := by cases d <;> decide
@[simp] theorem Dir.ne_flip (d : Dir) : d ≠ d.flip := by cases d <;> decide

theorem Dir.eq_or_eq_flip (d e : Dir) : e = d ∨ e = d.flip := by
  cases d <;> cases e <;> simp

/-- A binary tree of coloured nodes. -/
inductive Tree (α : Type)
  | nil
  | node (c : Color) (l : Tree α) (a : α) (r : Tree α)
  deriving DecidableEq, Repr

namespace Tree

variable {α : Type}

/-- A node with its child on side `d` named first. -/
def branch (d : Dir) (c : Color) (near : Tree α) (a : α) (far : Tree α) : Tree α :=
  match d with
  | .left => node c near a far
  | .right => node c far a near

/-- The in-order sequence. -/
def toList : Tree α → List α
  | nil => []
  | node _ l a r => l.toList ++ a :: r.toList

/-- The colour of the root, if there is one. -/
def color? : Tree α → Option Color
  | nil => none
  | node c _ _ _ => some c

/-- The tree with its root painted `c`. -/
def paint (c : Color) : Tree α → Tree α
  | nil => nil
  | node _ l a r => node c l a r

/-- The subtree on side `d`. -/
def near (d : Dir) : Tree α → Tree α
  | nil => nil
  | node _ l _ r => match d with
    | .left => l
    | .right => r

/-- No red node has a red child. -/
def NoRedRed : Tree α → Prop
  | nil => True
  | node c l _ r =>
      (c = .red → l.color? ≠ some .red ∧ r.color? ≠ some .red) ∧ l.NoRedRed ∧ r.NoRedRed

@[simp] theorem toList_nil : (nil : Tree α).toList = [] := rfl
@[simp] theorem toList_node (c : Color) (l : Tree α) (a : α) (r : Tree α) :
    (node c l a r).toList = l.toList ++ a :: r.toList := rfl

@[simp] theorem color?_nil : (nil : Tree α).color? = none := rfl
@[simp] theorem color?_node (c : Color) (l : Tree α) (a : α) (r : Tree α) :
    (node c l a r).color? = some c := rfl
@[simp] theorem color?_branch (d : Dir) (c : Color) (t : Tree α) (a : α) (s : Tree α) :
    (branch d c t a s).color? = some c := by cases d <;> rfl

@[simp] theorem paint_nil (c : Color) : (nil : Tree α).paint c = nil := rfl
@[simp] theorem paint_node (c c' : Color) (l : Tree α) (a : α) (r : Tree α) :
    (node c l a r).paint c' = node c' l a r := rfl
@[simp] theorem paint_branch (d : Dir) (c c' : Color) (t : Tree α) (a : α) (s : Tree α) :
    (branch d c t a s).paint c' = branch d c' t a s := by cases d <;> rfl

@[simp] theorem near_branch (d : Dir) (c : Color) (t : Tree α) (a : α) (s : Tree α) :
    (branch d c t a s).near d = t := by cases d <;> rfl
@[simp] theorem near_flip_branch (d : Dir) (c : Color) (t : Tree α) (a : α) (s : Tree α) :
    (branch d c t a s).near d.flip = s := by cases d <;> rfl

@[simp] theorem toList_paint (c : Color) (t : Tree α) : (t.paint c).toList = t.toList := by
  cases t <;> rfl

theorem branch_perm (d : Dir) (c : Color) (t : Tree α) (a : α) (s : Tree α) :
    List.Perm (branch d c t a s).toList (a :: (t.toList ++ s.toList)) := by
  cases d with
  | left => exact List.perm_middle
  | right => exact List.perm_middle.trans (List.Perm.cons a List.perm_append_comm)

@[simp] theorem mem_toList_branch {d : Dir} {c : Color} {t s : Tree α} {a b : α} :
    b ∈ (branch d c t a s).toList ↔ b = a ∨ b ∈ t.toList ∨ b ∈ s.toList := by
  rw [(branch_perm d c t a s).mem_iff, List.mem_cons, List.mem_append]

@[simp] theorem noRedRed_nil : (nil : Tree α).NoRedRed := trivial

@[simp] theorem noRedRed_branch {d : Dir} {c : Color} {t s : Tree α} {a : α} :
    (branch d c t a s).NoRedRed ↔
      (c = .red → t.color? ≠ some .red ∧ s.color? ≠ some .red) ∧ t.NoRedRed ∧ s.NoRedRed := by
  cases d
  · rfl
  · simp only [branch, NoRedRed]; tauto

theorem branch_ne_nil (d : Dir) (c : Color) (t : Tree α) (a : α) (s : Tree α) :
    branch d c t a s ≠ nil := by cases d <;> simp [branch]

theorem branch_flip (d : Dir) (c : Color) (t : Tree α) (a : α) (s : Tree α) :
    branch d.flip c t a s = branch d c s a t := by cases d <;> rfl

/-- Every tree is empty or a branch, from whichever side it is read. -/
theorem eq_nil_or_branch (d : Dir) (t : Tree α) :
    t = nil ∨ ∃ c near a far, t = branch d c near a far := by
  cases t with
  | nil => exact Or.inl rfl
  | node c l a r =>
    cases d with
    | left => exact Or.inr ⟨c, l, a, r, rfl⟩
    | right => exact Or.inr ⟨c, r, a, l, rfl⟩

/-- A coloured root, from whichever side. -/
theorem eq_branch_of_color? (d : Dir) {c : Color} {t : Tree α} (h : t.color? = some c) :
    ∃ near a far, t = branch d c near a far := by
  rcases eq_nil_or_branch d t with rfl | ⟨c', near, a, far, rfl⟩
  · cases h
  · rw [color?_branch] at h
    cases h
    exact ⟨near, a, far, rfl⟩

/-- Painting a root black cannot make two red nodes meet. -/
theorem NoRedRed.paint_black {t : Tree α} (h : t.NoRedRed) : (t.paint .black).NoRedRed := by
  cases t with
  | nil => trivial
  | node c l a r => exact ⟨fun hc => (by cases hc), h.2⟩

/-- A rotation keeps the in-order sequence. -/
theorem toList_rotate (d : Dir) (c c' : Color) (t u v : Tree α) (a b : α) :
    (branch d c (branch d c' t a u) b v).toList = (branch d c' t a (branch d c u b v)).toList := by
  cases d <;> simp [branch]

end Tree

/-! ## Paths -/

/-- One ancestor of the focus: the side the focus is on, the ancestor's colour and key, and the
subtree on its other side. -/
structure Frame (α : Type) where
  dir : Dir
  color : Color
  key : α
  sib : Tree α
  deriving DecidableEq, Repr

/-- The ancestors of the focus, nearest first. -/
abbrev Ctx (α : Type) := List (Frame α)

namespace Ctx

variable {α : Type}

/-- Put a subtree back under its nearest ancestor. -/
def attach (f : Frame α) (t : Tree α) : Tree α := Tree.branch f.dir f.color t f.key f.sib

/-- The whole tree. -/
def plug : Ctx α → Tree α → Tree α
  | [], t => t
  | f :: ctx, t => plug ctx (attach f t)

/-- What the in-order sequence holds before the focus. -/
def before : Ctx α → List α
  | [] => []
  | ⟨.left, _, _, _⟩ :: ctx => before ctx
  | ⟨.right, _, a, s⟩ :: ctx => before ctx ++ (s.toList ++ [a])

/-- What the in-order sequence holds after the focus. -/
def after : Ctx α → List α
  | [] => []
  | ⟨.left, _, a, s⟩ :: ctx => (a :: s.toList) ++ after ctx
  | ⟨.right, _, _, _⟩ :: ctx => after ctx

/-- The colour of the ancestor just above the focus. -/
def color? : Ctx α → Option Color
  | [] => none
  | f :: _ => some f.color

/-- The colour of the root of the whole tree, when the focus is below it. -/
def rootColor? (ctx : Ctx α) : Option Color := ctx.getLast?.map Frame.color

/-- No red node among the ancestors or in their other subtrees has a red child, the focus
aside. -/
def NoRedRed : Ctx α → Prop
  | [] => True
  | f :: ctx =>
      (f.color = .red → f.sib.color? ≠ some .red ∧ color? ctx ≠ some .red) ∧
        f.sib.NoRedRed ∧ NoRedRed ctx

@[simp] theorem plug_nil (t : Tree α) : plug [] t = t := rfl
@[simp] theorem plug_cons (f : Frame α) (ctx : Ctx α) (t : Tree α) :
    plug (f :: ctx) t = plug ctx (attach f t) := rfl

@[simp] theorem attach_mk (d : Dir) (c : Color) (a : α) (s t : Tree α) :
    attach ⟨d, c, a, s⟩ t = Tree.branch d c t a s := rfl

theorem plug_append (ctx ctx' : Ctx α) (t : Tree α) :
    plug (ctx' ++ ctx) t = plug ctx (plug ctx' t) := by
  induction ctx' generalizing t with
  | nil => rfl
  | cons f ctx' ih => exact ih _

theorem before_append (ctx ctx' : Ctx α) : before (ctx' ++ ctx) = before ctx ++ before ctx' := by
  induction ctx' with
  | nil => simp [before]
  | cons f ctx' ih =>
    obtain ⟨d, c, a, s⟩ := f
    cases d <;> simp [before, ih]

theorem after_append (ctx ctx' : Ctx α) : after (ctx' ++ ctx) = after ctx' ++ after ctx := by
  induction ctx' with
  | nil => simp [after]
  | cons f ctx' ih =>
    obtain ⟨d, c, a, s⟩ := f
    cases d <;> simp [after, ih]

/-- **The in-order sequence, split at the focus.** -/
theorem toList_plug (ctx : Ctx α) (t : Tree α) :
    (plug ctx t).toList = before ctx ++ (t.toList ++ after ctx) := by
  induction ctx generalizing t with
  | nil => simp [before, after]
  | cons f ctx ih =>
    obtain ⟨d, c, a, s⟩ := f
    cases d <;> simp [ih, before, after, Tree.branch]

/-- The keys around the focus, in no particular order. -/
def keys : Ctx α → List α
  | [] => []
  | f :: ctx => f.key :: (f.sib.toList ++ keys ctx)

@[simp] theorem keys_nil : keys ([] : Ctx α) = [] := rfl
@[simp] theorem keys_cons (f : Frame α) (ctx : Ctx α) :
    keys (f :: ctx) = f.key :: (f.sib.toList ++ keys ctx) := rfl

theorem keys_append (ctx ctx' : Ctx α) : keys (ctx' ++ ctx) = keys ctx' ++ keys ctx := by
  induction ctx' with
  | nil => rfl
  | cons f ctx' ih => simp [ih]

theorem plug_perm (ctx : Ctx α) (t : Tree α) :
    List.Perm (plug ctx t).toList (t.toList ++ keys ctx) := by
  induction ctx generalizing t with
  | nil => simp
  | cons f ctx ih =>
    refine (ih (attach f t)).trans ?_
    refine ((Tree.branch_perm f.dir f.color t f.key f.sib).append_right _).trans ?_
    simp only [keys_cons, List.cons_append, List.append_assoc]
    exact List.perm_middle.symm

@[simp] theorem mem_plug {ctx : Ctx α} {t : Tree α} {a : α} :
    a ∈ (plug ctx t).toList ↔ a ∈ t.toList ∨ a ∈ keys ctx := by
  rw [(plug_perm ctx t).mem_iff, List.mem_append]

/-- Distinct keys, seen from a node at the focus. -/
theorem nodup_plug_branch {ctx : Ctx α} {d : Dir} {c : Color} {s u : Tree α} {a : α} :
    (plug ctx (.branch d c s a u)).toList.Nodup ↔
      a ∉ s.toList ∧ a ∉ u.toList ∧ a ∉ keys ctx ∧ (s.toList ++ (u.toList ++ keys ctx)).Nodup := by
  rw [((plug_perm ctx _).trans ((Tree.branch_perm d c s a u).append_right _)).nodup_iff]
  simp only [List.cons_append, List.nodup_cons, List.mem_append, not_or, List.append_assoc]
  tauto

/-- The sequence of the whole tree depends on the focus only through its sequence. -/
theorem toList_plug_congr (ctx : Ctx α) {t t' : Tree α} (h : t'.toList = t.toList) :
    (plug ctx t').toList = (plug ctx t).toList := by
  rw [toList_plug, toList_plug, h]

/-- Colours meet at one edge: the focus under its nearest ancestor. -/
theorem noRedRed_plug (ctx : Ctx α) (t : Tree α) :
    (plug ctx t).NoRedRed ↔
      t.NoRedRed ∧ NoRedRed ctx ∧ (color? ctx = some .red → t.color? ≠ some .red) := by
  induction ctx generalizing t with
  | nil => simp [NoRedRed, color?]
  | cons f ctx ih =>
    obtain ⟨d, c, a, s⟩ := f
    have hc : color? (⟨d, c, a, s⟩ :: ctx) = some c := rfl
    rw [plug_cons, attach_mk, ih, Tree.noRedRed_branch, Tree.color?_branch, hc, NoRedRed]
    simp only [Option.some.injEq, ne_eq]
    tauto

/-- The root of the whole tree: the last ancestor, or the focus itself. -/
theorem color?_plug (ctx : Ctx α) (t : Tree α) :
    (plug ctx t).color? = (rootColor? ctx).or t.color? := by
  induction ctx generalizing t with
  | nil => simp [rootColor?]
  | cons f ctx ih =>
    obtain ⟨d, c, a, s⟩ := f
    rw [plug_cons, ih, attach_mk, Tree.color?_branch]
    simp only [rootColor?, List.getLast?_cons]
    cases ctx.getLast? <;> simp

theorem length_le_toList_plug (ctx : Ctx α) (t : Tree α) :
    ctx.length + t.toList.length ≤ (plug ctx t).toList.length := by
  induction ctx generalizing t with
  | nil => simp
  | cons f ctx ih =>
    have h := ih (attach f t)
    have hb : t.toList.length + 1 ≤ (attach f t).toList.length := by
      obtain ⟨d, c, a, s⟩ := f
      cases d <;> simp [Tree.branch]
    simp only [plug_cons, List.length_cons]
    omega

/-- Every key of a tree is the root of some focus. -/
theorem exists_plug_of_mem {a : α} : ∀ {t : Tree α}, a ∈ t.toList →
    ∃ ctx c l r, t = plug ctx (Tree.node c l a r) := by
  intro t
  induction t with
  | nil => intro h; simp at h
  | node c l b r ihl ihr =>
    intro h
    simp only [Tree.toList_node, List.mem_append, List.mem_cons] at h
    rcases h with h | rfl | h
    · obtain ⟨ctx, c', l', r', rfl⟩ := ihl h
      exact ⟨ctx ++ [⟨.left, c, b, r⟩], c', l', r', by rw [plug_append]; rfl⟩
    · exact ⟨[], c, l, r, rfl⟩
    · obtain ⟨ctx, c', l', r', rfl⟩ := ihr h
      exact ⟨ctx ++ [⟨.right, c, b, l⟩], c', l', r', by rw [plug_append]; rfl⟩

/-- The path without its keys: what colours and heights depend on. -/
def shape (ctx : Ctx α) : List (Dir × Color × Tree α) := ctx.map fun f => (f.dir, f.color, f.sib)

theorem shape_rekey (up : Ctx α) (d : Dir) (c : Color) (a b : α) (s : Tree α) (ctx : Ctx α) :
    shape (up ++ ⟨d, c, a, s⟩ :: ctx) = shape (up ++ ⟨d, c, b, s⟩ :: ctx) := by
  simp [shape]

theorem color?_congr {ctx ctx' : Ctx α} (h : shape ctx = shape ctx') :
    color? ctx = color? ctx' := by
  cases ctx with
  | nil =>
    cases ctx' with
    | nil => rfl
    | cons f' ctx' => cases h
  | cons f ctx =>
    cases ctx' with
    | nil => cases h
    | cons f' ctx' =>
      simp only [shape, List.map_cons, List.cons.injEq, Prod.mk.injEq] at h
      exact congrArg some h.1.2.1

theorem noRedRed_congr {ctx ctx' : Ctx α} (h : shape ctx = shape ctx') (hc : NoRedRed ctx) :
    NoRedRed ctx' := by
  induction ctx generalizing ctx' with
  | nil =>
    cases ctx' with
    | nil => trivial
    | cons f' ctx' => cases h
  | cons f ctx ih =>
    cases ctx' with
    | nil => cases h
    | cons f' ctx' =>
      simp only [shape, List.map_cons, List.cons.injEq, Prod.mk.injEq] at h
      obtain ⟨⟨-, hcol, hsib⟩, hrest⟩ := h
      obtain ⟨hred, hs, hctx⟩ := hc
      rw [hcol, hsib, color?_congr hrest] at hred
      exact ⟨hred, hsib ▸ hs, ih hrest hctx⟩

end Ctx

/-! ## Black heights -/

/-- What a node adds to the black nodes of a path through it. -/
def Color.weight : Color → Nat
  | red => 0
  | black => 1

namespace Tree

variable {α : Type}

/-- Every path from the root to a missing child has `h` black nodes. -/
def BlackHeight : Tree α → Nat → Prop
  | nil, h => h = 0
  | node c l _ r, h => ∃ k, h = k + c.weight ∧ l.BlackHeight k ∧ r.BlackHeight k

/-- All paths from the root to a missing child have the same number of black nodes. -/
def Balanced (t : Tree α) : Prop := ∃ h, t.BlackHeight h

@[simp] theorem blackHeight_nil {h : Nat} : (nil : Tree α).BlackHeight h ↔ h = 0 := Iff.rfl

theorem blackHeight_branch {d : Dir} {c : Color} {t s : Tree α} {a : α} {h : Nat} :
    (branch d c t a s).BlackHeight h ↔
      ∃ k, h = k + c.weight ∧ t.BlackHeight k ∧ s.BlackHeight k := by
  cases d with
  | left => exact Iff.rfl
  | right => exact exists_congr fun k => and_congr_right fun _ => and_comm

theorem BlackHeight.unique {t : Tree α} {h h' : Nat} (hh : t.BlackHeight h)
    (hh' : t.BlackHeight h') : h = h' := by
  induction t generalizing h h' with
  | nil => exact hh.trans hh'.symm
  | node c l a r ihl ihr =>
    obtain ⟨k, rfl, hl, -⟩ := hh
    obtain ⟨k', rfl, hl', -⟩ := hh'
    rw [ihl hl hl']

/-- Without black nodes on its paths a tree has no black root. -/
theorem BlackHeight.color_ne {t : Tree α} (h : t.BlackHeight 0) : t.color? ≠ some .black := by
  cases t with
  | nil => simp
  | node c l a r =>
    obtain ⟨k, hk, -, -⟩ := h
    cases c with
    | red => simp
    | black => simp [Color.weight] at hk

/-- Painting a red root black adds one to every path. -/
theorem BlackHeight.paint_black {t : Tree α} {h : Nat} (hh : t.BlackHeight h)
    (hred : t.color? = some .red) : (t.paint .black).BlackHeight (h + 1) := by
  cases t with
  | nil => cases hred
  | node c l a r =>
    cases hred
    obtain ⟨k, hk, hl, hr⟩ := hh
    exact ⟨k, congrArg (· + 1) hk, hl, hr⟩

theorem Balanced.paint {t : Tree α} (h : t.Balanced) (c : Color) : (t.paint c).Balanced := by
  cases t with
  | nil => exact h
  | node c' l a r =>
    obtain ⟨h, k, hk, hl, hr⟩ := h
    exact ⟨k + c.weight, k, rfl, hl, hr⟩

end Tree

namespace Ctx

variable {α : Type}

/-- The whole tree is balanced once the focus has black height `h`. -/
def Expects : Ctx α → Nat → Prop
  | [], _ => True
  | f :: ctx, h => f.sib.BlackHeight h ∧ Expects ctx (h + f.color.weight)

theorem balanced_plug (ctx : Ctx α) (t : Tree α) :
    (plug ctx t).Balanced ↔ ∃ h, t.BlackHeight h ∧ Expects ctx h := by
  induction ctx generalizing t with
  | nil => simp [Expects, Tree.Balanced]
  | cons f ctx ih =>
    obtain ⟨d, c, a, s⟩ := f
    rw [plug_cons, ih, attach_mk]
    constructor
    · rintro ⟨h, hb, hctx⟩
      obtain ⟨k, rfl, ht, hs⟩ := Tree.blackHeight_branch.mp hb
      exact ⟨k, ht, hs, hctx⟩
    · rintro ⟨k, ht, hs, hctx⟩
      exact ⟨k + c.weight, Tree.blackHeight_branch.mpr ⟨k, rfl, ht, hs⟩, hctx⟩

/-- Below an ancestor only one height will do. -/
theorem Expects.unique {ctx : Ctx α} {h h' : Nat} (hctx : ctx ≠ []) (hh : Expects ctx h)
    (hh' : Expects ctx h') : h = h' := by
  cases ctx with
  | nil => exact absurd rfl hctx
  | cons f ctx => exact hh.1.unique hh'.1

theorem expects_congr {ctx ctx' : Ctx α} (hs : shape ctx = shape ctx') {h : Nat}
    (hh : Expects ctx h) : Expects ctx' h := by
  induction ctx generalizing ctx' h with
  | nil =>
    cases ctx' with
    | nil => trivial
    | cons f' ctx' => cases hs
  | cons f ctx ih =>
    cases ctx' with
    | nil => cases hs
    | cons f' ctx' =>
      simp only [shape, List.map_cons, List.cons.injEq, Prod.mk.injEq] at hs
      obtain ⟨⟨-, hcol, hsib⟩, hrest⟩ := hs
      exact ⟨hsib ▸ hh.1, hcol ▸ ih hrest hh.2⟩

end Ctx

end Allora
