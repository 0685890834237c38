import Allora.Lib.ColorTree

/-!
# The page tree without pointers

What `page_tree.rs` does, written on trees with a focus. Each definition is the shape of one loop
of the source: the focus is where the loop variable points, the path around it is what the loop
reaches through parent links, and `none` is a panic. The pointer code is proved to compute exactly
these functions (`Proof/PageTree/Fixup`, `Proof/PageTree/Delete`, `Proof/PageTree/Insert`), so
every property of the tree's order and colours is proved here, with no memory in sight.

These are *not* the textbook algorithms. In particular `deleteFix` stops at once on a missing link,
because the source compares the colour of the link's node with `Some(Black)` and a missing node has
none; and it gives up where the source unwraps a child that is not there.
-/

set_option autoImplicit false

namespace Allora
namespace PageTree

/-! ## Insertion -/

/-- The path of the empty place where `n` is inserted. -/
def hole (n : Nat) : Ctx Nat → Tree Nat → Ctx Nat
  | ctx, .nil => ctx
  | ctx, .node c l a r =>
      if n < a then hole n (⟨.left, c, a, r⟩ :: ctx) l else hole n (⟨.right, c, a, l⟩ :: ctx) r

/-- `insert_fixup`, with the focus at `clink`, up to the last line that paints the root. -/
def insertFix : Ctx Nat → Tree Nat → Option (Tree Nat)
  | [], t => some t
  | [p], t => if p.color = .black then some (Ctx.plug [p] t) else none
  | p :: g :: ctx, t =>
      if p.color = .black then
        some (Ctx.plug (p :: g :: ctx) t)
      else if g.sib.color? = some .red then
        -- red uncle: repaint, and go on from the grandparent
        insertFix ctx
          (.branch g.dir .red (.branch p.dir .black t p.key p.sib) g.key (g.sib.paint .black))
      else if p.dir = g.dir then
        some (Ctx.plug ctx (.branch g.dir .black t p.key (.branch g.dir .red p.sib g.key g.sib)))
      else
        match t with
        | .nil => none
        | .node _ _ x _ =>
            some (Ctx.plug ctx (.branch g.dir .black
              (.branch g.dir .red p.sib p.key (t.near g.dir)) x
              (.branch g.dir .red (t.near g.dir.flip) g.key g.sib)))

/-- `insert`. -/
def insertTree (n : Nat) (t : Tree Nat) : Option (Tree Nat) :=
  (insertFix (hole n [] t) (.node .red .nil n .nil)).map (Tree.paint .black)

/-! ## Deletion -/

/-- The round of `delete_fixup` below a parent `(pc, p)`, with the focus `t` on side `d` and a
sibling that is not red. The result says whether the loop climbs to the parent (`true`) or is over
(`false`); there is none unless the sibling has two children. -/
def rebalance (d : Dir) (pc : Color) (t : Tree Nat) (p : Nat) : Tree Nat → Option (Bool × Tree Nat)
  | .nil => none
  | .node c l b r =>
      let near := (Tree.node c l b r).near d
      let far := (Tree.node c l b r).near d.flip
      match near, far.color? with
      | .nil, _ => none
      | .node _ _ _ _, none => none
      | .node .black _ _ _, some .black =>
          some (true, .branch d pc t p (.branch d .red near b far))
      | .node .red _ m _, some .black =>
          some (false, .branch d pc (.branch d .black t p (near.near d)) m
            (.branch d .black (near.near d.flip) b far))
      | .node _ _ _ _, some .red =>
          some (false, .branch d pc (.branch d .black t p near) b (far.paint .black))

section Rebalance

variable (d : Dir) (pc c nc : Color) (t far near u v : Tree Nat) (p b m : Nat)

/-- The sibling's near child is missing, or its far one. -/
theorem rebalance_none (h : near = .nil ∨ far = .nil) :
    rebalance d pc t p (.branch d c near b far) = none := by
  rcases h with rfl | rfl
  · cases d <;> rfl
  · cases d <;> cases near <;> rfl

/-- Both children of the sibling are black: it turns red and the loop climbs. -/
theorem rebalance_black (hn : near.color? = some .black) (hf : far.color? = some .black) :
    rebalance d pc t p (.branch d c near b far) =
      some (true, .branch d pc t p (.branch d .red near b far)) := by
  cases near with
  | nil => cases hn
  | node nc l n r =>
    cases far with
    | nil => cases hf
    | node fc fl f fr => cases hn; cases hf; cases d <;> rfl

/-- Only the near child is red. -/
theorem rebalance_near (hf : far.color? = some .black) :
    rebalance d pc t p (.branch d c (.branch d .red u m v) b far) =
      some (false, .branch d pc (.branch d .black t p u) m (.branch d .black v b far)) := by
  cases far with
  | nil => cases hf
  | node fc fl f fr => cases hf; cases d <;> rfl

/-- The far child is red. -/
theorem rebalance_far (hn : near ≠ .nil) (hf : far.color? = some .red) :
    rebalance d pc t p (.branch d c near b far) =
      some (false, .branch d pc (.branch d .black t p near) b (far.paint .black)) := by
  cases near with
  | nil => exact absurd rfl hn
  | node nc l n r =>
    cases far with
    | nil => cases hf
    | node fc fl f fr => cases hf; cases nc <;> cases d <;> rfl

/-- The four answers of a round, by the sibling's two children. -/
theorem rebalance_cases (sib : Tree Nat) :
    rebalance d pc t p sib = none ∧
        (sib = .nil ∨ ∃ c near b far, sib = .branch d c near b far ∧ (near = .nil ∨ far = .nil)) ∨
    ∃ c near b far, sib = .branch d c near b far ∧
      (near.color? = some .black ∧ far.color? = some .black ∨
       (∃ u m v, near = .branch d .red u m v) ∧ far.color? = some .black ∨
       near ≠ .nil ∧ far.color? = some .red) := by
  rcases Tree.eq_nil_or_branch d sib with rfl | ⟨c, near, b, far, rfl⟩
  · exact Or.inl ⟨rfl, Or.inl rfl⟩
  rcases Tree.eq_nil_or_branch d near with rfl | ⟨nc, u, m, v, rfl⟩
  · exact Or.inl ⟨rebalance_none d pc c t far _ p b (Or.inl rfl),
      Or.inr ⟨c, _, b, far, rfl, Or.inl rfl⟩⟩
  rcases Tree.eq_nil_or_branch d far with rfl | ⟨fc, fl, f, fr, rfl⟩
  · exact Or.inl ⟨rebalance_none d pc c t _ _ p b (Or.inr rfl),
      Or.inr ⟨c, _, b, _, rfl, Or.inr rfl⟩⟩
  refine Or.inr ⟨c, _, b, _, rfl, ?_⟩
  cases fc with
  | red => exact Or.inr (Or.inr ⟨Tree.branch_ne_nil _ _ _ _ _, by simp⟩)
  | black =>
    cases nc with
    | red => exact Or.inr (Or.inl ⟨⟨u, m, v, rfl⟩, by simp⟩)
    | black => exact Or.inl ⟨by simp, by simp⟩

/-- When the loop climbs, the parent is still where it was. -/
theorem rebalance_up {sib u : Tree Nat} (h : rebalance d pc t p sib = some (true, u)) :
    ∃ v, u = .branch d pc t p v := by
  rcases rebalance_cases d pc t p sib with ⟨hn, -⟩ | ⟨c, near, b, far, rfl, hcase⟩
  · rw [hn] at h; cases h
  rcases hcase with ⟨hn, hf⟩ | ⟨⟨u, m, v, rfl⟩, hf⟩ | ⟨hn, hf⟩
  · rw [rebalance_black d pc c t far near p b hn hf] at h
    cases h
    exact ⟨_, rfl⟩
  · rw [rebalance_near d pc c t far u v p b m hf] at h
    cases h
  · rw [rebalance_far d pc c t far near p b hn hf] at h
    cases h

end Rebalance

/-- `delete_fixup`, with the focus at `alink`. -/
def deleteFix : Ctx Nat → Tree Nat → Option (Tree Nat)
  | ctx, .nil => some (Ctx.plug ctx .nil)
  | ctx, .node .red l n r => some (Ctx.plug ctx (.node .black l n r))
  | [], .node .black l n r => some (.node .black l n r)
  | f :: ctx, .node .black l n r =>
      match f.sib with
      | .node .red sl s sr =>
          -- the sibling is lifted above the parent, which turns red
          let ctx' := ⟨f.dir, .black, s, (Tree.node .red sl s sr).near f.dir.flip⟩ :: ctx
          (rebalance f.dir .red (.node .black l n r) f.key
              ((Tree.node .red sl s sr).near f.dir)).map fun (up, u) =>
            if up then Ctx.plug ctx' (u.paint .black) else (Ctx.plug ctx' u).paint .black
      | s =>
          (rebalance f.dir f.color (.node .black l n r) f.key s).bind fun (up, u) =>
            if up then deleteFix ctx u else some ((Ctx.plug ctx u).paint .black)

section DeleteFix

variable (d : Dir) (pc : Color) (p n : Nat) (ctx : Ctx Nat) (l r : Tree Nat)

theorem deleteFix_red (near far : Tree Nat) (b : Nat) :
    deleteFix (⟨d, pc, p, .branch d .red near b far⟩ :: ctx) (.node .black l n r) =
      (rebalance d .red (.node .black l n r) p near).map fun q =>
        if q.1 then Ctx.plug (⟨d, .black, b, far⟩ :: ctx) (q.2.paint .black)
        else (Ctx.plug (⟨d, .black, b, far⟩ :: ctx) q.2).paint .black := by
  cases d <;> rfl

theorem deleteFix_black {sib : Tree Nat} (h : sib.color? ≠ some .red) :
    deleteFix (⟨d, pc, p, sib⟩ :: ctx) (.node .black l n r) =
      (rebalance d pc (.node .black l n r) p sib).bind fun q =>
        if q.1 then deleteFix ctx q.2 else some ((Ctx.plug ctx q.2).paint .black) := by
  cases sib with
  | nil => rfl
  | node c sl s sr =>
    cases c with
    | red => exact absurd rfl h
    | black => rfl

end DeleteFix

/-- The leftmost node of a tree, as a focus. -/
def leftmost : Ctx Nat → Tree Nat → Ctx Nat × Tree Nat
  | ctx, .nil => (ctx, .nil)
  | ctx, .node c .nil a r => (ctx, .node c .nil a r)
  | ctx, .node c (.node c' l' a' r') a r => leftmost (⟨.left, c, a, r⟩ :: ctx) (.node c' l' a' r')

/-- The leftmost node has no left child, and only left turns lead to it. -/
theorem leftmost_spec {s : Tree Nat} (hs : s ≠ .nil) :
    ∃ up c y r, (∀ ctx, leftmost ctx s = (up ++ ctx, .node c .nil y r)) ∧
      s = Ctx.plug up (.node c .nil y r) ∧ Ctx.before up = [] := by
  induction s with
  | nil => exact absurd rfl hs
  | node c l a r ih =>
    cases l with
    | nil => exact ⟨[], c, a, r, fun ctx => rfl, rfl, rfl⟩
    | node c' l' a' r' =>
      obtain ⟨up, yc, y, yr, hl, hp, hb⟩ := ih (by simp)
      refine ⟨up ++ [⟨.left, c, a, r⟩], yc, y, yr, fun ctx => ?_, ?_, ?_⟩
      · rw [leftmost, hl, List.append_assoc]
        rfl
      · rw [Ctx.plug_append, ← hp]
        rfl
      · rw [Ctx.before_append, hb]
        rfl

/-- Where `delete` leaves the place of a removed node before the fixup: the path and the subtree
now at that place, and the colour that was taken out. -/
def spliceOut (ctx : Ctx Nat) : Tree Nat → Ctx Nat × Tree Nat × Color
  | .nil => (ctx, .nil, .red)
  | .node c .nil _ r => (ctx, r, c)
  | .node c l _ .nil => (ctx, l, c)
  | .node c l _ r =>
      match leftmost [] r with
      | (up, .node yc _ y yr) => (up ++ ⟨.right, c, y, l⟩ :: ctx, yr, yc)
      | (_, .nil) => (ctx, .nil, .red)

/-- Splicing out takes one key out of the sequence. -/
theorem spliceOut_seq (ctx : Ctx Nat) (c : Color) (l : Tree Nat) (n : Nat) (r : Tree Nat) :
    (Ctx.plug (spliceOut ctx (.node c l n r)).1 (spliceOut ctx (.node c l n r)).2.1).toList =
      Ctx.before ctx ++ (l.toList ++ (r.toList ++ Ctx.after ctx)) := by
  cases l with
  | nil => simp [spliceOut, Ctx.toList_plug]
  | node lc ll la lr =>
    cases r with
    | nil => simp [spliceOut, Ctx.toList_plug]
    | node rc rl ra rr =>
      obtain ⟨up, yc, y, yr, hmin, hplug, hb⟩ := leftmost_spec (s := .node rc rl ra rr) (by simp)
      have hr : (Tree.node rc rl ra rr).toList = y :: (yr.toList ++ Ctx.after up) := by
        rw [hplug, Ctx.toList_plug, hb]
        simp
      have hs : spliceOut ctx (.node c (.node lc ll la lr) n (.node rc rl ra rr)) =
          (up ++ ⟨.right, c, y, .node lc ll la lr⟩ :: ctx, yr, yc) := by
        simp [spliceOut, hmin]
      rw [hs, Ctx.toList_plug, Ctx.before_append, Ctx.after_append, hb, hr]
      simp [Ctx.before, Ctx.after]

/-- `delete`, of the node at the focus. -/
def deleteAt (ctx : Ctx Nat) (t : Tree Nat) : Option (Tree Nat) :=
  match spliceOut ctx t with
  | (ctx', s, .black) => deleteFix ctx' s
  | (ctx', s, .red) => some (Ctx.plug ctx' s)

end PageTree
end Allora
