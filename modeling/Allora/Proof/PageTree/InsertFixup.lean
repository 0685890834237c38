import Allora.Proof.PageTree.Focus
import Allora.Proof.PageTree.Abstract

/-!
# `insert_fixup` computes `insertFix`

One lemma per case of the loop body — red uncle, outer child, inner child — and the loop by
induction on the path above the focus. The fuel a run needs is the length of that path plus the
round that finds the loop's condition false.
-/

set_option autoImplicit false

namespace Allora
namespace PageTree

open Outcome

section Body

variable {t₀ t : PageTree} {L : List Nat} {ctx : Ctx Nat} {s : Tree Nat} {p g : Frame Nat} {x : Nat}

/-- A red uncle: three nodes are repainted and the focus moves to the grandparent. -/
theorem insertFixupBody_red (h : Held t₀ L t (p :: g :: ctx) s) (hx : link s = some x)
    (hu : g.sib.color? = some .red) :
    ∃ t', insertFixupBody g.dir t (some x) = ok (t', some g.key) ∧
      Held t₀ L t' ctx
        (.branch g.dir .red (.branch p.dir .black s p.key p.sib) g.key (g.sib.paint .black)) := by
  obtain ⟨pd, pc, pk, ps⟩ := p
  obtain ⟨gd, gc, gk, gs⟩ := g
  have hp : t.parent (some x) = some pk := h.hat.parent_link hx
  have hg : t.parent (some pk) = some gk := h.hat.parent_top
  have hb : t.child gd.flip (some gk) = link gs := h.hat.up.sibling
  have hc : t.color? (link gs) = some .red := h.hat.up.up.down_flip.color_link.trans hu
  simp only at hu ⊢
  obtain ⟨uc, ul, u, ur, rfl⟩ : ∃ c l a r, gs = Tree.branch gd c l a r := by
    rcases Tree.eq_nil_or_branch gd gs with rfl | h
    · cases hu
    · exact h
  rw [link_branch] at hb hc
  have h1 := h.up.setColor .black
  have h2 := h1.up.down_flip.setColor .black
  have h3 := h2.up.setColor .red
  refine ⟨_, ?_, by simpa [Tree.branch_flip] using h3⟩
  simp only [insertFixupBody, hp, hg, hb, hc, if_true, setColor_parent, pure_eq_ok]

/-- The end of a round, with the focus, its parent and its grandparent in a line: the grandparent
is rotated below the parent. -/
theorem insertFixupRotate_line {d : Dir} {pc gc : Color} {pk gk : Nat} {ps gs : Tree Nat}
    (h : Held t₀ L t (⟨d, pc, pk, ps⟩ :: ⟨d, gc, gk, gs⟩ :: ctx) s) (hx : link s = some x) :
    ∃ t', insertFixupRotate d t (some x) = ok (t', some x) ∧
      Held t₀ L t' ctx (.branch d .black s pk (.branch d .red ps gk gs)) := by
  have hp : t.parent (some x) = some pk := h.hat.parent_link hx
  have hg : t.parent (some pk) = some gk := h.hat.parent_top
  have h1 := (h.up.setColor .black).up.setColor .red
  have h2 : Held t₀ L ((t.setColor (some pk) .black).setColor (some gk) .red) ctx
      (.branch d.flip .red gs gk (.branch d.flip .black ps pk s)) := by
    simpa [Tree.branch_flip] using h1
  obtain ⟨t', hrot, h3⟩ := h2.rotate
  refine ⟨t', ?_, by simpa [Tree.branch_flip] using h3⟩
  simp only [insertFixupRotate, hp, hg, setColor_parent]
  cases d with
  | left =>
    rw [Dir.flip_left] at hrot
    simp [hrot]
  | right =>
    rw [Dir.flip_right] at hrot
    simp [hrot]

/-- An outer child: one rotation. -/
theorem insertFixupBody_outer (h : Held t₀ L t (p :: g :: ctx) s) (hx : link s = some x)
    (hu : g.sib.color? ≠ some .red) (hd : p.dir = g.dir) :
    ∃ t', insertFixupBody g.dir t (some x) = ok (t', some x) ∧
      Held t₀ L t' ctx (.branch g.dir .black s p.key (.branch g.dir .red p.sib g.key g.sib)) := by
  obtain ⟨pd, pc, pk, ps⟩ := p
  obtain ⟨gd, gc, gk, gs⟩ := g
  simp only at hd hu ⊢
  subst hd
  have hp : t.parent (some x) = some pk := h.hat.parent_link hx
  have hg : t.parent (some pk) = some gk := h.hat.parent_top
  have hb : t.child pd.flip (some gk) = link gs := h.hat.up.sibling
  have hc : t.color? (link gs) ≠ some .red :=
    fun e => hu (h.hat.up.up.down_flip.color_link.symm.trans e)
  have hs : t.child pd.flip (some pk) = link ps := h.hat.sibling
  have hne : some x ≠ link ps := h.hat.sibling_ne hx
  obtain ⟨t', hrun, h'⟩ := insertFixupRotate_line h hx
  refine ⟨t', ?_, h'⟩
  simp only [insertFixupBody, hp, hg, hb, hc, hs, hne, if_false, hrun]

/-- An inner child: it is first rotated above its parent, which then is in a line with it and the
grandparent. -/
theorem insertFixupBody_inner {xc : Color} {u v : Tree Nat}
    (h : Held t₀ L t (p :: g :: ctx) (.branch g.dir xc u x v)) (hu : g.sib.color? ≠ some .red)
    (hd : p.dir = g.dir.flip) :
    ∃ t', insertFixupBody g.dir t (some x) = ok (t', some p.key) ∧
      Held t₀ L t' ctx (.branch g.dir .black (.branch g.dir p.color p.sib p.key u) x
        (.branch g.dir .red v g.key g.sib)) := by
  obtain ⟨pd, pc, pk, ps⟩ := p
  obtain ⟨gd, gc, gk, gs⟩ := g
  simp only at hd hu h ⊢
  subst hd
  have hp : t.parent (some x) = some pk := h.hat.parent_link (link_branch ..)
  have hg : t.parent (some pk) = some gk := h.hat.parent_top
  have hb : t.child gd.flip (some gk) = link gs := h.hat.up.sibling
  have hc : t.color? (link gs) ≠ some .red :=
    fun e => hu (h.hat.up.up.down_flip.color_link.symm.trans e)
  have hs : t.child gd.flip (some pk) = some x := h.hat.child_top.trans (link_branch ..)
  have h1 : Held t₀ L t (⟨gd, gc, gk, gs⟩ :: ctx)
      (.branch gd pc ps pk (.branch gd xc u x v)) := by
    simpa [Ctx.attach, Tree.branch_flip] using h.up
  obtain ⟨t₁, hrot, h2⟩ := h1.rotate
  obtain ⟨t', hrun, h'⟩ := insertFixupRotate_line h2.down (link_branch ..)
  refine ⟨t', ?_, h'⟩
  simp only [insertFixupBody, hp, hg, hb, hc, hs, if_true, if_false, unwrap_some, ok_bind, hrot,
    hrun]

end Body

/-! ## The loop -/

/-- The side `insert_fixup` computes for a focus with a grandparent. -/
theorem insert_dir {t : PageTree} {ctx : Ctx Nat} {s : Tree Nat} {p g : Frame Nat}
    (h : At t (p :: g :: ctx) s) :
    (if some p.key = t.left (some g.key) then Dir.left else Dir.right) = g.dir :=
  h.up.dir_eq (link_branch ..)

/-- The round that finds no red parent paints the root black and stops. -/
theorem insertFixup_exit {t₀ t : PageTree} {L : List Nat} {ctx : Ctx Nat} {s : Tree Nat} {x : Nat}
    (fuel : Nat) (h : Held t₀ L t ctx s) (hx : link s = some x)
    (hc : Ctx.color? ctx ≠ some .red) :
    ∃ t', insertFixup (fuel + 1) t (some x) = ok t' ∧
      Held t₀ L t' [] ((Ctx.plug ctx s).paint .black) := by
  have hp : t.parent (some x) = top ctx := h.hat.parent_link hx
  have hcol : t.color? (top ctx) ≠ some .red := by
    cases ctx with
    | nil => simp [color?, node]
    | cons f ctx => rw [top_cons, h.hat.color_top]; exact hc
  obtain ⟨c, l, r, u, hw⟩ : ∃ c l r u, Ctx.plug ctx s = Tree.branch .left c l r u := by
    rcases Tree.eq_nil_or_branch .left (Ctx.plug ctx s) with hn | hb
    · have hm : x ∈ (Ctx.plug ctx s).toList := by simp [link_eq_some hx]
      rw [hn] at hm
      cases hm
    · exact hb
  have hwhole := h.whole
  rw [hw] at hwhole ⊢
  have hroot : t.root = some r := hwhole.hat.around
  refine ⟨t.setColor (some r) .black, ?_, by simpa using hwhole.setColor .black⟩
  simp [insertFixup, hp, hcol, hroot]

/-- **`insert_fixup` computes `insertFix`** and then paints the root black. -/
theorem insertFixup_held {t₀ : PageTree} {L : List Nat} :
    ∀ (ctx : Ctx Nat) {s s' : Tree Nat} {t : PageTree} {x fuel : Nat}, Held t₀ L t ctx s →
      link s = some x → ctx.length < fuel → insertFix ctx s = some s' →
      ∃ t', insertFixup fuel t (some x) = ok t' ∧ Held t₀ L t' [] (s'.paint .black)
  | ctx, s, s', t, x, 0, _, _, hf, _ => absurd hf (by simp)
  | [], s, s', t, x, fuel + 1, h, hx, _, hs => by
    simp only [insertFix, Option.some.injEq] at hs
    subst hs
    exact insertFixup_exit fuel h hx (by simp [Ctx.color?])
  | [p], s, s', t, x, fuel + 1, h, hx, _, hs => by
    simp only [insertFix, Option.ite_none_right_eq_some, Option.some.injEq] at hs
    obtain ⟨hp, rfl⟩ := hs
    exact insertFixup_exit fuel h hx (by simp [Ctx.color?, hp])
  | p :: g :: ctx, s, s', t, x, fuel + 1, h, hx, hf, hs => by
    unfold insertFix at hs
    by_cases hp : p.color = .black
    · rw [if_pos hp, Option.some.injEq] at hs
      subst hs
      exact insertFixup_exit fuel h hx (by simp [Ctx.color?, hp])
    have hpr : p.color = .red := by
      cases hc : p.color with
      | red => rfl
      | black => exact absurd hc hp
    rw [if_neg hp] at hs
    simp only [List.length_cons] at hf
    -- the loop runs a round: the parent is red, and there is a grandparent
    have hround : insertFixup (fuel + 1) t (some x) =
        (insertFixupBody g.dir t (some x) >>= fun r => insertFixup fuel r.1 r.2) := by
      have h1 : t.parent (some x) = some p.key := h.hat.parent_link hx
      have h2 : t.parent (some p.key) = some g.key := h.hat.parent_top
      have h3 : t.color? (some p.key) = some .red := h.hat.color_top.trans (by rw [hpr])
      rw [insertFixup, h1, h2, insert_dir h.hat, if_pos h3]
    by_cases hu : g.sib.color? = some .red
    · rw [if_pos hu] at hs
      obtain ⟨t₁, hrun, h1⟩ := insertFixupBody_red h hx hu
      obtain ⟨t', hrest, h'⟩ :=
        insertFixup_held ctx h1 (link_branch ..) (show _ < fuel by omega) hs
      exact ⟨t', by rw [hround, hrun, ok_bind]; exact hrest, h'⟩
    rw [if_neg hu] at hs
    have hfuel : fuel = fuel - 1 + 1 := by omega
    by_cases hd : p.dir = g.dir
    · rw [if_pos hd, Option.some.injEq] at hs
      subst hs
      obtain ⟨t₁, hrun, h1⟩ := insertFixupBody_outer h hx hu hd
      obtain ⟨t', hrest, h'⟩ := insertFixup_exit (fuel - 1) h1.down hx (by simp [Ctx.color?])
      refine ⟨t', ?_, h'⟩
      rw [hround, hrun, ok_bind, hfuel]
      exact hrest
    · rw [if_neg hd] at hs
      have hflip : p.dir = g.dir.flip := (Dir.eq_or_eq_flip g.dir p.dir).resolve_left hd
      rcases Tree.eq_nil_or_branch g.dir s with rfl | ⟨xc, u, y, v, rfl⟩
      · cases hx
      rw [link_branch, Option.some.injEq] at hx
      subst hx
      have hs' : s' = Ctx.plug ctx (.branch g.dir .black (.branch g.dir .red p.sib p.key u) y
          (.branch g.dir .red v g.key g.sib)) := by
        revert hs
        cases hgd : g.dir <;> simp [Tree.branch, Tree.near] <;> exact Eq.symm
      obtain ⟨t₁, hrun, h1⟩ := insertFixupBody_inner h hu hflip
      rw [hpr] at h1
      obtain ⟨t', hrest, h'⟩ :=
        insertFixup_exit (fuel - 1) h1.down (link_branch ..) (by simp [Ctx.color?])
      refine ⟨t', ?_, hs' ▸ h'⟩
      rw [hround, hrun, ok_bind, hfuel]
      exact hrest

end PageTree
end Allora
