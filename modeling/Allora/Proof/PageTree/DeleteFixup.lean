import Allora.Proof.PageTree.Focus
import Allora.Proof.PageTree.Abstract

/-!
# `delete_fixup` computes `deleteFix`

Unlike `insert_fixup`, this loop can panic: it unwraps both children of the sibling. So the
correspondence has two halves. Where `deleteFix` has a result the pointer code returns with that
tree, and where it has none the pointer code panics — the second half is what makes a condition for
the first one *exact*.
-/

set_option autoImplicit false

namespace Allora
namespace PageTree

open Outcome

section Body

variable {t₀ t : PageTree} {L : List Nat} {ctx : Ctx Nat} {d : Dir} {pc : Color} {p x : Nat}
  {s sib : Tree Nat}

/-- Turn to the sibling, or from the sibling back to the focus. -/
theorem Held.across {f : Frame Nat} (h : Held t₀ L t (f :: ctx) s) :
    Held t₀ L t (⟨f.dir.flip, f.color, f.key, s⟩ :: ctx) f.sib := Held.down_flip (h.up)

theorem Held.up_flip {c : Color} {a : Nat} {u : Tree Nat}
    (h : Held t₀ L t (⟨d.flip, c, a, s⟩ :: ctx) u) : Held t₀ L t ctx (.branch d c s a u) := by
  rw [← Tree.branch_flip]
  exact h.up

/-- A red sibling is lifted above the parent; its near child is the new sibling. -/
theorem deleteFixupSibling_red {b : Nat} {near far : Tree Nat}
    (h : Held t₀ L t (⟨d, pc, p, .branch d .red near b far⟩ :: ctx) s) (hx : link s = some x) :
    ∃ t', deleteFixupSibling d t (some x) = ok (t', link near) ∧
      Held t₀ L t' (⟨d, .red, p, near⟩ :: ⟨d, .black, b, far⟩ :: ctx) s := by
  have hp : t.parent (some x) = some p := h.hat.parent_link hx
  have hb : t.child d.flip (some p) = some b := h.hat.sibling.trans (link_branch ..)
  have hc : t.color? (some b) = some .red := by
    have := h.across.hat.color_link
    simpa using this
  have h1 := (h.across.setColor .black).up_flip.setColor .red
  obtain ⟨t', hrot, h2⟩ := h1.rotate
  have hp' : t'.parent (some x) = some p := h2.hat.down.down.parent_link hx
  have hs : t'.child d.flip (some p) = link near := h2.hat.down.down.sibling
  refine ⟨t', ?_, h2.down.down⟩
  simp only [deleteFixupSibling, hp, hb, hc, if_true, setColor_parent, unwrap_some, ok_bind, hrot,
    hp', hs, pure_eq_ok]

theorem deleteFixupSibling_black (h : Held t₀ L t (⟨d, pc, p, sib⟩ :: ctx) s)
    (hx : link s = some x) (hc : sib.color? ≠ some .red) :
    deleteFixupSibling d t (some x) = ok (t, link sib) := by
  have hp : t.parent (some x) = some p := h.hat.parent_link hx
  have hb : t.child d.flip (some p) = link sib := h.hat.sibling
  have hc' : t.color? (link sib) ≠ some .red := fun e => hc (h.across.hat.color_link.symm.trans e)
  simp only [deleteFixupSibling, hp, hb, hc', if_false, pure_eq_ok]

/-- The last rotation: the sibling, with a red far child, takes the parent's place. -/
theorem deleteFixupRotate_held {bc fc : Color} {b f : Nat} {near l r : Tree Nat}
    (h : Held t₀ L t (⟨d, pc, p, .branch d bc near b (.branch d fc l f r)⟩ :: ctx) s)
    (hx : link s = some x) :
    ∃ t', deleteFixupRotate d t (some x) (some b) = ok (t', t'.root) ∧
      Held t₀ L t' ctx
        (.branch d pc (.branch d .black s p near) b (.branch d .black l f r)) := by
  have hp : t.parent (some x) = some p := h.hat.parent_link hx
  have hc : t.color? (some p) = some pc := h.hat.color_top
  have hf : t.child d.flip (some b) = some f :=
    h.across.hat.down_flip.child_top.trans (link_branch ..)
  have h1 := (h.across.setColor pc).up_flip.setColor .black
  have h2 := (h1.down_flip.down_flip.setColor .black).up_flip.up_flip
  obtain ⟨t', hrot, h3⟩ := h2.rotate
  refine ⟨t', ?_, h3⟩
  simp only [deleteFixupRotate, hp, hc, hf, unwrap_some, ok_bind, setColor_parent, setColor_child,
    hrot, pure_eq_ok]

/-- A red child on the near side only is first lifted above the sibling. -/
theorem deleteFixupRed_near {bc fc : Color} {b m : Nat} {l r far : Tree Nat}
    (h : Held t₀ L t (⟨d, pc, p, .branch d bc (.branch d fc l m r) b far⟩ :: ctx) s)
    (hx : link s = some x) (hfar : far.color? = some .black) :
    ∃ t', deleteFixupRed d t (some x) (some b) = ok (t', t'.root) ∧
      Held t₀ L t' ctx
        (.branch d pc (.branch d .black s p l) m (.branch d .black r b far)) := by
  have hm : t.child d (some b) = some m := h.across.hat.down.child_top.trans (link_branch ..)
  have hf : t.child d.flip (some b) = link far := h.across.hat.down_flip.child_top
  have hc : t.color? (link far) = some .black := h.across.hat.down_flip.color_link.trans hfar
  have h1 := (h.across.down.setColor .black).up.setColor .red
  have h2 : Held t₀ L ((t.setColor (some m) .black).setColor (some b) .red)
      (⟨d.flip, pc, p, s⟩ :: ctx) (.branch d.flip .red far b (.branch d.flip .black r m l)) := by
    simpa [Tree.branch_flip] using h1
  obtain ⟨t₁, hrot, h3⟩ := h2.rotate
  have h4 : Held t₀ L t₁ (⟨d, pc, p, .branch d .black l m (.branch d .red r b far)⟩ :: ctx) s := by
    have h5 := h3.up_flip.down
    simpa [Tree.branch_flip] using h5
  have hp : t₁.parent (some x) = some p := h4.hat.parent_link hx
  have hb : t₁.child d.flip (some p) = some m := h4.hat.sibling.trans (link_branch ..)
  obtain ⟨t', hrun, h'⟩ := deleteFixupRotate_held h4 hx
  refine ⟨t', ?_, h'⟩
  simp only [deleteFixupRed, hf, hc, hm, unwrap_some, ok_bind, if_true, hrot, hp, hb, hrun]

/-- A red child on the far side. -/
theorem deleteFixupRed_far {bc : Color} {b f : Nat} {near l r : Tree Nat}
    (h : Held t₀ L t (⟨d, pc, p, .branch d bc near b (.branch d .red l f r)⟩ :: ctx) s)
    (hx : link s = some x) :
    ∃ t', deleteFixupRed d t (some x) (some b) = ok (t', t'.root) ∧
      Held t₀ L t' ctx
        (.branch d pc (.branch d .black s p near) b (.branch d .black l f r)) := by
  have hf : t.child d.flip (some b) = some f :=
    h.across.hat.down_flip.child_top.trans (link_branch ..)
  have hc : t.color? (some f) = some .red := by
    have := h.across.hat.down_flip.color_link
    simpa using this
  obtain ⟨t', hrun, h'⟩ := deleteFixupRotate_held h hx
  refine ⟨t', ?_, h'⟩
  simp [deleteFixupRed, hf, hc, hrun]

/-- **A round with a sibling that is not red** computes `rebalance`: it panics where there is no
result, and otherwise goes on at the parent or ends at the root. -/
theorem deleteFixupRest_held (h : Held t₀ L t (⟨d, pc, p, sib⟩ :: ctx) s) (hx : link s = some x) :
    match rebalance d pc s p sib with
    | none => Panics (deleteFixupRest d t (some x) (link sib))
    | some (up, u) =>
        ∃ t', deleteFixupRest d t (some x) (link sib) = ok (t', if up then some p else t'.root) ∧
          Held t₀ L t' ctx u := by
  rcases rebalance_cases d pc s p sib with
    ⟨hr, rfl | ⟨c, near, b, far, rfl, hmiss⟩⟩ | ⟨c, near, b, far, rfl, hcase⟩
  · -- no sibling
    rw [hr]
    exact ⟨_, rfl⟩
  all_goals
    have hn : t.child d (some b) = link near := h.across.hat.down.child_top
    have hf : t.child d.flip (some b) = link far := h.across.hat.down_flip.child_top
    have hnc : t.color? (link near) = near.color? := h.across.hat.down.color_link
    have hfc : t.color? (link far) = far.color? := h.across.hat.down_flip.color_link
  · -- a child of the sibling is missing, and is unwrapped
    rw [hr]
    simp only [link_branch, deleteFixupRest, deleteFixupRed, hn, hnc, hf, hfc]
    rcases hmiss with rfl | rfl
    · exact ⟨_, rfl⟩
    · cases near with
      | nil => exact ⟨_, rfl⟩
      | node nc l n r => cases nc <;> exact ⟨_, rfl⟩
  rcases hcase with ⟨hnb, hfb⟩ | ⟨⟨u, m, v, rfl⟩, hfb⟩ | ⟨hne, hfr⟩
  · rw [rebalance_black d pc c s far near p b hnb hfb]
    have hp : t.parent (some x) = some p := h.hat.parent_link hx
    refine ⟨t.setColor (some b) .red, ?_, (h.across.setColor .red).up_flip⟩
    simp [deleteFixupRest, hn, hnc, hf, hfc, hnb, hfb, hp]
  · rw [rebalance_near d pc c s far u v p b m hfb]
    obtain ⟨t', hrun, h'⟩ := deleteFixupRed_near h hx hfb
    refine ⟨t', ?_, h'⟩
    simp only [link_branch, deleteFixupRest, hn, hrun]
    rw [← link_branch d .red u m v, hnc]
    simp
  · rw [rebalance_far d pc c s far near p b hne hfr]
    rcases Tree.eq_nil_or_branch d far with rfl | ⟨fc, l, f, r, rfl⟩
    · cases hfr
    rw [Tree.color?_branch, Option.some.injEq] at hfr
    subst hfr
    obtain ⟨t', hrun, h'⟩ := deleteFixupRed_far h hx
    refine ⟨t', ?_, by simpa using h'⟩
    cases near with
    | nil => exact absurd rfl hne
    | node nc nl n nr =>
      simp only [link_branch, deleteFixupRest, hn, hnc, hf, hrun]
      rw [← link_branch d .red l f r, hfc]
      cases nc <;> simp

end Body

/-! ## The loop -/

section Loop

variable {t₀ t : PageTree} {L : List Nat} {ctx : Ctx Nat} {s : Tree Nat}

theorem Held.paint (h : Held t₀ L t ctx s) (c : Color) :
    Held t₀ L (t.setColor (link s) c) ctx (s.paint c) := by
  rcases Tree.eq_nil_or_branch .left s with rfl | ⟨c', l, n, r, rfl⟩
  · exact h
  · rw [link_branch, Tree.paint_branch]
    exact h.setColor c

/-- The loop's condition is false on a missing or a red focus. -/
theorem deleteFixup_exit (fuel : Nat) (h : Held t₀ L t ctx s) (hc : s.color? ≠ some .black) :
    ∃ t', deleteFixup (fuel + 1) t (link s) = ok t' ∧
      Held t₀ L t' [] (Ctx.plug ctx (s.paint .black)) := by
  refine ⟨t.setColor (link s) .black, ?_, (h.paint .black).whole⟩
  rw [deleteFixup, if_neg]
  · rfl
  · rw [h.hat.color_link]
    exact fun hcond => hc hcond.2

/-- It is false at the root as well, which is then painted black. -/
theorem deleteFixup_root (fuel : Nat) (h : Held t₀ L t ctx s) :
    ∃ t', deleteFixup (fuel + 1) t t.root = ok t' ∧
      Held t₀ L t' [] ((Ctx.plug ctx s).paint .black) := by
  have hroot : t.root = link (Ctx.plug ctx s) := h.whole.hat.around
  refine ⟨t.setColor t.root .black, ?_, hroot ▸ h.whole.paint .black⟩
  rw [deleteFixup, if_neg]
  · rfl
  · exact fun hcond => hcond.1 rfl

/-- On a black focus below the root the loop runs a round. -/
theorem deleteFixup_round {f : Frame Nat} {x : Nat} (fuel : Nat) (h : Held t₀ L t (f :: ctx) s)
    (hx : link s = some x) (hc : s.color? = some .black) :
    deleteFixup (fuel + 1) t (some x) =
      (deleteFixupBody f.dir t (some x) >>= fun r => deleteFixup fuel r.1 r.2) := by
  have hp : t.parent (some x) = some f.key := h.hat.parent_link hx
  have hcol : t.color? (some x) = some .black := hx ▸ h.hat.color_link.trans hc
  rw [deleteFixup, hp, h.hat.dir_eq hx, if_pos ⟨h.hat.root_ne hx, hcol⟩]

/-- **`delete_fixup` computes `deleteFix`**: it panics exactly where there is no result. -/
theorem deleteFixup_held :
    ∀ (ctx : Ctx Nat) {s : Tree Nat} {t : PageTree} {fuel : Nat}, Held t₀ L t ctx s →
      ctx.length < fuel →
      match deleteFix ctx s with
      | none => Panics (deleteFixup fuel t (link s))
      | some s' => ∃ t', deleteFixup fuel t (link s) = ok t' ∧ Held t₀ L t' [] s'
  | ctx, s, t, 0, _, hf => absurd hf (by simp)
  | ctx, .nil, t, fuel + 1, h, _ => by
    have hd : deleteFix ctx .nil = some (Ctx.plug ctx .nil) := by cases ctx <;> rfl
    rw [hd]
    exact deleteFixup_exit fuel h (by simp)
  | ctx, .node .red l n r, t, fuel + 1, h, _ => by
    have hd : deleteFix ctx (.node .red l n r) = some (Ctx.plug ctx (.node .black l n r)) := by
      cases ctx <;> rfl
    rw [hd]
    exact deleteFixup_exit fuel h (by simp)
  | [], .node .black l n r, t, fuel + 1, h, _ => by
    have hroot : t.root = some n := h.hat.around
    have := deleteFixup_root fuel h
    rw [hroot] at this
    exact this
  | ⟨d, pc, p, sib⟩ :: ctx, .node .black l n r, t, fuel + 1, h, hf => by
    have hround := deleteFixup_round fuel h (link_node ..) rfl
    simp only [List.length_cons] at hf
    have hfuel : fuel = fuel - 1 + 1 := by omega
    simp only [link_node, hround, deleteFixupBody]
    by_cases hred : sib.color? = some .red
    · -- a red sibling: whatever the rest of the round does, the loop ends after it
      obtain ⟨b, near, far, rfl⟩ : ∃ b near far, sib = Tree.branch d .red near b far := by
        rcases Tree.eq_nil_or_branch d sib with rfl | ⟨c, near, b, far, rfl⟩
        · cases hred
        · rw [Tree.color?_branch, Option.some.injEq] at hred
          exact ⟨b, near, far, by rw [hred]⟩
      obtain ⟨t₁, hsib, h1⟩ := deleteFixupSibling_red h (link_node ..)
      have hrest := deleteFixupRest_held h1 (link_node ..)
      rw [deleteFix_red, hsib, ok_bind]
      cases hr : rebalance d .red (.node .black l n r) p near with
      | none =>
        rw [hr] at hrest
        obtain ⟨msg, hpanic⟩ := hrest
        exact ⟨msg, by rw [hpanic, panic_bind]⟩
      | some q =>
        obtain ⟨up, u⟩ := q
        rw [hr] at hrest
        obtain ⟨t₂, hrun, h2⟩ := hrest
        rw [hrun, ok_bind, hfuel]
        cases up with
        | true =>
          obtain ⟨v, rfl⟩ := rebalance_up d .red _ p hr
          have := deleteFixup_exit (fuel - 1) h2 (by simp)
          rw [link_branch] at this
          exact this
        | false => exact deleteFixup_root (fuel - 1) h2
    · have hsib := deleteFixupSibling_black h (link_node ..) hred
      have hrest := deleteFixupRest_held h (link_node ..)
      rw [deleteFix_black _ _ _ _ _ _ _ hred, hsib, ok_bind]
      cases hr : rebalance d pc (.node .black l n r) p sib with
      | none =>
        rw [hr] at hrest
        obtain ⟨msg, hpanic⟩ := hrest
        exact ⟨msg, by rw [hpanic, panic_bind]⟩
      | some q =>
        obtain ⟨up, u⟩ := q
        rw [hr] at hrest
        obtain ⟨t₁, hrun, h1⟩ := hrest
        rw [hrun, ok_bind]
        cases up with
        | true =>
          have := deleteFixup_held ctx h1 (show _ < fuel by omega)
          obtain ⟨v, rfl⟩ := rebalance_up d pc _ p hr
          rw [link_branch] at this
          exact this
        | false =>
          rw [hfuel]
          exact deleteFixup_root (fuel - 1) h1

end Loop
end PageTree
end Allora
