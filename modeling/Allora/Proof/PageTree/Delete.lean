import Allora.Proof.PageTree.DeleteFixup

/-!
# `delete` computes `deleteAt`

The structural part of a deletion: a node with a missing child is replaced by its other child, a
node with two children by its successor. Afterwards the loop of `Proof/PageTree/DeleteFixup` runs
from the place where a node went missing.
-/

set_option autoImplicit false

namespace Allora
namespace PageTree

open Outcome

/-! ## Splicing -/

/-- A node with one child missing is replaced by the other child. The node's own memory stays as
it was, which `delete` relies on when it later reads the links of the node it removed. -/
theorem transplant_at {t : PageTree} {ctx : Ctx Nat} {d : Dir} {c : Color} {u : Tree Nat} {n : Nat}
    (h : At t ctx (.branch d c .nil n u)) :
    At (t.transplant (some n) (link u)) ctx u ∧
      (t.transplant (some n) (link u)).mem n = t.mem n ∧
      Framed (Ctx.plug ctx u).toList t (t.transplant (some n) (link u)) := by
  obtain ⟨har, hst, hnd⟩ := h
  obtain ⟨hn, -, hu⟩ := stored_branch.mp hst
  rw [link_branch] at har
  obtain ⟨-, hnu, hnc, hrest⟩ := Ctx.nodup_plug_branch.mp hnd
  simp only [Tree.toList_nil, List.nil_append, List.nodup_append] at hrest
  have hp : t.parent (some n) = top ctx := by simp [parent, node, hn]
  obtain ⟨har₁, hm₁⟩ := replaceChild_around (link u) har hp hrest.2.1 hnc
  have hn₁ : (t.replaceChild (some n) (link u)).mem n = t.mem n := hm₁ n (top_ne hnc)
  have hp₁ : (t.replaceChild (some n) (link u)).parent (some n) = top ctx := by
    simp [parent, node, hn₁, hn]
  have hlu : link u ≠ some n := fun hl => hnu (link_eq_some hl)
  have hctx : ∀ k ∈ Ctx.keys ctx, link u ≠ some k :=
    fun k hk hl => hrest.2.2 k (link_eq_some hl) k hk rfl
  rw [transplant, hp₁]
  refine ⟨⟨?_, ?_, ?_⟩, ?_, fun k hk => ?_⟩
  · rw [setParent_root]
    exact har₁.congr fun k hk => by simp [hctx k hk]
  · refine hu.reparent hrest.1 (fun k hk => ?_) fun k hk hl => ?_
    · rw [setParent_mem, if_pos hk, hm₁ k (top_ne fun hc => hctx k hc hk)]
    · simp only [setParent_mem, hl, if_false]
      exact hm₁ k (top_ne fun hc => hrest.2.2 k hk k hc rfl)
  · rw [(Ctx.plug_perm ctx u).nodup_iff, List.nodup_append]
    exact hrest
  · simp [hlu, hn₁]
  · simp only [Ctx.mem_plug, not_or] at hk
    have hl : link u ≠ some k := fun hl => hk.1 (link_eq_some hl)
    simp only [setParent_mem, hl, if_false]
    exact hm₁ k (top_ne hk.2)

/-- What `takePlace` leaves for a node `n` and its successor `y`, which already holds the right
subtree. -/
def placed (t : PageTree) (n y : Nat) : PageTree :=
  let t := t.transplant (some n) (some y)
  let t := t.setChild .left (some y) (t.left (some n))
  let t := t.setColor (some y) ((t.mem n).color)
  t.setParent (t.left (some y)) (some y)

theorem takePlace_eq (t : PageTree) (n y : Nat) :
    t.takePlace (some n) (some y) = ok (t.placed n y) := rfl

theorem placed_at {t : PageTree} {ctx : Ctx Nat} {c yc : Color} {l r : Tree Nat} {n y : Nat}
    {p q k : PageLink} (har : Around t.mem t.root ctx (some n))
    (hn : t.mem n = ⟨n, top ctx, link l, q, c⟩) (hl : Stored t.mem (some n) l)
    (hy : t.mem y = ⟨y, p, k, link r, yc⟩) (hr : Stored t.mem (some y) r)
    (hnd : (Ctx.plug ctx (.node c l y r)).toList.Nodup)
    (hnew : n ∉ (Ctx.plug ctx (.node c l y r)).toList) :
    At (t.placed n y) ctx (.node c l y r) ∧
      Framed (Ctx.plug ctx (.node c l y r)).toList t (t.placed n y) := by
  obtain ⟨hyl, hyr, hyc, hrest⟩ := Ctx.nodup_plug_branch (d := .left).mp hnd
  simp only [List.nodup_append, List.mem_append] at hrest
  simp only [Ctx.mem_plug, Tree.toList_node, List.mem_append, List.mem_cons, not_or] at hnew
  obtain ⟨⟨hnl, hny, hnr⟩, hnc⟩ := hnew
  have hp : t.parent (some n) = top ctx := by simp [parent, node, hn]
  obtain ⟨har₁, hm₁⟩ := replaceChild_around (some y) har hp hrest.2.1.2.1 hnc
  let t₁ := t.replaceChild (some n) (some y)
  have hn₁ : t₁.mem n = t.mem n := hm₁ n (top_ne hnc)
  have hp₁ : t₁.parent (some n) = top ctx := by simp [parent, node, hn₁, hn]
  let t₂ := t₁.setParent (some y) (top ctx)
  have hn₂ : t₂.mem n = t.mem n := by simp [t₂, Ne.symm hny, hn₁]
  let t₃ := (t₂.setChild .left (some y) (link l)).setColor (some y) c
  let t₄ := t₃.setParent (link l) (some y)
  have heq : t.placed n y = t₄ := by
    have h1 : t.transplant (some n) (some y) = t₂ := by rw [transplant, hp₁]
    have h2 : t₂.left (some n) = link l := by simp [left, child, node, hn₂, hn, PageNode.child]
    have h3 : ((t₂.setChild .left (some y) (link l)).mem n).color = c := by
      simp [Ne.symm hny, hn₂, hn]
    have h4 : t₃.left (some y) = link l := by
      simp [t₃, left, child, node, PageNode.setChild, PageNode.setColor, PageNode.child]
    simp only [placed, h1, h2, h3]
    rw [h4]
  have hly : link l ≠ some y := fun e => hyl (link_eq_some e)
  have hm : ∀ k, k ≠ y → link l ≠ some k → top ctx ≠ some k → t₄.mem k = t.mem k := by
    intro k h1 h2 h3
    simp only [t₄, t₃, t₂, setParent_mem, setColor_mem, setChild_mem, Option.some.injEq, h2,
      Ne.symm h1, if_false]
    exact hm₁ k h3
  rw [heq]
  refine ⟨⟨?_, ⟨?_, ?_, ?_⟩, hnd⟩, fun k hk => ?_⟩
  · have hroot : t₄.root = t₁.root := by simp [t₄, t₃, t₂]
    rw [link_node, hroot]
    refine har₁.congr fun k hk => ?_
    have h1 : y ≠ k := by rintro rfl; exact hyc hk
    have h2 : link l ≠ some k := fun e => hrest.2.2 k (link_eq_some e) k (Or.inr hk) rfl
    simp [t₄, t₃, t₂, t₁, h1, h2]
  · have hy₁ : t₁.mem y = t.mem y := hm₁ y (top_ne hyc)
    simp [t₄, t₃, t₂, hly, hy₁, hy, PageNode.setChild, PageNode.setColor, PageNode.setParent]
  · refine hl.reparent hrest.1 (fun k hk => ?_) fun k hk hlk => ?_
    · have h1 : y ≠ k := by rintro rfl; exact hly hk
      have h2 : t₁.mem k = t.mem k :=
        hm₁ k (top_ne fun hc => hrest.2.2 k (link_eq_some hk) k (Or.inr hc) rfl)
      simp [t₄, t₃, t₂, hk, h1, h2]
    · exact hm k (by rintro rfl; exact hyl hk) hlk
        (top_ne fun hc => hrest.2.2 k hk k (Or.inr hc) rfl)
  · refine hr.congr fun k hk => hm k (by rintro rfl; exact hyr hk) (fun e => ?_) (top_ne fun hc => ?_)
    · exact hrest.2.2 k (link_eq_some e) k (Or.inl hk) rfl
    · exact hrest.2.1.2.2 k hk k hc rfl
  · simp only [Ctx.mem_plug, Tree.toList_node, List.mem_append, List.mem_cons, not_or] at hk
    exact hm k hk.1.2.1 (fun e => hk.1.1 (link_eq_some e)) (top_ne hk.2)

/-! ## The successor -/

/-- `min_link` finds the leftmost node. -/
theorem minLink_at {t : PageTree} :
    ∀ {s : Tree Nat} {ctx : Ctx Nat} {fuel : Nat}, At t ctx s → s.toList.length < fuel →
      t.minLink fuel (link s) = ok (link (leftmost ctx s).2) ∧
        At t (leftmost ctx s).1 (leftmost ctx s).2 := by
  intro s
  induction s with
  | nil =>
    intro ctx fuel h hf
    obtain ⟨fuel, rfl⟩ : ∃ k, fuel = k + 1 := ⟨fuel - 1, by omega⟩
    exact ⟨rfl, h⟩
  | node c l a r ih =>
    intro ctx fuel h hf
    obtain ⟨fuel, rfl⟩ : ∃ k, fuel = k + 1 := ⟨fuel - 1, by omega⟩
    have hleft : t.left (some a) = link l := h.child_link (d := .left)
    cases l with
    | nil =>
      refine ⟨?_, h⟩
      simp [minLink, hleft, leftmost]
    | node c' l' a' r' =>
      simp only [Tree.toList_node, List.length_append, List.length_cons] at hf
      have := ih (h.down (d := .left)) (show _ < fuel by simp; omega)
      refine ⟨?_, this.2⟩
      simp only [minLink, link_node, hleft, Option.isSome_some, if_true, leftmost]
      exact this.1

section Splice

variable {t : PageTree} {ctx up : Ctx Nat} {c yc : Color} {l yr : Tree Nat} {n y : Nat}

/-- The sequences before and after a splice: `n` is left out. -/
theorem splice_seq (c : Color) (l : Tree Nat) (n : Nat) (ctx : Ctx Nat) (yc : Color)
    (yr : Tree Nat) (y : Nat) (hb : Ctx.before up = []) :
    ∃ A B, (Ctx.plug (up ++ ⟨.right, c, n, l⟩ :: ctx) (.node yc .nil y yr)).toList = A ++ n :: B ∧
      (Ctx.plug ctx (.node c l y (Ctx.plug up yr))).toList = A ++ B := by
  refine ⟨Ctx.before ctx ++ l.toList, y :: (yr.toList ++ (Ctx.after up ++ Ctx.after ctx)), ?_, ?_⟩
  · rw [Ctx.toList_plug, Ctx.before_append, Ctx.after_append, hb]
    simp [Ctx.before, Ctx.after]
  · rw [Ctx.toList_plug, Tree.toList_node, Ctx.toList_plug, hb]
    simp

/-- The keys of the result of a splice are distinct, `n` is not among them, and there are no new
ones. -/
theorem splice_nodup
    (h : At t (up ++ ⟨.right, c, n, l⟩ :: ctx) (.node yc .nil y yr)) (hb : Ctx.before up = []) :
    (Ctx.plug ctx (.node c l y (Ctx.plug up yr))).toList.Nodup ∧
      n ∉ (Ctx.plug ctx (.node c l y (Ctx.plug up yr))).toList ∧
      ∀ k ∈ (Ctx.plug ctx (.node c l y (Ctx.plug up yr))).toList,
        k ∈ (Ctx.plug (up ++ ⟨.right, c, n, l⟩ :: ctx) (.node yc .nil y yr)).toList := by
  have hnd := h.nodup
  obtain ⟨A, B, hold, hnew⟩ := splice_seq c l n ctx yc yr y hb
  rw [hold, List.nodup_middle, List.nodup_cons] at hnd
  rw [hnew, hold]
  refine ⟨hnd.2, hnd.1, fun k hk => ?_⟩
  rw [List.mem_append, List.mem_cons]
  rw [List.mem_append] at hk
  tauto

/-- Writing the parent link a stored tree already has changes nothing. -/
theorem setParent_self {p : PageLink} {s : Tree Nat} (h : Stored t.mem p s) :
    t.setParent (link s) p = t := by
  cases s with
  | nil => rfl
  | node c l m r =>
    have hm : (t.mem m).setParent p = t.mem m := by rw [h.1]; rfl
    simp [PageTree.setParent, modify, hm]

/-- The successor is the right child itself. -/
theorem splice_child (h : At t (⟨.right, c, n, l⟩ :: ctx) (.node yc .nil y yr)) :
    At ((t.setParent (link yr) (some y)).placed n y) ctx (.node c l y yr) ∧
      Framed (Ctx.plug (⟨.right, c, n, l⟩ :: ctx) (.node yc .nil y yr)).toList t
        ((t.setParent (link yr) (some y)).placed n y) := by
  obtain ⟨hnd, hn, hsub⟩ := splice_nodup (show At t ([] ++ _ :: ctx) _ from h) rfl
  rw [setParent_self h.stored.2.2]
  obtain ⟨hat, hfr⟩ :=
    placed_at h.around.2.2 h.around.1 h.around.2.1 h.stored.1 h.stored.2.2 hnd hn
  exact ⟨hat, hfr.mono hsub⟩

/-- The successor is deeper in the right subtree: it is first taken out of there, and the rest of
the right subtree is hung below it. -/
theorem splice_deep {f : Frame Nat}
    (h : At t (f :: up ++ ⟨.right, c, n, l⟩ :: ctx) (.node yc .nil y yr))
    (hb : Ctx.before (f :: up) = []) :
    let t₁ := t.transplant (some y) (link yr)
    let r' := Ctx.plug (f :: up) yr
    let t₂ := (t₁.setChild .right (some y) (link r')).setParent (link r') (some y)
    t₁.right (some n) = link r' ∧ At (t₂.placed n y) ctx (.node c l y r') ∧
      Framed (Ctx.plug (f :: up ++ ⟨.right, c, n, l⟩ :: ctx) (.node yc .nil y yr)).toList t
        (t₂.placed n y) := by
  intro t₁ r' t₂
  obtain ⟨hnd, hn, hsub⟩ := splice_nodup h hb
  obtain ⟨h1, hy₁, hfr₁⟩ := transplant_at (d := .left) h
  have hR : At t₁ (⟨.right, c, n, l⟩ :: ctx) r' := at_plug.mp h1
  -- distinct keys, seen from `y` in the resulting tree
  obtain ⟨hyl, hyr, hyc, hrest⟩ := Ctx.nodup_plug_branch (d := .left).mp hnd
  simp only [List.nodup_append, List.mem_append] at hrest
  have hn' := hn
  rw [Ctx.mem_plug, Tree.toList_node, List.mem_append, List.mem_cons, not_or, not_or, not_or] at hn'
  have hry : link r' ≠ some y := fun e => hyr (link_eq_some e)
  have hm : ∀ k, k ≠ y → link r' ≠ some k → t₂.mem k = t₁.mem k := by
    intro k hk1 hk2
    simp [t₂, hk2, Ne.symm hk1]
  have har : Around t₂.mem t₂.root ctx (some n) := by
    have hroot : t₂.root = t₁.root := by simp [t₂]
    rw [hroot]
    refine hR.around.2.2.congr fun k hk => hm k (by rintro rfl; exact hyc hk) fun e => ?_
    exact hrest.2.1.2.2 k (link_eq_some e) k hk rfl
  have hn₂ : t₂.mem n = ⟨n, top ctx, link l, link r', c⟩ :=
    (hm n hn'.1.2.1 fun e => hn'.1.2.2 (link_eq_some e)).trans hR.around.1
  have hl₂ : Stored t₂.mem (some n) l := by
    refine hR.around.2.1.congr fun k hk => hm k (by rintro rfl; exact hyl hk) fun e => ?_
    exact hrest.2.2 k hk k (Or.inl (link_eq_some e)) rfl
  have hy₂ : t₂.mem y = ⟨y, top (f :: up ++ ⟨.right, c, n, l⟩ :: ctx), none, link r', yc⟩ := by
    have hy : t₁.mem y = _ := hy₁.trans h.stored.1
    simp [t₂, hry, hy, PageNode.setChild]
  have hr₂ : Stored t₂.mem (some y) r' := by
    refine hR.stored.reparent hrest.2.1.1 (fun k hk => ?_) fun k hk hl => hm k ?_ hl
    · have hky : y ≠ k := by rintro rfl; exact hry hk
      simp [t₂, hk, hky]
    · rintro rfl; exact hyr hk
  obtain ⟨hat, hfr⟩ := placed_at har hn₂ hl₂ hy₂ hr₂ hnd hn
  -- everything that is written is a key of the old tree
  have hfr₂ : Framed (Ctx.plug ctx (.node c l y r')).toList t₁ t₂ := by
    intro k hk
    rw [Ctx.mem_plug, Tree.toList_node, List.mem_append, List.mem_cons, not_or, not_or, not_or] at hk
    exact hm k hk.1.2.1 fun e => hk.1.2.2 (link_eq_some e)
  refine ⟨hR.child_top, hat, Framed.trans (hfr₁.mono fun k hk => ?_) ((hfr₂.trans hfr).mono hsub)⟩
  rw [Ctx.mem_plug] at hk ⊢
  rw [Tree.toList_node, List.mem_append, List.mem_cons]
  tauto

end Splice

/-- Two children: the successor `y` takes the place of `n`, and the fixup starts where `y` was. -/
theorem deleteSplice_at {t : PageTree} {ctx : Ctx Nat} {c : Color} {l r : Tree Nat} {n fuel : Nat}
    (bcolor : Color) (h : At t ctx (.node c l n r)) (hr : r ≠ .nil)
    (hf : r.toList.length < fuel) :
    ∃ up yc y yr t', leftmost [] r = (up, .node yc .nil y yr) ∧
      t.deleteSplice fuel (some n) bcolor = ok (t', link yr, yc) ∧
      At t' (up ++ ⟨.right, c, y, l⟩ :: ctx) yr ∧
      Framed (Ctx.plug ctx (.node c l n r)).toList t t' := by
  obtain ⟨up, yc, y, yr, hmin, hplug, hb⟩ := leftmost_spec hr
  have hR : At t (⟨.right, c, n, l⟩ :: ctx) r := h.down_flip (d := .left)
  have hmin' := minLink_at hR hf
  rw [hmin] at hmin'
  obtain ⟨hrun, hY⟩ := hmin'
  have hright : t.right (some n) = link r := hR.child_top
  have hyr : t.right (some y) = link yr := hY.child_link (d := .right) (s := yr) (u := .nil)
  have hyc : t.color? (some y) = some yc := hY.color_link
  have hold : Ctx.plug (up ++ ⟨.right, c, n, l⟩ :: ctx) (.node yc .nil y yr) =
      Ctx.plug ctx (.node c l n r) := by
    rw [Ctx.plug_append, ← hplug]
    rfl
  -- the common end, from the tree with `y` in place
  have hend : ∀ {t' : PageTree}, At t' ctx (.node c l y (Ctx.plug up yr)) →
      At t' (up ++ ⟨.right, c, y, l⟩ :: ctx) yr :=
    fun h' => at_plug.mpr (h'.down_flip (d := .left))
  cases up with
  | nil =>
    obtain ⟨hat, hfr⟩ := splice_child hY
    refine ⟨[], yc, y, yr, _, by simpa using hmin [], ?_, hend hat, hold ▸ hfr⟩
    have hry : link r = some y := by rw [hplug]; rfl
    have hdet : t.detachSuccessor (some n) (some y) = t.setParent (link yr) (some y) := by
      simp [detachSuccessor, hright, hry, hyr]
    rw [deleteSplice, hright, hrun, link_node, ok_bind, hyc, hyr, hdet, takePlace_eq]
    rfl
  | cons f up =>
    obtain ⟨hr₁, hat, hfr⟩ := splice_deep hY hb
    refine ⟨f :: up, yc, y, yr, _, by simpa using hmin [], ?_, hend hat, hold ▸ hfr⟩
    have hry : some y ≠ link r := by
      rw [hplug]
      obtain ⟨k, hk, hl⟩ := link_plug_cons f up (.node yc .nil y yr)
      rw [hl]
      rintro ⟨⟩
      have hnd := (Ctx.plug_perm _ _).nodup_iff.mp hY.nodup
      refine (List.nodup_append.mp hnd).2.2 y (by simp) y ?_ rfl
      rw [Ctx.keys_append, List.mem_append]
      exact Or.inl hk
    have hr₂ : ∀ k, (((t.transplant (some y) (link yr)).setChild .right (some y) k).right
        (some y)) = k := fun k => by simp [right, child, node, PageNode.setChild, PageNode.child]
    have hdet : t.detachSuccessor (some n) (some y) =
        ((t.transplant (some y) (link yr)).setChild .right (some y)
          (link (Ctx.plug (f :: up) yr))).setParent (link (Ctx.plug (f :: up) yr)) (some y) := by
      rw [detachSuccessor, hright, if_pos hry, hyr]
      simp only [hr₁, hr₂]
    rw [deleteSplice, hright, hrun, link_node, ok_bind, hyc, hyr, hdet, takePlace_eq]
    rfl

/-! ## The whole operation -/

/-- What `delete` has done before its fixup. -/
theorem delete_splice {t : PageTree} {ctx : Ctx Nat} {c : Color} {l r : Tree Nat} {n fuel : Nat}
    (h : At t ctx (.node c l n r)) (hn : n ≠ 0)
    (hf : (Ctx.plug ctx (.node c l n r)).toList.length < fuel) :
    ∃ t₁ ctx' s c', spliceOut ctx (.node c l n r) = (ctx', s, c') ∧ At t₁ ctx' s ∧
      Framed (Ctx.plug ctx (.node c l n r)).toList t t₁ ∧
      t.delete fuel n = if c' = .black then deleteFixup fuel t₁ (link s) else ok t₁ := by
  have hptr : pagePtr n = some n := by simp [pagePtr, hn]
  have hc : t.color? (some n) = some c := h.color_link
  have hl : t.left (some n) = link l := h.child_link (d := .left)
  have hr : t.right (some n) = link r := h.child_link (d := .right) (s := r) (u := l)
  -- a node with at most one child
  have hone : ∀ (d : Dir) (u : Tree Nat), Tree.node c l n r = Tree.branch d c .nil n u →
      At (t.transplant (some n) (link u)) ctx u ∧
      Framed (Ctx.plug ctx (.node c l n r)).toList t (t.transplant (some n) (link u)) := by
    intro d u hu
    rw [hu] at h ⊢
    obtain ⟨hat, -, hfr⟩ := transplant_at h
    refine ⟨hat, hfr.mono fun k hk => ?_⟩
    rw [Ctx.mem_plug, Tree.mem_toList_branch]
    rw [Ctx.mem_plug] at hk
    tauto
  cases l with
  | nil =>
    obtain ⟨hat, hfr⟩ := hone .left r rfl
    refine ⟨_, ctx, r, c, rfl, hat, hfr, ?_⟩
    simp [delete, hptr, hc, hl, hr]
  | node lc ll la lr =>
    cases r with
    | nil =>
      obtain ⟨hat, hfr⟩ := hone .right _ rfl
      refine ⟨_, ctx, _, c, rfl, hat, hfr, ?_⟩
      simp [delete, hptr, hc, hl, hr]
    | node rc rl ra rr =>
      have hlen : (Tree.node rc rl ra rr).toList.length < fuel := by
        have := Ctx.length_le_toList_plug ctx (.node c (.node lc ll la lr) n (.node rc rl ra rr))
        rw [Tree.toList_node, List.length_append, List.length_cons] at this
        omega
      obtain ⟨up, yc, y, yr, t₁, hmin, hrun, hat, hfr⟩ :=
        deleteSplice_at c h (by simp) hlen
      refine ⟨t₁, _, yr, yc, ?_, hat, hfr, ?_⟩
      · simp [spliceOut, hmin]
      · simp [delete, hptr, hc, hl, hr, hrun]

/-- **`delete` computes `deleteAt`**: it panics exactly where there is no result. -/
theorem delete_at {t : PageTree} {ctx : Ctx Nat} {c : Color} {l r : Tree Nat} {n fuel : Nat}
    (h : At t ctx (.node c l n r)) (hn : n ≠ 0)
    (hf : (Ctx.plug ctx (.node c l n r)).toList.length < fuel) :
    match deleteAt ctx (.node c l n r) with
    | none => Panics (t.delete fuel n)
    | some s' => ∃ t', t.delete fuel n = ok t' ∧ At t' [] s' ∧
        s'.toList = Ctx.before ctx ++ (l.toList ++ (r.toList ++ Ctx.after ctx)) ∧
        Framed (Ctx.plug ctx (.node c l n r)).toList t t' := by
  obtain ⟨t₁, ctx', s, c', hsp, hat, hfr, hrun⟩ := delete_splice h hn hf
  have hseq := spliceOut_seq ctx c l n r
  rw [hsp] at hseq
  have hsub : ∀ k ∈ (Ctx.plug ctx' s).toList, k ∈ (Ctx.plug ctx (.node c l n r)).toList := by
    intro k hk
    rw [hseq] at hk
    rw [Ctx.toList_plug, Tree.toList_node]
    simp only [List.mem_append, List.mem_cons] at hk ⊢
    tauto
  have hlen : ctx'.length < fuel := by
    have h1 := Ctx.length_le_toList_plug ctx' s
    have h2 := Ctx.toList_plug ctx (.node c l n r)
    simp only [hseq, h2, Tree.toList_node, List.length_append, List.length_cons] at h1 hf
    omega
  rw [deleteAt, hsp]
  cases c' with
  | red => exact ⟨t₁, by simpa using hrun, hat.whole, hseq, hfr⟩
  | black =>
    rw [if_pos rfl] at hrun
    have hfix := deleteFixup_held ctx' hat.held hlen
    simp only at hfix ⊢
    rw [hrun]
    cases hd : deleteFix ctx' s with
    | none => rw [hd] at hfix; exact hfix
    | some s' =>
      rw [hd] at hfix
      obtain ⟨t', hok, hheld⟩ := hfix
      exact ⟨t', hok, hheld.hat, hheld.seq.trans hseq, hfr.trans (hheld.framed.mono hsub)⟩

end PageTree
end Allora
