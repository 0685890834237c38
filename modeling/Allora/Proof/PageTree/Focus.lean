import Allora.Proof.PageTree.Stored

/-!
# Local steps at a focus

What one write, one rotation and one splice of `page_tree.rs` do to a stored tree. Each lemma has
the same shape: from `At t ctx s`, the code's state change gives a `t'` with `At t' ctx s'`, where
`s'` is the obvious rewrite of `s`, and memory outside the tree is framed. The fixup loops are
verified with these lemmas only; none of them is unfolded to memory again.
-/

set_option autoImplicit false

namespace Allora
namespace PageTree

open Outcome

/-! ## Moving the focus -/

/-- The same memory, read one ancestor further up. -/
theorem at_up {t : PageTree} {f : Frame Nat} {ctx : Ctx Nat} {s : Tree Nat} :
    At t (f :: ctx) s ↔ At t ctx (Ctx.attach f s) := by
  constructor
  · rintro ⟨⟨hf, hs, ha⟩, hst, hnd⟩
    exact ⟨by simpa [Ctx.attach] using ha, by simpa [Ctx.attach] using ⟨hf, hst, hs⟩, hnd⟩
  · rintro ⟨ha, hst, hnd⟩
    simp only [Ctx.attach, stored_branch, link_branch] at ha hst
    exact ⟨⟨hst.1, hst.2.2, ha⟩, hst.2.1, hnd⟩

theorem At.up {t : PageTree} {f : Frame Nat} {ctx : Ctx Nat} {s : Tree Nat}
    (h : At t (f :: ctx) s) : At t ctx (Ctx.attach f s) := at_up.mp h

theorem At.down {t : PageTree} {ctx : Ctx Nat} {d : Dir} {c : Color} {s u : Tree Nat} {n : Nat}
    (h : At t ctx (.branch d c s n u)) : At t (⟨d, c, n, u⟩ :: ctx) s := at_up.mpr h

theorem At.down_flip {t : PageTree} {ctx : Ctx Nat} {d : Dir} {c : Color} {s u : Tree Nat}
    {n : Nat} (h : At t ctx (.branch d c s n u)) : At t (⟨d.flip, c, n, s⟩ :: ctx) u :=
  At.down ((Tree.branch_flip d c u n s).symm ▸ h)

theorem at_plug {t : PageTree} {ctx ctx' : Ctx Nat} {s : Tree Nat} :
    At t (ctx' ++ ctx) s ↔ At t ctx (Ctx.plug ctx' s) := by
  induction ctx' generalizing s with
  | nil => rfl
  | cons f ctx' ih => exact at_up.trans ih

/-- Focused at the top, `At` is a statement about the whole tree. -/
theorem At.into {t : PageTree} {ctx : Ctx Nat} {s : Tree Nat} (h : At t [] (Ctx.plug ctx s)) :
    At t ctx s := by
  have := at_plug.mpr h
  rwa [List.append_nil] at this

theorem At.whole {t : PageTree} {ctx : Ctx Nat} {s : Tree Nat} (h : At t ctx s) :
    At t [] (Ctx.plug ctx s) := at_plug.mp (by simpa using h)

/-- `At` is kept by a change of memory outside the tree. -/
theorem At.congr {t t' : PageTree} {ctx : Ctx Nat} {s : Tree Nat} (h : At t ctx s)
    (hr : t'.root = t.root) (hm : ∀ k ∈ (Ctx.plug ctx s).toList, t'.mem k = t.mem k) :
    At t' ctx s := by
  refine ⟨?_, h.stored.congr fun k hk => hm k (by simp [hk]), h.nodup⟩
  rw [hr]
  exact h.around.congr fun k hk => hm k (by simp [hk])

theorem modify_mem (t : PageTree) (l : PageLink) (f : PageNode → PageNode) (k : Nat) :
    (t.modify l f).mem k = if l = some k then f (t.mem k) else t.mem k := by
  cases l with
  | none => simp [modify]
  | some a =>
    by_cases hk : k = a
    · subst hk; simp [modify]
    · simp [modify, hk, Ne.symm hk]

@[simp] theorem modify_root (t : PageTree) (l : PageLink) (f : PageNode → PageNode) :
    (t.modify l f).root = t.root := by cases l <;> rfl

@[simp] theorem setColor_mem (t : PageTree) (l : PageLink) (c : Color) (k : Nat) :
    (t.setColor l c).mem k = if l = some k then (t.mem k).setColor c else t.mem k :=
  modify_mem t l _ k
@[simp] theorem setParent_mem (t : PageTree) (l p : PageLink) (k : Nat) :
    (t.setParent l p).mem k = if l = some k then (t.mem k).setParent p else t.mem k :=
  modify_mem t l _ k
@[simp] theorem setChild_mem (t : PageTree) (d : Dir) (l q : PageLink) (k : Nat) :
    (t.setChild d l q).mem k = if l = some k then (t.mem k).setChild d q else t.mem k :=
  modify_mem t l _ k
@[simp] theorem setColor_root (t : PageTree) (l : PageLink) (c : Color) :
    (t.setColor l c).root = t.root := modify_root t l _
@[simp] theorem setParent_root (t : PageTree) (l p : PageLink) :
    (t.setParent l p).root = t.root := modify_root t l _
@[simp] theorem setChild_root (t : PageTree) (d : Dir) (l q : PageLink) :
    (t.setChild d l q).root = t.root := modify_root t l _

section Paint

variable (t : PageTree) (l k : PageLink) (c : Color)

@[simp] theorem setColor_parent : (t.setColor l c).parent k = t.parent k := by
  cases k with
  | none => rfl
  | some k =>
    simp only [parent, node, Option.map_some, Option.bind_some, setColor_mem]
    split <;> rfl

@[simp] theorem setColor_child (d : Dir) : (t.setColor l c).child d k = t.child d k := by
  cases k with
  | none => rfl
  | some k =>
    simp only [child, node, Option.map_some, Option.bind_some, setColor_mem]
    split <;> cases d <;> rfl

end Paint

/-- `replaceChild` turns the hole's link from `a` to `b` and writes nothing but the nearest
ancestor. -/
theorem replaceChild_around {t : PageTree} {ctx : Ctx Nat} {a : Nat} (b : PageLink)
    (h : Around t.mem t.root ctx (some a)) (hp : t.parent (some a) = top ctx)
    (hnd : (Ctx.keys ctx).Nodup) (ha : a ∉ Ctx.keys ctx) :
    Around (t.replaceChild (some a) b).mem (t.replaceChild (some a) b).root ctx b ∧
      ∀ k, top ctx ≠ some k → (t.replaceChild (some a) b).mem k = t.mem k := by
  cases ctx with
  | nil =>
    simp only [top_nil] at hp
    simp [replaceChild, hp, Around]
  | cons f ctx =>
    obtain ⟨d, c, n, s⟩ := f
    simp only [top_cons] at hp
    obtain ⟨hf, hs, hr⟩ := h
    simp only at hf hs hr
    have hsa : link s ≠ some a := fun hl => ha (by simp [link_eq_some hl])
    have hset : t.replaceChild (some a) b = t.setChild d (some n) b := by
      cases d with
      | left =>
        have hl : t.left (some n) = some a := by simp [left, child, node, hf]
        simp [replaceChild, hp, hl]
      | right =>
        have hl : t.left (some n) = link s := by
          simp [left, child, node, hf, cell, PageNode.child]
        simp [replaceChild, hp, hl, hsa.symm]
    simp only [Ctx.keys_cons, List.nodup_cons, List.mem_append, not_or] at hnd
    rw [hset]
    refine ⟨⟨by simp [hf], hs.congr fun k hk => ?_, ?_⟩, fun k hk => ?_⟩
    · have hkn : n ≠ k := by rintro rfl; exact hnd.1.1 hk
      simp [hkn]
    · rw [setChild_root]
      refine hr.congr fun k hk => ?_
      have hkn : n ≠ k := by rintro rfl; exact hnd.1.2 hk
      simp [hkn]
    · have hkn : n ≠ k := by rintro rfl; exact hk rfl
      simp [hkn]

theorem At.setColor {t : PageTree} {ctx : Ctx Nat} {d : Dir} {c : Color} {s u : Tree Nat} {n : Nat}
    (h : At t ctx (.branch d c s n u)) (c' : Color) :
    At (t.setColor (some n) c') ctx (.branch d c' s n u) := by
  obtain ⟨ha, hst, hnd⟩ := h
  obtain ⟨hn, hs, hu⟩ := stored_branch.mp hst
  have hne := Ctx.nodup_plug_branch.mp hnd
  have hk : ∀ k, k ≠ n → (t.setColor (some n) c').mem k = t.mem k := by
    intro k hk
    simp [Ne.symm hk]
  refine ⟨?_, stored_branch.mpr ⟨?_, hs.congr fun k hm => hk k ?_, hu.congr fun k hm => hk k ?_⟩, ?_⟩
  · rw [link_branch] at ha ⊢
    rw [setColor_root]
    exact ha.congr fun k hm => hk k (by rintro rfl; exact hne.2.2.1 hm)
  · simp [hn]
  · rintro rfl; exact hne.1 hm
  · rintro rfl; exact hne.2.1 hm
  · exact Ctx.nodup_plug_branch.mpr hne

theorem top_ne {ctx : Ctx Nat} {k : Nat} (hk : k ∉ Ctx.keys ctx) : top ctx ≠ some k := by
  intro ht
  cases ctx with
  | nil => cases ht
  | cons f ctx => cases ht; simp at hk

/-! ## Reading at a focus -/

section Reading

variable {t : PageTree} {f : Frame Nat} {ctx : Ctx Nat} {s : Tree Nat}

theorem At.color_link (h : At t ctx s) : t.color? (link s) = s.color? := by
  cases s with
  | nil => rfl
  | node c l n r => simp [color?, node, h.stored.1]

theorem At.parent_link {n : Nat} (h : At t ctx s) (hn : link s = some n) :
    t.parent (some n) = top ctx := by
  cases s with
  | nil => cases hn
  | node c l m r => cases hn; simp [parent, node, h.stored.1]

theorem At.child_link {d : Dir} {c : Color} {u : Tree Nat} {n : Nat}
    (h : At t ctx (.branch d c s n u)) : t.child d (some n) = link s := by
  simp [child, node, (stored_branch.mp h.stored).1]

theorem At.color_top (h : At t (f :: ctx) s) : t.color? (some f.key) = some f.color := by
  simp [color?, node, h.around.1]

theorem At.parent_top (h : At t (f :: ctx) s) : t.parent (some f.key) = top ctx := by
  simp [parent, node, h.around.1]

theorem At.child_top (h : At t (f :: ctx) s) : t.child f.dir (some f.key) = link s := by
  simp [child, node, h.around.1]

theorem At.sibling (h : At t (f :: ctx) s) : t.child f.dir.flip (some f.key) = link f.sib := by
  simp [child, node, h.around.1]

theorem link_plug_cons (f : Frame Nat) (ctx : Ctx Nat) (s : Tree Nat) :
    ∃ k ∈ Ctx.keys (f :: ctx), link (Ctx.plug (f :: ctx) s) = some k := by
  induction ctx generalizing f s with
  | nil => exact ⟨f.key, by simp, by simp [Ctx.attach]⟩
  | cons g ctx ih =>
    obtain ⟨k, hk, hl⟩ := ih g (Ctx.attach f s)
    exact ⟨k, List.mem_cons_of_mem _ (List.mem_append_right _ hk), hl⟩

/-- Below an ancestor, the focus is not the root. -/
theorem At.root_ne {n : Nat} (h : At t (f :: ctx) s) (hn : link s = some n) :
    some n ≠ t.root := by
  obtain ⟨k, hk, hl⟩ := link_plug_cons f ctx s
  have hroot : t.root = some k := h.whole.around.trans hl
  have hnd := (Ctx.plug_perm (f :: ctx) s).nodup_iff.mp h.nodup
  rw [hroot]
  rintro ⟨⟩
  exact (List.nodup_append.mp hnd).2.2 n (link_eq_some hn) n hk rfl

/-- The focus and the sibling of its parent's other side are different nodes. -/
theorem At.sibling_ne {n : Nat} (h : At t (f :: ctx) s) (hn : link s = some n) :
    some n ≠ link f.sib := by
  intro e
  have hnd := (Ctx.plug_perm (f :: ctx) s).nodup_iff.mp h.nodup
  refine (List.nodup_append.mp hnd).2.2 n (link_eq_some hn) n ?_ rfl
  simp [link_eq_some e.symm]

/-- The side of the focus is found by comparing with the parent's `left`. -/
theorem At.dir_eq {n : Nat} (h : At t (f :: ctx) s) (hn : link s = some n) :
    (if some n = t.left (some f.key) then Dir.left else Dir.right) = f.dir := by
  have hu := h.sibling_ne hn
  obtain ⟨d, c, m, u⟩ := f
  cases d with
  | left =>
    have hl : t.left (some m) = link s := h.child_top
    simp [hl, hn]
  | right =>
    have hl : t.left (some m) = link u := h.sibling
    simp [hl, hu]

end Reading

/-! ## Rotations -/

theorem rotate_at {t : PageTree} {ctx : Ctx Nat} {d : Dir} {c c' : Color} {u v w : Tree Nat}
    {a b : Nat} (h : At t ctx (.branch d c u a (.branch d c' v b w))) :
    ∃ t', t.rotate d a = ok t' ∧ At t' ctx (.branch d c' (.branch d c u a v) b w) ∧
      Framed (Ctx.plug ctx (.branch d c u a (.branch d c' v b w))).toList t t' := by
  obtain ⟨har, hst, hnd⟩ := h
  obtain ⟨ha, hu, hst'⟩ := stored_branch.mp hst
  obtain ⟨hb, hv, hw⟩ := stored_branch.mp hst'
  rw [link_branch] at har ha
  -- the keys are distinct, seen from `a` and from `b`
  obtain ⟨hau, hab, hac, -⟩ := Ctx.nodup_plug_branch.mp hnd
  have hnd' : (Ctx.plug (⟨d.flip, c, a, u⟩ :: ctx) (.branch d c' v b w)).toList.Nodup := by
    rw [Ctx.plug_cons, Ctx.attach_mk, Tree.branch_flip]
    exact hnd
  obtain ⟨hbv, hbw, hbc, hrest⟩ := Ctx.nodup_plug_branch.mp hnd'
  simp only [Tree.mem_toList_branch, not_or] at hab
  simp only [Ctx.keys_cons, List.mem_cons, List.mem_append, not_or] at hbc
  simp only [Ctx.keys_cons, List.nodup_append, List.nodup_cons, List.mem_append,
    List.mem_cons, not_or] at hrest
  have hva : link v ≠ some a := fun hl => hab.2.1 (link_eq_some hl)
  have hvb : link v ≠ some b := fun hl => hbv (link_eq_some hl)
  have hvk : ∀ k, k ∈ u.toList ∨ k ∈ w.toList ∨ k ∈ Ctx.keys ctx → link v ≠ some k := by
    intro k hk hl
    have := hrest.2.2 k (link_eq_some hl) k (by tauto)
    exact this rfl
  -- the steps of the rotation
  have hchild : t.child d.flip (some a) = some b := by simp [child, node, ha]
  have hchild' : (t.setChild d.flip (some a) (link v)).child d (some b) = link v := by
    simp [child, node, hb, hab.1]
  have hchild'' : t.child d (some b) = link v := by simp [child, node, hb]
  let t₁ := (t.setChild d.flip (some a) (link v)).setParent (link v) (some a)
  have hpar : t₁.parent (some a) = top ctx := by
    simp [t₁, parent, node, ha, hva]
  let t₂ := t₁.setParent (some b) (top ctx)
  have hm₂ : ∀ k, k ≠ a → k ≠ b → link v ≠ some k → t₂.mem k = t.mem k := by
    intro k h1 h2 h3
    simp [t₂, t₁, Ne.symm h1, Ne.symm h2, h3]
  have har₂ : Around t₂.mem t₂.root ctx (some a) := by
    have hroot : t₂.root = t.root := by simp [t₂, t₁]
    rw [hroot]
    refine har.congr fun k hk => hm₂ k ?_ ?_ (hvk k (by tauto))
    · rintro rfl; exact hac hk
    · rintro rfl; exact hbc.2.2 hk
  have hpar₂ : t₂.parent (some a) = top ctx := by
    simp [t₂, t₁, parent, node, ha, hva, Ne.symm hab.1]
  obtain ⟨har₃, hm₃⟩ := replaceChild_around (some b) har₂ hpar₂ hrest.2.1.2.1.2.2.1 hac
  let t₃ := t₂.replaceChild (some a) (some b)
  let t₄ := (t₃.setChild d (some b) (some a)).setParent (some a) (some b)
  have hrun : t.rotate d a = ok t₄ := by
    simp only [rotate, hchild, unwrap_some, ok_bind, hchild', hchild'', pure_eq_ok]
    rw [hpar]
  have hm₄ : ∀ k, k ≠ a → k ≠ b → link v ≠ some k → top ctx ≠ some k → t₄.mem k = t.mem k := by
    intro k h1 h2 h3 h4
    simp only [t₄, setParent_mem, setChild_mem, Option.some.injEq, Ne.symm h1, Ne.symm h2, if_false]
    exact (hm₃ k h4).trans (hm₂ k h1 h2 h3)
  refine ⟨t₄, hrun, ⟨?_, ?_, ?_⟩, fun k hk => ?_⟩
  · -- the ancestors: only their hole changed
    have hroot : t₄.root = t₃.root := by simp [t₄]
    rw [link_branch, hroot]
    refine har₃.congr fun k hk => ?_
    have h1 : a ≠ k := by rintro rfl; exact hac hk
    have h2 : b ≠ k := by rintro rfl; exact hbc.2.2 hk
    simp [t₄, t₃, h1, h2]
  · -- the two rotated nodes and their three subtrees
    have hta : t₃.mem a = t₂.mem a := hm₃ a (top_ne hac)
    have htb : t₃.mem b = t₂.mem b := hm₃ b (top_ne hbc.2.2)
    refine stored_branch.mpr ⟨?_, stored_branch.mpr ⟨?_, hu.congr fun k hk => ?_, ?_⟩,
      hw.congr fun k hk => ?_⟩
    · simp [t₄, htb, t₂, t₁, hb, hab.1, hvb]
    · simp [t₄, hta, t₂, t₁, ha, Ne.symm hab.1, hva]
    · exact hm₄ k (by rintro rfl; exact hau hk) (by rintro rfl; exact hbc.2.1 hk)
        (hvk k (Or.inl hk)) (top_ne fun hc => hrest.2.1.2.1.2.2.2 k hk k hc rfl)
    · refine hv.reparent hrest.1 (fun n hn => ?_) fun k hk hl => ?_
      · have hnv := link_eq_some hn
        have h1 : n ≠ a := by rintro rfl; exact hab.2.1 hnv
        have h2 : n ≠ b := by rintro rfl; exact hbv hnv
        have h3 : t₃.mem n = t₂.mem n := hm₃ n (top_ne fun hc => hvk n (by tauto) hn)
        simp [t₄, h3, t₂, t₁, hn, Ne.symm h1, Ne.symm h2]
      · exact hm₄ k (by rintro rfl; exact hab.2.1 hk) (by rintro rfl; exact hbv hk) hl
          (top_ne fun hc => hrest.2.2 k hk k (by tauto) rfl)
    · exact hm₄ k (by rintro rfl; exact hab.2.2 hk) (by rintro rfl; exact hbw hk)
        (hvk k (by tauto)) (top_ne fun hc => hrest.2.1.2.2 k hk k (by tauto) rfl)
  · rw [Ctx.toList_plug_congr ctx (Tree.toList_rotate d c' c u v w a b)]
    exact hnd
  · simp only [Ctx.mem_plug, Tree.mem_toList_branch, not_or] at hk
    exact hm₄ k hk.1.1 hk.1.2.2.1 (fun hl => hk.1.2.2.2.1 (link_eq_some hl)) (top_ne hk.2)

/-! ## Runs that keep the sequence

Both fixups repaint and rotate, and neither changes the in-order sequence. `Held t₀ L t ctx s` is
what every intermediate state of such a run satisfies: it stores a tree with the sequence `L`, and
differs from the state `t₀` the run started in only on the pages of `L`. -/

structure Held (t₀ : PageTree) (L : List Nat) (t : PageTree) (ctx : Ctx Nat) (s : Tree Nat) :
    Prop where
  hat : At t ctx s
  seq : (Ctx.plug ctx s).toList = L
  framed : Framed L t₀ t

section Held

variable {t₀ t : PageTree} {L : List Nat} {ctx : Ctx Nat} {d : Dir} {c c' : Color}
  {s u v w : Tree Nat} {a b : Nat}

theorem At.held (h : At t ctx s) : Held t (Ctx.plug ctx s).toList t ctx s :=
  ⟨h, rfl, Framed.refl _ _⟩

theorem Held.up {f : Frame Nat} (h : Held t₀ L t (f :: ctx) s) :
    Held t₀ L t ctx (Ctx.attach f s) := ⟨h.hat.up, h.seq, h.framed⟩

theorem Held.down (h : Held t₀ L t ctx (.branch d c s a u)) :
    Held t₀ L t (⟨d, c, a, u⟩ :: ctx) s := ⟨h.hat.down, h.seq, h.framed⟩

theorem Held.down_flip (h : Held t₀ L t ctx (.branch d c s a u)) :
    Held t₀ L t (⟨d.flip, c, a, s⟩ :: ctx) u :=
  Held.down ((Tree.branch_flip d c u a s).symm ▸ h)

theorem Held.whole (h : Held t₀ L t ctx s) : Held t₀ L t [] (Ctx.plug ctx s) :=
  ⟨h.hat.whole, h.seq, h.framed⟩

theorem Held.setColor (h : Held t₀ L t ctx (.branch d c s a u)) (c' : Color) :
    Held t₀ L (t.setColor (some a) c') ctx (.branch d c' s a u) := by
  refine ⟨h.hat.setColor c', ?_, h.framed.trans fun k hk => ?_⟩
  · rw [← h.seq]
    exact Ctx.toList_plug_congr ctx (by cases d <;> rfl)
  · have hne : a ≠ k := by rintro rfl; exact hk (by simp [← h.seq])
    simp [hne]

theorem Held.rotate (h : Held t₀ L t ctx (.branch d c u a (.branch d c' v b w))) :
    ∃ t', t.rotate d a = ok t' ∧ Held t₀ L t' ctx (.branch d c' (.branch d c u a v) b w) := by
  obtain ⟨t', hrun, hat, hfr⟩ := rotate_at h.hat
  refine ⟨t', hrun, hat, ?_, h.framed.trans (h.seq ▸ hfr)⟩
  rw [← h.seq]
  exact Ctx.toList_plug_congr ctx (Tree.toList_rotate d c' c u v w a b)

end Held

end PageTree
end Allora
