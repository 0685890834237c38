import Allora.Proof.PageTree.InsertFixup

/-!
# `insert` computes `insertTree`

The descent finds the empty place `hole n` names; the new node is written there; `insert_fixup`
does the rest. Two facts about the abstract side come first: the place is the right one for the
order, and `insertFix` has a result whenever the root is not red.
-/

set_option autoImplicit false

namespace Allora
namespace PageTree

open Outcome

/-! ## The place of a new key -/

theorem plug_hole (n : Nat) (s : Tree Nat) (ctx : Ctx Nat) :
    Ctx.plug (hole n ctx s) .nil = Ctx.plug ctx s := by
  induction s generalizing ctx with
  | nil => rfl
  | node c l a r ihl ihr =>
    rw [hole]
    split
    · rw [ihl]; rfl
    · rw [ihr]; rfl

/-- Every turn of the descent is taken by comparing with the key of the ancestor. -/
theorem hole_dir {n : Nat} {s : Tree Nat} (ctx : Ctx Nat)
    (h : ∀ f ∈ ctx, f.dir = if n < f.key then .left else .right) :
    ∀ f ∈ hole n ctx s, f.dir = if n < f.key then .left else .right := by
  induction s generalizing ctx with
  | nil => exact h
  | node c l a r ihl ihr =>
    rw [hole]
    split
    · rename_i hlt
      refine ihl _ fun f hf => ?_
      rcases List.mem_cons.mp hf with rfl | hf
      · rw [if_pos hlt]
      · exact h f hf
    · rename_i hlt
      refine ihr _ fun f hf => ?_
      rcases List.mem_cons.mp hf with rfl | hf
      · rw [if_neg hlt]
      · exact h f hf

/-- In an ordered tree without `n`, what lies before the place is smaller and what lies after it is
larger. -/
theorem hole_between {n : Nat} {s : Tree Nat} (ctx : Ctx Nat)
    (hs : (Ctx.plug ctx s).toList.Pairwise (· < ·)) (hn : n ∉ s.toList)
    (hb : ∀ k ∈ Ctx.before ctx, k < n) (ha : ∀ k ∈ Ctx.after ctx, n < k) :
    (∀ k ∈ Ctx.before (hole n ctx s), k < n) ∧ (∀ k ∈ Ctx.after (hole n ctx s), n < k) := by
  induction s generalizing ctx with
  | nil => exact ⟨hb, ha⟩
  | node c l a r ihl ihr =>
    have hsorted := hs
    rw [Ctx.toList_plug, List.pairwise_append] at hsorted
    obtain ⟨-, hmid, -⟩ := hsorted
    rw [List.pairwise_append] at hmid
    obtain ⟨hnode, -, -⟩ := hmid
    rw [Tree.toList_node, List.pairwise_append] at hnode
    obtain ⟨-, hr, hl⟩ := hnode
    rw [List.pairwise_cons] at hr
    simp only [Tree.toList_node, List.mem_append, List.mem_cons, not_or] at hn
    rw [hole]
    split
    · rename_i hlt
      refine ihl (⟨.left, c, a, r⟩ :: ctx) hs hn.1 hb fun k hk => ?_
      simp only [Ctx.after, List.cons_append, List.mem_cons, List.mem_append] at hk
      rcases hk with rfl | hk | hk
      · exact hlt
      · exact hlt.trans (hr.1 k hk)
      · exact ha k hk
    · rename_i hlt
      have hgt : a < n := by omega
      refine ihr (⟨.right, c, a, l⟩ :: ctx) hs hn.2.2 (fun k hk => ?_) ha
      simp only [Ctx.before, List.mem_append, List.mem_singleton] at hk
      rcases hk with hk | hk | rfl
      · exact hb k hk
      · exact (hl k hk a (by simp)).trans hgt
      · exact hgt

/-- The sequence with the new key: it goes between the smaller and the larger ones. -/
theorem insert_seq {n : Nat} {s : Tree Nat} (hs : s.toList.Pairwise (· < ·)) (hn : n ∉ s.toList) :
    ∃ A B, s.toList = A ++ B ∧
      (Ctx.plug (hole n [] s) (.node .red .nil n .nil)).toList = A ++ n :: B ∧
      (∀ k ∈ A, k < n) ∧ (∀ k ∈ B, n < k) := by
  obtain ⟨hb, ha⟩ := hole_between [] hs hn (by simp [Ctx.before]) (by simp [Ctx.after])
  refine ⟨_, _, ?_, ?_, hb, ha⟩
  · have := congrArg Tree.toList (plug_hole n s [])
    rw [Ctx.toList_plug] at this
    exact this.symm
  · rw [Ctx.toList_plug]
    rfl

/-! ## `insertFix` has a result below a root that is not red -/

theorem insertFix_isSome : ∀ (ctx : Ctx Nat) {t : Tree Nat}, t ≠ .nil →
    Ctx.rootColor? ctx ≠ some .red → ∃ t', insertFix ctx t = some t'
  | [], t, _, _ => ⟨t, rfl⟩
  | [p], t, _, hr => by
    have hp : p.color = .black := by
      cases hc : p.color with
      | black => rfl
      | red => exact absurd (by simp [Ctx.rootColor?, hc]) hr
    exact ⟨_, by rw [insertFix, if_pos hp]⟩
  | p :: g :: ctx, t, ht, hr => by
    unfold insertFix
    split
    · exact ⟨_, rfl⟩
    split
    · refine insertFix_isSome ctx (Tree.branch_ne_nil _ _ _ _ _) fun hc => hr ?_
      cases ctx with
      | nil => cases hc
      | cons f ctx => simpa [Ctx.rootColor?] using hc
    split
    · exact ⟨_, rfl⟩
    · cases t with
      | nil => exact absurd rfl ht
      | node c l x r => exact ⟨_, rfl⟩

/-! ## The pointer code -/

theorem insertDescend_at {t : PageTree} {n : Nat} :
    ∀ {s : Tree Nat} {ctx : Ctx Nat} {fuel : Nat}, At t ctx s → s.toList.length < fuel →
      t.insertDescend n fuel (link s) (top ctx) = ok (top (hole n ctx s)) ∧
        At t (hole n ctx s) .nil := by
  intro s
  induction s with
  | nil =>
    intro ctx fuel h hf
    obtain ⟨fuel, rfl⟩ : ∃ k, fuel = k + 1 := ⟨fuel - 1, by omega⟩
    exact ⟨rfl, h⟩
  | node c l a r ihl ihr =>
    intro ctx fuel h hf
    obtain ⟨fuel, rfl⟩ : ∃ k, fuel = k + 1 := ⟨fuel - 1, by omega⟩
    simp only [Tree.toList_node, List.length_append, List.length_cons] at hf
    have hnode : t.node (some a) = some ⟨a, top ctx, link l, link r, c⟩ := by
      rw [node, Option.map_some, h.stored.1]
    rw [link_node, insertDescend, hnode, hole]
    simp only
    split
    · exact ihl (h.down (d := .left)) (by omega)
    · exact ihr (h.down_flip (d := .left)) (by omega)

/-- Writing a new leaf into an empty place. -/
theorem leaf_at {t : PageTree} {ctx : Ctx Nat} {n : Nat} (h : At t ctx .nil)
    (hn : n ∉ Ctx.keys ctx) (hdir : ∀ f ∈ ctx, f.dir = if n < f.key then Dir.left else .right) :
    At (t.writeLeaf n (top ctx)) ctx (.node .red .nil n .nil) ∧
      Framed (n :: Ctx.keys ctx) t (t.writeLeaf n (top ctx)) := by
  let t₁ : PageTree := { t with mem := Function.update t.mem n ⟨n, top ctx, none, none, .red⟩ }
  have hm₁ : ∀ k, k ≠ n → t₁.mem k = t.mem k := fun k hk => by simp [t₁, hk]
  have hn₁ : t₁.mem n = ⟨n, top ctx, none, none, .red⟩ := by simp [t₁]
  have hnd : (Ctx.plug ctx (.node .red .nil n .nil)).toList.Nodup := by
    have := (Ctx.plug_perm ctx .nil).nodup_iff.mp h.nodup
    refine (Ctx.plug_perm ctx _).nodup_iff.mpr ?_
    simpa using ⟨hn, by simpa using this⟩
  cases ctx with
  | nil =>
    refine ⟨⟨rfl, ⟨hn₁, trivial, trivial⟩, hnd⟩, fun k hk => hm₁ k ?_⟩
    rintro rfl
    exact hk (by simp)
  | cons f ctx =>
    obtain ⟨d, c, p, u⟩ := f
    obtain ⟨hp, hu, hr⟩ := h.around
    simp only [Ctx.keys_cons, List.mem_cons, List.mem_append, not_or] at hn
    have hp₁ : t₁.mem p = cell d p (top ctx) none (link u) c := (hm₁ p (Ne.symm hn.1)).trans hp
    have hd : d = if n < p then Dir.left else .right := hdir ⟨d, c, p, u⟩ List.mem_cons_self
    -- the comparison of `insert` picks the side the descent took
    have ht₂ : t.writeLeaf n (some p) = t₁.setChild d (some p) (some n) := by
      have hkey : (t₁.mem p).n = p := by rw [hp₁, cell_n]
      have hw : t.writeLeaf n (some p) = if n < (t₁.mem p).n then
          t₁.setChild .left (some p) (some n) else t₁.setChild .right (some p) (some n) := rfl
      rw [hw, hkey, hd]
      split <;> rfl
    have hndk := (Ctx.plug_perm _ _).nodup_iff.mp h.nodup
    simp only [Tree.toList_nil, List.nil_append, Ctx.keys_cons, List.nodup_cons, List.mem_append,
      not_or] at hndk
    rw [top_cons, ht₂]
    have hm₂ : ∀ k, k ≠ n → k ≠ p → (t₁.setChild d (some p) (some n)).mem k = t.mem k := by
      intro k hk1 hk2
      simp [Ne.symm hk2, hm₁ k hk1]
    refine ⟨⟨⟨?_, hu.congr fun k hk => hm₂ k ?_ ?_, ?_⟩, ⟨?_, trivial, trivial⟩, hnd⟩,
      fun k hk => ?_⟩
    · simp [hp₁]
    · rintro rfl; exact hn.2.1 hk
    · rintro rfl; exact hndk.1.1 hk
    · rw [setChild_root]
      refine hr.congr fun k hk => hm₂ k ?_ ?_
      · rintro rfl; exact hn.2.2 hk
      · rintro rfl; exact hndk.1.2 hk
    · simp [Ne.symm hn.1, hn₁]
    · simp only [Ctx.keys_cons, List.mem_cons, not_or] at hk
      exact hm₂ k hk.1 hk.2.1

/-- **`insert` computes `insertTree`**, and returns whenever the root is not red. -/
theorem insert_at {t : PageTree} {s : Tree Nat} {n fuel : Nat} (h : At t [] s)
    (hn : n ∉ s.toList) (hroot : s.color? ≠ some .red) (hf : s.toList.length + 1 < fuel) :
    ∃ t' s', t.insert fuel n = ok t' ∧ insertTree n s = some s' ∧ At t' [] s' ∧
      s'.toList = (Ctx.plug (hole n [] s) (.node .red .nil n .nil)).toList ∧
      Framed (n :: s.toList) t t' := by
  have hplug : Ctx.plug (hole n [] s) .nil = s := plug_hole n s []
  obtain ⟨hdesc, hat⟩ := insertDescend_at (n := n) h (show _ < fuel by omega)
  have hkeys : ∀ k, k ∈ Ctx.keys (hole n [] s) ↔ k ∈ s.toList := by
    intro k
    have : k ∈ (Ctx.plug (hole n [] s) .nil).toList ↔ k ∈ s.toList := by rw [hplug]
    simpa using this
  obtain ⟨hleaf, hfr⟩ := leaf_at hat (fun hm => hn ((hkeys n).mp hm))
    (hole_dir [] (by simp))
  have hlen : (hole n [] s).length < fuel := by
    have := Ctx.length_le_toList_plug (hole n [] s) .nil
    rw [hplug] at this
    simp only [Tree.toList_nil, List.length_nil] at this
    omega
  obtain ⟨s', hs'⟩ : ∃ s', insertFix (hole n [] s) (.node .red .nil n .nil) = some s' := by
    refine insertFix_isSome _ (by simp) fun hc => hroot ?_
    rw [← hplug, Ctx.color?_plug, hc]
    rfl
  obtain ⟨t', hrun, hheld⟩ := insertFixup_held _ hleaf.held (link_node ..) hlen hs'
  refine ⟨t', s'.paint .black, ?_, by rw [insertTree, hs']; rfl, hheld.hat, hheld.seq, ?_⟩
  · have hdesc' : t.insertDescend n fuel t.root none = ok (top (hole n [] s)) := by
      rw [show t.root = link s from h.around]
      exact hdesc
    rw [insert, hdesc', ok_bind]
    exact hrun
  · refine (hfr.mono fun k hk => ?_).trans (hheld.framed.mono fun k hk => ?_)
    · rw [List.mem_cons, hkeys] at hk
      exact List.mem_cons.mpr hk
    · rw [Ctx.mem_plug, hkeys] at hk
      simpa using hk

end PageTree
end Allora
