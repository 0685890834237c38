import Allora.Proof.PageTree.Abstract

/-!
# When a removal goes through

`delete_fixup` unwraps the two children of a sibling. Whether they are there is decided by the tree
as `delete` finds it, and `Removable n s` spells that out without running anything: look at the
place that loses a node (the page's own place, or that of its successor when the page has two
children); nothing can go wrong unless a black node with a black only child is taken out there; and
then every sibling met on the way up has to have two children, as far up as the loop climbs.

`deleteTree_eq_none_iff` is the exactness of that condition. The other fact about removal kept here
is that a root that is not red stays so.
-/

set_option autoImplicit false

namespace Allora
namespace PageTree

/-! ## The place of a page -/

/-- The search for `n` in an ordered tree, from a focus downwards. -/
def locate (n : Nat) : Ctx Nat → Tree Nat → Ctx Nat × Tree Nat
  | ctx, .nil => (ctx, .nil)
  | ctx, .node c l a r =>
      if n < a then locate n (⟨.left, c, a, r⟩ :: ctx) l
      else if a < n then locate n (⟨.right, c, a, l⟩ :: ctx) r
      else (ctx, .node c l a r)

/-- The search never leaves the tree. -/
theorem plug_locate (n : Nat) (s : Tree Nat) (ctx : Ctx Nat) :
    Ctx.plug (locate n ctx s).1 (locate n ctx s).2 = Ctx.plug ctx s := by
  induction s generalizing ctx with
  | nil => rfl
  | node c l a r ihl ihr =>
    rw [locate]
    split
    · rw [ihl]; rfl
    split
    · rw [ihr]; rfl
    · rfl

/-- In an ordered tree the search finds what is there. -/
theorem locate_mem {n : Nat} {s : Tree Nat} (hs : s.toList.Pairwise (· < ·)) (hn : n ∈ s.toList)
    (ctx : Ctx Nat) : ∃ ctx' c l r, locate n ctx s = (ctx', .node c l n r) := by
  induction s generalizing ctx with
  | nil => simp at hn
  | node c l a r ihl ihr =>
    rw [Tree.toList_node, List.pairwise_append, List.pairwise_cons] at hs
    obtain ⟨hl, ⟨har, hr⟩, hla⟩ := hs
    simp only [Tree.toList_node, List.mem_append, List.mem_cons] at hn
    rw [locate]
    rcases hn with hn | rfl | hn
    · rw [if_pos (hla n hn a (by simp))]
      exact ihl hl hn _
    · simp
    · have := har n hn
      rw [if_neg (by omega), if_pos this]
      exact ihr hr hn _

/-- `delete`, without pointers. -/
def deleteTree (n : Nat) (s : Tree Nat) : Option (Tree Nat) :=
  deleteAt (locate n [] s).1 (locate n [] s).2

/-! ## The condition -/

/-- Both children are there. -/
def full : Tree Nat → Bool
  | .node _ (.node ..) _ (.node ..) => true
  | _ => false

/-- Both children are there and black. -/
def blackBelow : Tree Nat → Bool
  | .node _ (.node .black ..) _ (.node .black ..) => true
  | _ => false

/-- Climbing from a black node, every sibling whose children `delete_fixup` unwraps has two. A red
sibling is lifted first, so it is its child next to the climb that has to have them; and the climb
goes on past a black sibling with two black children as long as the parent is black too. -/
def Fixable : Ctx Nat → Bool
  | [] => true
  | f :: ctx =>
      if f.sib.color? = some .red then full (f.sib.near f.dir)
      else full f.sib && (!blackBelow f.sib || f.color = .red || Fixable ctx)

/-- The place that loses a node when the node at the focus is removed: its path, the colour of the
node there and its only subtree. -/
def vacated (ctx : Ctx Nat) : Tree Nat → Ctx Nat × Color × Tree Nat
  | .nil => (ctx, .red, .nil)
  | .node c .nil _ r => (ctx, c, r)
  | .node c l _ .nil => (ctx, c, l)
  | .node c l n r =>
      match leftmost (⟨.right, c, n, l⟩ :: ctx) r with
      | (ctx', .node yc _ _ yr) => (ctx', yc, yr)
      | (ctx', .nil) => (ctx', .red, .nil)

/-- Removing the node at the focus does not run into a missing child. -/
def RemovableAt (ctx : Ctx Nat) (s : Tree Nat) : Bool :=
  (vacated ctx s).2.1 = .red || (vacated ctx s).2.2.color? ≠ some .black ||
    Fixable (vacated ctx s).1

/-- `delete n` does not run into a missing child. -/
def Removable (n : Nat) (s : Tree Nat) : Bool := RemovableAt (locate n [] s).1 (locate n [] s).2

/-! ## Exactness -/

theorem full_branch (d : Dir) (c : Color) (near : Tree Nat) (b : Nat) (far : Tree Nat) :
    full (.branch d c near b far) = true ↔ near ≠ .nil ∧ far ≠ .nil := by
  cases d <;> cases near <;> cases far <;> simp [Tree.branch, full]

theorem blackBelow_branch (d : Dir) (c : Color) (near : Tree Nat) (b : Nat) (far : Tree Nat) :
    blackBelow (.branch d c near b far) = true ↔
      near.color? = some .black ∧ far.color? = some .black := by
  cases d <;> rcases near with _ | ⟨_ | _, _, _, _⟩ <;> rcases far with _ | ⟨_ | _, _, _, _⟩ <;>
    simp [Tree.branch, blackBelow]

/-- A round has an answer exactly when the sibling has two children, and it says "climb" exactly
when both are black. -/
theorem rebalance_full (d : Dir) (pc : Color) (t : Tree Nat) (p : Nat) (sib : Tree Nat) :
    rebalance d pc t p sib = none ∧ full sib = false ∨
    ∃ u, rebalance d pc t p sib = some (blackBelow sib, u) ∧ full sib = true := by
  rcases rebalance_cases d pc t p sib with ⟨hn, hsib⟩ | ⟨c, near, b, far, rfl, hcase⟩
  · refine Or.inl ⟨hn, ?_⟩
    rcases hsib with rfl | ⟨c, near, b, far, rfl, hmiss⟩
    · rfl
    · rw [← Bool.not_eq_true, full_branch]
      tauto
  -- what is common to the three answers
  have hsome : ∀ {up : Bool} {u : Tree Nat}, near.color? ≠ none → far.color? ≠ none →
      (up = true ↔ near.color? = some .black ∧ far.color? = some .black) →
      rebalance d pc t p (.branch d c near b far) = some (up, u) →
      ∃ u, rebalance d pc t p (.branch d c near b far) =
        some (blackBelow (.branch d c near b far), u) ∧ full (.branch d c near b far) = true := by
    intro up u hn hf hup hr
    refine ⟨u, ?_, (full_branch ..).mpr ⟨?_, ?_⟩⟩
    · rw [hr, Bool.eq_iff_iff.mpr ((blackBelow_branch d c near b far).trans hup.symm)]
    · rintro rfl; exact hn rfl
    · rintro rfl; exact hf rfl
  refine Or.inr ?_
  rcases hcase with ⟨hn, hf⟩ | ⟨⟨u, m, v, rfl⟩, hf⟩ | ⟨hn, hf⟩
  · exact hsome (by simp [hn]) (by simp [hf]) (by simp [hn, hf])
      (rebalance_black d pc c t far near p b hn hf)
  · exact hsome (by simp) (by simp [hf]) (by simp)
      (rebalance_near d pc c t far u v p b m hf)
  · refine hsome (fun h => hn ?_) (by simp [hf]) (by simp [hf])
      (rebalance_far d pc c t far near p b hn hf)
    cases near with
    | nil => rfl
    | node => cases h

theorem deleteFix_eq_none_iff (ctx : Ctx Nat) (t : Tree Nat) :
    deleteFix ctx t = none ↔ t.color? = some .black ∧ Fixable ctx = false := by
  induction ctx generalizing t with
  | nil => rcases t with _ | ⟨_ | _, l, n, r⟩ <;> simp [deleteFix, Fixable]
  | cons f ctx ih =>
    rcases t with _ | ⟨_ | _, l, n, r⟩
    · simp [deleteFix]
    · simp [deleteFix]
    obtain ⟨d, pc, p, sib⟩ := f
    rw [Fixable]
    by_cases hred : sib.color? = some .red
    · obtain ⟨near, b, far, rfl⟩ := Tree.eq_branch_of_color? d hred
      rw [deleteFix_red, if_pos hred, Tree.near_branch]
      rcases rebalance_full d .red (.node .black l n r) p near with ⟨hr, hfull⟩ | ⟨u, hr, hfull⟩ <;>
        simp [hr, hfull]
    · rw [deleteFix_black _ _ _ _ _ _ _ hred, if_neg hred]
      rcases rebalance_full d pc (.node .black l n r) p sib with ⟨hr, hfull⟩ | ⟨u, hr, hfull⟩
      · simp [hr, hfull]
      rw [hr, hfull]
      cases hbb : blackBelow sib with
      | false => simp
      | true =>
        -- the loop climbs: the parent's colour decides whether it goes on
        obtain ⟨v, rfl⟩ := rebalance_up _ _ _ _ (hbb ▸ hr)
        have := ih (.branch d pc (.node .black l n r) p v)
        rw [Tree.color?_branch] at this
        cases pc <;> simp_all

/-- Keys play no part in the condition. -/
theorem fixable_rekey (up : Ctx Nat) (d : Dir) (c : Color) (a b : Nat) (s : Tree Nat)
    (ctx : Ctx Nat) :
    Fixable (up ++ ⟨d, c, a, s⟩ :: ctx) = Fixable (up ++ ⟨d, c, b, s⟩ :: ctx) := by
  induction up with
  | nil => rfl
  | cons f up ih => simp only [List.cons_append, Fixable, ih]

/-- Before and after splicing out, the place is the same up to the key that moved. -/
theorem spliceOut_vacated (ctx : Ctx Nat) (s : Tree Nat) :
    (spliceOut ctx s).2.1 = (vacated ctx s).2.2 ∧ (spliceOut ctx s).2.2 = (vacated ctx s).2.1 ∧
      Fixable (spliceOut ctx s).1 = Fixable (vacated ctx s).1 := by
  cases s with
  | nil => exact ⟨rfl, rfl, rfl⟩
  | node c l n r =>
    cases l with
    | nil => exact ⟨rfl, rfl, rfl⟩
    | node lc ll la lr =>
      cases r with
      | nil => exact ⟨rfl, rfl, rfl⟩
      | node rc rl ra rr =>
        obtain ⟨up, yc, y, yr, hmin, -, -⟩ := leftmost_spec (s := .node rc rl ra rr) (by simp)
        simp only [spliceOut, vacated, hmin, List.append_nil]
        exact ⟨trivial, trivial, fixable_rekey ..⟩

theorem deleteAt_eq_none_iff (ctx : Ctx Nat) (s : Tree Nat) :
    deleteAt ctx s = none ↔ RemovableAt ctx s = false := by
  obtain ⟨hx, hc, hf⟩ := spliceOut_vacated ctx s
  rw [deleteAt, RemovableAt, ← hx, ← hc, ← hf]
  obtain ⟨ctx', x, c⟩ := spliceOut ctx s
  cases c with
  | red => simp
  | black => simp [deleteFix_eq_none_iff]

/-- **The condition is exact**: `delete` has no result just where a child is missing. -/
theorem deleteTree_eq_none_iff (n : Nat) (s : Tree Nat) :
    deleteTree n s = none ↔ Removable n s = false :=
  deleteAt_eq_none_iff _ _

/-! ## The root is not red -/

theorem rootColor?_cons (f : Frame Nat) (ctx : Ctx Nat) :
    Ctx.rootColor? (f :: ctx) = (Ctx.rootColor? ctx).or (some f.color) := by
  simp only [Ctx.rootColor?, List.getLast?_cons]
  cases ctx.getLast? <;> rfl

theorem rootColor?_tail {f : Frame Nat} {ctx : Ctx Nat}
    (h : Ctx.rootColor? (f :: ctx) ≠ some .red) : Ctx.rootColor? ctx ≠ some .red := by
  rw [rootColor?_cons] at h
  cases hc : Ctx.rootColor? ctx with
  | none => simp
  | some c => simpa [hc] using h

theorem rootColor?_append (up : Ctx Nat) (f : Frame Nat) (ctx : Ctx Nat) :
    Ctx.rootColor? (up ++ f :: ctx) = Ctx.rootColor? (f :: ctx) := by
  simp only [Ctx.rootColor?]
  rw [List.getLast?_append_of_ne_nil _ (by simp)]

theorem paint_black_root (t : Tree Nat) : (t.paint .black).color? ≠ some .red := by
  cases t <;> simp

theorem deleteFix_root {ctx : Ctx Nat} {t s' : Tree Nat} (hr : Ctx.rootColor? ctx ≠ some .red)
    (h : deleteFix ctx t = some s') : s'.color? ≠ some .red := by
  induction ctx generalizing t with
  | nil => rcases t with _ | ⟨_ | _, l, n, r⟩ <;> cases h <;> simp
  | cons f ctx ih =>
    -- below an ancestor the focus does not show at the root
    have hplug : ∀ (f' : Frame Nat) (u : Tree Nat),
        (f'.color = .red → f'.color = f.color) →
        (Ctx.plug (f' :: ctx) u).color? ≠ some .red := by
      intro f' u hf' hu
      rw [Ctx.color?_plug, rootColor?_cons] at hu
      rw [rootColor?_cons] at hr
      cases hc : Ctx.rootColor? ctx with
      | none =>
        rw [hc] at hu hr
        simp only [Option.none_or, Option.some_or, Option.some.injEq] at hu hr
        exact hr (by rw [← hf' hu, hu])
      | some c => rw [hc] at hu hr; exact hr hu
    rcases t with _ | ⟨_ | _, l, n, r⟩
    · cases h
      exact hplug f _ fun _ => rfl
    · cases h
      exact hplug f _ fun _ => rfl
    obtain ⟨d, pc, p, sib⟩ := f
    by_cases hred : sib.color? = some .red
    · obtain ⟨near, b, far, rfl⟩ := Tree.eq_branch_of_color? d hred
      rw [deleteFix_red, Option.map_eq_some_iff] at h
      obtain ⟨⟨up, u⟩, -, rfl⟩ := h
      cases up
      · exact paint_black_root _
      · exact hplug ⟨d, .black, b, far⟩ _ (by simp)
    · rw [deleteFix_black _ _ _ _ _ _ _ hred, Option.bind_eq_some_iff] at h
      obtain ⟨⟨up, u⟩, -, hu⟩ := h
      cases up
      · cases hu
        exact paint_black_root _
      · exact ih (rootColor?_tail hr) hu

theorem deleteAt_root {ctx : Ctx Nat} {c : Color} {l r s' : Tree Nat} {n : Nat}
    (hr : (Ctx.plug ctx (.node c l n r)).color? ≠ some .red)
    (h : deleteAt ctx (.node c l n r) = some s') : s'.color? ≠ some .red := by
  rw [Ctx.color?_plug] at hr
  have hctx : Ctx.rootColor? ctx ≠ some .red := by
    cases hc : Ctx.rootColor? ctx with
    | none => simp
    | some c => simpa [hc] using hr
  -- one subtree moves up
  have hone : ∀ x : Tree Nat, spliceOut ctx (.node c l n r) = (ctx, x, c) →
      s'.color? ≠ some .red := by
    intro x hs
    rw [deleteAt, hs] at h
    cases c with
    | black => exact deleteFix_root hctx h
    | red =>
      cases h
      rw [Ctx.color?_plug]
      cases hc : Ctx.rootColor? ctx with
      | none => simp [hc] at hr
      | some c => simpa [hc] using hctx
  cases l with
  | nil => exact hone r rfl
  | node lc ll la lr =>
    cases r with
    | nil => exact hone _ rfl
    | node rc rl ra rr =>
      obtain ⟨up, yc, y, yr, hmin, -, -⟩ := leftmost_spec (s := .node rc rl ra rr) (by simp)
      have hs : spliceOut ctx (.node c (.node lc ll la lr) n (.node rc rl ra rr)) =
          (up ++ ⟨.right, c, y, .node lc ll la lr⟩ :: ctx, yr, yc) := by
        simp [spliceOut, hmin]
      have hroot : Ctx.rootColor? (up ++ ⟨.right, c, y, .node lc ll la lr⟩ :: ctx) ≠ some .red := by
        rw [rootColor?_append, rootColor?_cons]
        exact hr
      rw [deleteAt, hs] at h
      cases yc with
      | black => exact deleteFix_root hroot h
      | red =>
        cases h
        rw [Ctx.color?_plug, rootColor?_append, rootColor?_cons]
        rw [rootColor?_append, rootColor?_cons] at hroot
        cases hc : Ctx.rootColor? ctx with
        | none => rw [hc] at hroot; exact hroot
        | some c' => rw [hc] at hroot; exact hroot

end PageTree
end Allora
