import Allora.Proof.PageTree.Runs

/-!
# Colours and black heights

The red-black half of the page tree. No operation ever lets two red nodes meet (`insertTree_colors`,
`deleteTree_colors`), along every run and whatever the black heights are; that is what `insert`
rests on when it unwraps the parent of a red parent. `insert` also keeps equal black heights.

`delete` does not. In a red-black tree the node that leaves its place has at most one child, a red
one, so `delete_fixup` never has to climb: either it paints that child black, or there is nothing at
the place and it does nothing. The second is wrong when the node was black, and `KeepsBalance` is
the exact condition.
-/

set_option autoImplicit false

namespace Allora
namespace PageTree

open Outcome

/-- What a red-black tree is, apart from its order. -/
structure RedBlack (s : Tree Nat) : Prop where
  root : s.color? ≠ some .red
  noRedRed : s.NoRedRed
  balanced : s.Balanced

/-! ## `insert` -/

/-- A red node that is not black. -/
theorem eq_red_of_ne {c : Color} (h : ¬ c = .black) : c = .red := by
  cases c with
  | red => rfl
  | black => exact absurd rfl h

/-- The children of a red root. -/
theorem near_color_ne {t : Tree Nat} (hred : t.color? = some .red) (ht : t.NoRedRed) (d : Dir) :
    (t.near d).color? ≠ some .red ∧ (t.near d).NoRedRed := by
  obtain ⟨near, a, far, rfl⟩ := Tree.eq_branch_of_color? d hred
  rw [Tree.noRedRed_branch] at ht
  rw [Tree.near_branch]
  exact ⟨(ht.1 rfl).1, ht.2.1⟩

/-- The loop repairs the one edge at which two red nodes may meet, above its focus. -/
theorem insertFix_colors {ctx : Ctx Nat} {t u : Tree Nat} (h : insertFix ctx t = some u)
    (hred : t.color? = some .red) (ht : t.NoRedRed) (hctx : Ctx.NoRedRed ctx) :
    (u.paint .black).NoRedRed := by
  induction ctx, t using insertFix.induct generalizing u with
  | case1 t =>
    cases h
    exact ht.paint_black
  | case2 p t hp =>
    simp only [insertFix, if_pos hp] at h
    cases h
    refine Tree.NoRedRed.paint_black ((Ctx.noRedRed_plug _ _).mpr ⟨ht, hctx, fun hc => ?_⟩)
    rw [Ctx.color?, hp] at hc
    cases hc
  | case3 p t hp =>
    simp only [insertFix, if_neg hp] at h
    cases h
  | case4 p g ctx t hp =>
    simp only [insertFix, if_pos hp] at h
    cases h
    refine Tree.NoRedRed.paint_black ((Ctx.noRedRed_plug _ _).mpr ⟨ht, hctx, fun hc => ?_⟩)
    rw [Ctx.color?, hp] at hc
    cases hc
  | case5 p g ctx t hp huncle ih =>
    simp only [insertFix, if_neg hp, if_pos huncle] at h
    obtain ⟨-, hps, -, hgs, hrest⟩ := hctx
    refine ih h (Tree.color?_branch ..) (Tree.noRedRed_branch.mpr ⟨fun _ => ?_, ?_, ?_⟩) hrest
    · exact ⟨by simp, paint_black_root _⟩
    · exact Tree.noRedRed_branch.mpr ⟨by simp, ht, hps⟩
    · exact hgs.paint_black
  | case6 p g ctx t hp huncle hdir =>
    simp only [insertFix, if_neg hp, if_neg huncle, if_pos hdir] at h
    cases h
    obtain ⟨hpc, hps, -, hgs, hrest⟩ := hctx
    refine Tree.NoRedRed.paint_black ((Ctx.noRedRed_plug _ _).mpr ⟨?_, hrest, by simp⟩)
    refine Tree.noRedRed_branch.mpr ⟨by simp, ht, Tree.noRedRed_branch.mpr ⟨fun _ => ?_, hps, hgs⟩⟩
    exact ⟨(hpc (eq_red_of_ne hp)).1, huncle⟩
  | case7 p g ctx hp huncle hdir => cases hred
  | case8 p g ctx hp huncle hdir c l x r =>
    simp only [insertFix, if_neg hp, if_neg huncle, if_neg hdir] at h
    cases h
    obtain ⟨hpc, hps, -, hgs, hrest⟩ := hctx
    have hnear := near_color_ne hred ht g.dir
    have hfar := near_color_ne hred ht g.dir.flip
    refine Tree.NoRedRed.paint_black ((Ctx.noRedRed_plug _ _).mpr ⟨?_, hrest, by simp⟩)
    refine Tree.noRedRed_branch.mpr ⟨by simp, Tree.noRedRed_branch.mpr ⟨fun _ => ?_, hps, hnear.2⟩,
      Tree.noRedRed_branch.mpr ⟨fun _ => ⟨hfar.1, huncle⟩, hfar.2, hgs⟩⟩
    exact ⟨(hpc (eq_red_of_ne hp)).1, hnear.1⟩

/-- The children of a red root are as high as it is. -/
theorem near_blackHeight {t : Tree Nat} {k : Nat} (hred : t.color? = some .red)
    (ht : t.BlackHeight k) (d : Dir) : (t.near d).BlackHeight k := by
  obtain ⟨near, a, far, rfl⟩ := Tree.eq_branch_of_color? d hred
  obtain ⟨k', hk, hnear, -⟩ := Tree.blackHeight_branch.mp ht
  rw [Tree.near_branch]
  exact hk ▸ hnear

/-- A red parent has a black parent: what the loop expects around the two of them. -/
theorem expects_red {p g : Frame Nat} {ctx : Ctx Nat} {k : Nat} (hp : ¬ p.color = .black)
    (hcol : Ctx.NoRedRed (p :: g :: ctx)) (h : Ctx.Expects (p :: g :: ctx) k) :
    p.sib.BlackHeight k ∧ g.sib.BlackHeight k ∧ Ctx.Expects ctx (k + 1) := by
  have hred := eq_red_of_ne hp
  have hg : g.color = .black := by
    have hne := (hcol.1 hred).2
    cases hc : g.color with
    | red => exact absurd (congrArg some hc) hne
    | black => rfl
  obtain ⟨hps, hgs, hrest⟩ := h
  rw [hred] at hgs hrest
  rw [hg] at hrest
  exact ⟨hps, hgs, hrest⟩

/-- The loop leaves every path with the black nodes it had. -/
theorem insertFix_balanced {ctx : Ctx Nat} {t u : Tree Nat} {k : Nat}
    (h : insertFix ctx t = some u) (hred : t.color? = some .red) (ht : t.BlackHeight k)
    (hcol : Ctx.NoRedRed ctx) (hctx : Ctx.Expects ctx k) : u.Balanced := by
  induction ctx, t using insertFix.induct generalizing u k with
  | case1 t =>
    cases h
    exact ⟨k, ht⟩
  | case2 p t hp =>
    simp only [insertFix, if_pos hp] at h
    cases h
    exact (Ctx.balanced_plug _ _).mpr ⟨k, ht, hctx⟩
  | case3 p t hp =>
    simp only [insertFix, if_neg hp] at h
    cases h
  | case4 p g ctx t hp =>
    simp only [insertFix, if_pos hp] at h
    cases h
    exact (Ctx.balanced_plug _ _).mpr ⟨k, ht, hctx⟩
  | case5 p g ctx t hp huncle ih =>
    simp only [insertFix, if_neg hp, if_pos huncle] at h
    obtain ⟨hps, hgs, hrest⟩ := expects_red hp hcol hctx
    refine ih h (Tree.color?_branch ..) (Tree.blackHeight_branch.mpr ⟨k + 1, rfl, ?_, ?_⟩)
      hcol.2.2.2.2 hrest
    · exact Tree.blackHeight_branch.mpr ⟨k, rfl, ht, hps⟩
    · exact hgs.paint_black huncle
  | case6 p g ctx t hp huncle hdir =>
    simp only [insertFix, if_neg hp, if_neg huncle, if_pos hdir] at h
    cases h
    obtain ⟨hps, hgs, hrest⟩ := expects_red hp hcol hctx
    refine (Ctx.balanced_plug _ _).mpr ⟨k + 1, Tree.blackHeight_branch.mpr ⟨k, rfl, ht, ?_⟩, hrest⟩
    exact Tree.blackHeight_branch.mpr ⟨k, rfl, hps, hgs⟩
  | case7 p g ctx hp huncle hdir => cases hred
  | case8 p g ctx hp huncle hdir c l x r =>
    simp only [insertFix, if_neg hp, if_neg huncle, if_neg hdir] at h
    cases h
    obtain ⟨hps, hgs, hrest⟩ := expects_red hp hcol hctx
    have hnear := near_blackHeight hred ht g.dir
    have hfar := near_blackHeight hred ht g.dir.flip
    refine (Ctx.balanced_plug _ _).mpr ⟨k + 1, Tree.blackHeight_branch.mpr ⟨k, rfl, ?_, ?_⟩, hrest⟩
    · exact Tree.blackHeight_branch.mpr ⟨k, rfl, hps, hnear⟩
    · exact Tree.blackHeight_branch.mpr ⟨k, rfl, hfar, hgs⟩

/-- **`insert` lets no two red nodes meet, and keeps equal black heights.** -/
theorem insertTree_colors {n : Nat} {s s' : Tree Nat} (h : insertTree n s = some s')
    (hs : s.NoRedRed) : s'.NoRedRed ∧ (s.Balanced → s'.Balanced) := by
  rw [insertTree, Option.map_eq_some_iff] at h
  obtain ⟨u, hu, rfl⟩ := h
  have hplug := plug_hole n s []
  rw [Ctx.plug_nil] at hplug
  have hhole := hplug ▸ hs
  have hcol := ((Ctx.noRedRed_plug _ _).mp hhole).2.1
  refine ⟨insertFix_colors hu rfl (by simp [Tree.NoRedRed]) hcol, fun hb => ?_⟩
  rw [← hplug, Ctx.balanced_plug] at hb
  obtain ⟨k, hk, hexp⟩ := hb
  rw [Tree.blackHeight_nil] at hk
  subst hk
  exact (insertFix_balanced hu rfl ⟨0, rfl, rfl, rfl⟩ hcol hexp).paint .black

/-! ## `delete` -/

/-- A round keeps red nodes apart below the parent, which keeps its colour; the parent itself may
meet a red sibling only when the loop climbs. -/
theorem rebalance_colors {d : Dir} {pc : Color} {t sib u : Tree Nat} {p : Nat} {up : Bool}
    (h : rebalance d pc t p sib = some (up, u)) (ht : t.NoRedRed) (hs : sib.NoRedRed) :
    u.color? = some pc ∧ (u.paint .black).NoRedRed ∧ (up = false → u.NoRedRed) := by
  rcases rebalance_cases d pc t p sib with ⟨hn, -⟩ | ⟨c, near, b, far, rfl, hcase⟩
  · rw [hn] at h
    cases h
  rw [Tree.noRedRed_branch] at hs
  obtain ⟨-, hnear, hfar⟩ := hs
  rcases hcase with ⟨hn, hf⟩ | ⟨⟨v, m, w, rfl⟩, hf⟩ | ⟨hn, hf⟩
  · rw [rebalance_black d pc c t far near p b hn hf] at h
    cases h
    refine ⟨Tree.color?_branch .., ?_, fun hup => by cases hup⟩
    rw [Tree.paint_branch, Tree.noRedRed_branch, Tree.noRedRed_branch]
    exact ⟨by simp, ht, by simp [hn, hf], hnear, hfar⟩
  · rw [rebalance_near d pc c t far v w p b m hf] at h
    cases h
    rw [Tree.noRedRed_branch] at hnear
    have hu : (Tree.branch d pc (.branch d .black t p v) m (.branch d .black w b far)).NoRedRed := by
      rw [Tree.noRedRed_branch, Tree.noRedRed_branch, Tree.noRedRed_branch]
      exact ⟨by simp, ⟨by simp, ht, hnear.2.1⟩, by simp, hnear.2.2, hfar⟩
    exact ⟨Tree.color?_branch .., hu.paint_black, fun _ => hu⟩
  · rw [rebalance_far d pc c t far near p b hn hf] at h
    cases h
    have hu : (Tree.branch d pc (.branch d .black t p near) b (far.paint .black)).NoRedRed := by
      rw [Tree.noRedRed_branch, Tree.noRedRed_branch]
      exact ⟨by simp [paint_black_root], ⟨by simp, ht, hnear⟩, hfar.paint_black⟩
    exact ⟨Tree.color?_branch .., hu.paint_black, fun _ => hu⟩

/-- The loop keeps red nodes apart; its focus may be red and sit below a red parent. -/
theorem deleteFix_colors {ctx : Ctx Nat} {t s' : Tree Nat} (h : deleteFix ctx t = some s')
    (ht : (t.paint .black).NoRedRed) (hctx : Ctx.NoRedRed ctx) : s'.NoRedRed := by
  induction ctx generalizing t with
  | nil =>
    rcases t with _ | ⟨_ | _, l, n, r⟩ <;> cases h
    · exact ht
    · exact ht
    · exact ht
  | cons f ctx ih =>
    rcases t with _ | ⟨_ | _, l, n, r⟩
    · cases h
      exact (Ctx.noRedRed_plug _ _).mpr ⟨trivial, hctx, by simp⟩
    · cases h
      exact (Ctx.noRedRed_plug _ _).mpr ⟨ht, hctx, by simp⟩
    obtain ⟨d, pc, p, sib⟩ := f
    obtain ⟨hpc, hsib, hrest⟩ := hctx
    by_cases hred : sib.color? = some .red
    · obtain ⟨near, b, far, rfl⟩ := Tree.eq_branch_of_color? d hred
      rw [Tree.noRedRed_branch] at hsib
      rw [deleteFix_red, Option.map_eq_some_iff] at h
      obtain ⟨⟨up, u⟩, hu, rfl⟩ := h
      obtain ⟨-, hblack, hkeep⟩ := rebalance_colors hu ht hsib.2.1
      have hctx' : Ctx.NoRedRed (⟨d, .black, b, far⟩ :: ctx) := ⟨by simp, hsib.2.2, hrest⟩
      cases up with
      | true => exact (Ctx.noRedRed_plug _ _).mpr ⟨hblack, hctx', by simp [Ctx.color?]⟩
      | false =>
        refine Tree.NoRedRed.paint_black ?_
        exact (Ctx.noRedRed_plug _ _).mpr ⟨hkeep rfl, hctx', by simp [Ctx.color?]⟩
    · rw [deleteFix_black _ _ _ _ _ _ _ hred, Option.bind_eq_some_iff] at h
      obtain ⟨⟨up, u⟩, hu, h⟩ := h
      obtain ⟨hcol, hblack, hkeep⟩ := rebalance_colors hu ht hsib
      cases up with
      | true => exact ih h hblack hrest
      | false =>
        cases h
        refine Tree.NoRedRed.paint_black ((Ctx.noRedRed_plug _ _).mpr ⟨hkeep rfl, hrest, ?_⟩)
        intro hc hu'
        rw [hcol] at hu'
        cases hu'
        exact (hpc rfl).2 hc

/-- The place that loses a node, in the tree before: a node there with one missing child. -/
theorem plug_vacated (ctx : Ctx Nat) (c : Color) (l : Tree Nat) (n : Nat) (r : Tree Nat) :
    ∃ d y, Ctx.plug (vacated ctx (.node c l n r)).1
        (.branch d (vacated ctx (.node c l n r)).2.1 .nil y (vacated ctx (.node c l n r)).2.2) =
      Ctx.plug ctx (.node c l n r) := by
  cases l with
  | nil => exact ⟨.left, n, rfl⟩
  | node lc ll la lr =>
    cases r with
    | nil => exact ⟨.right, n, rfl⟩
    | node rc rl ra rr =>
      obtain ⟨up, yc, y, yr, hmin, hplug, -⟩ := leftmost_spec (s := .node rc rl ra rr) (by simp)
      refine ⟨.left, y, ?_⟩
      simp only [vacated, hmin]
      rw [Ctx.plug_append, show Tree.branch .left yc .nil y yr = .node yc .nil y yr from rfl,
        ← hplug]
      rfl

theorem spliceOut_shape (ctx : Ctx Nat) (s : Tree Nat) :
    Ctx.shape (vacated ctx s).1 = Ctx.shape (spliceOut ctx s).1 := by
  cases s with
  | nil => rfl
  | node c l n r =>
    cases l with
    | nil => rfl
    | node lc ll la lr =>
      cases r with
      | nil => rfl
      | node rc rl ra rr =>
        obtain ⟨up, yc, y, yr, hmin, -, -⟩ := leftmost_spec (s := .node rc rl ra rr) (by simp)
        simp only [spliceOut, vacated, hmin, List.append_nil]
        exact Ctx.shape_rekey ..

/-- **`delete` lets no two red nodes meet**, whatever the black heights. -/
theorem deleteTree_colors {n : Nat} {s s' : Tree Nat} (hsort : s.toList.Pairwise (· < ·))
    (hn : n ∈ s.toList) (h : deleteTree n s = some s') (hs : s.NoRedRed) : s'.NoRedRed := by
  obtain ⟨ctx, c, l, r, hloc⟩ := locate_mem hsort hn []
  have hplug := plug_locate n s []
  replace h : deleteAt ctx (.node c l n r) = some s' := by rwa [deleteTree, hloc] at h
  rw [hloc] at hplug
  obtain ⟨d, y, hvac⟩ := plug_vacated ctx c l n r
  rw [← hplug.trans (Ctx.plug_nil s), ← hvac, Ctx.noRedRed_plug, Tree.noRedRed_branch] at hs
  obtain ⟨⟨hchild, -, hx⟩, hctx, -⟩ := hs
  have hctx' := Ctx.noRedRed_congr (spliceOut_shape ctx (.node c l n r)) hctx
  obtain ⟨hxeq, hceq, -⟩ := spliceOut_vacated ctx (.node c l n r)
  rw [← hxeq] at hx hchild
  rw [← hceq] at hchild
  rw [deleteAt] at h
  generalize spliceOut ctx (.node c l n r) = sp at h hx hchild hctx'
  obtain ⟨ctx', x, c'⟩ := sp
  cases c' with
  | black => exact deleteFix_colors h hx.paint_black hctx'
  | red =>
    cases h
    exact (Ctx.noRedRed_plug _ _).mpr ⟨hx, hctx', fun _ => (hchild rfl).2⟩

/-! ## Runs -/

theorem deleteTrees_colors {ns : List Nat} {t : PageTree} {s s' : Tree Nat} (hh : Holds t s)
    (hnd : ns.Nodup) (hns : ∀ n ∈ ns, n ∈ s.toList) (h : deleteTrees ns s = some s')
    (hs : s.NoRedRed) : s'.NoRedRed := by
  induction ns generalizing t s with
  | nil =>
    cases h
    exact hs
  | cons n ns ih =>
    rw [deleteTrees, List.foldlM_cons] at h
    rw [List.nodup_cons] at hnd
    have hdel := delete_holds hh (hns n (by simp)) (Nat.lt_succ_self _)
    cases hd : deleteTree n s with
    | none =>
      rw [hd] at h
      cases h
    | some s₁ =>
      rw [hd] at h hdel
      obtain ⟨t₁, -, hh₁, hseq, -⟩ := hdel
      have hs₁ := deleteTree_colors hh.sorted (hns n (by simp)) hd hs
      refine ih hh₁ hnd.2 (fun m hm => ?_) h hs₁
      rw [hseq, List.mem_erase_of_ne fun hmn => hnd.1 (by rwa [← hmn])]
      exact hns m (by simp [hm])

/-- One call. -/
theorem call_colors {t : PageTree} {S : Finset Nat} {s s' : Tree Nat} {c : Call} (hk : Keeps t S s)
    (hc : c.Sound S) (h : c.next s = some s') (hs : s.NoRedRed) : s'.NoRedRed := by
  cases c with
  | insert n => exact (insertTree_colors h hs).1
  | delete n => exact deleteTree_colors hk.sorted ((hk.pages n).mpr hc) h hs
  | getMultiple k =>
    refine deleteTrees_colors hk.toHolds ?_ (takes_subset _ _) h hs
    rw [takes]
    split
    · exact List.nodup_range'
    · exact List.nodup_nil

/-- Along a run. -/
theorem run_colors {mem : Nat → PageNode} {calls : List Call} (hl : SoundRun mem calls) :
    ∀ {fuel : Nat} {t : PageTree} {S : Finset Nat} {s : Tree Nat},
      run fuel mem calls = ok (t, S) → Keeps t S s → s.NoRedRed := by
  induction calls using List.reverseRecOn with
  | nil =>
    intro fuel t S s h hk
    cases h
    have hnil : Stored mem none (.nil : Tree Nat) := trivial
    obtain rfl : s = .nil := hk.hat.stored.unique hnil hk.hat.around.symm
    trivial
  | append_singleton cs c ih =>
    intro fuel t S s h hk
    obtain ⟨s₁, htree, hk₁⟩ := run_keeps hl h
    obtain rfl := hk₁.unique hk
    rw [run_snoc, bind_eq_ok] at h
    obtain ⟨⟨t₀, S₀⟩, h₀, -⟩ := h
    obtain ⟨s₀, hs₀, hk₀⟩ := run_keeps hl.of_snoc h₀
    rw [treeRun_snoc, hs₀, Option.bind_some] at htree
    exact call_colors hk₀ (hl cs c (List.prefix_refl _) fuel t₀ S₀ h₀) htree
      (ih hl.of_snoc h₀ hk₀)

/-- **In every state of a run the root is black and no red node has a red child**, so `insert` of an
absent page returns; and it keeps equal black heights. -/
theorem run_insert_returns {mem : Nat → PageNode} {calls : List Call} (hl : SoundRun mem calls)
    {fuel : Nat} {t : PageTree} {S : Finset Nat} (h : run fuel mem calls = ok (t, S)) :
    ∃ s : Tree Nat, t.root = link s ∧ Stored t.mem none s ∧ (∀ m, m ∈ s.toList ↔ m ∈ S) ∧
      s.color? ≠ some .red ∧ s.NoRedRed ∧
      ∀ n, 1 ≤ n → n ∉ S → ∀ fuel', S.card + 1 < fuel' →
        ∃ t' s', t.insert fuel' n = ok t' ∧ t'.root = link s' ∧ Stored t'.mem none s' ∧
          (s.Balanced → s'.Balanced) := by
  obtain ⟨s, -, hk⟩ := run_keeps hl h
  have hcol := run_colors hl h hk
  refine ⟨s, hk.hat.around, hk.hat.stored, hk.pages, hk.root, hcol, fun n hn hnS fuel' hf => ?_⟩
  obtain ⟨t', s', hrun, h', hins, -, -⟩ := insert_holds hk.toHolds (by omega)
    (fun hm => hnS ((hk.pages n).mp hm)) (by rwa [hk.card])
  exact ⟨t', s', hrun, h'.hat.around, h'.hat.stored, (insertTree_colors hins hcol).2⟩

theorem run_insert_returns_threePages : ∃ fuel t S, run fuel blankMem threePages = ok (t, S) ∧
    ∃ s : Tree Nat, t.root = link s ∧ Stored t.mem none s ∧ (∀ m, m ∈ s.toList ↔ m ∈ S) ∧
      s.color? ≠ some .red ∧ s.NoRedRed ∧
      ∀ n, 1 ≤ n → n ∉ S → ∀ fuel', S.card + 1 < fuel' →
        ∃ t' s', t.insert fuel' n = ok t' ∧ t'.root = link s' ∧ Stored t'.mem none s' ∧
          (s.Balanced → s'.Balanced) := by
  have hl : Legal blankMem threePages := legal_of_legalFrom blankMem (by decide)
  have htree : treeRun threePages = some (.node .black .nil 5 .nil) := by decide
  obtain ⟨fuel, t, S, hrun, -⟩ := completes_of_treeRun hl htree
  exact ⟨fuel, t, S, hrun, run_insert_returns hl.sound hrun⟩

/-! ## Black heights after `delete` -/

/-- The place that loses a node (the page's own, or its successor's when it has two children) holds
a red node, or one with a child, or the only node of the tree. -/
def KeepsBalance (n : Nat) (s : Tree Nat) : Prop :=
  let v := vacated (locate n [] s).1 (locate n [] s).2
  v.2.1 = .red ∨ v.2.2 ≠ .nil ∨ v.1 = []

instance (n : Nat) (s : Tree Nat) : Decidable (KeepsBalance n s) :=
  inferInstanceAs (Decidable (_ ∨ _ ∨ _))

/-- What is left of the place in a red-black tree: nothing, below a red node; nothing, or a red node,
below a black one. -/
theorem RedBlack.vacated {ctx : Ctx Nat} {c : Color} {l r : Tree Nat} {n : Nat}
    (h : RedBlack (Ctx.plug ctx (.node c l n r))) :
    let v := vacated ctx (.node c l n r)
    (v.2.1 = .red → v.2.2 = .nil) ∧ v.2.2.color? ≠ some .black ∧ v.2.2.NoRedRed ∧
      v.2.2.BlackHeight 0 ∧ Ctx.NoRedRed v.1 ∧ Ctx.Expects v.1 v.2.1.weight := by
  obtain ⟨d, y, hvac⟩ := plug_vacated ctx c l n r
  have hcol := h.noRedRed
  have hbal := h.balanced
  rw [← hvac, Ctx.noRedRed_plug, Tree.noRedRed_branch] at hcol
  rw [← hvac, Ctx.balanced_plug] at hbal
  obtain ⟨k, hk, hexp⟩ := hbal
  obtain ⟨k', rfl, hnil, hx⟩ := Tree.blackHeight_branch.mp hk
  rw [Tree.blackHeight_nil] at hnil
  subst hnil
  obtain ⟨⟨hchild, -, hxcol⟩, hctx, -⟩ := hcol
  refine ⟨fun hred => ?_, hx.color_ne, hxcol, hx, hctx, by simpa using hexp⟩
  have h1 := (hchild hred).2
  have h2 := hx.color_ne
  cases hv : (PageTree.vacated ctx (.node c l n r)).2.2 with
  | nil => rfl
  | node xc xl xa xr =>
    rw [hv] at h1 h2
    cases xc with
    | red => exact absurd rfl h1
    | black => exact absurd rfl h2

/-- In a red-black tree `delete_fixup` has nothing to climb for: it ends at once, and the black
heights are equal after it unless a black node has gone and left nothing. -/
theorem deleteAt_balanced {ctx : Ctx Nat} {c : Color} {l r : Tree Nat} {n : Nat}
    (h : RedBlack (Ctx.plug ctx (.node c l n r))) :
    ∃ s', deleteAt ctx (.node c l n r) = some s' ∧
      (s'.Balanced ↔ (vacated ctx (.node c l n r)).2.1 = .red ∨
        (vacated ctx (.node c l n r)).2.2 ≠ .nil ∨ (vacated ctx (.node c l n r)).1 = []) := by
  obtain ⟨hnil, hblack, -, hx, -, hexp⟩ := h.vacated
  have hshape := spliceOut_shape ctx (.node c l n r)
  have hexp' := Ctx.expects_congr hshape hexp
  obtain ⟨hxeq, hceq, -⟩ := spliceOut_vacated ctx (.node c l n r)
  have hempty : (vacated ctx (.node c l n r)).1 = [] ↔ (spliceOut ctx (.node c l n r)).1 = [] := by
    rw [← List.map_eq_nil_iff, ← List.map_eq_nil_iff (l := (spliceOut ctx _).1)]
    exact Eq.congr_left hshape
  rw [hempty]
  rw [← hxeq] at hnil hblack hx
  rw [← hceq] at hnil hexp'
  rw [← hxeq, ← hceq, deleteAt]
  generalize spliceOut ctx (.node c l n r) = sp at hnil hblack hx hexp' ⊢
  obtain ⟨ctx', x, c'⟩ := sp
  cases c' with
  | red =>
    refine ⟨_, rfl, ?_⟩
    simp only [true_or, iff_true]
    exact (Ctx.balanced_plug _ _).mpr ⟨0, hx, hexp'⟩
  | black =>
    rcases x with _ | ⟨_ | _, xl, xa, xr⟩
    · refine ⟨Ctx.plug ctx' .nil, by cases ctx' <;> rfl, ?_⟩
      simp only [reduceCtorEq, ne_eq, not_true_eq_false, false_or]
      rw [Ctx.balanced_plug]
      constructor
      · -- the place was one black node high and is empty now
        rintro ⟨k, hk, hk'⟩
        by_contra hne
        rw [Tree.blackHeight_nil] at hk
        subst hk
        exact absurd (hk'.unique hne hexp') Nat.zero_ne_one
      · rintro rfl
        exact ⟨0, rfl, trivial⟩
    · refine ⟨Ctx.plug ctx' (.node .black xl xa xr), by cases ctx' <;> rfl, ?_⟩
      simp only [ne_eq, reduceCtorEq, not_false_eq_true, true_or, or_true, iff_true]
      exact (Ctx.balanced_plug _ _).mpr ⟨1, hx.paint_black rfl, hexp'⟩
    · exact absurd rfl hblack

/-- What `delete` leaves of a red-black tree. -/
theorem delete_redBlack {t : PageTree} {s : Tree Nat} {n fuel : Nat} (h : Holds t s)
    (hrb : RedBlack s) (hn : n ∈ s.toList) (hf : s.toList.length < fuel) :
    ∃ t' s', t.delete fuel n = ok t' ∧ Holds t' s' ∧ s'.toList = s.toList.erase n ∧
      (RedBlack s' ↔ KeepsBalance n s) := by
  obtain ⟨ctx, c, l, r, hloc⟩ := locate_mem h.sorted hn []
  have hplug := plug_locate n s []
  rw [hloc] at hplug
  have hrb' : RedBlack (Ctx.plug ctx (.node c l n r)) := hplug.trans (Ctx.plug_nil s) ▸ hrb
  obtain ⟨s', hs', hbal⟩ := deleteAt_balanced hrb'
  have htree : deleteTree n s = some s' := by rw [deleteTree, hloc, hs']
  have hdel := delete_holds h hn hf
  rw [htree] at hdel
  obtain ⟨t', hrun, h', hseq, -⟩ := hdel
  have hkeeps : s'.Balanced ↔ KeepsBalance n s := by
    rw [KeepsBalance, hloc]
    exact hbal
  refine ⟨t', s', hrun, h', hseq, fun hrb'' => hkeeps.mp hrb''.balanced, fun hk => ?_⟩
  exact ⟨h'.root, deleteTree_colors h.sorted hn htree hrb.noRedRed, hkeeps.mpr hk⟩

/-- **`delete` keeps a red-black tree red-black exactly when the place that loses a node is red, or
has a child, or is the whole tree.** It returns, and keeps the search tree, in any case. -/
theorem delete_redBlack_iff {t : PageTree} {s : Tree Nat} {n fuel : Nat} (h : Holds t s)
    (hrb : RedBlack s) (hn : n ∈ s.toList) (hf : s.toList.length < fuel) :
    (∃ t' s', t.delete fuel n = ok t' ∧ Holds t' s' ∧ s'.toList = s.toList.erase n) ∧
      ((∃ t' s', t.delete fuel n = ok t' ∧ Holds t' s' ∧ RedBlack s') ↔ KeepsBalance n s) := by
  obtain ⟨t', s', hrun, h', hseq, hiff⟩ := delete_redBlack h hrb hn hf
  refine ⟨⟨t', s', hrun, h', hseq⟩, ?_, fun hk => ⟨t', s', hrun, h', hiff.mpr hk⟩⟩
  rintro ⟨t'', s'', hrun', h'', hrb''⟩
  cases hrun.symm.trans hrun'
  have heq : s'' = s' := h''.hat.stored.unique h'.hat.stored
    (h''.hat.around.symm.trans h'.hat.around)
  exact hiff.mp (heq ▸ hrb'')

/-- Four pages go in, in order. -/
def fourPages : List Call := (List.range' 1 4).map .insert

/-- The tree of the four pages: 2 over 1 and 3, all black, and 4 red below 3. -/
theorem fourPages_tree : ∃ t, Holds t (.node .black (.node .black .nil 1 .nil) 2
    (.node .black .nil 3 (.node .red .nil 4 .nil))) := by
  have hl : Legal blankMem fourPages := legal_of_legalFrom blankMem (by decide)
  have htree : treeRun fourPages = some (.node .black (.node .black .nil 1 .nil) 2
    (.node .black .nil 3 (.node .red .nil 4 .nil))) := by decide
  obtain ⟨fuel, t, S, -, hk⟩ := completes_of_treeRun hl htree
  exact ⟨t, hk.toHolds⟩

theorem fourPages_redBlack : RedBlack (.node .black (.node .black .nil 1 .nil) 2
    (.node .black .nil 3 (.node .red .nil 4 .nil))) := by
  refine ⟨by simp, by simp [Tree.NoRedRed], 2, 1, rfl, ⟨0, rfl, rfl, rfl⟩, 0, rfl, rfl, ?_⟩
  exact ⟨0, rfl, rfl, rfl⟩

/-- **Taking out page 1, a black leaf, leaves a tree that is not red-black.** -/
theorem delete_black_leaf_unbalances : ∃ (t : PageTree) (s : Tree Nat), Holds t s ∧ RedBlack s ∧
    1 ∈ s.toList ∧ (∃ t', t.delete 5 1 = ok t') ∧
    ∀ t' s', t.delete 5 1 = ok t' → Holds t' s' → ¬ RedBlack s' := by
  obtain ⟨t, h⟩ := fourPages_tree
  obtain ⟨t', s', hrun, h', -, hiff⟩ := delete_redBlack h fourPages_redBlack (n := 1) (by simp)
    (show _ < 5 by simp)
  refine ⟨t, _, h, fourPages_redBlack, by simp, ⟨t', hrun⟩, fun t'' s'' hrun' h'' hrb => ?_⟩
  cases hrun.symm.trans hrun'
  have heq : s'' = s' := h''.hat.stored.unique h'.hat.stored
    (h''.hat.around.symm.trans h'.hat.around)
  exact absurd (hiff.mp (heq ▸ hrb)) (by decide)

/-- Taking out page 3 moves the red page 4 up and paints it black. -/
theorem delete_redBlack_iff_fourPages : ∃ (t : PageTree) (s : Tree Nat), Holds t s ∧ RedBlack s ∧
    KeepsBalance 3 s ∧ ∃ t' s', t.delete 5 3 = ok t' ∧ Holds t' s' ∧ RedBlack s' := by
  obtain ⟨t, h⟩ := fourPages_tree
  have hkeep : KeepsBalance 3 (.node .black (.node .black .nil 1 .nil) 2
    (.node .black .nil 3 (.node .red .nil 4 .nil))) := by decide
  exact ⟨t, _, h, fourPages_redBlack, hkeep,
    (delete_redBlack_iff h fourPages_redBlack (by simp) (by simp)).2.mpr hkeep⟩

end PageTree
end Allora
