import Allora.Search
import Allora.Lib.Worklist

/-!
# The search finds what is there

The loop explores the graph of known containers from a worklist, and what it has found is what it
has visited and wants. A container that waits twice is visited once; one that is avoided is visited
like any other, and its own known containers are searched.
-/

set_option autoImplicit false

namespace Allora

open Outcome

@[simp] theorem vecPop_nil {α : Type} : vecPop ([] : List α) = none := rfl

@[simp] theorem vecPop_append {α : Type} (v : List α) (a : α) : vecPop (v ++ [a]) = some (v, a) := by
  simp [vecPop]

namespace Kernel

/-- The containers that `ct` knows. -/
def knows (known : Nat → Option (List Nat)) (ct : Nat) : List Nat := (known ct).getD []

variable {Buckle : Type} [BEq Buckle] {lb : Labeled Buckle} {known : Nat → Option (List Nat)}
  {k : Kernel Buckle} {label : String} {wanted : Buckle} {avoid start : Nat} {nodes : Finset Nat}

/-- `ct` carries a label that equals `wanted`. -/
def HasLabel (k : Kernel Buckle) (wanted : Buckle) (ct : Nat) : Prop :=
  ∃ page inner, (k.info ct).label = some page ∧ k.inner page = some inner ∧ (inner == wanted) = true

/-- `ct` has some label. -/
def Labelled (k : Kernel Buckle) (ct : Nat) : Prop :=
  ∃ page inner, (k.info ct).label = some page ∧ k.inner page = some inner

theorem isWanted_spec {ct : Nat} (hparse : lb.parse label = some wanted) (hct : k.Labelled ct) :
    ∃ b, k.isWanted lb label avoid ct = ok b ∧ (b = true ↔ ct ≠ avoid ∧ k.HasLabel wanted ct) := by
  obtain ⟨page, inner, hpage, hinner⟩ := hct
  by_cases havoid : ct = avoid
  · exact ⟨false, by simp [isWanted, havoid], by simp [havoid]⟩
  · refine ⟨inner == wanted, by simp [isWanted, havoid, hpage, hinner, hparse], ?_⟩
    constructor
    · intro heq
      exact ⟨havoid, page, inner, hpage, hinner, heq⟩
    · rintro ⟨-, page', inner', hpage', hinner', heq⟩
      rw [hpage] at hpage'
      cases hpage'
      rw [hinner] at hinner'
      cases hinner'
      exact heq

/-- What the loop has found so far. -/
def FoundAll (k : Kernel Buckle) (wanted : Buckle) (avoid : Nat) (visited found : List Nat) : Prop :=
  ∀ ct, ct ∈ found ↔ ct ∈ visited ∧ ct ≠ avoid ∧ k.HasLabel wanted ct

theorem FoundAll.visit {visited found : List Nat} {ct : Nat} {b : Bool}
    (h : FoundAll k wanted avoid visited found)
    (hb : b = true ↔ ct ≠ avoid ∧ k.HasLabel wanted ct) :
    FoundAll k wanted avoid (visited ++ [ct]) (if b then found ++ [ct] else found) := by
  intro c
  cases b with
  | true =>
    have hct := hb.mp rfl
    simp only [if_true, List.mem_append, List.mem_singleton, h c]
    constructor
    · rintro (⟨hv, hc⟩ | rfl)
      · exact ⟨.inl hv, hc⟩
      · exact ⟨.inr rfl, hct⟩
    · rintro ⟨hv | rfl, hc⟩
      · exact .inl ⟨hv, hc⟩
      · exact .inr rfl
  | false =>
    have hct : ¬ (ct ≠ avoid ∧ k.HasLabel wanted ct) := fun hc => Bool.noConfusion (hb.mpr hc)
    simp only [Bool.false_eq_true, if_false, List.mem_append, List.mem_singleton, h c]
    constructor
    · rintro ⟨hv, hc⟩
      exact ⟨.inl hv, hc⟩
    · rintro ⟨hv | rfl, hc⟩
      · exact ⟨hv, hc⟩
      · exact absurd hc hct

/-- The containers that know one another: a finite set, closed, each with a label. -/
structure Graph (known : Nat → Option (List Nat)) (k : Kernel Buckle) (nodes : Finset Nat) :
    Prop where
  closed : ∀ ct ∈ nodes, ∀ c ∈ knows known ct, c ∈ nodes
  labelled : ∀ ct ∈ nodes, k.Labelled ct

/-- **The loop explores**: by induction on the fuel, of which each turn takes one. -/
theorem searchLoop_explores (hg : Graph known k nodes) (hstart : start ∈ nodes)
    (hparse : lb.parse label = some wanted) :
    ∀ (fuel : Nat) (containers visited found : List Nat),
      Worklist.Explored (knows known) start containers visited →
      FoundAll k wanted avoid visited found →
      containers.length + Worklist.pending (knows known) nodes visited < fuel →
      ∃ visited' found', k.searchLoop lb known label avoid fuel containers visited found =
          ok (visited', found') ∧
        Worklist.Explored (knows known) start [] visited' ∧
        FoundAll k wanted avoid visited' found' := by
  intro fuel
  induction fuel with
  | zero =>
    intro containers visited found _ _ hfuel
    omega
  | succ fuel ih =>
    intro containers visited found hex hfound hfuel
    rcases List.eq_nil_or_concat containers with rfl | ⟨rest, ct, rfl⟩
    · exact ⟨visited, found, rfl, hex, hfound⟩
    · rw [List.concat_eq_append] at *
      rw [List.length_append, List.length_singleton] at hfuel
      by_cases hct : ct ∈ visited
      · have hsome : (visited.find? (· == ct)).isSome = true :=
          List.find?_isSome.mpr ⟨ct, hct, beq_self_eq_true ct⟩
        obtain ⟨visited', found', hloop, h⟩ := ih rest visited found (hex.drop hct) hfound (by omega)
        refine ⟨visited', found', ?_, h⟩
        rw [searchLoop, vecPop_append]
        simp only [hsome, if_true, hloop]
      · have hnone : (visited.find? (· == ct)).isSome = false := by
          rw [← Bool.not_eq_true, List.find?_isSome]
          rintro ⟨c, hc, heq⟩
          exact hct (eq_of_beq heq ▸ hc)
        have hnode : ct ∈ nodes :=
          (hex.sound ct (.inr (by simp))).mem (P := (· ∈ nodes)) hstart hg.closed
        have hpending : Worklist.pending (knows known) nodes visited = _ :=
          Worklist.pending_visit hnode hct
        obtain ⟨b, hb, hiff⟩ : ∃ b, k.isWanted lb label avoid ct = ok b ∧ _ :=
          isWanted_spec hparse (hg.labelled ct hnode)
        obtain ⟨visited', found', hloop, h⟩ := ih (rest ++ knows known ct) (visited ++ [ct])
          (if b then found ++ [ct] else found) (hex.visit hct) (hfound.visit hiff)
          (by rw [List.length_append]; omega)
        refine ⟨visited', found', ?_, h⟩
        rw [searchLoop, vecPop_append]
        simp only [hnone, Bool.false_eq_true, if_false, hb, ok_bind]
        refine Eq.trans ?_ hloop
        congr 1
        cases hk : known ct with
        | none => simp [knows, hk]
        | some cts => simp [knows, hk]

/-- **`search` visits every container within reach once, and answers with one that has the label**,
if there is one besides the container to avoid. The fuel is the number of references in the graph,
and two. -/
theorem search_finds (hg : Graph known k nodes) (hstart : start ∈ nodes)
    (hparse : lb.parse label = some wanted) (hcur : k.current.isSome) (avoid : Nat) {fuel : Nat}
    (hfuel : Worklist.pending (knows known) nodes [] + 2 ≤ fuel) :
    ∃ visited found,
      k.searchLoop lb known label avoid fuel [start] [] [] = ok (visited, found) ∧
      k.search lb known fuel start label avoid = ok found.getLast? ∧
      visited.Nodup ∧ (∀ ct, ct ∈ visited ↔ Worklist.Reach (knows known) start ct) ∧
      (∀ ct, found.getLast? = some ct →
        Worklist.Reach (knows known) start ct ∧ ct ≠ avoid ∧ k.HasLabel wanted ct) ∧
      (found.getLast? = none ↔
        ∀ ct, Worklist.Reach (knows known) start ct → ct ≠ avoid → ¬ k.HasLabel wanted ct) := by
  obtain ⟨th, hth⟩ := Option.isSome_iff_exists.mp hcur
  have hnone : FoundAll k wanted avoid [] [] := by simp [FoundAll]
  obtain ⟨visited, found, hloop, hex, hfound⟩ := searchLoop_explores hg hstart hparse fuel [start] []
    [] (.init start) hnone (by rw [List.length_singleton]; omega)
  refine ⟨visited, found, hloop, ?_, hex.nodup, hex.done, fun ct hct => ?_, ?_⟩
  · rw [search, hth, unwrap_some, ok_bind, hloop]
    rfl
  · obtain ⟨hv, hwanted⟩ := (hfound ct).mp (List.mem_of_getLast? hct)
    exact ⟨(hex.done ct).mp hv, hwanted⟩
  · rw [List.getLast?_eq_none_iff]
    constructor
    · rintro rfl ct hreach havoid hlabel
      have hmem := (hfound ct).mpr ⟨(hex.done ct).mpr hreach, havoid, hlabel⟩
      cases hmem
    · intro hno
      refine List.eq_nil_iff_forall_not_mem.mpr fun ct hct => ?_
      obtain ⟨hv, havoid, hlabel⟩ := (hfound ct).mp hct
      exact hno ct ((hex.done ct).mp hv) havoid hlabel

/-- Containers 1 and 3 know each other and themselves, and 1 knows 5 twice; 3 and 5 carry the label
that is asked for, and 5 is to be avoided. -/
def threePools : Kernel (String × String) where
  mem _ := ⟨0, none, none, none, .red⟩
  info ct := ⟨none, some (ct + 10), ⟨0, 0⟩, .container, none, []⟩
  slots _ := []
  inner page := some (if page = 11 then ("T", "F") else ("gongqi", "gongqi"))
  current := some 7

def threePoolsKnown (ct : Nat) : Option (List Nat) :=
  if ct = 1 then some [5, 3, 1, 5] else if ct = 3 then some [3, 1] else none

def pairs : Labeled (String × String) where
  parse s :=
    if s = "gongqi,gongqi" then some ("gongqi", "gongqi")
    else if s = "T,F" then some ("T", "F")
    else none
  canFlowTo a b := a == b

theorem threePools_graph : Graph threePoolsKnown threePools {1, 3, 5} where
  closed := by decide
  labelled ct _ := ⟨ct + 10, _, rfl, rfl⟩

theorem search_finds_threePools :
    threePools.search pairs threePoolsKnown 20 1 "gongqi,gongqi" 5 = ok (some 3) ∧
      Worklist.Reach (knows threePoolsKnown) 1 3 := by
  have hrun : threePools.search pairs threePoolsKnown 20 1 "gongqi,gongqi" 5 = ok (some 3) := rfl
  have hparse : pairs.parse "gongqi,gongqi" = some ("gongqi", "gongqi") := rfl
  obtain ⟨visited, found, -, hsearch, -, -, hfound, -⟩ := search_finds threePools_graph
    (show 1 ∈ {1, 3, 5} by decide) hparse rfl 5 (show _ ≤ 20 by decide)
  exact ⟨hrun, (hfound 3 (Outcome.ok.inj (hsearch.symm.trans hrun))).1⟩

end Kernel
end Allora
