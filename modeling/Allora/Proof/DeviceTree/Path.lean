import Allora.Proof.DeviceTree.Enumerate
import Mathlib.Logic.Relation

/-!
# Paths

`child_by_path` goes down one component at a time, and answers the last node it came to. Where a
component names no child that is the node above it, and not `None`.
-/

set_option autoImplicit false

namespace Allora
namespace DeviceTree

open Outcome Bytes

/-! ## What a path leads to -/

section Paths

variable (mem : Memory) (fuel : Nat)

/-- `child` is one of the nodes that `children()` enumerates. -/
def IsChild (node child : Node) : Prop :=
  ∃ children, Iter.collect (NodeIterator.next mem fuel) fuel node.children = ok children ∧
    child ∈ children

/-- The nodes below `node`, itself included. -/
def Below : Node → Node → Prop := Relation.ReflTransGen (IsChild mem fuel)

/-- The components one by one, each to the first child with that name. -/
inductive Follows : List (List UInt8) → Node → Node → Prop
  | here (node : Node) : Follows [] node node
  | down {cur : List UInt8} {path : List (List UInt8)} {node next last : Node}
      {children : List Node}
      (enumerated : Iter.collect (NodeIterator.next mem fuel) fuel node.children = ok children)
      (first : children.find? (fun child => child.name = cur) = some next)
      (rest : Follows path next last) : Follows (cur :: path) node last

end Paths

variable {mem : Memory} {fuel : Nat}

theorem Follows.unique {path : List (List UInt8)} {node m m' : Node}
    (h : Follows mem fuel path node m) (h' : Follows mem fuel path node m') : m = m' := by
  induction h with
  | here node =>
    cases h'
    rfl
  | down henum hfirst _ ih =>
    cases h' with
    | down henum' hfirst' hrest' =>
      cases Outcome.ok.inj (henum.symm.trans henum')
      cases Option.some.inj (hfirst.symm.trans hfirst')
      exact ih hrest'

/-! ## Every node can be searched -/

/-- The children of `node` can be enumerated, and theirs, and so on. -/
def Readable (mem : Memory) (fuel : Nat) (node : Node) : Prop :=
  ∃ depth kids children,
    Iter.collect (NodeIterator.next mem fuel) fuel node.children = ok children ∧
      Shows mem fuel depth kids children

theorem Shows.readable {depth : Nat} {tree : Nodes} :
    ∀ {ns : List Node}, Shows mem fuel depth tree ns → ∀ node ∈ ns, Readable mem fuel node := by
  induction tree with
  | nil =>
    rintro ns rfl node hnode
    cases hnode
  | cons before name props kids beforeEnd rest _ ih =>
    rintro ns ⟨first, ns', rfl, -, -, -, ⟨children, hchildren, hkids⟩, hrest⟩ node hnode
    rcases List.mem_cons.mp hnode with rfl | hnode
    · exact ⟨depth + 1, kids, children, hchildren, hkids⟩
    · exact ih hrest node hnode

theorem Readable.below {node m : Node} (h : Readable mem fuel node) (hm : Below mem fuel node m) :
    Readable mem fuel m := by
  induction hm with
  | refl => exact h
  | tail _ hchild ih =>
    obtain ⟨depth, kids, children, henum, hshows⟩ := ih
    obtain ⟨children', henum', hmem⟩ := hchild
    cases Outcome.ok.inj (henum.symm.trans henum')
    exact hshows.readable _ hmem

/-! ## The search -/

/-- One component: the search goes to the first child of that name, or stays. -/
theorem childByPathHelper_cons {cur : List UInt8} {node : Node} {children : List Node}
    (henum : Iter.collect (NodeIterator.next mem fuel) fuel node.children = ok children)
    (path : List (List UInt8)) :
    node.childByPathHelper mem fuel (cur :: path) =
      match children.find? (fun child => child.name = cur) with
      | none => ok (some node)
      | some next =>
        next.childByPathHelper mem fuel path >>= fun found => ok (found.or (some node)) := by
  rw [Node.childByPathHelper, Iter.find_of_collect _ henum, ok_bind]
  cases children.find? (fun child => child.name = cur) with
  | none => rfl
  | some next => rfl

/-- **The search always answers a node**, the one the path leads to if there is one. -/
theorem childByPathHelper_spec (path : List (List UInt8)) :
    ∀ {node : Node}, Readable mem fuel node →
      ∃ m, node.childByPathHelper mem fuel path = ok (some m) ∧
        ∀ m', Follows mem fuel path node m' → m' = m := by
  induction path with
  | nil =>
    intro node _
    refine ⟨node, rfl, fun m' h => ?_⟩
    cases h
    rfl
  | cons cur path ih =>
    intro node hnode
    obtain ⟨depth, kids, children, henum, hshows⟩ := hnode
    rw [childByPathHelper_cons henum]
    cases hfind : children.find? (fun child => child.name = cur) with
    | none =>
      refine ⟨node, rfl, fun m' h => ?_⟩
      cases h with
      | down henum' hfirst _ =>
        cases Outcome.ok.inj (henum.symm.trans henum')
        cases hfind.symm.trans hfirst
    | some next =>
      obtain ⟨m, hm, hunique⟩ := ih (hshows.readable next (List.mem_of_find?_eq_some hfind))
      refine ⟨m, by simp only [hm, ok_bind, Option.some_or], fun m' h => ?_⟩
      cases h with
      | down henum' hfirst hrest =>
        cases Outcome.ok.inj (henum.symm.trans henum')
        cases Option.some.inj (hfind.symm.trans hfirst)
        exact hunique m' hrest

/-! ## The path as bytes -/

/-- The components with slashes between them, and maybe one in front. -/
def joinPath (leading : Bool) (path : List (List UInt8)) : List UInt8 :=
  if leading then SLASH :: [SLASH].intercalate path else [SLASH].intercalate path

/-- Components that a path can be made of. -/
structure Components (path : List (List UInt8)) : Prop where
  ne_nil : path ≠ []
  nonempty : ∀ cur ∈ path, cur ≠ []
  no_slash : ∀ cur ∈ path, SLASH ∉ cur

/-- A path without a leading slash does not begin with one. -/
theorem Components.head?_ne {path : List (List UInt8)} (h : Components path) :
    ([SLASH].intercalate path).head? ≠ some SLASH := by
  cases path with
  | nil => exact absurd rfl h.ne_nil
  | cons cur path =>
    have hne := h.nonempty cur List.mem_cons_self
    have hno := h.no_slash cur List.mem_cons_self
    cases cur with
    | nil => exact absurd rfl hne
    | cons c cur =>
      have hc : c ≠ SLASH := fun heq => hno (heq ▸ List.mem_cons_self)
      cases path with
      | nil => simpa [List.intercalate] using hc
      | cons next path => simpa [List.intercalate] using hc

theorem childByPath_joinPath {path : List (List UInt8)} (h : Components path) (leading : Bool)
    (node : Node) :
    node.childByPath mem fuel (joinPath leading path) = node.childByPathHelper mem fuel path := by
  have hsplit : ([SLASH].intercalate path).splitOn SLASH = path :=
    List.splitOn_intercalate SLASH h.no_slash h.ne_nil
  cases leading with
  | false =>
    simp only [joinPath, Bool.false_eq_true, if_false, Node.childByPath, if_neg h.head?_ne, hsplit]
  | true =>
    have hlead : (SLASH :: [SLASH].intercalate path).splitOn SLASH = [] :: path := by
      rw [← List.nil_append (SLASH :: _), List.splitOn_append_cons_self, hsplit]
      rfl
    simp only [joinPath, if_true, Node.childByPath, List.head?_cons, hlead, List.tail_cons]

/-- **A path is answered rightly exactly when it leads somewhere.** In a well-formed tree, for any
node and any path, with or without a slash in front. -/
theorem childByPath_iff {base structOff stringsOff beforeEnd : Nat} {tree : Nodes}
    (h : WellFormed mem base structOff stringsOff tree beforeEnd) :
    ∃ bound, ∀ fuel, bound ≤ fuel → ∃ rootNode, root mem fuel base = ok (some rootNode) ∧
      ∀ node, Below mem fuel rootNode node → ∀ path, Components path → ∀ leading,
        ((∃ found, node.childByPath mem fuel (joinPath leading path) = ok found ∧
            ∀ m, found = some m ↔ Follows mem fuel path node m) ↔
          ∃ m, Follows mem fuel path node m) := by
  obtain ⟨bound, hbound⟩ := root_nodesAt h
  refine ⟨bound, fun fuel hfuel => ?_⟩
  obtain ⟨rootNode, hroot, hfits, hnodes⟩ := hbound fuel hfuel
  refine ⟨rootNode, hroot, fun node hbelow path hpath leading => ?_⟩
  have hshows := h.shows hfits
  rw [hnodes] at hshows
  have hnode := (hshows.readable rootNode List.mem_cons_self).below hbelow
  obtain ⟨m, hm, hunique⟩ := childByPathHelper_spec path hnode
  rw [childByPath_joinPath hpath, hm]
  constructor
  · rintro ⟨found, hfound, hiff⟩
    cases hfound
    exact ⟨m, (hiff m).mp rfl⟩
  · rintro ⟨m', hm'⟩
    refine ⟨some m, rfl, fun m₁ => ⟨?_, ?_⟩⟩
    · rintro ⟨⟩
      exact hunique m' hm' ▸ hm'
    · intro hm₁
      rw [hunique m₁ hm₁]

/-- What `smallTree` looks like from its root: one child, called `k`. -/
theorem smallTree_children {ns : List Node} (h : Shows smallMem fuel 1 smallTree ns) :
    ∃ rootNode child, ns = [rootNode] ∧ child.name = [107] ∧
      Iter.collect (NodeIterator.next smallMem fuel) fuel rootNode.children = ok [child] := by
  obtain ⟨rootNode, ns', rfl, -, -, -, ⟨children, henum, hkids⟩, hrest⟩ := h
  obtain ⟨child, children', rfl, hname, -, -, -, hlast⟩ := hkids
  rw [show ns' = [] from hrest]
  rw [show children' = [] from hlast] at henum
  exact ⟨rootNode, child, rfl, hname, henum⟩

/-- `/k` is the child. -/
theorem childByPath_iff_smallTree : ∃ fuel rootNode child,
    root smallMem fuel 64 = ok (some rootNode) ∧ child.name = [107] ∧
      rootNode.childByPath smallMem fuel [SLASH, 107] = ok (some child) := by
  obtain ⟨bound, hbound⟩ := root_nodesAt smallTree_wellFormed
  obtain ⟨bound', hbound'⟩ := childByPath_iff smallTree_wellFormed
  obtain ⟨rootNode, hroot, hfits, hnodes⟩ := hbound (bound + bound') (by omega)
  obtain ⟨rootNode', hroot', hpath⟩ := hbound' (bound + bound') (by omega)
  cases Option.some.inj (Outcome.ok.inj (hroot.symm.trans hroot'))
  have hshows := smallTree_wellFormed.shows hfits
  obtain ⟨r, child, hr, hname, henum⟩ := smallTree_children hshows
  cases List.singleton_inj.mp (hnodes.symm.trans hr)
  have hleads : Follows smallMem (bound + bound') [[107]] rootNode child :=
    .down henum (by simp [hname]) (.here child)
  obtain ⟨found, hfound, hiff⟩ := (hpath rootNode .refl [[107]]
    ⟨by simp, by simp, by simp [SLASH]⟩ true).mpr ⟨child, hleads⟩
  refine ⟨_, rootNode, child, hroot, hname, ?_⟩
  rw [(hiff child).mpr hleads] at hfound
  exact hfound

/-- `/x` is the root, which is no child of itself. -/
theorem missing_child_is_root : ∃ fuel rootNode,
    root smallMem fuel 64 = ok (some rootNode) ∧
      rootNode.childByPath smallMem fuel [SLASH, 120] = ok (some rootNode) ∧
      ∀ m, ¬ Follows smallMem fuel [[120]] rootNode m := by
  obtain ⟨bound, hbound⟩ := root_nodesAt smallTree_wellFormed
  obtain ⟨rootNode, hroot, hfits, hnodes⟩ := hbound bound (Nat.le_refl bound)
  have hshows := smallTree_wellFormed.shows hfits
  obtain ⟨r, child, hr, hname, henum⟩ := smallTree_children hshows
  cases List.singleton_inj.mp (hnodes.symm.trans hr)
  have hnone : [child].find? (fun child => child.name = [120]) = none := by simp [hname]
  refine ⟨bound, rootNode, hroot, ?_, fun m h => ?_⟩
  · have hpath : Components [[120]] := ⟨by simp, by simp, by simp [SLASH]⟩
    show rootNode.childByPath smallMem bound (joinPath true [[120]]) = _
    rw [childByPath_joinPath hpath, childByPathHelper_cons henum, hnone]
  · cases h with
    | down henum' hfirst _ =>
      cases Outcome.ok.inj (henum.symm.trans henum')
      cases hnone.symm.trans hfirst

end DeviceTree
end Allora
