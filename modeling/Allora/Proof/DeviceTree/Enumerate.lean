import Allora.Proof.DeviceTree.Cursors

/-!
# The cursors enumerate the tree

`nodesAt` lists the nodes that siblings are, with the addresses that their tokens have. The node
cursor answers exactly these, one after another, and the property cursor of each answers its
properties. `Shows` says so for a whole tree: it goes down from a node through `children()` as far
as there are children.
-/

set_option autoImplicit false

namespace Allora
namespace DeviceTree

open Outcome Bytes

/-- The nodes that siblings at `p` are. -/
def nodesAt (strings depth : Nat) : Nat → Nodes → List Node
  | _, .nil => []
  | p, .cons before name props kids beforeEnd rest =>
    let base := p + (nops before).length + (encodeBegin name).length
    ⟨strings, base, name, depth⟩ ::
      nodesAt strings depth (base + (encodeBody props kids beforeEnd).length) rest

/-- The nodes `ns` are these siblings: their names, their depth, their properties in order, and
their children, which are again what they should be. -/
def Shows (mem : Memory) (fuel : Nat) : Nat → Nodes → List Node → Prop
  | _, .nil, ns => ns = []
  | depth, .cons _ name props kids _ rest, ns =>
    ∃ node ns', ns = node :: ns' ∧ node.name = name ∧ node.depth = depth ∧
      Iter.collect (PropIterator.next mem fuel) fuel node.props = ok (props.map PropToken.prop) ∧
      (∃ children, Iter.collect (NodeIterator.next mem fuel) fuel node.children = ok children ∧
        Shows mem fuel (depth + 1) kids children) ∧
      Shows mem fuel depth rest ns'

section Props

variable {mem : Memory} {fuel strings : Nat}

/-- **The properties of a node**, up to the first begin or end token. -/
theorem collect_props {k tok : Nat} (htok : tok = 0x1 ∨ tok = 0x2) :
    ∀ {ps : List PropToken} {n p : Nat}, 4 ∣ p → (∀ t ∈ ps, t.Ok mem strings) →
      (∀ t ∈ ps, t.prop.name.length < fuel) → At mem p (encodeProps ps ++ (nops k ++ word tok)) →
      propSteps ps + (k + 1) ≤ fuel → ps.length < n →
      Iter.collect (PropIterator.next mem fuel) n ⟨p, strings⟩ = ok (ps.map PropToken.prop) := by
  intro ps
  induction ps with
  | nil =>
    intro n p _ _ _ h hf hn
    obtain ⟨n, rfl⟩ := Nat.exists_eq_succ_of_ne_zero (Nat.ne_of_gt hn)
    obtain ⟨f, rfl⟩ : ∃ f, fuel = f + (k + 1) := ⟨fuel - (k + 1), by omega⟩
    obtain ⟨it, hstop⟩ := PropIterator.loop_stop htok h
    exact Iter.collect_none hstop n
  | cons t ps ih =>
    intro n p hp hok hscan h hf hn
    obtain ⟨n, rfl⟩ := Nat.exists_eq_succ_of_ne_zero (Nat.ne_of_gt (Nat.zero_lt_of_lt hn))
    rw [encodeProps, List.flatMap_cons, List.append_assoc, at_append] at h
    simp only [propSteps, List.map_cons, List.sum_cons] at hf
    obtain ⟨f, hfuel⟩ : ∃ f, fuel = f + (t.nops + 1) := ⟨fuel - (t.nops + 1), by omega⟩
    have hnext : PropIterator.next mem fuel ⟨p, strings⟩ =
        ok (⟨p + t.encode.length, strings⟩, some t.prop) := by
      rw [PropIterator.next]
      nth_rewrite 2 [hfuel]
      exact PropIterator.loop_prop hp (hok t List.mem_cons_self) (hscan t List.mem_cons_self) h.1
    refine Iter.collect_some hnext (ih (Nat.dvd_add hp t.dvd_encode) ?_ ?_ h.2 ?_ ?_)
    · exact fun t' ht' => hok t' (List.mem_cons_of_mem _ ht')
    · exact fun t' ht' => hscan t' (List.mem_cons_of_mem _ ht')
    · simp only [propSteps]
      omega
    · simpa using hn

/-- The first token after the properties of a node. -/
theorem at_body_tail {p : Nat} {kids : Nodes} {e : Nat}
    (h : At mem p (kids.encode ++ (nops e ++ word 0x2))) :
    ∃ k tok, (tok = 0x1 ∨ tok = 0x2) ∧ k ≤ kids.steps + e ∧ At mem p (nops k ++ word tok) := by
  cases kids with
  | nil => exact ⟨e, 0x2, .inr rfl, by omega, h⟩
  | cons before name props kids beforeEnd rest =>
    obtain ⟨base, p', -, -, -, h₁, h₂, -, -⟩ := Nodes.at_cons (at_append.mp h).1
    rw [encodeBegin, at_append] at h₂
    refine ⟨before, 0x1, .inl rfl, ?_, at_append.mpr ⟨h₁, h₂.1⟩⟩
    simp only [Nodes.steps]
    omega

end Props

section Children

variable {mem : Memory} {fuel strings depth : Nat}

/-- In `k` rounds of its loop the cursor gets to `p`, outside of any node. -/
def LeadsTo (mem : Memory) (scan strings depth : Nat) (it : NodeIterator) (k p : Nat) : Prop :=
  ∀ f, NodeIterator.loop mem scan (f + k) it = NodeIterator.loop mem scan f ⟨p, strings, depth, 0⟩

/-- **Sibling nodes**, up to the end token of their parent. -/
theorem collect_nodes {e : Nat} :
    ∀ {ns : Nodes} {it : NodeIterator} {n k p : Nat}, LeadsTo mem fuel strings depth it k p →
      4 ∣ p → ns.Ok mem strings → ns.Fits fuel → At mem p (ns.encode ++ (nops e ++ word 0x2)) →
      k + ns.steps + e + 1 ≤ fuel → ns.count < n →
      Iter.collect (NodeIterator.next mem fuel) n it = ok (nodesAt strings (depth + 1) p ns) := by
  intro ns
  induction ns with
  | nil =>
    intro it n k p hlead hp _ _ h hf hn
    obtain ⟨n, rfl⟩ := Nat.exists_eq_succ_of_ne_zero (Nat.ne_of_gt hn)
    obtain ⟨f, hfuel⟩ : ∃ f, fuel = f + 1 + e + k := ⟨fuel - k - e - 1, by
      simp only [Nodes.steps] at hf
      omega⟩
    rw [Nodes.encode, List.nil_append, at_append] at h
    have hnext : NodeIterator.next mem fuel it =
        ok (⟨p + (nops e).length + 4, strings, depth, 0⟩, none) := by
      rw [NodeIterator.next]
      nth_rewrite 2 [hfuel]
      rw [hlead, NodeIterator.loop_nops h.1, NodeIterator.loop_end h.2, if_pos rfl]
    exact Iter.collect_none hnext n
  | cons before name props kids beforeEnd rest ihk ihr =>
    intro it n k p hlead hp hok hfits h hf hn
    obtain ⟨n, rfl⟩ := Nat.exists_eq_succ_of_ne_zero (Nat.ne_of_gt (Nat.zero_lt_of_lt hn))
    obtain ⟨hname, hprops, hkids, hrest⟩ := hok
    obtain ⟨hscan, -, -, hfk, hfr⟩ := hfits
    obtain ⟨hnodes, htail⟩ := at_append.mp h
    obtain ⟨base, p', hbase, hp', hend, h₁, h₂, h₃, h₄⟩ := Nodes.at_cons hnodes
    have d₁ : 4 ∣ p + (nops before).length := by rw [length_nops]; omega
    have d₂ : 4 ∣ base := hbase ▸ Nat.dvd_add d₁ (dvd_encodeBegin name)
    have d₃ : 4 ∣ p' := hp' ▸ Nat.dvd_add d₂ (dvd_encodeBody props kids beforeEnd)
    simp only [Nodes.steps] at hf
    obtain ⟨f, hfuel⟩ : ∃ f, fuel = f + 1 + before + k := ⟨fuel - k - before - 1, by omega⟩
    have hnext : NodeIterator.next mem fuel it =
        ok (⟨base, strings, depth, 1⟩, some ⟨strings, base, name, depth + 1⟩) := by
      rw [NodeIterator.next]
      nth_rewrite 2 [hfuel]
      rw [hlead, NodeIterator.loop_nops h₁, NodeIterator.loop_begin d₁ hname hscan h₂, if_pos rfl,
        ← hbase]
    -- the next call starts inside the node that was answered, and leaves it first
    have hlead' : LeadsTo mem fuel strings depth ⟨base, strings, depth, 1⟩
        (propSteps props + kids.steps + beforeEnd + 1) p' := by
      intro f
      rw [NodeIterator.loop_body d₂ (fun t ht => (hprops t ht).value_lt) (skips_nodes hkids hfk) h₃,
        ← hp']
    rw [← hend] at htail
    have hrest' := ihr hlead' d₃ hrest hfr (at_append.mpr ⟨h₄, htail⟩) (by omega)
      (Nat.lt_of_succ_lt_succ hn)
    rw [nodesAt, ← hbase, ← hp']
    exact Iter.collect_some hnext hrest'

end Children

/-- **Every node below, and each can be used in the same way.** -/
theorem shows_nodesAt {mem : Memory} {fuel strings : Nat} {ns : Nodes} :
    ∀ {depth p : Nat}, 4 ∣ p → ns.Ok mem strings → ns.Fits fuel → At mem p ns.encode →
      Shows mem fuel depth ns (nodesAt strings depth p ns) := by
  induction ns with
  | nil => exact fun _ _ _ _ => rfl
  | cons before name props kids beforeEnd rest ihk ihr =>
    intro depth p hp hok hfits h
    obtain ⟨hname, hprops, hkids, hrest⟩ := hok
    obtain ⟨hscan, hpscan, hfuel, hfk, hfr⟩ := hfits
    obtain ⟨base, p', hbase, hp', -, h₁, h₂, h₃, h₄⟩ := Nodes.at_cons h
    have d₁ : 4 ∣ p + (nops before).length := by rw [length_nops]; omega
    have d₂ : 4 ∣ base := hbase ▸ Nat.dvd_add d₁ (dvd_encodeBegin name)
    have d₃ : 4 ∣ p' := hp' ▸ Nat.dvd_add d₂ (dvd_encodeBody props kids beforeEnd)
    have hcount := count_le_steps kids
    have hlength := length_le_propSteps props
    obtain ⟨hps, hbody⟩ := at_append.mp h₃
    have d₄ := Nat.dvd_add d₂ (dvd_encodeProps props)
    rw [nodesAt, ← hbase, ← hp']
    refine ⟨_, _, rfl, rfl, rfl, ?_, ⟨_, ?_, ihk d₄ hkids hfk (at_append.mp hbody).1⟩,
      ihr d₃ hrest hfr h₄⟩
    · obtain ⟨k, tok, htok, hk, htail⟩ := at_body_tail hbody
      exact collect_props htok d₂ hprops hpscan (at_append.mpr ⟨hps, htail⟩) (by omega) (by omega)
    · have hlead : LeadsTo mem fuel strings depth ⟨base, strings, depth, 0⟩ (propSteps props)
          (base + (encodeProps props).length) := fun f =>
        NodeIterator.loop_props d₂ (fun t ht => (hprops t ht).value_lt) hps
      exact collect_nodes hlead d₄ hkids hfk hbody (by omega) (by omega)

/-- The first property of that name, and the first child of that name. -/
theorem Shows.by_name {mem : Memory} {fuel depth before beforeEnd : Nat} {name : List UInt8}
    {props : List PropToken} {kids rest : Nodes} {node : Node} {ns : List Node}
    (h : Shows mem fuel depth (.cons before name props kids beforeEnd rest) (node :: ns)) :
    (∀ nm, node.propByName mem fuel nm =
      ok ((props.map PropToken.prop).find? fun prop => prop.name = nm)) ∧
    ∃ children, Shows mem fuel (depth + 1) kids children ∧
      ∀ nm, node.childByName mem fuel nm = ok (children.find? fun child => child.name = nm) := by
  obtain ⟨node', ns', heq, -, -, hprops, ⟨children, hchildren, hkids⟩, -⟩ := h
  cases heq
  exact ⟨fun nm => Iter.find_of_collect _ hprops, children, hkids,
    fun nm => Iter.find_of_collect _ hchildren⟩

/-- `root()` answers the one node at the start of the structure block. -/
theorem root_nodesAt {mem : Memory} {base structOff stringsOff beforeEnd : Nat} {tree : Nodes}
    (h : WellFormed mem base structOff stringsOff tree beforeEnd) :
    ∃ m, ∀ fuel, m ≤ fuel → ∃ node, root mem fuel base = ok (some node) ∧ tree.Fits fuel ∧
      nodesAt (base + stringsOff) 1 (base + structOff) tree = [node] := by
  obtain ⟨before, name, props, kids, e, rfl⟩ := h.one_root
  obtain ⟨m, hm⟩ := Nodes.exists_fits (.cons before name props kids e .nil)
  refine ⟨m + before + 1, fun fuel hfuel => ?_⟩
  have hfits := hm fuel (by omega)
  have hp : 4 ∣ base + structOff := Nat.dvd_add h.base_aligned h.struct_aligned
  have hnodes := (at_append.mp h.tokens).1
  refine ⟨_, ?_, hfits, rfl⟩
  obtain ⟨node, p', hbase, -, -, h₁, h₂, -, -⟩ := Nodes.at_cons hnodes
  have d₁ : 4 ∣ base + structOff + (nops before).length := by rw [length_nops]; omega
  have hoff := be32_of_at h.struct_at h.struct_lt
  have hstr := be32_of_at h.strings_at h.strings_lt
  obtain ⟨f, hf⟩ : ∃ f, fuel = f + 1 + before := ⟨fuel - before - 1, by omega⟩
  have hnext : (nodes mem base).next mem fuel =
      ok (⟨node, base + stringsOff, 0, 1⟩, some ⟨base + stringsOff, node, name, 1⟩) := by
    rw [nodes, hoff, hstr, NodeIterator.next]
    nth_rewrite 2 [hf]
    rw [NodeIterator.loop_nops h₁, NodeIterator.loop_begin d₁ h.ok.1 hfits.1 h₂, if_pos rfl, ← hbase]
  rw [root, hnext, ok_bind, hbase]

/-- The whole tree, from its place in the structure block. -/
theorem WellFormed.shows {mem : Memory} {base structOff stringsOff beforeEnd fuel : Nat}
    {tree : Nodes} (h : WellFormed mem base structOff stringsOff tree beforeEnd)
    (hfits : tree.Fits fuel) :
    Shows mem fuel 1 tree (nodesAt (base + stringsOff) 1 (base + structOff) tree) :=
  shows_nodesAt (Nat.dvd_add h.base_aligned h.struct_aligned) h.ok hfits (at_append.mp h.tokens).1

/-- **The device tree is read as it was written.** With enough fuel for its loops, `root()` answers
the root, and from there `props()` and `children()` enumerate the whole tree. -/
theorem root_shows {mem : Memory} {base structOff stringsOff beforeEnd : Nat} {tree : Nodes}
    (h : WellFormed mem base structOff stringsOff tree beforeEnd) :
    ∃ m, ∀ fuel, m ≤ fuel → ∃ node, root mem fuel base = ok (some node) ∧
      Shows mem fuel 1 tree [node] := by
  obtain ⟨m, hm⟩ := root_nodesAt h
  refine ⟨m, fun fuel hfuel => ?_⟩
  obtain ⟨node, hroot, hfits, hnode⟩ := hm fuel hfuel
  exact ⟨node, hroot, hnode ▸ h.shows hfits⟩

/-! A root with a property and a child, with no-ops in between, at address 64. -/

/-- The property `id`, of three bytes. -/
def smallProp : PropToken := ⟨1, 2, ⟨[105, 100], [1, 2, 3]⟩⟩

def smallTree : Nodes :=
  .cons 1 [] [smallProp] (.cons 2 [107] [] .nil 0 .nil) 1 .nil

/-- The header (magic, total size, the two offsets), the tokens, and the strings `x` and `id`. -/
def smallBlob : List UInt8 :=
  word 0xd00dfeed ++ word 113 ++ word 40 ++ word 108 ++ List.replicate 24 0 ++
    (smallTree.encode ++ (nops 1 ++ word 0x9)) ++ [120, 0, 105, 100, 0]

def smallMem : Memory := fun p => smallBlob.getD (p - 64) 0

set_option maxRecDepth 4000 in
theorem smallTree_wellFormed : WellFormed smallMem 64 40 108 smallTree 1 := by
  have hprop : smallProp.Ok smallMem (64 + 108) := ⟨by decide, by decide, by decide, by decide⟩
  exact ⟨by decide, by decide, by decide, by decide, by decide, by decide, ⟨_, _, _, _, _, rfl⟩,
    ⟨by simp, by simpa using hprop, ⟨by decide, by simp, trivial, trivial⟩, trivial⟩, by decide⟩

theorem root_shows_smallTree :
    ∃ fuel node, root smallMem fuel 64 = ok (some node) ∧
      Shows smallMem fuel 1 smallTree [node] := by
  obtain ⟨m, hm⟩ := root_shows smallTree_wellFormed
  exact ⟨m, hm m (Nat.le_refl m)⟩

end DeviceTree
end Allora
