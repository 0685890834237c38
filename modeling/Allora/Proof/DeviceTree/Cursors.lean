import Allora.Proof.DeviceTree.Format

/-!
# What the cursors do with each token

One lemma for each token and each cursor. From these, the node cursor steps over properties and,
once it is inside a node, over whole subtrees: the depth it counts goes up and comes back.
-/

set_option autoImplicit false

namespace Allora
namespace DeviceTree

open Outcome Bytes

section NodeCursor

variable {mem : Memory} {scan fuel p strings depth sd : Nat}

theorem NodeIterator.loop_nop (h : At mem p (word 0x4)) :
    NodeIterator.loop mem scan (fuel + 1) ⟨p, strings, depth, sd⟩ =
      NodeIterator.loop mem scan fuel ⟨p + 4, strings, depth, sd⟩ := by
  have hval := be32_of_at h (by decide)
  simp only [NodeIterator.loop, hval]
  rfl

theorem NodeIterator.loop_nops {k : Nat} :
    ∀ {p : Nat}, At mem p (nops k) →
      NodeIterator.loop mem scan (fuel + k) ⟨p, strings, depth, sd⟩ =
        NodeIterator.loop mem scan fuel ⟨p + (nops k).length, strings, depth, sd⟩ := by
  induction k with
  | zero => exact fun _ => rfl
  | succ k ih =>
    intro p h
    rw [nops_succ, at_append, length_word] at h
    rw [← Nat.add_assoc, NodeIterator.loop_nop h.1, ih h.2]
    congr 2
    simp only [length_nops]
    omega

/-- The header of a property and its value are stepped over. -/
theorem NodeIterator.loop_prop {t : PropToken} (hp : 4 ∣ p) (hlt : t.prop.value.length < 2 ^ 32)
    (h : At mem p t.encode) :
    NodeIterator.loop mem scan (fuel + (t.nops + 1)) ⟨p, strings, depth, sd⟩ =
      NodeIterator.loop mem scan fuel ⟨p + t.encode.length, strings, depth, sd⟩ := by
  rw [PropToken.encode, at_append, at_append, at_append] at h
  obtain ⟨hnops, htok, hlen, -⟩ := h
  rw [Nat.add_comm t.nops, ← Nat.add_assoc, NodeIterator.loop_nops hnops]
  have hval := be32_of_at htok (by decide)
  have hvlen := be32_of_at hlen hlt
  have hpad := pad4_add (show 4 ∣ p + (DeviceTree.nops t.nops).length + 4 + 8 by
    rw [length_nops]; omega) t.prop.value.length
  rw [length_word] at hvlen
  simp only [NodeIterator.loop, hval, hvlen]
  rw [if_neg (by decide), hpad]
  congr 2
  simp only [PropToken.encode, List.length_append, length_word]
  omega

theorem NodeIterator.loop_props {ps : List PropToken} :
    ∀ {p : Nat}, 4 ∣ p → (∀ t ∈ ps, t.prop.value.length < 2 ^ 32) → At mem p (encodeProps ps) →
      NodeIterator.loop mem scan (fuel + propSteps ps) ⟨p, strings, depth, sd⟩ =
        NodeIterator.loop mem scan fuel ⟨p + (encodeProps ps).length, strings, depth, sd⟩ := by
  induction ps with
  | nil => exact fun _ _ _ => rfl
  | cons t ps ih =>
    intro p hp hlt h
    rw [encodeProps, List.flatMap_cons, at_append] at h
    have hsteps : fuel + propSteps (t :: ps) = fuel + propSteps ps + (t.nops + 1) := by
      simp only [propSteps, List.map_cons, List.sum_cons]
      omega
    rw [hsteps, NodeIterator.loop_prop hp (hlt t List.mem_cons_self) h.1,
      ih (Nat.dvd_add hp t.dvd_encode) (fun t' ht' => hlt t' (List.mem_cons_of_mem _ ht')) h.2]
    congr 2
    simp only [encodeProps, List.flatMap_cons, List.length_append]
    omega

/-- A begin token, with what the cursor reads of it. -/
theorem NodeIterator.loop_begin {name : List UInt8} (hp : 4 ∣ p) (hne : ∀ b ∈ name, b ≠ 0)
    (hscan : name.length < scan) (h : At mem p (encodeBegin name)) :
    NodeIterator.loop mem scan (fuel + 1) ⟨p, strings, depth, sd⟩ =
      if sd = 0 then
        ok (⟨p + (encodeBegin name).length, strings, depth, 1⟩,
          some ⟨strings, p + (encodeBegin name).length, name, depth + 1⟩)
      else
        NodeIterator.loop mem scan fuel
          ⟨p + (encodeBegin name).length, strings, depth, sd + 1⟩ := by
  rw [encodeBegin, at_append, at_append] at h
  obtain ⟨htok, hname, -⟩ := h
  rw [length_word] at hname
  have hval := be32_of_at htok (by decide)
  have hlen := strlen_of_at hname hne hscan
  have hslice : slice mem (p + 4) name.length = name := (at_append.mp hname).1
  have hpad := pad4_add (show 4 ∣ p + 4 by omega) (name.length + 1)
  have hbase : p + 4 + (name.length + 1) + (padding (name.length + 1)).length =
      p + (encodeBegin name).length := by
    simp only [encodeBegin, List.length_append, length_word, List.length_singleton]
    omega
  simp only [NodeIterator.loop, hval, hlen, hslice, ok_bind]
  rw [if_neg (by decide), Nat.add_assoc (p + 4), hpad, hbase]
  by_cases hsd : sd = 0
  · subst hsd
    rfl
  · rw [if_neg (by omega), if_neg hsd]

theorem NodeIterator.loop_end (h : At mem p (word 0x2)) :
    NodeIterator.loop mem scan (fuel + 1) ⟨p, strings, depth, sd⟩ =
      if sd = 0 then ok (⟨p + 4, strings, depth, sd⟩, none)
      else NodeIterator.loop mem scan fuel ⟨p + 4, strings, depth, sd - 1⟩ := by
  have hval := be32_of_at h (by decide)
  simp only [NodeIterator.loop, hval]
  rfl

/-- Inside a node, the cursor steps over these nodes. -/
def Skips (mem : Memory) (scan strings depth : Nat) (ns : Nodes) : Prop :=
  ∀ {fuel p sd : Nat}, 4 ∣ p → At mem p ns.encode → 0 < sd →
    NodeIterator.loop mem scan (fuel + ns.steps) ⟨p, strings, depth, sd⟩ =
      NodeIterator.loop mem scan fuel ⟨p + ns.encode.length, strings, depth, sd⟩

/-- From past the name of a node to past its end token. -/
theorem NodeIterator.loop_body {props : List PropToken} {kids : Nodes} {e : Nat} (hp : 4 ∣ p)
    (hprops : ∀ t ∈ props, t.prop.value.length < 2 ^ 32) (hkids : Skips mem scan strings depth kids)
    (h : At mem p (encodeBody props kids e)) :
    NodeIterator.loop mem scan (fuel + (propSteps props + kids.steps + e + 1))
        ⟨p, strings, depth, sd + 1⟩ =
      NodeIterator.loop mem scan fuel ⟨p + (encodeBody props kids e).length, strings, depth, sd⟩ := by
  rw [encodeBody, at_append, at_append, at_append] at h
  obtain ⟨h₁, h₂, h₃, h₄⟩ := h
  have hfuel : fuel + (propSteps props + kids.steps + e + 1) =
      fuel + 1 + e + kids.steps + propSteps props := by omega
  have d₁ := Nat.dvd_add hp (dvd_encodeProps props)
  rw [hfuel, loop_props hp hprops h₁, hkids d₁ h₂ (show 0 < sd + 1 by omega), loop_nops h₃,
    loop_end h₄, if_neg (Nat.succ_ne_zero sd), Nat.add_sub_cancel]
  congr 2
  simp only [encodeBody, List.length_append, length_word]
  omega

/-- **Inside a node, whole subtrees are stepped over.** -/
theorem skips_nodes {ns : Nodes} (hok : ns.Ok mem strings) (hfits : ns.Fits scan) :
    Skips mem scan strings depth ns := by
  induction ns with
  | nil => exact fun _ _ _ => rfl
  | cons before name props kids beforeEnd rest ihk ihr =>
    intro fuel p sd hp h hsd
    obtain ⟨hname, hprops, hkids, hrest⟩ := hok
    obtain ⟨hscan, -, -, hfk, hfr⟩ := hfits
    obtain ⟨base, p', hbase, hp', hend, h₁, h₂, h₃, h₄⟩ := Nodes.at_cons h
    have d₁ : 4 ∣ p + (nops before).length := by rw [length_nops]; omega
    have d₂ : 4 ∣ base := hbase ▸ Nat.dvd_add d₁ (dvd_encodeBegin name)
    have d₃ : 4 ∣ p' := hp' ▸ Nat.dvd_add d₂ (dvd_encodeBody props kids beforeEnd)
    have hfuel : fuel + (Nodes.cons before name props kids beforeEnd rest).steps =
        fuel + rest.steps + (propSteps props + kids.steps + beforeEnd + 1) + 1 + before := by
      simp only [Nodes.steps]
      omega
    rw [hfuel, NodeIterator.loop_nops h₁, NodeIterator.loop_begin d₁ hname hscan h₂,
      if_neg (by omega), ← hbase,
      NodeIterator.loop_body d₂ (fun t ht => (hprops t ht).value_lt) (ihk hkids hfk) h₃, ← hp',
      ihr hrest hfr d₃ h₄ hsd, hend]

end NodeCursor

section PropCursor

variable {mem : Memory} {scan fuel p strings : Nat}

theorem PropIterator.loop_nops {k : Nat} :
    ∀ {p : Nat}, At mem p (nops k) →
      PropIterator.loop mem scan (fuel + k) ⟨p, strings⟩ =
        PropIterator.loop mem scan fuel ⟨p + (nops k).length, strings⟩ := by
  induction k with
  | zero => exact fun _ => rfl
  | succ k ih =>
    intro p h
    rw [nops_succ, at_append, length_word] at h
    have hval := be32_of_at h.1 (by decide)
    have hstep : PropIterator.loop mem scan (fuel + k + 1) ⟨p, strings⟩ =
        PropIterator.loop mem scan (fuel + k) ⟨p + 4, strings⟩ := by
      simp only [PropIterator.loop, hval]
    rw [← Nat.add_assoc, hstep, ih h.2]
    congr 2
    simp only [length_nops]
    omega

/-- A property is read with its name and its value. -/
theorem PropIterator.loop_prop {t : PropToken} (hp : 4 ∣ p) (hok : t.Ok mem strings)
    (hscan : t.prop.name.length < scan) (h : At mem p t.encode) :
    PropIterator.loop mem scan (fuel + (t.nops + 1)) ⟨p, strings⟩ =
      ok (⟨p + t.encode.length, strings⟩, some t.prop) := by
  rw [PropToken.encode, at_append, at_append, at_append, at_append, at_append] at h
  obtain ⟨hnops, htok, hlen, hoff, hvalue, -⟩ := h
  rw [Nat.add_comm t.nops, ← Nat.add_assoc, PropIterator.loop_nops hnops]
  generalize hq : p + (DeviceTree.nops t.nops).length = q at htok hlen hoff hvalue
  have hdvd : 4 ∣ q + 4 + 8 := by
    rw [length_nops] at hq
    omega
  simp only [length_word, Nat.add_assoc] at hlen hoff hvalue
  have hval := be32_of_at htok (by decide)
  have hvlen := be32_of_at hlen hok.value_lt
  have hvoff := be32_of_at hoff hok.nameoff_lt
  have hname := strlen_of_at hok.name_at hok.name_ne hscan
  have hpad := pad4_add hdvd t.prop.value.length
  have hend : q + 4 + 8 + t.prop.value.length + (padding t.prop.value.length).length =
      p + t.encode.length := by
    simp only [PropToken.encode, List.length_append, length_word]
    omega
  have hslice : slice mem (strings + t.nameoff) t.prop.name.length = t.prop.name :=
    (at_append.mp hok.name_at).1
  have hslice' : slice mem (q + 4 + 8) t.prop.value.length = t.prop.value := hvalue
  simp only [PropIterator.loop, hval, hvlen, Nat.add_assoc q 4 4, hvoff, hname, ok_bind, hpad, hend,
    hslice, hslice']

/-- At a begin or an end token the properties are over. -/
theorem PropIterator.loop_stop {k tok : Nat} (htok : tok = 0x1 ∨ tok = 0x2)
    (h : At mem p (nops k ++ word tok)) :
    ∃ it, PropIterator.loop mem scan (fuel + (k + 1)) ⟨p, strings⟩ = ok (it, none) := by
  rw [at_append] at h
  refine ⟨⟨p + (nops k).length + 4, strings⟩, ?_⟩
  rw [Nat.add_comm k, ← Nat.add_assoc, PropIterator.loop_nops h.1]
  rcases htok with rfl | rfl
  · have hval := be32_of_at h.2 (by decide)
    simp only [PropIterator.loop, hval]
  · have hval := be32_of_at h.2 (by decide)
    simp only [PropIterator.loop, hval]

end PropCursor

end DeviceTree
end Allora
