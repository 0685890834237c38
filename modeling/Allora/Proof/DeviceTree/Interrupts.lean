import Allora.Interrupts
import Allora.Proof.DeviceTree.Cursors

/-!
# Every triple is one interrupt

At the head of the loop the bytes that are left are the flags of the triple before, and then whole
triples. So there are more than four of them exactly if there is a triple to come.
-/

set_option autoImplicit false

namespace Allora
namespace DeviceTree

open Outcome Bytes

/-- A triple of cells. -/
structure Triple where
  type : UInt32
  irq : UInt32
  flags : UInt32

namespace Triple

/-- Three big-endian cells. -/
def encode (t : Triple) : List UInt8 :=
  word t.type.toNat ++ (word t.irq.toNat ++ word t.flags.toNat)

/-- The number of the interrupt: shared ones count from 32, the private ones of a core from 16. -/
def number (t : Triple) : Nat := if t.type = 0 then 32 + t.irq.toNat else 16 + t.irq.toNat

end Triple

/-! ## One cell -/

theorem fromBeBytes_word {n : Nat} (h : n < 2 ^ 32) : fromBeBytes (word n) = n := by
  simp only [fromBeBytes, word, List.foldl_cons, List.foldl_nil, UInt8.toNat_ofNat']
  omega

/-- `regs_to_usize` takes one cell off. -/
theorem regsToUsize_word {n : Nat} (h : n < 2 ^ 32) (rest : List UInt8) :
    regsToUsize (word n ++ rest) 1 = ok (n, rest) := by
  have hmid : mulChecked 64 1 4 = ok 4 := rfl
  have hsplit : splitAt (word n ++ rest) 4 = ok (word n, rest) := by
    rw [splitAt, if_pos (by simp)]
    rfl
  have hchunks : chunks4 (word n) = [word n] := by simp [chunks4, word]
  have hcopy : copyFromSlice (word n) = ok (word n) := rfl
  rw [regsToUsize, hmid, ok_bind, hsplit, ok_bind]
  simp only [hchunks, List.foldlM_cons, List.foldlM_nil, hcopy, ok_bind, pure_eq_ok,
    fromBeBytes_word h]
  rw [Nat.zero_shiftLeft, Nat.zero_mod, Nat.zero_or]

theorem getInterrupt_eq (t : Triple) (h : t.irq.toNat < 2 ^ 32 - 32) :
    getInterrupt t.type.toNat t.irq.toNat = ok t.number := by
  have hirq : t.irq.toNat % 2 ^ 32 = t.irq.toNat := Nat.mod_eq_of_lt t.irq.toNat_lt
  have htype : t.type.toNat = 0 ↔ t.type = 0 := UInt32.toNat_inj (b := 0)
  rw [getInterrupt, hirq, Triple.number]
  by_cases h0 : t.type = 0
  · rw [if_pos (htype.mpr h0), if_pos h0]
    exact if_pos (by omega)
  · rw [if_neg (mt htype.mp h0), if_neg h0]
    exact if_pos (by omega)

/-! ## The loop -/

/-- What is left after a triple: its flags, and the triples after it. -/
def left (t : Triple) (ts : List Triple) : List UInt8 :=
  word t.flags.toNat ++ ts.flatMap Triple.encode

/-- The first two cells of a triple are its type and its number. -/
theorem read_triple (t : Triple) (ts : List Triple) {α : Type}
    (f : Nat → Nat → List UInt8 → Outcome α) :
    (do
      let (irqType, rest) ← regsToUsize ((t :: ts).flatMap Triple.encode) 1
      let (irq, rest) ← regsToUsize rest 1
      f irqType irq rest) = f t.type.toNat t.irq.toNat (left t ts) := by
  have hbytes : (t :: ts).flatMap Triple.encode =
      word t.type.toNat ++ (word t.irq.toNat ++ left t ts) := by
    simp [Triple.encode, left]
  rw [hbytes, regsToUsize_word t.type.toNat_lt, ok_bind]
  simp only [regsToUsize_word t.irq.toNat_lt, ok_bind]

/-- The loop, on what a triple has left. -/
theorem interruptsLoop_left (ts : List Triple) :
    ∀ {fuel : Nat} (t : Triple) (acc : List Nat), ts.length < fuel →
      (∀ t ∈ ts, t.irq.toNat < 2 ^ 32 - 32) →
      interruptsLoop fuel (left t ts) acc = ok (acc ++ ts.map Triple.number) := by
  induction ts with
  | nil =>
    intro fuel t acc hfuel _
    obtain ⟨fuel, rfl⟩ := Nat.exists_eq_succ_of_ne_zero (Nat.ne_of_gt hfuel)
    -- the flags alone
    rw [interruptsLoop, if_neg (by simp [left]), List.map_nil, List.append_nil]
    rfl
  | cons u ts ih =>
    intro fuel t acc hfuel hirq
    obtain ⟨fuel, rfl⟩ := Nat.exists_eq_succ_of_ne_zero (Nat.ne_of_gt (Nat.zero_lt_of_lt hfuel))
    rw [List.length_cons] at hfuel
    have hlong : 4 < (left t (u :: ts)).length := by
      simp [left, Triple.encode]
    have hskip : sliceFrom (left t (u :: ts)) 4 = ok ((u :: ts).flatMap Triple.encode) := by
      rw [sliceFrom, if_pos (Nat.le_of_lt hlong)]
      rfl
    rw [interruptsLoop, if_pos hlong, hskip, ok_bind,
      read_triple u ts fun irqType irq rest => do
        let n ← getInterrupt irqType irq
        interruptsLoop fuel rest (acc ++ [n])]
    rw [getInterrupt_eq u (hirq u (List.mem_cons_self ..)), ok_bind,
      ih u (acc ++ [u.number]) (by omega) fun v hv => hirq v (List.mem_cons_of_mem _ hv),
      List.map_cons, List.append_assoc, List.singleton_append]

/-- The interrupts of a property that is whole triples. -/
theorem allInterrupts_triples {fuel : Nat} (t : Triple) (ts : List Triple)
    (hirq : ∀ u ∈ t :: ts, u.irq.toNat < 2 ^ 32 - 32) (hfuel : ts.length < fuel) :
    allInterrupts fuel ((t :: ts).flatMap Triple.encode) = ok ((t :: ts).map Triple.number) := by
  rw [allInterrupts, read_triple t ts fun irqType irq rest => do
    let n ← getInterrupt irqType irq
    interruptsLoop fuel rest [n]]
  rw [getInterrupt_eq t (hirq t (List.mem_cons_self ..)), ok_bind,
    interruptsLoop_left ts t [t.number] hfuel fun u hu => hirq u (List.mem_cons_of_mem _ hu)]
  rfl

theorem firstInterrupt_triples (t : Triple) (ts : List Triple) (h : t.irq.toNat < 2 ^ 32 - 32) :
    firstInterrupt ((t :: ts).flatMap Triple.encode) = ok t.number := by
  rw [firstInterrupt, read_triple t ts fun irqType irq _ => getInterrupt irqType irq,
    getInterrupt_eq t h]

/-- **The number of interrupts is the number of triples**, whatever it is, and each is read from its
own triple; the first of them is the one that `interrupt_for_node` answers with. -/
theorem interrupts_triples {mem : Memory} {fuel : Nat} {node : Node} {prop : Property} (t : Triple)
    (ts : List Triple) (hprop : node.propByName mem fuel INTERRUPTS = ok (some prop))
    (hvalue : prop.value = (t :: ts).flatMap Triple.encode)
    (hirq : ∀ u ∈ t :: ts, u.irq.toNat < 2 ^ 32 - 32) (hfuel : ts.length < fuel) :
    interruptsForNode mem fuel node = ok (some ((t :: ts).map Triple.number)) ∧
      interruptForNode mem fuel node = ok (some t.number) := by
  have hall : allInterrupts fuel prop.value = ok ((t :: ts).map Triple.number) := by
    rw [hvalue]
    exact allInterrupts_triples t ts hirq hfuel
  have hfirst : firstInterrupt prop.value = ok t.number := by
    rw [hvalue]
    exact firstInterrupt_triples t ts (hirq t (List.mem_cons_self ..))
  constructor
  · rw [interruptsForNode, hprop, ok_bind]
    simp only [hall, ok_bind]
    rfl
  · rw [interruptForNode, hprop, ok_bind]
    simp only [hfirst, ok_bind]
    rfl

/-- A shared interrupt and a private one. -/
def twoTriples : List Triple := [⟨0, 5, 4⟩, ⟨1, 14, 15⟩]

/-- Their property, as it stands in the tree. -/
def timerProp : PropToken where
  nops := 0
  nameoff := 0
  prop := ⟨INTERRUPTS, twoTriples.flatMap Triple.encode⟩

/-- The tokens of a node with this property, and its name. -/
def timerBytes : List UInt8 := timerProp.encode ++ word 0x2 ++ INTERRUPTS ++ [0]

def timerMem : Memory := fun p => timerBytes.getD p 0

/-- The node, past its name. -/
def timerNode : Node := ⟨40, 0, [], 1⟩

set_option maxRecDepth 4000 in
theorem timerNode_prop :
    timerNode.propByName timerMem 16 INTERRUPTS = ok (some timerProp.prop) := by
  have hok : timerProp.Ok timerMem 40 := ⟨by decide, by decide, by decide, by decide⟩
  have hat : At timerMem 0 timerProp.encode := by decide
  have hnext : PropIterator.next timerMem 16 ⟨0, 40⟩ =
      ok (⟨0 + timerProp.encode.length, 40⟩, some timerProp.prop) := by
    show PropIterator.loop timerMem 16 (15 + (timerProp.nops + 1)) ⟨0, 40⟩ = _
    exact PropIterator.loop_prop (Nat.dvd_zero 4) hok (by decide) hat
  have hname : decide (timerProp.prop.name = INTERRUPTS) = true := rfl
  have hprops : timerNode.props = ⟨0, 40⟩ := rfl
  simp only [Node.propByName, hprops, Iter.find, hnext, ok_bind, hname, if_true]

theorem interrupts_triples_timer :
    interruptsForNode timerMem 16 timerNode = ok (some [37, 30]) ∧
      interruptForNode timerMem 16 timerNode = ok (some 37) := by
  have hirq : ∀ u ∈ twoTriples, u.irq.toNat < 2 ^ 32 - 32 := by decide
  exact interrupts_triples ⟨0, 5, 4⟩ [⟨1, 14, 15⟩] timerNode_prop rfl hirq (by decide)

end DeviceTree
end Allora
