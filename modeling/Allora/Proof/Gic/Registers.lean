import Allora.Gic
import Allora.Lib.Packed

/-!
# What the controller's registers are documented to do

What the kernel means by the controller is a table with an entry for each interrupt (`Table`).
`Documented` says what the registers that the driver uses do to that table, word by word, as the
second version of the architecture has it for the core that reads and writes them. Which enable bits
can be switched and which bits of a field can be written is up to the implementation
(`Implementation`), but not everything is: the targets of the interrupts below 32, which are private
to a core, can be read only and name the core that reads them, and the configuration of the software
interrupts can be read only too.

Nothing is said where the architecture leaves it open: a software interrupt that is sent while the
distributor is off, and a change to the configuration of an interrupt that is enabled or pending.

`device` is a controller that does all this, for any implementation.
-/

set_option autoImplicit false

namespace Allora
namespace Gic

/-! ## The table -/

/-- What the registers stand for, as one core sees it. The software interrupts have one bit for each
core that has sent them. -/
structure Table where
  on : Bool
  interface : Bool
  enabled : Nat → Bool
  /-- Pending since the last edge of the line. -/
  latched : Nat → Bool
  line : Nat → Bool
  senders : Nat → BitVec 8
  targets : Nat → BitVec 8
  priority : Nat → BitVec 8
  config : Nat → BitVec 2

/-- What an implementation leaves to the software. -/
structure Implementation where
  /-- There is no other core. -/
  single : Bool
  /-- The interrupts that can be enabled and disabled. -/
  switchable : Nat → Bool
  targetBits : Nat → BitVec 8
  priorityBits : Nat → BitVec 8
  configBits : Nat → BitVec 2
  /-- The interrupts that have a device. -/
  wired : Nat → Bool
  /-- The targets of private interrupts are given. -/
  private_targets : ∀ i, i < 32 → targetBits i = 0
  single_targets : single = true → ∀ i, targetBits i = 0
  /-- And so is how a software interrupt is triggered. -/
  soft_config : ∀ i, i < 16 → configBits i = 0
  /-- Devices have the interrupts from 16 to 1019. -/
  wired_range : ∀ i, wired i = true → 16 ≤ i ∧ i < 1020

/-- What the core `me` reads as the targets of a private interrupt. -/
def Implementation.own (impl : Implementation) (me : Nat) : BitVec 8 :=
  if impl.single then 0 else (1 : BitVec 8) <<< me

/-- The bits of `m` are written, the others stay. -/
def keep {w : Nat} (m old new : BitVec w) : BitVec w := (old &&& ~~~m) ||| (new &&& m)

theorem keep_self {w : Nat} (m x : BitVec w) : keep m x x = x := by
  apply BitVec.eq_of_getLsbD_eq
  intro i hi
  rw [keep, BitVec.getLsbD_or, BitVec.getLsbD_and, BitVec.getLsbD_and, BitVec.getLsbD_not,
    decide_eq_true hi, Bool.true_and]
  cases x.getLsbD i <;> cases m.getLsbD i <;> rfl

theorem keep_zero {w : Nat} (old new : BitVec w) : keep 0 old new = old := by
  simp [keep]

/-- Word `k` of a register of bits, with `v` in it, has a one for interrupt `i`. -/
def one (k : Nat) (v : U32) (i : Nat) : Bool := decide (i / 32 = k) && v.getLsbD (i % 32)

/-- The fields after `v` was written to word `k` of their register. -/
def written (w per : Nat) (bits f : Nat → BitVec w) (k : Nat) (v : U32) (i : Nat) : BitVec w :=
  if i / per = k then keep (bits i) (f i) (Packed.field w v (i % per)) else f i

namespace Table

variable (t : Table)

/-- The line of a level-sensitive interrupt makes it pending. -/
def level (i : Nat) : Bool := !(t.config i).getLsbD 1

def isPending (i : Nat) : Bool :=
  if i < 16 then t.senders i ≠ 0 else t.latched i || (t.level i && t.line i)

/-- Neither enabled nor pending, and with its line low. -/
def Idle (i : Nat) : Prop := t.enabled i = false ∧ t.isPending i = false ∧ t.line i = false

/-- The ones in a word of `GICD_ISENABLER`, and in the same word of the other registers of bits. -/
def setEnabled (impl : Implementation) (k : Nat) (v : U32) : Table :=
  { t with enabled := fun i => t.enabled i || (impl.switchable i && one k v i) }

def clearEnabled (impl : Implementation) (k : Nat) (v : U32) : Table :=
  { t with enabled := fun i => t.enabled i && !(impl.switchable i && one k v i) }

/-- Software interrupts are not cleared here. -/
def clearPending (k : Nat) (v : U32) : Table :=
  { t with latched := fun i => t.latched i && !(decide (16 ≤ i) && one k v i) }

def clearSenders (k : Nat) (v : U32) : Table :=
  { t with
    senders := fun i =>
      if i / 4 = k then t.senders i &&& ~~~Packed.field 8 v (i % 4) else t.senders i }

/-- `GICD_SGIR`, with a list of cores. -/
def send (me : Nat) (v : U32) : Table :=
  { t with
    senders := fun i =>
      if i = (v &&& 0x0f).toNat ∧ v.getLsbD (16 + me) then t.senders i ||| (1 : BitVec 8) <<< me
      else t.senders i }

def signal : Signal → Table
  | .line i high =>
    { t with
      line := Function.update t.line i high
      latched := Function.update t.latched i
        (t.latched i || (high && !t.line i && !t.level i)) }
  | .soft i core =>
    { t with senders := Function.update t.senders i (t.senders i ||| (1 : BitVec 8) <<< core) }

end Table

/-- What can reach the controller. -/
def Signal.Possible (impl : Implementation) : Signal → Prop
  | .line i _ => impl.wired i = true
  | .soft i core => i < 16 ∧ core < 8

/-! ## What is documented -/

/-- The registers do what is documented to what they stand for. -/
structure Documented {δ : Type} (impl : Implementation) (me : Nat) (r : Registers δ)
    (view : δ → Table) : Prop where
  ctlr : ∀ d, view (r.write d GICD_CTLR 1) = { view d with on := true }
  iccCtlr : ∀ d, view (r.write d GICC_CTLR 1) = { view d with interface := true }
  iccPmr : ∀ d v, view (r.write d GICC_PMR v) = view d
  iccBpr : ∀ d v, view (r.write d GICC_BPR v) = view d
  isenabler : ∀ d k v, k < 32 →
    view (r.write d (add GICD_ISENABLER k) v) = (view d).setEnabled impl k v
  icenabler : ∀ d k v, k < 32 →
    view (r.write d (add GICD_ICENABLER k) v) = (view d).clearEnabled impl k v
  icpendr : ∀ d k v, k < 32 → view (r.write d (add GICD_ICPENDR k) v) = (view d).clearPending k v
  icpendr_read : ∀ d i, i < 1020 →
    (r.read d (add GICD_ICPENDR (i / 32))).getLsbD (i % 32) = (view d).isPending i
  cpendsgir : ∀ d k v, k < 4 →
    view (r.write d (add GICD_CPENDSGIR k) v) = (view d).clearSenders k v
  /-- With nothing in the word but a list of cores and an interrupt. -/
  sgir : ∀ d v, (view d).on = true → v &&& 0xff00fff0 = 0 →
    view (r.write d GICD_SGIR v) = (view d).send me v
  itargetsr : ∀ d k v, k < 255 → view (r.write d (add GICD_ITARGETSR k) v) =
    { view d with targets := written 8 4 impl.targetBits (view d).targets k v }
  itargetsr_read : ∀ d i, i < 1020 →
    Packed.get 8 4 (fun k => r.read d (add GICD_ITARGETSR k)) i = (view d).targets i
  private_targets : ∀ d i, i < 32 → (view d).targets i = impl.own me
  ipriorityr : ∀ d k v, k < 255 → view (r.write d (add GICD_IPRIORITYR k) v) =
    { view d with priority := written 8 4 impl.priorityBits (view d).priority k v }
  ipriorityr_read : ∀ d i, i < 1020 →
    Packed.get 8 4 (fun k => r.read d (add GICD_IPRIORITYR k)) i = (view d).priority i
  /-- An interrupt whose configuration changes is idle. -/
  icfgr : ∀ d k v, k < 64 →
    (∀ i, written 2 16 impl.configBits (view d).config k v i ≠ (view d).config i → (view d).Idle i) →
    view (r.write d (add GICD_ICFGR k) v) =
      { view d with config := written 2 16 impl.configBits (view d).config k v }
  icfgr_read : ∀ d i, i < 1024 →
    Packed.get 2 16 (fun k => r.read d (add GICD_ICFGR k)) i = (view d).config i
  /-- The distributor hears nothing while it is off. -/
  signal : ∀ d s, (view d).on = true → s.Possible impl → view (r.signal d s) = (view d).signal s

/-! ## A controller that does this -/

/-- The registers that the driver uses. -/
inductive Register
  | ctlr
  | isenabler
  | icenabler
  | icpendr
  | ipriorityr
  | itargetsr
  | icfgr
  | sgir
  | cpendsgir
  | iccCtlr
  deriving DecidableEq

namespace Register

def base : Register → Nat
  | ctlr => GICD_CTLR
  | isenabler => GICD_ISENABLER
  | icenabler => GICD_ICENABLER
  | icpendr => GICD_ICPENDR
  | ipriorityr => GICD_IPRIORITYR
  | itargetsr => GICD_ITARGETSR
  | icfgr => GICD_ICFGR
  | sgir => GICD_SGIR
  | cpendsgir => GICD_CPENDSGIR
  | iccCtlr => GICC_CTLR

/-- How many words it has. -/
def count : Register → Nat
  | isenabler | icenabler | icpendr => 32
  | ipriorityr | itargetsr => 255
  | icfgr => 64
  | cpendsgir => 4
  | ctlr | sgir | iccCtlr => 1

def all : List Register :=
  [ctlr, isenabler, icenabler, icpendr, ipriorityr, itargetsr, icfgr, sgir, cpendsgir, iccCtlr]

def word (addr : Nat) (reg : Register) : Option (Register × Nat) :=
  if reg.base ≤ addr ∧ addr < reg.base + 4 * reg.count then some (reg, (addr - reg.base) / 4)
  else none

end Register

/-- The register at an address, and which of its words. -/
def decode (addr : Nat) : Option (Register × Nat) := Register.all.findSome? (Register.word addr)

/-- The table that a core reads: with its own bit in the targets of the private interrupts. -/
def Table.seen (impl : Implementation) (me : Nat) (t : Table) : Table :=
  { t with targets := fun i => if i < 32 then impl.own me else t.targets i }

namespace Table

variable (impl : Implementation) (me : Nat) (t : Table)

def read : Register → Nat → U32
  | .icpendr, k => Packed.pack 32 1 32 (fun i => BitVec.ofBool (t.isPending i)) k
  | .ipriorityr, k => Packed.pack 32 8 4 t.priority k
  | .itargetsr, k => Packed.pack 32 8 4 (t.seen impl me).targets k
  | .icfgr, k => Packed.pack 32 2 16 t.config k
  | _, _ => 0

def write (v : U32) : Register → Nat → Table
  | .ctlr, _ => { t with on := v.getLsbD 0 }
  | .isenabler, k => t.setEnabled impl k v
  | .icenabler, k => t.clearEnabled impl k v
  | .icpendr, k => t.clearPending k v
  | .ipriorityr, k => { t with priority := written 8 4 impl.priorityBits t.priority k v }
  | .itargetsr, k => { t with targets := written 8 4 impl.targetBits t.targets k v }
  | .icfgr, k => { t with config := written 2 16 impl.configBits t.config k v }
  | .sgir, _ => t.send me v
  | .cpendsgir, k => t.clearSenders k v
  | .iccCtlr, _ => { t with interface := v.getLsbD 0 }

end Table

/-- The controller whose state is a table. -/
def device (impl : Implementation) (me : Nat) : Registers Table where
  read t addr :=
    match decode addr with
    | some (reg, k) => t.read impl me reg k
    | none => 0
  write t addr v :=
    match decode addr with
    | some (reg, k) => t.write impl me v reg k
    | none => t
  signal t s := t.signal s

section Device

variable {impl : Implementation} {me : Nat} (reg : Register) {k : Nat} (hk : k < reg.count)
  (t : Table)

/-- The registers lie one behind the other, in some order. -/
theorem registers_apart : Register.all.Pairwise fun reg reg' =>
    reg.base + 4 * reg.count ≤ reg'.base ∨ reg'.base + 4 * reg'.count ≤ reg.base := by
  decide

include hk in
theorem decode_add : decode (add reg.base k) = some (reg, k) := by
  have hmem : reg ∈ Register.all := by cases reg <;> decide
  obtain ⟨before, after, heq⟩ := List.append_of_mem hmem
  have hapart := registers_apart
  rw [heq] at hapart
  have hother : ∀ reg' ∈ before, reg'.word (add reg.base k) = none := by
    intro reg' hreg'
    have hlies := (List.pairwise_append.mp hapart).2.2 reg' hreg' reg List.mem_cons_self
    rw [Register.word, add, if_neg]
    omega
  have hself : reg.word (add reg.base k) = some (reg, k) := by
    have hin : reg.base ≤ reg.base + 4 * k ∧ reg.base + 4 * k < reg.base + 4 * reg.count := by
      omega
    rw [Register.word, add, if_pos hin, Nat.add_sub_cancel_left,
      Nat.mul_div_cancel_left k (by decide)]
  rw [decode, heq]
  exact List.findSome?_eq_some_iff.mpr ⟨before, reg, after, rfl, hself, hother⟩

include hk in
theorem device_write (v : U32) :
    (device impl me).write t (add reg.base k) v = t.write impl me v reg k := by
  simp only [device, decode_add reg hk]

include hk in
theorem device_read : (device impl me).read t (add reg.base k) = t.read impl me reg k := by
  simp only [device, decode_add reg hk]

/-- The fields of a register that reads as they are packed. -/
theorem device_get (w per : Nat) {i : Nat} {f : Nat → BitVec w} (hper : 0 < per)
    (hn : per * w ≤ 32) (hi : i < reg.count * per)
    (hread : ∀ k, t.read impl me reg k = Packed.pack 32 w per f k) :
    Packed.get w per (fun k => (device impl me).read t (add reg.base k)) i = f i := by
  have hk : i / per < reg.count := Nat.div_lt_of_lt_mul (Nat.mul_comm _ _ ▸ hi)
  rw [← Packed.get_pack hper hn f i, Packed.get, Packed.get, device_read reg hk, hread]

/-- The targets of private interrupts are kept by writes, so the table is seen with its own. -/
theorem seen_written (t : Table) (k : Nat) (v : U32) :
    ({ t with targets := written 8 4 impl.targetBits t.targets k v } : Table).seen impl me =
      { t.seen impl me with
        targets := written 8 4 impl.targetBits (t.seen impl me).targets k v } := by
  have htargets : ∀ i, (if i < 32 then impl.own me
      else written 8 4 impl.targetBits t.targets k v i) =
        written 8 4 impl.targetBits (t.seen impl me).targets k v i := by
    intro i
    by_cases hi : i < 32
    · rw [if_pos hi, written, impl.private_targets i hi, keep_zero, ite_self, Table.seen]
      exact (if_pos hi).symm
    · have hsame : (t.seen impl me).targets i = t.targets i := if_neg hi
      rw [if_neg hi, written, written, hsame]
  rw [Table.seen, Table.seen]
  exact congrArg (fun f => ({ t with targets := f } : Table)) (funext htargets)

include hk in
/-- The word of a register, as the table is seen after it was written. -/
theorem seen_write (v : U32) {t' : Table} (ht' : (t.write impl me v reg k).seen impl me = t') :
    ((device impl me).write t (add reg.base k) v).seen impl me = t' := by
  rw [device_write reg hk, ht']

theorem pending_get {i : Nat} (hi : i < 1024) :
    ((device impl me).read t (add GICD_ICPENDR (i / 32))).getLsbD (i % 32) = t.isPending i := by
  have hk : i / 32 < Register.count .icpendr := Nat.div_lt_of_lt_mul hi
  have hmod : i % 32 < 32 := Nat.mod_lt i (by decide)
  show ((device impl me).read t (add (Register.base .icpendr) (i / 32))).getLsbD (i % 32) = _
  rw [device_read .icpendr hk, Table.read, Packed.getLsbD_pack _ _ hmod, Nat.div_one, Nat.mod_one,
    Nat.mul_comm, Nat.div_add_mod]
  exact BitVec.getLsbD_ofBool ..

/-- **There is a controller that does what is documented.** -/
theorem documented_device (impl : Implementation) (me : Nat) :
    Documented impl me (device impl me) (Table.seen impl me) where
  ctlr t := seen_write .ctlr (k := 0) (by decide) t 1 rfl
  iccCtlr t := seen_write .iccCtlr (k := 0) (by decide) t 1 rfl
  iccPmr _ _ := rfl
  iccBpr _ _ := rfl
  isenabler t k v hk := seen_write .isenabler hk t v rfl
  icenabler t k v hk := seen_write .icenabler hk t v rfl
  icpendr t k v hk := seen_write .icpendr hk t v rfl
  icpendr_read t i hi := pending_get t (Nat.lt_trans hi (by decide))
  cpendsgir t k v hk := seen_write .cpendsgir hk t v rfl
  sgir t v _ _ := seen_write .sgir (k := 0) (by decide) t v rfl
  itargetsr t k v hk := seen_write .itargetsr hk t v (seen_written t k v)
  itargetsr_read t i hi :=
    device_get .itargetsr t 8 4 (by decide) (by decide) hi fun _ => rfl
  private_targets t i hi := if_pos hi
  ipriorityr t k v hk := seen_write .ipriorityr hk t v rfl
  ipriorityr_read t i hi :=
    device_get .ipriorityr t 8 4 (by decide) (by decide) hi fun _ => rfl
  icfgr t k v hk _ := seen_write .icfgr hk t v rfl
  icfgr_read t i hi :=
    device_get .icfgr t 2 16 (by decide) (by decide) hi fun _ => rfl
  signal t s _ _ := by cases s <;> rfl

end Device

end Gic
end Allora
