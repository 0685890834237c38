import Allora.Proof.Gic.Registers
import Mathlib.Data.List.Find

/-!
# The driver as a table

The registers have the entries of 4, 16 or 32 interrupts in one word, and the driver writes a word
to change one entry. If the registers do what is documented, then the driver cannot be told from a
table: no call touches the entry of another interrupt, as long as interrupts are below 1020, a core
is below 8, a priority below 256 and a configuration below 4. How an interrupt is triggered can be
changed only while it is idle, and software interrupts can be sent only after `init`.

Not every call does what its name says. `set_core` does nothing to an interrupt below 32, which is
what `GIC::enable` is called with for the timer. `get_core` does not return the core that `set_core`
was given: it returns one less than the bit that stands for it, which for cores above 1 is another
number. And `clear_soft`, whose shifts are off, writes to the senders of its own interrupt for
interrupt 0 only, which is the one the handler table has.
-/

set_option autoImplicit false

namespace Allora
namespace Gic

open Outcome Packed

/-! ## The table -/

namespace Table

variable (impl : Implementation) (t : Table) (i : Nat)

/-- The first of the cores that an interrupt goes to, as `get_core` has it. -/
def core : Answer :=
  match (List.range 8).find? (t.targets i).getLsbD with
  | some c => .core (2 ^ c - 1)
  | none => .panicked "attempt to shift left with overflow"

def enable : Table :=
  { t with enabled := Function.update t.enabled i (t.enabled i || impl.switchable i) }

def disable : Table :=
  { t with enabled := Function.update t.enabled i (t.enabled i && !impl.switchable i) }

/-- A software interrupt stays pending. -/
def clear : Table :=
  { t with latched := Function.update t.latched i (t.latched i && decide (i < 16)) }

def clearSoft : Table :=
  { t with senders := Function.update t.senders i 0 }

def setCore (core : Nat) : Table :=
  { t with
    targets := Function.update t.targets i
      (keep (impl.targetBits i) (t.targets i) ((1 : BitVec 8) <<< core)) }

def setPriority (priority : U32) : Table :=
  { t with
    priority := Function.update t.priority i
      (keep (impl.priorityBits i) (t.priority i) (priority.setWidth 8)) }

/-- The configuration after `set_config`. -/
def configured (config : U32) : BitVec 2 :=
  keep (impl.configBits i) (t.config i) (config.setWidth 2)

def setConfig (config : U32) : Table :=
  { t with config := Function.update t.config i (t.configured impl i config) }

/-- A software interrupt for this core. -/
def sendSelf (me : Nat) : Table :=
  { t with senders := Function.update t.senders i (t.senders i ||| (1 : BitVec 8) <<< me) }

def step (me : Nat) : Turn → Table × List Answer
  | .init => ({ t with on := true, interface := true }, [])
  | .enable i => (t.enable impl i, [])
  | .disable i => (t.disable impl i, [])
  | .isPending i => (t, [.pending (t.isPending i)])
  | .clear i => (t.clear i, [])
  | .clearSoft i => (t.clearSoft i, [])
  | .getCore i => (t, [t.core i])
  | .setCore i core => (t.setCore impl i core, [])
  | .setPriority i priority => (t.setPriority impl i priority, [])
  | .setConfig i config => (t.setConfig impl i config, [])
  | .signalSoft i core =>
    (if core = me then t.sendSelf i.toNat me else t, [.sent ((1 : U32) <<< (16 + core) ||| i)])
  | .gicEnable i => ((t.setCore impl i me).enable impl i, [])
  | .signal s => (t.signal s, [])

end Table

/-- The table and its users as a machine. -/
def table (me : Nat) (impl : Implementation) : Machine Table Turn Answer :=
  ⟨fun t turn => t.step impl me turn⟩

/-- What the driver may be asked, and what may be heard, when the table is `t`. -/
def Turn.Allowed (impl : Implementation) (t : Table) : Turn → Prop
  | .init => True
  | .enable i => i < 1020
  | .disable i => i < 1020
  | .isPending i => i < 1020
  | .clear i => i < 1020
  | .clearSoft i => i = 0
  | .getCore i => i < 1020
  | .setCore i core => i < 1020 ∧ core < 8
  | .setPriority i priority => i < 1020 ∧ priority.toNat < 256
  | .setConfig i config =>
    i < 1020 ∧ config.toNat < 4 ∧ (t.configured impl i config ≠ t.config i → t.Idle i)
  | .signalSoft i core => i.toNat < 16 ∧ core < 8 ∧ t.on = true
  | .gicEnable i => i < 1020
  | .signal s => s.Possible impl ∧ t.on = true

instance (t : Table) (i : Nat) : Decidable (t.Idle i) :=
  inferInstanceAs (Decidable (_ ∧ _ ∧ _))

instance (impl : Implementation) : (s : Signal) → Decidable (s.Possible impl)
  | .line _ _ => inferInstanceAs (Decidable (_ = _))
  | .soft _ _ => inferInstanceAs (Decidable (_ ∧ _))

instance (impl : Implementation) (t : Table) : (turn : Turn) → Decidable (turn.Allowed impl t)
  | .init => inferInstanceAs (Decidable True)
  | .enable _ | .disable _ | .isPending _ | .clear _ | .getCore _ | .gicEnable _ =>
    inferInstanceAs (Decidable (_ < _))
  | .clearSoft _ => inferInstanceAs (Decidable (_ = _))
  | .setCore _ _ | .setPriority _ _ | .signal _ => inferInstanceAs (Decidable (_ ∧ _))
  | .setConfig _ _ => inferInstanceAs (Decidable (_ ∧ _ ∧ (_ → _)))
  | .signalSoft _ _ => inferInstanceAs (Decidable (_ ∧ _ ∧ _))

/-! ## Words -/

section Words

variable {k : Nat}

/-- A one in the place of an interrupt. -/
theorem one_self (i j : Nat) : one (i / 32) ((1 : U32) <<< (i % 32)) j = decide (j = i) :=
  getLsbD_one_shift (by decide) i j

/-- What is done wherever there is a one is done to that interrupt, and to no other. -/
theorem at_one {β : Type} (f : Nat → β) (g : Nat → Bool → β) (hg : ∀ j, g j false = f j) (i : Nat) :
    (fun j => g j (one (i / 32) ((1 : U32) <<< (i % 32)) j)) = Function.update f i (g i true) := by
  funext j
  rw [one_self]
  by_cases hji : j = i
  · rw [hji, decide_eq_true rfl, Function.update_self]
  · rw [decide_eq_false hji, hg, Function.update_of_ne hji]

theorem getLsbD_one {j : Nat} (hk : k < 32) : ((1 : U32) <<< k).getLsbD j = decide (j = k) := by
  rw [BitVec.getLsbD_shiftLeft, show (1 : U32) = 1#32 from rfl, BitVec.getLsbD_one]
  by_cases hjk : j = k
  · subst hjk
    simp [hk]
  · by_cases hlt : j < k
    · simp [hlt, hjk]
    · have hsub : j - k ≠ 0 := by omega
      simp [hsub, hjk]

/-- Testing one bit. -/
theorem and_one_shift (x : U32) (hk : k < 32) :
    x &&& ((1 : U32) <<< k) ≠ 0 ↔ x.getLsbD k = true := by
  constructor
  · intro hne
    apply Classical.byContradiction
    intro hx
    apply hne
    apply BitVec.eq_of_getLsbD_eq
    intro j _
    rw [BitVec.getLsbD_and, getLsbD_one hk]
    by_cases hjk : j = k
    · subst hjk
      simp [hx]
    · simp [hjk]
  · intro hx hzero
    have hat : (x &&& ((1 : U32) <<< k)).getLsbD k = false := by
      rw [hzero]
      exact BitVec.getLsbD_zero
    rw [BitVec.getLsbD_and, getLsbD_one hk, hx, decide_eq_true rfl] at hat
    cases hat

/-- A field is written through its word, and the other fields of the word are written back. -/
theorem written_put {w per i : Nat} (bits : Nat → BitVec w) {f : Nat → BitVec w} {x v : U32}
    (hper : 0 < per) (hn : per * w ≤ 32) (hv : Fits w v)
    (hx : ∀ j, j / per = i / per → field w x (j % per) = f j) :
    written w per bits f (i / per) (put w x (i % per) v) =
      Function.update f i (keep (bits i) (f i) (v.setWidth w)) := by
  funext j
  rw [written]
  by_cases hdiv : j / per = i / per
  · rw [if_pos hdiv, field_put hper hn hv hdiv]
    by_cases hji : j = i
    · rw [if_pos hji, hji, Function.update_self]
    · rw [if_neg hji, Function.update_of_ne hji, hx j hdiv, keep_self]
  · have hji : j ≠ i := fun h => hdiv (congrArg (· / per) h)
    rw [if_neg hdiv, Function.update_of_ne hji]

theorem mask_eight : mask 32 8 = 0xff := rfl

theorem mask_two : mask 32 2 = 0x03 := rfl

/-- The bit of a core. -/
theorem shl_core {core : Nat} (hcore : core < 8) :
    shl 1 core = ok ((1 : U32) <<< core) ∧ ((1 : U32) <<< core).toNat = 2 ^ core ∧
      Fits 8 ((1 : U32) <<< core) ∧
      ((1 : U32) <<< core).setWidth 8 = (1 : BitVec 8) <<< core := by
  have hall : ∀ c : Fin 8, shl 1 c = ok ((1 : U32) <<< c.val) ∧
      ((1 : U32) <<< c.val).toNat = 2 ^ c.val ∧ ((1 : U32) <<< c.val).toNat < 2 ^ 8 ∧
      ((1 : U32) <<< c.val).setWidth 8 = (1 : BitVec 8) <<< c.val := by decide
  obtain ⟨hshl, hpow, hlt, hwidth⟩ := hall ⟨core, hcore⟩
  exact ⟨hshl, hpow, fits_of_lt hlt, hwidth⟩

/-- The first core of a bit. -/
theorem find_core {core : Nat} (hcore : core < 8) :
    (List.range 8).find? ((1 : BitVec 8) <<< core).getLsbD = some core := by
  have hall : ∀ c : Fin 8,
      (List.range 8).find? ((1 : BitVec 8) <<< c.val).getLsbD = some c.val := by decide
  exact hall ⟨core, hcore⟩

/-- What `get_core` makes of the field. -/
theorem getCore_field (x : BitVec 8) :
    (shl 1 (trailingZeros (x.setWidth 32)) >>= fun first =>
      subChecked (x.setWidth 32 &&& first).toNat 1) =
      match (List.range 8).find? x.getLsbD with
      | some c => ok (2 ^ c - 1)
      | none => .panic "attempt to shift left with overflow" := by
  have hlow : ∀ b, b < 32 → (x.setWidth 32).getLsbD b = x.getLsbD b := by
    intro b hb
    rw [BitVec.getLsbD_setWidth, decide_eq_true hb, Bool.true_and]
  have hfind : (List.range 32).find? (x.setWidth 32).getLsbD = (List.range 8).find? x.getLsbD := by
    have hsplit : List.range 32 = List.range 8 ++ (List.range 24).map (8 + ·) := by decide
    have hhigh : ((List.range 24).map (8 + ·)).find? (x.setWidth 32).getLsbD = none := by
      rw [List.find?_eq_none]
      intro b hb
      obtain ⟨j, hj, rfl⟩ := List.mem_map.mp hb
      rw [List.mem_range] at hj
      rw [hlow _ (by omega), BitVec.getLsbD_of_ge _ _ (by omega)]
      exact Bool.false_ne_true
    rw [hsplit, List.find?_append, hhigh, Option.or_none]
    refine List.find?_congr fun b hb => ?_
    exact hlow b (Nat.lt_trans (List.mem_range.mp hb) (by decide))
  rw [trailingZeros, hfind]
  cases hx : (List.range 8).find? x.getLsbD with
  | none => exact rfl
  | some c =>
    have hc : c < 8 := List.mem_range.mp (List.mem_of_find?_eq_some hx)
    have hbit : x.getLsbD c = true := List.find?_some hx
    have hc' : c < 32 := Nat.lt_trans hc (by decide)
    obtain ⟨hshl, hpow, -, -⟩ := shl_core hc
    have hand : (x.setWidth 32 &&& (1 : U32) <<< c).toNat = 2 ^ c := by
      have hsame : x.setWidth 32 &&& (1 : U32) <<< c = (1 : U32) <<< c := by
        apply BitVec.eq_of_getLsbD_eq
        intro b hb
        rw [BitVec.getLsbD_and, hlow b hb, getLsbD_one hc', Bool.and_comm]
        by_cases hbc : b = c
        · rw [hbc, hbit, Bool.and_true]
        · rw [decide_eq_false hbc, Bool.false_and]
      rw [hsame]
      exact hpow
    rw [Option.getD_some, hshl, ok_bind, hand, subChecked, if_pos Nat.one_le_two_pow]

/-- The word that `signal_soft` writes: an interrupt, a list of one core, and nothing else. -/
theorem sgi_value {core : Nat} {interrupt : U32} (hi : interrupt.toNat < 16) (hcore : core < 8) :
    ((((1 : U32) <<< core) <<< 16) &&& ((0xff : U32) <<< 16)) ||| (interrupt &&& 0x0f) =
        (1 : U32) <<< (16 + core) ||| interrupt ∧
      (((1 : U32) <<< (16 + core) ||| interrupt) &&& 0x0f).toNat = interrupt.toNat ∧
      (∀ c, c < 8 → ((1 : U32) <<< (16 + core) ||| interrupt).getLsbD (16 + c) =
        decide (core = c)) ∧
      ((1 : U32) <<< (16 + core) ||| interrupt) &&& 0xff00fff0 = 0 := by
  have hall : ∀ (i : Fin 16) (core : Fin 8),
      ((((1 : U32) <<< core.val) <<< 16) &&& ((0xff : U32) <<< 16)) |||
          (BitVec.ofNat 32 i &&& 0x0f) = (1 : U32) <<< (16 + core.val) ||| BitVec.ofNat 32 i ∧
        (((1 : U32) <<< (16 + core.val) ||| BitVec.ofNat 32 i) &&& 0x0f).toNat = i ∧
        (∀ c : Fin 8, ((1 : U32) <<< (16 + core.val) ||| BitVec.ofNat 32 i).getLsbD (16 + c.val) =
          decide (core.val = c.val)) ∧
        ((1 : U32) <<< (16 + core.val) ||| BitVec.ofNat 32 i) &&& 0xff00fff0 = 0 := by decide
  obtain ⟨hvalue, hnum, htarget, hrest⟩ := hall ⟨_, hi⟩ ⟨_, hcore⟩
  rw [BitVec.ofNat_toNat, BitVec.setWidth_eq] at hvalue hnum htarget hrest
  exact ⟨hvalue, hnum, fun c hc => htarget ⟨c, hc⟩, hrest⟩

end Words

/-! ## One call -/

section Calls

variable {δ : Type} {impl : Implementation} {me i : Nat} {r : Registers δ} {view : δ → Table}
  (h : Documented impl me r view) (d : δ)

include h

namespace Documented

theorem init : view (Gic.init r d) = { view d with on := true, interface := true } := by
  rw [Gic.init, h.iccBpr, h.iccPmr, h.iccCtlr, h.ctlr]

theorem enable (hi : i < 1020) : view (Gic.enable r d i) = (view d).enable impl i := by
  have hk : i / 32 < 32 := by omega
  have hbit := at_one (view d).enabled
    (fun j b => (view d).enabled j || (impl.switchable j && b)) (by simp) i
  simp only [Bool.and_true] at hbit
  rw [Gic.enable, h.isenabler _ _ _ hk, Table.setEnabled, hbit, Table.enable]

theorem disable (hi : i < 1020) : view (Gic.disable r d i) = (view d).disable impl i := by
  have hk : i / 32 < 32 := by omega
  have hbit := at_one (view d).enabled
    (fun j b => (view d).enabled j && !(impl.switchable j && b)) (by simp) i
  simp only [Bool.and_true] at hbit
  rw [Gic.disable, h.icenabler _ _ _ hk, Table.clearEnabled, hbit, Table.disable]

theorem clear (hi : i < 1020) : view (Gic.clear r d i) = (view d).clear i := by
  have hk : i / 32 < 32 := by omega
  have hsoft : (!decide (16 ≤ i)) = decide (i < 16) := by
    rw [← decide_not]
    exact decide_eq_decide.mpr Nat.not_le
  have hbit := at_one (view d).latched
    (fun j b => (view d).latched j && !(decide (16 ≤ j) && b)) (by simp) i
  simp only [Bool.and_true, hsoft] at hbit
  rw [Gic.clear, h.icpendr _ _ _ hk, Table.clearPending, hbit, Table.clear]

theorem isPending (hi : i < 1020) : Gic.isPending r d i = (view d).isPending i := by
  have hmod : i % 32 < 32 := Nat.mod_lt i (by decide)
  rw [Gic.isPending, ← h.icpendr_read d i hi, Bool.eq_iff_iff, decide_eq_true_iff]
  exact and_one_shift _ hmod

/-- The senders of interrupt 0 are the low byte of the word. -/
theorem clearSoft : view (Gic.clearSoft r d 0) = (view d).clearSoft 0 := by
  have hwrite : Gic.clearSoft r d 0 = r.write d (add GICD_CPENDSGIR 0) 0xff := rfl
  have hself : ∀ x : BitVec 8, x &&& ~~~field 8 (0xff : U32) 0 = 0 := by
    intro x
    rw [show field 8 (0xff : U32) 0 = BitVec.allOnes 8 from rfl, BitVec.not_allOnes]
    exact BitVec.and_zero
  have hother : ∀ k : Fin 4, k.val ≠ 0 → field 8 (0xff : U32) k.val = 0 := by decide
  rw [hwrite, h.cpendsgir _ _ _ (by decide), Table.clearSenders, Table.clearSoft]
  congr 1
  funext j
  by_cases hj : j = 0
  · rw [hj, if_pos rfl, Function.update_self, hself]
  · rw [Function.update_of_ne hj]
    by_cases hdiv : j / 4 = 0
    · have hmod : j % 4 ≠ 0 := by omega
      rw [if_pos hdiv, hother ⟨j % 4, Nat.mod_lt j (by decide)⟩ hmod]
      exact BitVec.and_allOnes
    · rw [if_neg hdiv]

theorem setCore {core : Nat} (hi : i < 1020) (hcore : core < 8) :
    ∃ d', Gic.setCore r d i core = ok d' ∧ view d' = (view d).setCore impl i core := by
  obtain ⟨hshl, -, hfits, hwidth⟩ := shl_core hcore
  have hk : i / 4 < 255 := by omega
  have hword : ∀ j, j / 4 = i / 4 →
      field 8 (r.read d (add GICD_ITARGETSR (i / 4))) (j % 4) = (view d).targets j := by
    intro j hj
    rw [← h.itargetsr_read d j (by omega), Packed.get, hj]
  refine ⟨r.write d (add GICD_ITARGETSR (i / 4))
    (put 8 (r.read d (add GICD_ITARGETSR (i / 4))) (i % 4) ((1 : U32) <<< core)), ?_, ?_⟩
  · rw [Gic.setCore, hshl, ok_bind, put, mask_eight]
  · rw [h.itargetsr _ _ _ hk, written_put impl.targetBits (by decide) (by decide) hfits hword,
      hwidth, Table.setCore]

theorem setPriority {priority : U32} (hi : i < 1020) (hpriority : priority.toNat < 256) :
    view (Gic.setPriority r d i priority) = (view d).setPriority impl i priority := by
  have hk : i / 4 < 255 := by omega
  have hword : ∀ j, j / 4 = i / 4 →
      field 8 (r.read d (add GICD_IPRIORITYR (i / 4))) (j % 4) = (view d).priority j := by
    intro j hj
    rw [← h.ipriorityr_read d j (by omega), Packed.get, hj]
  have hwritten := written_put impl.priorityBits (by decide) (by decide)
    (fits_of_lt (w := 8) hpriority) hword
  rw [Gic.setPriority, Table.setPriority, ← hwritten, put, mask_eight]
  exact h.ipriorityr _ _ _ hk

theorem setConfig {config : U32} (hi : i < 1020) (hconfig : config.toNat < 4)
    (hidle : (view d).configured impl i config ≠ (view d).config i → (view d).Idle i) :
    view (Gic.setConfig r d i config) = (view d).setConfig impl i config := by
  have hk : i / 16 < 64 := by omega
  have hword : ∀ j, j / 16 = i / 16 →
      field 2 (r.read d (add GICD_ICFGR (i / 16))) (j % 16) = (view d).config j := by
    intro j hj
    rw [← h.icfgr_read d j (by omega), Packed.get, hj]
  have hwritten := written_put impl.configBits (by decide) (by decide)
    (fits_of_lt (w := 2) hconfig) hword
  rw [Gic.setConfig, Table.setConfig, Table.configured, ← hwritten, put, mask_two]
  apply h.icfgr _ _ _ hk
  intro j hne
  rw [← mask_two] at hne
  rw [← put, hwritten] at hne
  by_cases hji : j = i
  · subst hji
    rw [Function.update_self] at hne
    exact hidle hne
  · rw [Function.update_of_ne hji] at hne
    exact absurd rfl hne

theorem getCore (hi : i < 1020) :
    called d (Gic.getCore r d i >>= fun n => ok (d, [.core n])) = (d, [(view d).core i]) := by
  have hfield : (r.read d (add GICD_ITARGETSR (i / 4)) >>> (i % 4 * 8)) &&& 0xff =
      ((view d).targets i).setWidth 32 := by
    rw [← h.itargetsr_read d i hi]
    exact shift_mask 8 _ _
  have hcore := getCore_field ((view d).targets i)
  rw [Gic.getCore, hfield, hcore, Table.core]
  cases (List.range 8).find? ((view d).targets i).getLsbD with
  | none => exact rfl
  | some c => exact rfl

/-- Only this core's bit of the list matters to it. -/
theorem signalSoft {core : Nat} {interrupt : U32} (hme : me < 8) (hi : interrupt.toNat < 16)
    (hcore : core < 8) (hon : (view d).on = true) :
    ∃ d', Gic.signalSoft r d interrupt core = ok ((1 : U32) <<< (16 + core) ||| interrupt, d') ∧
      view d' = if core = me then (view d).sendSelf interrupt.toNat me else view d := by
  obtain ⟨hvalue, hnum, htarget, hrest⟩ := sgi_value hi hcore
  refine ⟨r.write d GICD_SGIR ((1 : U32) <<< (16 + core) ||| interrupt), ?_, ?_⟩
  · rw [Gic.signalSoft, (shl_core hcore).1, ok_bind]
    exact congrArg (fun value => ok (value, r.write d GICD_SGIR value)) hvalue
  · rw [h.sgir _ _ hon hrest, Table.send, hnum, htarget me hme]
    by_cases hself : core = me
    · rw [if_pos hself, Table.sendSelf]
      congr 1
      funext j
      by_cases hj : j = interrupt.toNat
      · rw [hj, if_pos ⟨rfl, decide_eq_true hself⟩, Function.update_self]
      · rw [if_neg fun hand => hj hand.1, Function.update_of_ne hj]
    · have hmiss : ∀ j, ¬ (j = interrupt.toNat ∧ decide (core = me) = true) :=
        fun _ hand => hself (of_decide_eq_true hand.2)
      simp only [if_neg hself, if_neg (hmiss _)]

theorem gicEnable (hme : me < 8) (hi : i < 1020) :
    ∃ d', GIC.enable r d me i = ok d' ∧
      view d' = ((view d).setCore impl i me).enable impl i := by
  obtain ⟨d', hset, hview⟩ := h.setCore d hi hme
  refine ⟨Gic.enable r d' i, ?_, ?_⟩
  · rw [GIC.enable, hset, ok_bind]
  · rw [h.enable d' hi, hview]

/-- **One call is a step of the table.** -/
theorem step (hme : me < 8) (turn : Turn) (hallowed : turn.Allowed impl (view d)) :
    (Gic.step me r d turn).2 = ((view d).step impl me turn).2 ∧
      view (Gic.step me r d turn).1 = ((view d).step impl me turn).1 := by
  cases turn with
  | init => exact ⟨rfl, h.init d⟩
  | enable i => exact ⟨rfl, h.enable d hallowed⟩
  | disable i => exact ⟨rfl, h.disable d hallowed⟩
  | isPending i => exact ⟨congrArg (fun b => [Answer.pending b]) (h.isPending d hallowed), rfl⟩
  | clear i => exact ⟨rfl, h.clear d hallowed⟩
  | clearSoft i =>
    have hzero : i = 0 := hallowed
    subst hzero
    exact ⟨rfl, h.clearSoft d⟩
  | getCore i =>
    rw [Gic.step, h.getCore d hallowed]
    exact ⟨rfl, rfl⟩
  | setCore i core =>
    obtain ⟨d', hset, hview⟩ := h.setCore d hallowed.1 hallowed.2
    rw [Gic.step, hset]
    exact ⟨rfl, hview⟩
  | setPriority i priority => exact ⟨rfl, h.setPriority d hallowed.1 hallowed.2⟩
  | setConfig i config =>
    obtain ⟨hi, hconfig, hidle⟩ := hallowed
    exact ⟨rfl, h.setConfig d hi hconfig hidle⟩
  | signalSoft i core =>
    obtain ⟨hi, hcore, hon⟩ := hallowed
    obtain ⟨d', hsent, hview⟩ := h.signalSoft d hme hi hcore hon
    rw [Gic.step, hsent]
    exact ⟨rfl, hview⟩
  | gicEnable i =>
    obtain ⟨d', henable, hview⟩ := h.gicEnable d hme hallowed
    rw [Gic.step, henable]
    exact ⟨rfl, hview⟩
  | signal s => exact ⟨rfl, h.signal d s hallowed.2 hallowed.1⟩

/-- `set_core` leaves a private interrupt where it is: with the core that asks, if there are others. -/
theorem core_private (hi : i < 32) (core : Nat) :
    (view d).setCore impl i core = view d ∧
      (impl.single = false → me < 8 → (view d).core i = .core (2 ^ me - 1)) := by
  constructor
  · rw [Table.setCore, impl.private_targets i hi, keep_zero, Function.update_eq_self]
  · intro hsingle hme
    have hown : impl.own me = (1 : BitVec 8) <<< me := by
      rw [Implementation.own, hsingle]
      exact if_neg Bool.false_ne_true
    rw [Table.core, h.private_targets d i hi, hown, find_core hme]

end Documented

end Calls

/-- `get_core` after `set_core`, where all of the cores can be targets. -/
theorem Table.core_setCore {impl : Implementation} (t : Table) {i core : Nat} (hcore : core < 8)
    (hbits : impl.targetBits i = BitVec.allOnes 8) :
    (t.setCore impl i core).core i = .core (2 ^ core - 1) := by
  have htargets : (t.setCore impl i core).targets i = (1 : BitVec 8) <<< core := by
    have hkeep : keep (BitVec.allOnes 8) (t.targets i) ((1 : BitVec 8) <<< core) =
        (1 : BitVec 8) <<< core := by
      rw [keep, BitVec.not_allOnes, BitVec.and_allOnes, BitVec.and_zero, BitVec.zero_or]
    rw [← hkeep, ← hbits]
    exact Function.update_self (f := t.targets) i _
  rw [Table.core, htargets, find_core hcore]

/-- **`clear_soft` writes where its interrupt is for one interrupt only**, of the sixteen. -/
theorem clearSoft_iff {i : Nat} (hi : i < 16) :
    (∀ (δ : Type) (r : Registers δ) (d : δ), clearSoft r d i =
      r.write d (add GICD_CPENDSGIR (i / 4)) ((0xff : U32) <<< (i % 4 * 8))) ↔ i = 0 := by
  constructor
  · intro h
    -- a controller that knows the last word it was given
    have hlast := h (Nat × U32) ⟨fun _ _ => 0, fun _ addr v => (addr, v), fun d _ => d⟩ (0, 0)
    apply Classical.byContradiction
    intro hne
    have hall : ∀ j : Fin 16, j.val ≠ 0 → (add GICD_CPENDSGIR ((j.val / 4) <<< 2),
        (0xff : U32) <<< ((j.val % 4) <<< 2)) ≠
          (add GICD_CPENDSGIR (j.val / 4), (0xff : U32) <<< (j.val % 4 * 8)) := by decide
    exact hall ⟨i, hi⟩ hne hlast
  · intro hzero δ r d
    rw [hzero]
    exact rfl

/-! ## Runs -/

/-- **The driver is a table of interrupts.** Whatever the registers stand for at first, any number
of calls in any order, with signals between them, returns what it would on that table, and leaves
the registers standing for the table it would leave. -/
theorem driver_refines {δ : Type} {impl : Implementation} {me : Nat} {r : Registers δ}
    {view : δ → Table} (hme : me < 8) (h : Documented impl me r view) (d : δ) (turns : List Turn)
    (hallowed : (table me impl).Throughout (fun t _ turn => turn.Allowed impl t) (view d) turns) :
    ((driver me r).run d turns).2 = ((table me impl).run (view d) turns).2 ∧
      view ((driver me r).run d turns).1 = ((table me impl).run (view d) turns).1 := by
  apply (driver me r).run_simulates (R := fun d t => view d = t) ?_ rfl turns hallowed
  intro d t _ turn hview hturn
  subst hview
  exact h.step d hme turn hturn

/-- A board with four cores. The software interrupts are enabled for good, and the upper half of a
priority is kept. -/
def board : Implementation where
  single := false
  switchable i := decide (16 ≤ i ∧ i < 288)
  targetBits i := if i < 32 then 0 else 0x0f
  priorityBits _ := 0xf0
  configBits i := if i < 32 then 0 else 2
  wired i := decide (27 ≤ i ∧ i < 288)
  private_targets _ hi := if_pos hi
  single_targets h := nomatch h
  soft_config _ hi := if_pos (Nat.lt_trans hi (by decide))
  wired_range i hi := by
    have hrange := of_decide_eq_true hi
    omega

/-- As after a reset. -/
def reset : Table where
  on := false
  interface := false
  enabled i := decide (i < 16)
  latched _ := false
  line _ := false
  senders _ := 0
  targets _ := 0
  priority _ := 0
  config _ := 0

/-- The timer's interrupt 30 is enabled, and given to core 3, which does nothing. Interrupt 33 comes
from a line that is held, and 35 from an edge. Core 2 sends interrupt 0, and this core sends itself
interrupt 2. -/
def driverTurns : List Turn :=
  [.init, .gicEnable 30, .setCore 30 3, .getCore 30, .gicEnable 33, .setPriority 33 0x8f,
    .signal (.line 33 true), .isPending 33, .clear 33, .isPending 33, .signal (.line 33 false),
    .isPending 33, .setConfig 35 2, .gicEnable 35, .signal (.line 35 true),
    .signal (.line 35 false), .isPending 35, .clear 35, .isPending 35, .setCore 35 3, .getCore 35,
    .getCore 33, .signal (.soft 0 2), .isPending 0, .clearSoft 0, .isPending 0, .signalSoft 2 1,
    .isPending 2, .disable 35]

theorem driver_refines_turns : ((driver 1 (device board 1)).run reset driverTurns).2 =
      [.core 1, .pending true, .pending true, .pending false, .pending true, .pending false,
        .core 7, .core 1, .pending true, .pending false, .sent 0x20002, .pending true] ∧
    ((driver 1 (device board 1)).run reset driverTurns).1.seen board 1 =
      ((table 1 board).run (reset.seen board 1) driverTurns).1 := by
  have hme : 1 < 8 := by decide
  have hallowed : (table 1 board).Throughout (fun t _ turn => turn.Allowed board t)
      (reset.seen board 1) driverTurns := by decide
  obtain ⟨hanswers, hview⟩ :=
    driver_refines hme (documented_device board 1) reset driverTurns hallowed
  exact ⟨hanswers.trans (by decide), hview⟩

end Gic
end Allora
