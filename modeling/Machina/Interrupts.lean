import Machina.FullSystem
import Machina.Priority

/-!
# The two interrupt scans

`pending_interrupt` decides whether the execution loop should stop for an
interrupt, `handle_interrupt` takes one. The first looks at the raw lines and lets
the highest-priority pending interrupt alone decide; the second mirrors the lines
into `mip` and passes over interrupts that are masked. This module says exactly
when the two agree, by the bits of `mip`, of the lines and of `mie`, the delegated
interrupts and the order of the scan.
-/

namespace MachinaInterrupts

open MachinaBits MachinaRiscv MachinaCsr MachinaCpu MachinaFullSystem MachinaPriority

/-- The interrupt is delegated to supervisor mode. -/
def isDelegated (c : RiscvCpu) (irq : Interrupt) : Prop := (c.csr.mideleg >>> irq.code) &&& 1#64 ≠ 0#64

instance (c : RiscvCpu) (irq : Interrupt) : Decidable (isDelegated c irq) := inferInstanceAs (Decidable (_ ≠ _))

/-- Which interrupts the privilege level and the enable bits let through. -/
inductive Gate where
  | closed | undelegated | all
  deriving DecidableEq, Repr

def gate (c : RiscvCpu) : Gate :=
  match c.priv with
  | .user => .all
  | .supervisor => if has c.csr.mstatus mstatusSie then .all else .undelegated
  | .machine => if has c.csr.mstatus mstatusMie then .undelegated else .closed

def Gate.passes (g : Gate) (c : RiscvCpu) (irq : Interrupt) : Bool :=
  match g with
  | .closed => false
  | .undelegated => !decide (isDelegated c irq)
  | .all => true

/-- Within one state, masking only depends on delegation. -/
theorem canTake_eq (c : RiscvCpu) (irq : Interrupt) : canTake c irq = (gate c).passes c irq := by
  unfold canTake gate
  have hdel : isDelegated c irq ↔ ¬ (c.csr.mideleg >>> irq.code) &&& 1#64 = 0#64 := Iff.rfl
  generalize (c.csr.mideleg >>> irq.code) &&& 1#64 = d at hdel
  cases c.priv with
  | user => simp [Gate.passes, PrivLevel.lt_def, PrivLevel.code]
  | supervisor =>
    by_cases hd : d = 0#64 <;> cases has c.csr.mstatus mstatusSie <;>
      simp [hd, hdel, Gate.passes, PrivLevel.lt_def, PrivLevel.code]
  | machine =>
    by_cases hd : d = 0#64 <;> cases has c.csr.mstatus mstatusMie <;>
      simp [hd, hdel, Gate.passes, PrivLevel.lt_def, PrivLevel.code]

variable (s : FullSystemCpu)

/-- Pending and enabled in `mip` or on a shared line. -/
def raised (irq : Interrupt) : Bool :=
  has ((s.cpu.csr.mip ||| s.devMip) &&& s.cpu.csr.mie) (bit irq.code)

/-- Pending and enabled once the shared lines are mirrored into `mip`. -/
def mirrored (irq : Interrupt) : Bool :=
  has (s.mirrorMip.cpu.csr.mip &&& s.cpu.csr.mie) (bit irq.code)

theorem code_lt (irq : Interrupt) : irq.code < 64 := by cases irq <;> decide

theorem mem_intPriority (irq : Interrupt) : irq ∈ intPriority := by cases irq <;> decide

/-- The interrupts whose bits of `mip` follow the shared lines. -/
def isHardware : Interrupt → Bool
  | .supervisorSoftware | .supervisorTimer => false
  | _ => true

/-- In builtin mode a machine timer line sets STIP in `mip`. -/
def setsStip (irq : Interrupt) : Prop :=
  irq = .supervisorTimer ∧ s.builtinMode = true ∧ has s.sharedMip (bit 7) = true

/-- Enabled, and pending in the sense of `handle_interrupt`: a hardware interrupt by its line, a software interrupt by
its bit of `mip`. -/
def Stands (irq : Interrupt) : Prop :=
  has s.cpu.csr.mie (bit irq.code) = true ∧
    if isHardware irq then has s.devMip (bit irq.code) = true
    else has s.cpu.csr.mip (bit irq.code) = true ∨ setsStip s irq

/-- Enabled and only seen by `pending_interrupt`: a stale bit of `mip` whose hardware line is down, or a line of a
software interrupt whose bit of `mip` is clear. -/
def Drops (irq : Interrupt) : Prop :=
  has s.cpu.csr.mie (bit irq.code) = true ∧
    if isHardware irq then has s.cpu.csr.mip (bit irq.code) = true ∧ has s.devMip (bit irq.code) = false
    else has s.sharedMip (bit irq.code) = true ∧ has s.cpu.csr.mip (bit irq.code) = false ∧ ¬ setsStip s irq

theorem mirrored_iff (irq : Interrupt) : mirrored s irq = true ↔ Stands s irq := by
  unfold mirrored FullSystemCpu.mirrorMip Stands FullSystemCpu.devMip setsStip
  simp only [has_bit _ (code_lt irq)]
  by_cases ht : s.builtinMode = true ∧ has s.sharedMip (bit 7) = true
  · simp only [ht, and_self, decide_true, if_true]
    cases irq <;> simp [put, hwMask, isHardware, Interrupt.code, and_comm]
  · simp only [ht, decide_false, if_false, Bool.false_eq_true]
    cases irq <;> simp [put, hwMask, isHardware, Interrupt.code, and_comm]

theorem raised_iff (irq : Interrupt) : raised s irq = true ↔ Stands s irq ∨ Drops s irq := by
  unfold raised Stands Drops FullSystemCpu.devMip setsStip
  simp only [has_bit _ (code_lt irq)]
  by_cases ht : s.builtinMode = true ∧ has s.sharedMip (bit 7) = true
  · simp only [ht, and_self, if_true]
    cases irq <;> simp [isHardware, Interrupt.code] <;> grind
  · simp only [ht, if_false]
    cases irq <;> simp [isHardware, Interrupt.code] <;> grind

theorem firstPending_eq (c : RiscvCpu) (pending : BitVec 64) (l : List Interrupt) :
    firstPending c pending l = (l.find? fun irq => has pending (bit irq.code)).any (canTake c) := by
  induction l with
  | nil => rfl
  | cons irq rest ih =>
    cases h : has pending (bit irq.code) with
    | true => simp [firstPending, h]
    | false => simp [firstPending, h, ih]

/-- The highest-priority interrupt the raw lines show. -/
def highest : Option Interrupt := intPriority.find? (raised s)

theorem pendingInterrupt_eq : s.pendingInterrupt = (highest s).any ((gate s.cpu).passes s.cpu) := by
  unfold FullSystemCpu.pendingInterrupt
  rw [firstPending_eq, funext (canTake_eq s.cpu)]
  rfl

theorem handleInterrupt_taken_iff :
    s.handleInterrupt.2 = true ↔ ∃ irq, mirrored s irq = true ∧ (gate s.cpu).passes s.cpu irq = true := by
  have hsel : s.mirrorMip.cpu.selectInterrupt =
      intPriority.find? fun irq => mirrored s irq && (gate s.cpu).passes s.cpu irq := by
    unfold RiscvCpu.selectInterrupt
    congr 1
    funext irq
    exact congrArg (mirrored s irq && ·) (canTake_eq s.cpu irq)
  have htaken : s.handleInterrupt.2 = s.mirrorMip.cpu.selectInterrupt.isSome := by
    unfold FullSystemCpu.handleInterrupt RiscvCpu.handleInterrupt
    dsimp only
    cases s.mirrorMip.cpu.selectInterrupt <;> rfl
  rw [htaken, hsel, List.find?_isSome]
  constructor
  · rintro ⟨irq, _, h⟩
    exact ⟨irq, by simpa using h⟩
  · rintro ⟨irq, h⟩
    exact ⟨irq, mem_intPriority irq, by simpa using h⟩

/-- The order of the scans. -/
def Before (a b : Interrupt) : Prop := intPriority.idxOf a < intPriority.idxOf b

instance (a b : Interrupt) : Decidable (Before a b) := inferInstanceAs (Decidable (_ < _))

theorem highest_isChoice : IsChoice Before (fun irq => raised s irq = true) (highest s) :=
  isChoice_find? _ (by decide) mem_intPriority

/-- The privilege level and the enable bits let the interrupt through; otherwise it is masked. -/
def Passes (irq : Interrupt) : Prop := (gate s.cpu).passes s.cpu irq = true

/-- A masked interrupt stands before one that would be taken only if another unmasked one stands before the masked one;
and an unmasked interrupt that mirroring drops is only pending behind a masked one or beside one that would be taken. -/
structure Consistent : Prop where
  notHidden : ∀ irq masked, Stands s irq → Passes s irq → Stands s masked ∨ Drops s masked → ¬ Passes s masked →
    Before masked irq → ∃ first, (Stands s first ∨ Drops s first) ∧ Passes s first ∧ Before first masked
  notLost : ∀ irq, Drops s irq → Passes s irq →
    (∃ masked, (Stands s masked ∨ Drops s masked) ∧ ¬ Passes s masked ∧ Before masked irq) ∨
      ∃ other, Stands s other ∧ Passes s other

/-- The two scans agree exactly in the consistent states. -/
theorem pendingInterrupt_eq_taken_iff (s : FullSystemCpu) :
    s.pendingInterrupt = s.handleInterrupt.2 ↔ Consistent s := by
  rw [Bool.eq_iff_iff, pendingInterrupt_eq, handleInterrupt_taken_iff]
  simp only [mirrored_iff]
  have hchoice := highest_isChoice s
  simp only [IsChoice, raised_iff] at hchoice
  cases hfirst : highest s with
  | none =>
    -- nothing is pending
    rw [hfirst] at hchoice
    have hnone (irq : Interrupt) : ¬ Stands s irq := fun h => hchoice irq (Or.inl h)
    refine iff_of_true (by simp [hnone]) ⟨fun irq _ h => absurd h (hnone irq), fun irq h => ?_⟩
    exact absurd (Or.inr h) (hchoice irq)
  | some first =>
    rw [hfirst] at hchoice
    obtain ⟨hpending, hbefore⟩ := hchoice
    change (Passes s first ↔ ∃ irq, Stands s irq ∧ Passes s irq) ↔ Consistent s
    constructor
    · intro hagree
      refine ⟨fun irq masked hirq hpass hmasked hnot _ => ?_, fun irq hirq hpass => ?_⟩
      · have hfp := hagree.mpr ⟨irq, hirq, hpass⟩
        exact ⟨first, hpending, hfp, hbefore masked hmasked fun h => hnot (h ▸ hfp)⟩
      · by_cases hfp : Passes s first
        · exact Or.inr (hagree.mp hfp)
        · exact Or.inl ⟨first, hpending, hfp, hbefore irq (Or.inr hirq) fun h => hfp (h ▸ hpass)⟩
    · rintro ⟨hhidden, hlost⟩
      -- nothing that is pending stands before the first one
      have hleast (irq : Interrupt) (h : Stands s irq ∨ Drops s irq) : ¬ Before irq first := by
        intro hlt
        by_cases heq : irq = first
        · exact absurd (heq ▸ hlt) (lt_irrefl _)
        · exact lt_asymm hlt (hbefore irq h heq)
      constructor
      · intro hfp
        rcases hpending with hstands | hdrops
        · exact ⟨first, hstands, hfp⟩
        · rcases hlost first hdrops hfp with ⟨masked, hmasked, -, hlt⟩ | hother
          · exact absurd hlt (hleast masked hmasked)
          · exact hother
      · rintro ⟨irq, hirq, hpass⟩
        by_contra hfp
        have hlt := hbefore irq (Or.inl hirq) fun h => hfp (h ▸ hpass)
        obtain ⟨other, hother, -, hlt'⟩ := hhidden irq first hirq hpass hpending hfp hlt
        exact hleast other hother hlt'

/-- Machine mode with interrupts enabled; the delegated external interrupt and the
undelegated software interrupt of supervisor mode are both pending and enabled. -/
def maskedFirst : FullSystemCpu where
  cpu := { RiscvCpu.newWithModel .genericRv64 with
    csr := { CsrFile.new with mstatus := bit 3, mideleg := bit 9, mie := bit 9 ||| bit 1, mip := bit 1 } }
  mem := fun _ => 0#8
  mapped := fun _ _ => false
  ramSize := 0#64
  mromBase := 0#64
  mromSize := 0#64
  sharedMip := bit 9
  builtinMode := false
  instretWriteSuppression := false

/-- The masked external interrupt hides the software interrupt that would be taken. -/
theorem maskedFirst_hides : maskedFirst.pendingInterrupt = false ∧ maskedFirst.handleInterrupt.2 = true := by
  decide +kernel

end MachinaInterrupts
