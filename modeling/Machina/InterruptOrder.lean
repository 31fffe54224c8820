import Machina.Interrupts
import Machina.Priority

/-!
# Which interrupt is taken

The privileged architecture orders interrupts first by the mode they are destined
for and only then by their source. `handle_interrupt` scans one fixed list of
sources, so a delegated interrupt can go before one that is not.
-/

namespace MachinaInterruptOrder

open MachinaBits MachinaRiscv MachinaCsr MachinaCpu MachinaInterrupts MachinaPriority

def destination (c : RiscvCpu) (irq : Interrupt) : PrivLevel :=
  if isDelegated c irq then .supervisor else .machine

def enableBit : PrivLevel → BitVec 64
  | .machine => mstatusMie
  | .supervisor => mstatusSie
  | .user => 0#64

/-- Interrupts destined for a mode are enabled below it, and in it by its enable bit. -/
def EnabledFor (c : RiscvCpu) (level : PrivLevel) : Prop :=
  c.priv < level ∨ (c.priv = level ∧ has c.csr.mstatus (enableBit level) = true)

instance (c : RiscvCpu) (level : PrivLevel) : Decidable (EnabledFor c level) := inferInstanceAs (Decidable (_ ∨ _))

/-- Pending, enabled on its own, and enabled at the current privilege. -/
def Ready (c : RiscvCpu) (irq : Interrupt) : Prop :=
  (c.csr.mip.getLsbD irq.code = true ∧ c.csr.mie.getLsbD irq.code = true) ∧ EnabledFor c (destination c irq)

instance (c : RiscvCpu) (irq : Interrupt) : Decidable (Ready c irq) := inferInstanceAs (Decidable (_ ∧ _))

/-- The order of the sources within one destination. -/
def rank : Interrupt → Nat
  | .machineExternal => 0
  | .machineSoftware => 1
  | .machineTimer => 2
  | .supervisorExternal => 3
  | .supervisorSoftware => 4
  | .supervisorTimer => 5

/-- Interrupts for the higher mode go first, then the order of the sources decides. -/
def GoesBefore (c : RiscvCpu) (i j : Interrupt) : Prop :=
  destination c j < destination c i ∨ (destination c i = destination c j ∧ rank i < rank j)

instance (c : RiscvCpu) (i j : Interrupt) : Decidable (GoesBefore c i j) := inferInstanceAs (Decidable (_ ∨ _))

variable (c : RiscvCpu)

/-- The CPU after taking an interrupt, or none. -/
def afterInterrupt : Option Interrupt → RiscvCpu × Bool
  | some irq => (c.doTrap (interruptBit ||| BitVec.ofNat 64 irq.code) 0#64, true)
  | none => (c, false)

/-- The CPU takes the interrupt the architecture selects, in the mode it is destined for. -/
def TakesSelected : Prop :=
  ∃ o, IsChoice (GoesBefore c) (Ready c) o ∧ c.handleInterrupt = afterInterrupt c o ∧
    ∀ irq, o = some irq → c.handleInterrupt.1.priv = destination c irq

theorem handleInterrupt_eq : c.handleInterrupt = afterInterrupt c c.selectInterrupt := by
  unfold RiscvCpu.handleInterrupt
  cases c.selectInterrupt <;> rfl

/-- The test of the scan is the architecture's. -/
theorem scan_iff_ready (irq : Interrupt) :
    (has (c.csr.mip &&& c.csr.mie) (bit irq.code) && canTake c irq) = true ↔ Ready c irq := by
  have hcan : canTake c irq = true ↔ EnabledFor c (destination c irq) := by
    unfold canTake destination EnabledFor
    by_cases hd : isDelegated c irq
    · have hd' : (c.csr.mideleg >>> irq.code) &&& 1#64 ≠ 0#64 := hd
      rw [if_pos hd, if_pos hd']
      simp [enableBit]
    have hd' : ¬ (c.csr.mideleg >>> irq.code) &&& 1#64 ≠ 0#64 := hd
    rw [if_neg hd, if_neg hd']
    simp [enableBit]
  rw [Bool.and_eq_true, hcan, has_bit _ (code_lt irq), BitVec.getLsbD_and, Bool.and_eq_true]
  rfl

theorem intPriority_sorted : intPriority.Pairwise fun i j => rank i < rank j := by decide

/-- The scan takes the first ready interrupt in the order of the sources alone. -/
theorem selectInterrupt_isChoice : IsChoice (fun i j => rank i < rank j) (Ready c) c.selectInterrupt := by
  have h := isChoice_find? (fun irq => has (c.csr.mip &&& c.csr.mie) (bit irq.code) && canTake c irq)
    intPriority_sorted mem_intPriority
  simp only [scan_iff_ready] at h
  exact h

/-- An interrupt cause is the interrupt bit and the number. -/
theorem cause_injective {i j : Interrupt}
    (h : interruptBit ||| BitVec.ofNat 64 i.code = interruptBit ||| BitVec.ofNat 64 j.code) : i = j := by
  cases i <;> cases j <;> first | rfl | exact absurd h (by decide)

theorem delegated_cause_iff (irq : Interrupt) : delegated c.csr c.priv (interruptBit ||| BitVec.ofNat 64 irq.code) ↔
      isDelegated c irq ∧ c.priv < .machine := by
  have hflag : has (interruptBit ||| BitVec.ofNat 64 irq.code) interruptBit = true := by cases irq <;> decide
  have hnum : ((interruptBit ||| BitVec.ofNat 64 irq.code) &&& ~~~interruptBit).toNat = irq.code := by
    cases irq <;> decide
  rw [delegated, delegReg, if_pos hflag, hnum]
  rfl

/-- The cause register of the mode a trap enters. -/
def causeOf : BitVec 64 := if c.priv = .machine then c.csr.mcause else c.csr.scause

theorem causeOf_doTrap (cause tval : BitVec 64) : causeOf (c.doTrap cause tval) = cause := by
  unfold RiscvCpu.doTrap causeOf
  by_cases hd : delegated c.csr c.priv cause
  · simp [hd]
  · simp [hd]

theorem afterInterrupt_injective {c : RiscvCpu} {o o' : Option Interrupt}
    (h : afterInterrupt c o = afterInterrupt c o') : o = o' := by
  cases o with
  | none =>
    cases o' with
    | none => rfl
    | some j => cases congrArg Prod.snd h
  | some i =>
    cases o' with
    | none => cases congrArg Prod.snd h
    | some j =>
      have hcause := congrArg (fun r => causeOf r.1) h
      simp only [afterInterrupt, causeOf_doTrap] at hcause
      rw [cause_injective hcause]

theorem doTrap_priv_of_ready {c : RiscvCpu} {irq : Interrupt} (h : Ready c irq) :
    (c.doTrap (interruptBit ||| BitVec.ofNat 64 irq.code) 0#64).priv = destination c irq := by
  have htrap : ∀ cause tval, (c.doTrap cause tval).priv = trapLevel c.csr c.priv cause := by
    intro cause tval
    unfold RiscvCpu.doTrap trapLevel
    split <;> rfl
  rw [htrap, trapLevel]
  by_cases hd : isDelegated c irq
  · have henabled := h.2
    rw [destination, if_pos hd] at henabled
    have hlow : c.priv < .machine := by
      rcases henabled with hlt | ⟨heq, _⟩
      · exact Nat.lt_trans hlt (by decide)
      · rw [heq]
        decide
    rw [if_pos ((delegated_cause_iff c irq).mpr ⟨hd, hlow⟩), destination, if_pos hd]
  · rw [if_neg (fun hc => hd ((delegated_cause_iff c irq).mp hc).1), destination, if_neg hd]

/-- Before every ready delegated interrupt stands a ready undelegated one, if there is any. -/
def UndelegatedFirst : Prop :=
  ∀ i j, Ready c i → isDelegated c i → Ready c j → ¬ isDelegated c j →
    ∃ k, Ready c k ∧ ¬ isDelegated c k ∧ rank k < rank i

theorem goesBefore_same {c : RiscvCpu} {i j : Interrupt} (h : isDelegated c i ↔ isDelegated c j) :
    GoesBefore c i j ↔ rank i < rank j := by
  have hdest : destination c i = destination c j := by
    unfold destination
    exact if_congr h rfl rfl
  rw [GoesBefore, hdest]
  simp [PrivLevel.lt_def]

theorem goesBefore_of_undelegated {c : RiscvCpu} {i j : Interrupt} (hi : ¬ isDelegated c i) (hj : isDelegated c j) :
    GoesBefore c i j ∧ ¬ GoesBefore c j i := by
  unfold GoesBefore destination
  rw [if_neg hi, if_pos hj]
  exact ⟨Or.inl (by decide), by simp [PrivLevel.lt_def, PrivLevel.code]⟩

/-- The scan makes the architecture's choice exactly when undelegated interrupts come first. -/
theorem selectInterrupt_isChoice_iff : IsChoice (GoesBefore c) (Ready c) c.selectInterrupt ↔ UndelegatedFirst c := by
  have hscan := selectInterrupt_isChoice c
  cases hsel : c.selectInterrupt with
  | none =>
    rw [hsel] at hscan
    exact ⟨fun _ i _ hi => absurd hi (hscan i), fun _ => hscan⟩
  | some a =>
    rw [hsel] at hscan
    obtain ⟨hready, hfirst⟩ := hscan
    constructor
    · rintro ⟨_, hbefore⟩ i j hi hdi hj hdj
      by_cases hda : isDelegated c a
      · have hne : j ≠ a := fun heq => hdj (heq ▸ hda)
        exact absurd (hbefore j hj hne) (goesBefore_of_undelegated hdj hda).2
      · have hne : i ≠ a := fun heq => hda (heq ▸ hdi)
        exact ⟨a, hready, hda, hfirst i hi hne⟩
    · intro hfirstUndelegated
      refine ⟨hready, fun b hb hne => ?_⟩
      by_cases hda : isDelegated c a
      · by_cases hdb : isDelegated c b
        · exact (goesBefore_same (iff_of_true hda hdb)).mpr (hfirst b hb hne)
        · obtain ⟨k, hk, hdk, hlt⟩ := hfirstUndelegated a b hready hda hb hdb
          have hak : k ≠ a := fun heq => hdk (heq ▸ hda)
          exact absurd hlt (Nat.lt_asymm (hfirst k hk hak))
      · by_cases hdb : isDelegated c b
        · exact (goesBefore_of_undelegated hda hdb).1
        · exact (goesBefore_same (iff_of_false hda hdb)).mpr (hfirst b hb hne)

/-- The architecture's interrupt is taken exactly when undelegated interrupts come first. -/
theorem takesSelected_iff (c : RiscvCpu) : TakesSelected c ↔ UndelegatedFirst c := by
  rw [← selectInterrupt_isChoice_iff]
  constructor
  · rintro ⟨o, hchoice, htaken, _⟩
    rw [handleInterrupt_eq] at htaken
    rw [afterInterrupt_injective htaken]
    exact hchoice
  · intro hchoice
    refine ⟨c.selectInterrupt, hchoice, handleInterrupt_eq c, fun irq hsel => ?_⟩
    rw [handleInterrupt_eq, hsel]
    rw [hsel] at hchoice
    exact doTrap_priv_of_ready hchoice.1

/-- User mode with the supervisor external and software interrupts pending and
enabled, of which only the external one is delegated. -/
def externalDelegated : RiscvCpu :=
  { RiscvCpu.newWithModel .genericRv64 with
    priv := .user
    csr := { CsrFile.new with mideleg := bit 9, mie := bit 9 ||| bit 1, mip := bit 9 ||| bit 1 } }

/-- The delegated external interrupt is taken although the software interrupt is for machine mode. -/
theorem externalDelegated_takes_external : externalDelegated.selectInterrupt = some .supervisorExternal ∧
      GoesBefore externalDelegated .supervisorSoftware .supervisorExternal ∧ ¬ TakesSelected externalDelegated := by
  refine ⟨by decide, by decide, fun ⟨o, hchoice, htaken, _⟩ => ?_⟩
  rw [handleInterrupt_eq] at htaken
  have ho : o = some .supervisorExternal := (afterInterrupt_injective htaken).symm.trans (by decide)
  rw [ho] at hchoice
  have hbefore := hchoice.2 .supervisorSoftware (by decide) (by decide)
  exact absurd hbefore (by decide)

/-- How many interrupts are taken in a row, while devices set `mip` before each call. -/
def nested : List (BitVec 64) → RiscvCpu → Nat
  | [], _ => 0
  | mip :: mips, c =>
    let r := { c with csr.mip := mip }.handleInterrupt
    if r.2 then nested mips r.1 + 1 else 0

/-- How many a state lets through: each masks its own mode. -/
def room : Nat :=
  match gate c with
  | .closed => 0
  | .undelegated => 1
  | .all => 2

theorem room_handleInterrupt (h : c.handleInterrupt.2 = true) : room c.handleInterrupt.1 < room c := by
  have hsel := selectInterrupt_isChoice c
  rw [handleInterrupt_eq] at h ⊢
  cases hirq : c.selectInterrupt with
  | none => simp [hirq, afterInterrupt] at h
  | some irq =>
    rw [hirq] at hsel
    have hcan := (scan_iff_ready c irq).mpr hsel.1
    rw [canTake_eq] at hcan
    simp only [afterInterrupt, RiscvCpu.doTrap, delegated_cause_iff]
    split <;> grind [room, gate, Gate.passes, trapStatusS, trapStatusM, has]

/-- No third interrupt is taken before a handler runs, and each that is taken leaves less room. -/
theorem nested_le_room (mips : List (BitVec 64)) (c : RiscvCpu) : nested mips c ≤ room c ∧ room c ≤ 2 ∧
    ∀ mip, { c with csr.mip := mip }.handleInterrupt.2 = true →
      room { c with csr.mip := mip }.handleInterrupt.1 < room c := by
  have hlower (c : RiscvCpu) (mip : BitVec 64) (h : { c with csr.mip := mip }.handleInterrupt.2 = true) :
      room { c with csr.mip := mip }.handleInterrupt.1 < room c := room_handleInterrupt { c with csr.mip := mip } h
  refine ⟨?_, by grind [room], hlower c⟩
  induction mips generalizing c with
  | nil => exact Nat.zero_le _
  | cons mip mips ih => grind [nested]

end MachinaInterruptOrder
