import Machina.Mmu

/-!
# The RISC-V CPU: trap entry, interrupts and trap return

The architectural state with its runtime shadows (the PMP unit and the MMU), the
common trap entry with delegation, the interrupt scan, and `mret`/`sret`.
-/

namespace MachinaCpu

open MachinaBits MachinaRiscv MachinaCsr MachinaPmp MachinaMmu

/-- CPU state. The user-level trap registers and the host-side handles are left out. -/
structure RiscvCpu where
  gpr : Fin 32 → BitVec 64
  fpr : Fin 32 → BitVec 64
  pc : BitVec 64
  guestBase : BitVec 64
  loadRes : BitVec 64
  loadVal : BitVec 64
  halted : Bool
  priv : PrivLevel
  csr : CsrFile
  profile : RiscvCpuProfile
  pmp : Pmp
  mmu : Mmu
  memFaultCause : BitVec 64
  memFaultTval : BitVec 64
  ramBase : BitVec 64
  ramEnd : BitVec 64
  tbFlushPending : Bool
  lastPhysPc : BitVec 64
  faultPc : BitVec 64

def noReservation : BitVec 64 := BitVec.allOnes 64

/-- The CPU at reset, before the system layer sets its RAM window. -/
def RiscvCpu.newWithModel (profile : RiscvCpuProfile) : RiscvCpu where
  gpr := fun _ => 0#64
  fpr := fun _ => 0#64
  pc := 0#64
  guestBase := 0#64
  loadRes := noReservation
  loadVal := 0#64
  halted := false
  priv := .machine
  csr := { CsrFile.new with mvendorid := profile.mvendorid, marchid := profile.marchid,
                            maxSatpMode := profile.maxSatpMode }
  profile := profile
  pmp := Pmp.new
  mmu := Mmu.new.configureProfile profile.maxSatpMode profile.extSvpbmt profile.extSsvnapot profile.extXtheadmaee
  memFaultCause := 0#64
  memFaultTval := 0#64
  ramBase := 0#64
  ramEnd := 0#64
  tbFlushPending := false
  lastPhysPc := 0#64
  faultPc := 0#64

section

variable (c : RiscvCpu)

/-- Latch a memory fault for the execution loop. -/
def RiscvCpu.latch (cause tval : BitVec 64) : RiscvCpu :=
  { c with memFaultCause := cause, memFaultTval := tval }

/-- Interrupt causes have bit 63 set. -/
def interruptBit : BitVec 64 := bit 63

/-- Interrupts in descending priority. -/
def intPriority : List Interrupt :=
  [.machineExternal, .machineSoftware, .machineTimer, .supervisorExternal, .supervisorSoftware, .supervisorTimer]

/-- Trap entry address: vectored mode only applies to interrupts. -/
def tvecAddr (tvec cause : BitVec 64) (isInterrupt : Bool) : BitVec 64 :=
  let base := tvec &&& ~~~3#64
  if tvec &&& 3#64 = 1#64 ∧ isInterrupt = true then base + 4#64 * (cause &&& ~~~interruptBit) else base

/-- The delegation register a cause is looked up in. -/
def delegReg (f : CsrFile) (cause : BitVec 64) : BitVec 64 :=
  if has cause interruptBit then f.mideleg else f.medeleg

/-- Delegation only applies below machine mode. -/
def delegated (f : CsrFile) (priv : PrivLevel) (cause : BitVec 64) : Prop :=
  ((delegReg f cause >>> (cause &&& ~~~interruptBit).toNat) &&& 1#64) ≠ 0#64 ∧ priv < .machine

instance (f : CsrFile) (priv : PrivLevel) (cause : BitVec 64) : Decidable (delegated f priv cause) :=
  inferInstanceAs (Decidable (_ ∧ _))

def trapLevel (f : CsrFile) (priv : PrivLevel) (cause : BitVec 64) : PrivLevel :=
  if delegated f priv cause then .supervisor else .machine

/-- mstatus after a trap to S-mode: SPP is the old privilege, SPIE the old SIE, SIE is clear. -/
def trapStatusS (mstatus : BitVec 64) (priv : PrivLevel) : BitVec 64 :=
  let m₁ := put mstatus mstatusSpp (if PrivLevel.supervisor ≤ priv then mstatusSpp else 0#64)
  let m₂ := assign m₁ 5 (has m₁ mstatusSie)
  m₂ &&& ~~~mstatusSie

/-- mstatus after a trap to M-mode: MPP is the old privilege, MPIE the old MIE, MIE is clear. -/
def trapStatusM (mstatus : BitVec 64) (priv : PrivLevel) : BitVec 64 :=
  let m₁ := put mstatus mstatusMpp ((BitVec.ofNat 64 priv.code &&& 3#64) <<< 11)
  let m₂ := assign m₁ 7 (has m₁ mstatusMie)
  m₂ &&& ~~~mstatusMie

/-- Common trap entry of exceptions and interrupts. -/
def RiscvCpu.doTrap (cause tval : BitVec 64) : RiscvCpu :=
  let isInterrupt := has cause interruptBit
  if delegated c.csr c.priv cause then
    { c with
      csr := { c.csr with sepc := c.pc, scause := cause, stval := tval, mstatus := trapStatusS c.csr.mstatus c.priv }
      pc := tvecAddr c.csr.stvec cause isInterrupt
      priv := .supervisor
      loadRes := noReservation
      mmu := c.mmu.flush }
  else
    { c with
      csr := { c.csr with mepc := c.pc, mcause := cause, mtval := tval, mstatus := trapStatusM c.csr.mstatus c.priv }
      pc := tvecAddr c.csr.mtvec cause isInterrupt
      priv := .machine
      loadRes := noReservation
      mmu := c.mmu.flush }

def RiscvCpu.raiseException (excp : Exception) (tval : BitVec 64) : RiscvCpu :=
  c.doTrap (BitVec.ofNat 64 excp.code) tval

/-- Whether the current privilege and the enable bits let an interrupt through. -/
def canTake (irq : Interrupt) : Bool :=
  if (c.csr.mideleg >>> irq.code) &&& 1#64 ≠ 0#64 then
    decide (c.priv < .supervisor) || (decide (c.priv = .supervisor) && has c.csr.mstatus mstatusSie)
  else
    decide (c.priv < .machine) || (decide (c.priv = .machine) && has c.csr.mstatus mstatusMie)

/-- The interrupt the scan settles on: pending, enabled and let through. -/
def RiscvCpu.selectInterrupt : Option Interrupt :=
  intPriority.find? fun irq => has (c.csr.mip &&& c.csr.mie) (bit irq.code) && canTake c irq

/-- Take the highest-priority interrupt if possible; the flag tells whether one was taken. -/
def RiscvCpu.handleInterrupt : RiscvCpu × Bool :=
  match c.selectInterrupt with
  | some irq => (c.doTrap (interruptBit ||| BitVec.ofNat 64 irq.code) 0#64, true)
  | none => (c, false)

/-- mstatus after `mret`: MIE is MPIE, MPIE is set, MPP is user. -/
def mretStatus (mstatus : BitVec 64) : BitVec 64 :=
  let m₁ := assign mstatus 3 (has mstatus mstatusMpie)
  (m₁ ||| mstatusMpie) &&& ~~~mstatusMpp

/-- mstatus after `sret`: SIE is SPIE, SPIE is set, SPP is user. -/
def sretStatus (mstatus : BitVec 64) : BitVec 64 :=
  let m₁ := assign mstatus 1 (has mstatus mstatusSpie)
  (m₁ ||| mstatusSpie) &&& ~~~mstatusSpp

def mpp (mstatus : BitVec 64) : PrivLevel := .ofField ((mstatus &&& mstatusMpp) >>> 11)

/-- Execute MRET. The source checks no privilege here. -/
def RiscvCpu.executeMret : RiscvCpu :=
  { c with
    priv := mpp c.csr.mstatus
    csr := { c.csr with mstatus := mretStatus c.csr.mstatus }
    pc := c.csr.mepc
    loadRes := noReservation
    mmu := c.mmu.flush }

/-- SRET is illegal below S-mode, and in S-mode while TSR is set. -/
def sretIllegal : Prop :=
  c.priv < .supervisor ∨ (c.priv = .supervisor ∧ has c.csr.mstatus mstatusTsr = true)

end

instance (c : RiscvCpu) : Decidable (sretIllegal c) := inferInstanceAs (Decidable (_ ∨ _))

/-- Execute SRET; the flag is false when the instruction is illegal. -/
def RiscvCpu.executeSret (c : RiscvCpu) : RiscvCpu × Bool :=
  if sretIllegal c then (c, false)
  else
    ({ c with
       priv := if has c.csr.mstatus mstatusSpp then .supervisor else .user
       csr := { c.csr with mstatus := sretStatus c.csr.mstatus }
       pc := c.csr.sepc
       loadRes := noReservation
       mmu := c.mmu.flush }, true)

end MachinaCpu
