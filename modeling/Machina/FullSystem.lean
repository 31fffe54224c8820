import Machina.Cpu

/-!
# The full-system CPU

`FullSystemCpu` puts the CPU next to physical memory, the interrupt lines shared
with the devices and the instruction-fetch regions. This module has the helpers
that generated code calls (loads, stores, atomics, CSR instructions), the
instruction fetch, interrupt delivery, the exit dispatcher and the debugger's
register writes. Physical memory is one flat byte map; a device register behaves
as the bytes last written to it.
-/

namespace MachinaFullSystem

open MachinaBits MachinaRiscv MachinaCsr MachinaPmp MachinaMmu MachinaByteMem MachinaCpu

structure FullSystemCpu where
  cpu : RiscvCpu
  mem : Mem
  mapped : BitVec 64 → Nat → Bool
  ramSize : BitVec 64
  mromBase : BitVec 64
  mromSize : BitVec 64
  sharedMip : BitVec 64
  builtinMode : Bool
  instretWriteSuppression : Bool

/-- The privilege of data accesses: MPRV lends machine mode the level in MPP. -/
def effectiveDataPriv (priv : PrivLevel) (mstatus : BitVec 64) : PrivLevel :=
  if priv = .machine ∧ has mstatus mstatusMprv = true then mpp mstatus else priv

/-- The host addend of a page: RAM pages are reached directly, everything else is MMIO. -/
def hostAddend (c : RiscvCpu) (gva pa : BitVec 64) : BitVec 64 :=
  if c.ramBase ≤ pa ∧ pa < c.ramEnd then c.guestBase + (pa &&& pageMask) - (gva &&& pageMask) else tlbMmioAddend

/-- The cause latched for a failed data access. -/
def dataFaultCause : Exception → BitVec 64
  | .loadPageFault => 13#64
  | .storePageFault => 15#64
  | .instructionPageFault => 12#64
  | .loadAccessFault => 5#64
  | .storeAccessFault => 7#64
  | .instructionAccessFault => 1#64
  | _ => 5#64

def fetchFaultCause : Exception → BitVec 64
  | .instructionPageFault => 12#64
  | .instructionAccessFault => 1#64
  | _ => 12#64

/-- The translation mode of an access: machine mode is always bare. -/
def translationMode (c : RiscvCpu) (priv : PrivLevel) : BitVec 64 :=
  if priv = .machine then satpModeBare else c.mmu.satpMode

variable (s : FullSystemCpu)

/-- The paged part of both translation paths: walk on a miss, refill, set the addend. -/
def FullSystemCpu.translatePaged (gva : BitVec 64) (access : AccessType) (priv : PrivLevel)
    (size : BitVec 64) (fault : Exception → BitVec 64) : FullSystemCpu × Option (BitVec 64) :=
  match s.cpu.mmu.translateMiss s.mem gva access priv s.cpu.csr.mstatus size (some s.cpu.pmp) with
  | (mmu, mem, .ok pa) =>
    ({ s with cpu := { s.cpu with mmu := mmu.fillAddend gva (hostAddend s.cpu gva pa) }, mem := mem }, some pa)
  | (mmu, mem, .error e) =>
    ({ s with cpu := RiscvCpu.latch { s.cpu with mmu := mmu } (fault e) gva, mem := mem }, none)

/-- Translate a data access, filling the TLB; a fault is latched. -/
def FullSystemCpu.translateForHelper (gva : BitVec 64) (access : AccessType) (size : BitVec 64) :
    FullSystemCpu × Option (BitVec 64) :=
  let effPriv := effectiveDataPriv s.cpu.priv s.cpu.csr.mstatus
  if translationMode s.cpu effPriv = satpModeBare then
    match checkAccess s.cpu.pmp gva size access effPriv with
    | .error e => ({ s with cpu := s.cpu.latch (dataFaultCause e) gva }, none)
    | .ok () =>
      let addend := if s.cpu.ramBase ≤ gva ∧ gva < s.cpu.ramEnd then s.cpu.guestBase else tlbMmioAddend
      ({ s with cpu := { s.cpu with mmu := s.cpu.mmu.fillIdentity gva addend } }, some gva)
  else s.translatePaged gva access effPriv size dataFaultCause

/-- The physical pc that stands for a fault. -/
def fetchFault : BitVec 64 := BitVec.allOnes 64

/-- Translate a virtual pc for instruction fetch; a fault is latched. A bare fetch
leaves the TLB alone. -/
def FullSystemCpu.translatePc (vpc : BitVec 64) : FullSystemCpu × BitVec 64 :=
  if translationMode s.cpu s.cpu.priv = satpModeBare then
    match checkAccess s.cpu.pmp vpc 2#64 .execute s.cpu.priv with
    | .ok () => (s, vpc)
    | .error _ => ({ s with cpu := s.cpu.latch 1#64 vpc }, fetchFault)
  else
    match s.translatePaged vpc .execute s.cpu.priv 2#64 fetchFaultCause with
    | (s', some pa) => (s', pa)
    | (s', none) => (s', fetchFault)

/-- A physical address that instructions can be fetched from: RAM or the boot ROM. -/
def FullSystemCpu.fetchable (pa : BitVec 64) : Bool :=
  decide (pa - s.cpu.ramBase < s.ramSize) || decide (pa - s.mromBase < s.mromSize)

/-- Accesses of one, two, four or eight bytes. -/
def accessBytes (size : BitVec 64) : Nat :=
  if size = 1#64 ∨ size = 2#64 ∨ size = 4#64 ∨ size = 8#64 then size.toNat else 0

def FullSystemCpu.readPhysSized (pa size : BitVec 64) : BitVec 64 :=
  read s.mem pa (accessBytes size)

def FullSystemCpu.writePhysSized (pa val size : BitVec 64) : FullSystemCpu :=
  { s with mem := write s.mem pa (accessBytes size) val }

/-- The range lies in RAM or in a mapped device. -/
def FullSystemCpu.isPhysBacked (pa size : BitVec 64) : Bool :=
  (decide (s.cpu.ramBase ≤ pa) && decide (pa.toNat + size.toNat < 2 ^ 64) && decide (pa + size ≤ s.cpu.ramEnd)) ||
    s.mapped pa size.toNat

/-- The exceptions by number; unknown numbers are illegal instructions. -/
def exceptionOf (excp : BitVec 64) : Exception :=
  match excp.toNat with
  | 0 => .instructionMisaligned
  | 1 => .instructionAccessFault
  | 2 => .illegalInstruction
  | 3 => .breakpoint
  | 4 => .loadMisaligned
  | 5 => .loadAccessFault
  | 6 => .storeMisaligned
  | 7 => .storeAccessFault
  | 8 => .ecallFromU
  | 9 => .ecallFromS
  | 11 => .ecallFromM
  | 12 => .instructionPageFault
  | 13 => .loadPageFault
  | 15 => .storePageFault
  | _ => .illegalInstruction

def FullSystemCpu.handleException (excp tval : BitVec 64) : FullSystemCpu :=
  { s with cpu := s.cpu.raiseException (exceptionOf excp) tval }

/-- Deliver a latched memory fault at the pc of the faulting instruction. -/
def FullSystemCpu.checkMemFault : FullSystemCpu × Bool :=
  if s.cpu.memFaultCause = 0#64 then (s, false)
  else
    let c := s.cpu.latch 0#64 0#64
    let c := if c.faultPc = 0#64 then c else { c with pc := c.faultPc, faultPc := 0#64 }
    (({ s with cpu := c }).handleException s.cpu.memFaultCause s.cpu.memFaultTval, true)

/-- In builtin mode a machine timer interrupt counts as a supervisor timer interrupt. -/
def FullSystemCpu.devMip : BitVec 64 :=
  if s.builtinMode = true ∧ has s.sharedMip (bit 7) = true then (s.sharedMip &&& ~~~bit 7) ||| bit 5
  else s.sharedMip

/-- The scan of `pending_interrupt`: the first pending interrupt alone decides. -/
def firstPending (c : RiscvCpu) (pending : BitVec 64) : List Interrupt → Bool
  | [] => false
  | irq :: rest => if has pending (bit irq.code) then canTake c irq else firstPending c pending rest

def FullSystemCpu.pendingInterrupt : Bool :=
  firstPending s.cpu ((s.cpu.csr.mip ||| s.devMip) &&& s.cpu.csr.mie) intPriority

def FullSystemCpu.pendingWfiWakeup : Bool :=
  (s.cpu.csr.mip ||| s.devMip) &&& s.cpu.csr.mie != 0#64

/-- The hardware-controlled bits of mip: MSIP, MTIP, SEIP and MEIP. -/
def hwMask : BitVec 64 := bit 3 ||| bit 7 ||| bit 9 ||| bit 11

/-- Mirror the shared interrupt lines into mip; builtin mode consumes a machine timer
interrupt and raises STIP instead. -/
def FullSystemCpu.mirrorMip : FullSystemCpu :=
  let timer := decide (s.builtinMode = true ∧ has s.sharedMip (bit 7) = true)
  let shared := if timer then s.sharedMip &&& ~~~bit 7 else s.sharedMip
  let mip := if timer then s.cpu.csr.mip ||| bit 5 else s.cpu.csr.mip
  { s with sharedMip := shared
           cpu := { s.cpu with csr := { s.cpu.csr with mip := put mip hwMask (shared &&& hwMask) } } }

/-- Deliver an interrupt; the flag tells whether one was taken. -/
def FullSystemCpu.handleInterrupt (s : FullSystemCpu) : FullSystemCpu × Bool :=
  let m := s.mirrorMip
  ({ m with cpu := m.cpu.handleInterrupt.1 }, m.cpu.handleInterrupt.2)

end MachinaFullSystem
