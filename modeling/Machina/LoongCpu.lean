import Machina.LoongMmu

/-!
# The LoongArch CPU

Control registers of the host and of the guest it may be running, address translation in both modes, entry into
exceptions, and the choice of the interrupt line to take. The source keeps the host registers in separate fields and
the guest ones in an array; here both are register files indexed by CSR number.
-/

namespace MachinaLoongCpu

open MachinaBits MachinaLoongMmu

abbrev csrCrmd : Nat := 0x0
abbrev csrPrmd : Nat := 0x1
abbrev csrEcfg : Nat := 0x4
abbrev csrEstat : Nat := 0x5
abbrev csrEra : Nat := 0x6
abbrev csrBadv : Nat := 0x7
abbrev csrEentry : Nat := 0xC
abbrev csrTlbehi : Nat := 0x11
abbrev csrGtlbc : Nat := 0x15
abbrev csrAsid : Nat := 0x18
abbrev csrStlbps : Nat := 0x1E
abbrev csrGstat : Nat := 0x50
abbrev csrGintc : Nat := 0x52
abbrev csrTlbrentry : Nat := 0x88
abbrev csrTlbrbadv : Nat := 0x89
abbrev csrTlbrera : Nat := 0x8A
abbrev csrTlbrehi : Nat := 0x8E
abbrev csrTlbrprmd : Nat := 0x8F
abbrev csrDmw0 : Nat := 0x180
abbrev csrDmw1 : Nat := 0x181
abbrev csrDmw2 : Nat := 0x182
abbrev csrDmw3 : Nat := 0x183

def estatIsMask : BitVec 64 := 0x1FFF
def gstatVm : BitVec 64 := bit 0
def gstatPvm : BitVec 64 := bit 1
def gstatGid : BitVec 64 := 0xFF#64 <<< 16
def gtlbcUsetgid : BitVec 64 := bit 12
def gtlbcTgid : BitVec 64 := 0xFF#64 <<< 16
def asidWriteMask : BitVec 64 := 0x3FF

def ecodeInt : BitVec 64 := 0x0
def ecodePil : BitVec 64 := 0x1
def ecodePis : BitVec 64 := 0x2
def ecodePif : BitVec 64 := 0x3
def ecodePme : BitVec 64 := 0x4
def ecodePnr : BitVec 64 := 0x5
def ecodePnx : BitVec 64 := 0x6
def ecodePpi : BitVec 64 := 0x7
def ecodeGspr : BitVec 64 := 0x16
def ecodeHvc : BitVec 64 := 0x17
def ecodeGcm : BitVec 64 := 0x18
def ecodeTlbr : BitVec 64 := 0x3F
def esubcodeGchc : BitVec 64 := 0x1
def exccodeExternalInt : Nat := 64

structure LoongArchCpu where
  pc : BitVec 64 := 0
  csr : Nat → BitVec 64 := fun _ => 0
  gcsr : Nat → BitVec 64 := fun _ => 0
  mmu : LoongArchMmu := {}
  guestMmu : LoongArchMmu := {}
  guestBase : BitVec 64 := 0
  ramBase : BitVec 64 := 0
  ramEnd : BitVec 64 := 0
  hasLvz : Bool := true
  halted : Bool := false
  negAlign : Int := 0
  tbFlushPending : Bool := false
  memFaultCause : BitVec 64 := 0
  faultPc : BitVec 64 := 0
  llResAddr : BitVec 64 := BitVec.allOnes 64
  llResVal : BitVec 64 := 0

def LoongArchCpu.setCsr (c : LoongArchCpu) (num : Nat) (val : BitVec 64) : LoongArchCpu :=
  { c with csr := Function.update c.csr num val }

def LoongArchCpu.setGcsr (c : LoongArchCpu) (num : Nat) (val : BitVec 64) : LoongArchCpu :=
  { c with gcsr := Function.update c.gcsr num val }

section

variable (c : LoongArchCpu) (num : Nat) (val : BitVec 64)

@[simp] theorem setCsr_self : (c.setCsr num val).csr num = val := Function.update_self ..

@[simp] theorem setGcsr_self : (c.setGcsr num val).gcsr num = val := Function.update_self ..

variable {num}

theorem setCsr_other {k : Nat} (h : k ≠ num) : (c.setCsr num val).csr k = c.csr k := Function.update_of_ne h ..

theorem setGcsr_other {k : Nat} (h : k ≠ num) : (c.setGcsr num val).gcsr k = c.gcsr k := Function.update_of_ne h ..

end

variable (c : LoongArchCpu)

def LoongArchCpu.inGuestMode : Bool := has (c.csr csrGstat) gstatVm

def LoongArchCpu.guestGid : BitVec 8 := ((c.csr csrGstat &&& gstatGid) >>> 16).setWidth 8

def LoongArchCpu.willReturnToGuest : Bool :=
  c.hasLvz && !c.inGuestMode && has (c.csr csrGstat) gstatPvm

def LoongArchCpu.targetGid : BitVec 8 :=
  if c.inGuestMode then c.guestGid
  else if has (c.csr csrGtlbc) gtlbcUsetgid then ((c.csr csrGtlbc &&& gtlbcTgid) >>> 16).setWidth 8
  else if c.willReturnToGuest then c.guestGid
  else 0

def LoongArchCpu.setExitRequest : LoongArchCpu := { c with negAlign := -1 }

def LoongArchCpu.flushFastTlb (c : LoongArchCpu) : LoongArchCpu :=
  { c with mmu := c.mmu.flushFastTlb, guestMmu := c.guestMmu.flushFastTlb }

def LoongArchCpu.requestTbFlush : LoongArchCpu :=
  { c with tbFlushPending := true }.setExitRequest

def LoongArchCpu.invalidateTlbTranslations : LoongArchCpu := c.flushFastTlb.requestTbFlush

def LoongArchCpu.wakeForInterruptRequest : LoongArchCpu :=
  { c with halted := false }.setExitRequest

/-! ## Interrupt lines -/

def maskedInterruptLineFor (estat ecfg : BitVec 64) : Option Nat :=
  let pending := estat &&& ecfg &&& estatIsMask
  if pending = 0 then none else some (63 - pending.clz.toNat)

def LoongArchCpu.maskedInterruptLineForEstat (estat : BitVec 64) : Option Nat :=
  maskedInterruptLineFor estat (c.csr csrEcfg)

def LoongArchCpu.maskedInterruptLine : Option Nat :=
  if c.inGuestMode then maskedInterruptLineFor (c.gcsr csrEstat) (c.gcsr csrEcfg)
  else c.maskedInterruptLineForEstat (c.csr csrEstat)

def LoongArchCpu.pendingInterruptLine : Option Nat :=
  if c.inGuestMode then
    if !has (c.gcsr csrCrmd) crmdIe then none else c.maskedInterruptLine
  else if !has (c.csr csrCrmd) crmdIe then none
  else c.maskedInterruptLine

def LoongArchCpu.pendingInterrupt : Bool := c.pendingInterruptLine.isSome

def LoongArchCpu.wakeIfNewEnabledInterrupt (wasPending : Bool) : LoongArchCpu :=
  if !wasPending && c.pendingInterrupt then c.wakeForInterruptRequest else c

def LoongArchCpu.externalInterruptVector (irq : Nat) (defaultVector : BitVec 64) : BitVec 64 :=
  let ecfg := if c.inGuestMode then c.gcsr csrEcfg else c.csr csrEcfg
  let eentry := if c.inGuestMode then c.gcsr csrEentry else c.csr csrEentry
  let vs := (ecfg >>> 16) &&& 0x7#64
  if vs = 0 then defaultVector
  else eentry + BitVec.ofNat 64 (exccodeExternalInt + irq) * ((1#64 <<< vs) * 4#64)

def LoongArchCpu.setInterruptBitPending (k : Nat) (pending : Bool) : LoongArchCpu :=
  let wasPending := has (c.csr csrEstat) (bit k)
  let c := c.setCsr csrEstat (assign (c.csr csrEstat) k pending)
  if pending && !wasPending then c.wakeForInterruptRequest else c

def LoongArchCpu.setGuestInterruptBitPending (k : Nat) (pending : Bool) : LoongArchCpu :=
  let wasPending := has (c.gcsr csrEstat) (bit k)
  let c := c.setGcsr csrEstat (assign (c.gcsr csrEstat) k pending)
  if pending && !wasPending then c.wakeForInterruptRequest else c

def LoongArchCpu.setHwiInterruptPending (hwi : Nat) (pending : Bool) : LoongArchCpu :=
  if 8 ≤ hwi then c
  else if has (c.csr csrGintc) (bit (8 + hwi)) then c.setGuestInterruptBitPending (2 + hwi) pending
  else c.setInterruptBitPending (2 + hwi) pending

def LoongArchCpu.setIpiInterruptPending (pending : Bool) : LoongArchCpu :=
  c.setInterruptBitPending 12 pending

/-! ## Mode changes and exceptions -/

def LoongArchCpu.setCrmd (val : BitVec 64) : LoongArchCpu :=
  let old := c.csr csrCrmd
  let wasPending := c.pendingInterrupt
  let c := c.setCsr csrCrmd val
  let c := if (old ^^^ val) &&& (crmdPlvMask ||| crmdDa ||| crmdPg) ≠ 0 then c.flushFastTlb else c
  c.wakeIfNewEnabledInterrupt wasPending

def LoongArchCpu.enterGuestMode : LoongArchCpu :=
  (c.setCsr csrGstat ((c.csr csrGstat ||| gstatVm) &&& ~~~gstatPvm)).flushFastTlb

def LoongArchCpu.leaveGuestModeForException : LoongArchCpu :=
  if c.inGuestMode then (c.setCsr csrGstat ((c.csr csrGstat ||| gstatPvm) &&& ~~~gstatVm)).flushFastTlb else c

def vectorOf (ecfg eentry ecode : BitVec 64) : BitVec 64 :=
  let vs := (ecfg >>> 16) &&& 0x7#64
  if vs = 0 then eentry else eentry + (ecode &&& 0x3F#64) * ((1#64 <<< vs) * 4#64)

def LoongArchCpu.exceptionVector (ecode : BitVec 64) : BitVec 64 :=
  if ecode = ecodeTlbr then c.csr csrTlbrentry else vectorOf (c.csr csrEcfg) (c.csr csrEentry) ecode

def LoongArchCpu.guestExceptionVector (ecode : BitVec 64) : BitVec 64 :=
  if ecode = ecodeTlbr then c.gcsr csrTlbrentry else vectorOf (c.gcsr csrEcfg) (c.gcsr csrEentry) ecode

/-- The codes are compared after the source's cast to 32 bits. -/
def exceptionExitsGuest (ecode : BitVec 64) : Bool :=
  [ecodeGspr, ecodeHvc, ecodeGcm].any fun code => ecode.setWidth 32 == code.setWidth 32

def estatWithCode (estat ecode esubcode : BitVec 64) : BitVec 64 :=
  (estat &&& estatIsMask) ||| ((ecode &&& 0x3F#64) <<< 16) ||| ((esubcode &&& 0x1FF#64) <<< 22)

def LoongArchCpu.enterGuestException (ecode esubcode : BitVec 64) (badv : Option (BitVec 64))
    (pc : BitVec 64) : BitVec 64 × LoongArchCpu :=
  if ecode = ecodeTlbr then
    let c := c.setGcsr csrTlbrera ((pc &&& ~~~0x3#64) ||| 1#64)
    let c := c.setGcsr csrTlbrprmd (c.gcsr csrCrmd &&& 0x7#64)
    let c := badv.elim c (c.setGcsr csrTlbrbadv)
    let c := c.setGcsr csrCrmd ((c.gcsr csrCrmd &&& ~~~crmdPlvMask &&& ~~~crmdIe &&& ~~~crmdPg) ||| crmdDa)
    (c.gcsr csrTlbrentry, c)
  else
    let c := c.setGcsr csrEra pc
    let c := c.setGcsr csrPrmd (c.gcsr csrCrmd &&& 0x7#64)
    let c := badv.elim c (c.setGcsr csrBadv)
    let c := c.setGcsr csrCrmd (c.gcsr csrCrmd &&& (~~~crmdPlvMask &&& ~~~crmdIe))
    let c := c.setGcsr csrEstat (estatWithCode (c.gcsr csrEstat) ecode esubcode)
    (c.guestExceptionVector ecode, c)

/-- The vector to continue at, and the state in which the exception has been entered. -/
def LoongArchCpu.enterException (ecode esubcode : BitVec 64) (badv : Option (BitVec 64)) : BitVec 64 × LoongArchCpu :=
  let pc := c.pc
  if c.inGuestMode && !exceptionExitsGuest ecode then c.enterGuestException ecode esubcode badv pc
  else
    let c := c.leaveGuestModeForException
    if ecode = ecodeTlbr then
      let c := c.setCsr csrTlbrera ((pc &&& ~~~0x3#64) ||| 1#64)
      let c := c.setCsr csrTlbrprmd (c.csr csrCrmd &&& 0x7#64)
      let c := badv.elim c (c.setCsr csrTlbrbadv)
      let c := c.setCrmd ((c.csr csrCrmd &&& ~~~crmdPlvMask &&& ~~~crmdIe &&& ~~~crmdPg) ||| crmdDa)
      (c.csr csrTlbrentry, c)
    else
      let c := c.setCsr csrEra pc
      let c := c.setCsr csrPrmd (c.csr csrCrmd &&& 0x7#64)
      let c := badv.elim c (c.setCsr csrBadv)
      let c := c.setCrmd (c.csr csrCrmd &&& ~~~crmdPlvMask &&& ~~~crmdIe)
      let c := c.setCsr csrEstat (estatWithCode (c.csr csrEstat) ecode esubcode)
      (c.exceptionVector ecode, c)

/-! ## Address translation -/

variable (va : BitVec 64) (access : AccessType)

def lookupAddressWith (crmd : BitVec 64) (dmw : List (BitVec 64))
    (mmu : LoongArchMmu) (asid : BitVec 16) (gid : BitVec 8) (stlbPs : Nat) (plv : BitVec 8) : TlbLookupResult :=
  match directMapAddressWith crmd dmw va with
  | some pa => .hit pa 0
  | none => if !has crmd crmdPg then .miss else mmu.tlbLookup va asid gid stlbPs access plv

def asidOf (x : BitVec 64) : BitVec 16 := (x &&& 0x3FF#64).setWidth 16

def stlbPsOf (x : BitVec 64) : Nat := (x.setWidth 8).toNat

def plvOf (crmd : BitVec 64) : BitVec 8 := (crmd &&& crmdPlvMask).setWidth 8

def dmwOf (regs : Nat → BitVec 64) : List (BitVec 64) := [regs csrDmw0, regs csrDmw1, regs csrDmw2, regs csrDmw3]

def LoongArchCpu.translateHostAddress : TlbLookupResult :=
  lookupAddressWith va access (c.csr csrCrmd) (dmwOf c.csr) c.mmu (asidOf (c.csr csrAsid)) c.targetGid
    (stlbPsOf (c.csr csrStlbps)) (plvOf (c.csr csrCrmd))

def LoongArchCpu.translateGuestFirstStage : TlbLookupResult :=
  lookupAddressWith va access (c.gcsr csrCrmd) (dmwOf c.gcsr) c.guestMmu (asidOf (c.gcsr csrAsid)) c.targetGid
    (stlbPsOf (c.gcsr csrStlbps)) (plvOf (c.gcsr csrCrmd))

def LoongArchCpu.translateGuestHostStage (gpa : BitVec 64) (access : AccessType) : TlbLookupResult :=
  c.mmu.tlbLookup gpa (asidOf (c.csr csrAsid)) c.targetGid (stlbPsOf (c.csr csrStlbps)) access 0

structure TranslationFault where
  addr : BitVec 64
  fault : TlbLookupResult
  hostStage : Bool
  deriving DecidableEq, Repr

inductive TranslationOutcome where
  | hit (pa : BitVec 64) (mat : BitVec 8)
  | fault (f : TranslationFault)
  deriving DecidableEq, Repr

def LoongArchCpu.translateAddressDetail : TranslationOutcome :=
  if !c.inGuestMode then
    match c.translateHostAddress va access with
    | .hit pa mat => .hit pa mat
    | fault => .fault ⟨va, fault, false⟩
  else
    match c.translateGuestFirstStage va access with
    | .hit gpa _ =>
      match c.translateGuestHostStage gpa access with
      | .hit pa mat => .hit pa mat
      | fault => .fault ⟨gpa, fault, true⟩
    | fault => .fault ⟨va, fault, false⟩

def LoongArchCpu.translateAddress : TlbLookupResult :=
  match c.translateAddressDetail va access with
  | .hit pa mat => .hit pa mat
  | .fault f => f.fault

end MachinaLoongCpu
