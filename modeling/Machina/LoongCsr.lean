import Machina.LoongCpu

/-!
# LoongArch control registers

Reads and masked writes of the host registers and of the guest's, with the flushes of the fast TLB that the source
attaches to some of them.
-/

namespace MachinaLoongCsr

open MachinaBits MachinaLoongMmu MachinaLoongCpu

abbrev csrEuen : Nat := 0x2
abbrev csrBadi : Nat := 0x8
abbrev csrTlbidx : Nat := 0x10
abbrev csrTlbelo0 : Nat := 0x12
abbrev csrTlbelo1 : Nat := 0x13
abbrev csrTrgp : Nat := 0x16
abbrev csrPgdl : Nat := 0x19
abbrev csrPgdh : Nat := 0x1A
abbrev csrPgd : Nat := 0x1B
abbrev csrPwcl : Nat := 0x1C
abbrev csrPwch : Nat := 0x1D
abbrev csrRvacfg : Nat := 0x1F
abbrev csrCpuid : Nat := 0x20
abbrev csrPrcfg1 : Nat := 0x21
abbrev csrPrcfg2 : Nat := 0x22
abbrev csrPrcfg3 : Nat := 0x23
abbrev csrSave0 : Nat := 0x30
abbrev csrSaveLast : Nat := 0x37
abbrev csrTid : Nat := 0x40
abbrev csrTcfg : Nat := 0x41
abbrev csrTval : Nat := 0x42
abbrev csrCntc : Nat := 0x43
abbrev csrTiclr : Nat := 0x44
abbrev csrGcfg : Nat := 0x51
abbrev csrGcntc : Nat := 0x53
abbrev csrLlbctl : Nat := 0x60
abbrev csrTlbrsave : Nat := 0x8B
abbrev csrTlbrelo0 : Nat := 0x8C
abbrev csrTlbrelo1 : Nat := 0x8D

def crmdDatf : BitVec 64 := 0x3#64 <<< 5
def crmdDatm : BitVec 64 := 0x3#64 <<< 7
def estatWriteMask : BitVec 64 := 0x3
def gstatGidbit : BitVec 64 := 8#64 <<< 4
def gstatWriteMask : BitVec 64 := gstatPvm ||| gstatGid

/-- The writable bits of each register; registers that are not listed have none. -/
def csrWriteMasks : List (Nat × BitVec 64) :=
  [(csrCrmd, crmdPlvMask ||| crmdIe ||| crmdDa ||| crmdPg ||| crmdDatf ||| crmdDatm), (csrPrmd, 0x7), (csrEuen, 0x7),
    (csrEcfg, 0x7FFFF), (csrEstat, estatWriteMask), (csrEra, BitVec.allOnes 64), (csrBadv, BitVec.allOnes 64),
    (csrEentry, ~~~0x3F#64), (csrTlbidx, 0xBF000FFF), (csrTlbehi, ~~~0x1FFF#64), (csrTlbelo0, 0xE000FFFFFFFFFFFF),
    (csrTlbelo1, 0xE000FFFFFFFFFFFF), (csrGtlbc, 0x00FF303F), (csrAsid, asidWriteMask), (csrPgdl, ~~~0xFFF#64),
    (csrPgdh, ~~~0xFFF#64), (csrPwcl, 0xFFFFFFFF), (csrPwch, 0x3FFFFFFFFF), (csrStlbps, 0x3F), (csrTid, 0xFFFFFFFF),
    (csrTcfg, 0x0000FFFFFFFFFFFF), (csrCntc, BitVec.allOnes 64), (csrTiclr, 0x1), (csrGstat, gstatWriteMask),
    (csrGcfg, 0x07BFFFF7), (csrGintc, 0x00FFFFFF), (csrGcntc, BitVec.allOnes 64), (csrLlbctl, 0x4),
    (csrTlbrentry, ~~~0x3F#64), (csrTlbrbadv, BitVec.allOnes 64), (csrTlbrera, BitVec.allOnes 64),
    (csrTlbrsave, BitVec.allOnes 64), (csrTlbrelo0, 0xE000FFFFFFFFFFFF), (csrTlbrelo1, 0xE000FFFFFFFFFFFF),
    (csrTlbrehi, ~~~0x1FC0#64), (csrTlbrprmd, 0x7), (csrDmw0, 0xF00000000E00003F), (csrDmw1, 0xF00000000E00003F),
    (csrDmw2, 0xF00000000E00003F), (csrDmw3, 0xF00000000E00003F)]

def csrWriteMask (num : Nat) : BitVec 64 :=
  if csrSave0 ≤ num ∧ num ≤ csrSaveLast then BitVec.allOnes 64 else (csrWriteMasks.lookup num).getD 0

def isHypervisorCsr (num : Nat) : Bool := [csrGtlbc, csrTrgp, csrGstat, csrGcfg, csrGintc, csrGcntc].contains num

def validGcsr (num : Nat) : Bool :=
  !isHypervisorCsr num &&
    (num ≤ csrLlbctl || (csrTlbrentry ≤ num && num ≤ csrTlbrprmd) || (csrDmw0 ≤ num && num ≤ csrDmw3))

def gcsrWriteMask (num : Nat) : BitVec 64 :=
  if !validGcsr num then 0
  else if [csrBadi, csrTval, csrCpuid, csrPrcfg1, csrPrcfg2, csrPrcfg3, csrPgd].contains num then 0
  else csrWriteMask num

/-- The page-table base that the faulting address selects. -/
def pgdOf (regs : Nat → BitVec 64) : BitVec 64 :=
  let badv := if has (regs csrTlbrera) 1#64 then regs csrTlbrbadv else regs csrBadv
  if has badv (bit 63) then regs csrPgdh else regs csrPgdl

/-- Registers whose field `csr_read` returns as it is. -/
def csrPlainReads : List Nat :=
  [csrCrmd, csrPrmd, csrEuen, csrEcfg, csrEstat, csrEra, csrBadv, csrBadi, csrEentry, csrTlbidx, csrTlbehi, csrTlbelo0,
    csrTlbelo1, csrGtlbc, csrTrgp, csrPgdl, csrPgdh, csrPwcl, csrPwch, csrStlbps, csrRvacfg, csrCpuid, csrPrcfg1,
    csrPrcfg2, csrPrcfg3, csrTid, csrTcfg, csrTval, csrCntc, csrGcfg, csrGintc, csrGcntc, csrLlbctl, csrTlbrentry,
    csrTlbrbadv, csrTlbrera, csrTlbrsave, csrTlbrelo0, csrTlbrelo1, csrTlbrehi, csrTlbrprmd, csrDmw0, csrDmw1, csrDmw2,
    csrDmw3]

def isSave (num : Nat) : Bool := csrSave0 ≤ num && num ≤ csrSaveLast

variable (c : LoongArchCpu) (num : Nat)

def csrRead : BitVec 64 :=
  if num = csrAsid then c.csr csrAsid ||| 0x0A#64 <<< 16
  else if num = csrPgd then pgdOf c.csr
  else if num = csrGstat then c.csr csrGstat ||| gstatGidbit
  else if csrPlainReads.contains num || isSave num then c.csr num
  else 0

def gcsrRead : BitVec 64 :=
  if !validGcsr num then 0
  else if num = csrPgd then pgdOf c.gcsr
  else if num = csrAsid then c.gcsr csrAsid ||| 0x0A#64 <<< 16
  else if num = csrTiclr then 0
  else c.gcsr num

variable (val : BitVec 64)

def setAsidLow : LoongArchCpu :=
  let old := c.csr csrAsid
  let new := put old asidWriteMask (val &&& asidWriteMask)
  let c := c.setCsr csrAsid new
  if (old ^^^ new) &&& asidWriteMask ≠ 0 then c.invalidateTlbTranslations else c

/-- A register that the source stores and, if it changed, invalidates for: the host's DMW and STLBPS. -/
def writeInvalidating : LoongArchCpu :=
  let old := c.csr num
  let c := c.setCsr num val
  if old ≠ val then c.invalidateTlbTranslations else c

/-- Registers that `csr_write_raw` stores and does nothing else for. -/
def csrPlainWrites : List Nat :=
  [csrPrmd, csrEuen, csrEra, csrBadv, csrEentry, csrTlbidx, csrTlbehi, csrTlbelo0, csrTlbelo1, csrTrgp, csrPgdl,
    csrPgdh, csrPwcl, csrPwch, csrTid, csrCntc, csrGcfg, csrGcntc, csrTlbrentry, csrTlbrbadv, csrTlbrera, csrTlbrsave,
    csrTlbrelo0, csrTlbrelo1, csrTlbrehi, csrTlbrprmd]

def csrWriteRaw : LoongArchCpu :=
  if num = csrCrmd then c.setCrmd val
  else if num = csrEcfg then (c.setCsr csrEcfg val).wakeIfNewEnabledInterrupt c.pendingInterrupt
  else if num = csrEstat then
    (c.setCsr csrEstat (put (c.csr csrEstat) estatWriteMask (val &&& estatWriteMask))).wakeIfNewEnabledInterrupt
      c.pendingInterrupt
  else if num = csrGtlbc then
    let old := c.csr csrGtlbc &&& (gtlbcUsetgid ||| gtlbcTgid)
    let c := c.setCsr csrGtlbc val
    if old ≠ val &&& (gtlbcUsetgid ||| gtlbcTgid) then c.invalidateTlbTranslations else c
  else if num = csrAsid then setAsidLow c val
  else if num = csrStlbps ∨ num = csrDmw0 ∨ num = csrDmw1 ∨ num = csrDmw2 ∨ num = csrDmw3 then
    writeInvalidating c num val
  else if num = csrTcfg then
    let c := c.setCsr csrTcfg val
    if has val 1#64 then c.setCsr csrTval (val &&& ~~~0x3#64) else c
  else if num = csrTiclr then
    if has val 1#64 then c.setInterruptBitPending 11 false else c
  else if num = csrGstat then
    let oldGid := c.csr csrGstat &&& gstatGid
    let new := (c.csr csrGstat &&& gstatVm) ||| (val &&& gstatWriteMask)
    let c := c.setCsr csrGstat new
    if oldGid ≠ new &&& gstatGid then c.invalidateTlbTranslations else c
  else if num = csrGintc then
    let c := c.setCsr csrGintc (val &&& 0x00FFFF00#64)
    c.setGcsr csrEstat (put (c.gcsr csrEstat) (0xFF#64 <<< 2) ((val &&& 0xFF#64) <<< 2))
  else if num = csrLlbctl then
    if has val 0x4#64 then c.setCsr csrLlbctl (c.csr csrLlbctl &&& ~~~1#64) else c
  else if csrPlainWrites.contains num || isSave num then c.setCsr num val
  else c

def gcsrWriteRaw : LoongArchCpu :=
  if !validGcsr num ∨ num = csrPgd then c
  else if num = csrCrmd then
    let old := c.gcsr csrCrmd
    let c := c.setGcsr csrCrmd val
    if (old ^^^ val) &&& (crmdPlvMask ||| crmdDa ||| crmdPg) ≠ 0 then c.flushFastTlb else c
  else if num = csrEcfg then
    let c' := c.setGcsr csrEcfg val
    if c'.inGuestMode then c'.wakeIfNewEnabledInterrupt c.pendingInterrupt else c'
  else if num = csrEstat then
    let c' := c.setGcsr csrEstat (put (c.gcsr csrEstat) estatWriteMask (val &&& estatWriteMask))
    if c'.inGuestMode then c'.wakeIfNewEnabledInterrupt c.pendingInterrupt else c'
  else if num = csrTcfg then
    let c := c.setGcsr csrTcfg val
    if c.inGuestMode && has val 1#64 then c.setGcsr csrTval (val &&& ~~~0x3#64) else c
  else if num = csrTiclr then
    if has val 1#64 then c.setGuestInterruptBitPending 11 false else c
  else if num = csrAsid then
    let old := c.gcsr csrAsid
    let new := put old asidWriteMask (val &&& asidWriteMask)
    let c := c.setGcsr csrAsid new
    if (old ^^^ new) &&& asidWriteMask ≠ 0 then c.invalidateTlbTranslations else c
  else if num = csrStlbps ∨ num = csrDmw0 ∨ num = csrDmw1 ∨ num = csrDmw2 ∨ num = csrDmw3 then
    let old := c.gcsr num
    let c := c.setGcsr num val
    if old ≠ val then c.invalidateTlbTranslations else c
  else c.setGcsr num val

def csrWrite : LoongArchCpu :=
  let mask := csrWriteMask num
  if mask = 0 then c else csrWriteRaw c num (put (csrRead c num) mask (val &&& mask))

/-- The old value, and the state after the exchange. -/
def csrXchg (val mask : BitVec 64) : BitVec 64 × LoongArchCpu :=
  let old := csrRead c num
  let wmask := csrWriteMask num &&& mask
  (old, if wmask ≠ 0 then csrWriteRaw c num (put old wmask (val &&& wmask)) else c)

def gcsrWrite : LoongArchCpu :=
  let mask := gcsrWriteMask num
  if mask = 0 then c else gcsrWriteRaw c num (put (gcsrRead c num) mask (val &&& mask))

def gcsrXchg (val mask : BitVec 64) : BitVec 64 × LoongArchCpu :=
  let old := gcsrRead c num
  let wmask := gcsrWriteMask num &&& mask
  (old, if wmask ≠ 0 then gcsrWriteRaw c num (put old wmask (val &&& wmask)) else c)

/-- `loongarch_helper_csrwr`: in guest mode the instruction reaches the guest's registers. -/
def helperCsrwr : BitVec 64 × LoongArchCpu :=
  if c.inGuestMode then (gcsrRead c num, gcsrWrite c num val) else (csrRead c num, csrWrite c num val)

def helperCsrxchg (val mask : BitVec 64) : BitVec 64 × LoongArchCpu :=
  if c.inGuestMode then gcsrXchg c num val mask else csrXchg c num val mask

def helperGcsrwr : BitVec 64 × LoongArchCpu :=
  (gcsrRead c num, gcsrWrite c num val)

end MachinaLoongCsr
