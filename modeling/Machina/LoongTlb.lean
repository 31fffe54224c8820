import Machina.LoongCsr

/-!
# LoongArch TLB instructions and helper accesses

The instructions that search, read, write and invalidate the software TLBs, the return from exceptions, and the
accesses that translate an address on behalf of generated code and keep the result in the fast TLB.
-/

namespace MachinaLoongTlb

open MachinaBits MachinaLoongMmu MachinaLoongCpu MachinaLoongCsr

/-! ## The registers and the TLB of the running mode -/

def activeTlbMmu (c : LoongArchCpu) : LoongArchMmu := if c.inGuestMode then c.guestMmu else c.mmu

def setActiveTlbMmu (c : LoongArchCpu) (m : LoongArchMmu) : LoongArchCpu :=
  if c.inGuestMode then { c with guestMmu := m } else { c with mmu := m }

section

variable (c : LoongArchCpu) (m : LoongArchMmu)

@[simp] theorem setActiveTlbMmu_csr : (setActiveTlbMmu c m).csr = c.csr := by
  simp only [setActiveTlbMmu]
  split <;> rfl

@[simp] theorem setActiveTlbMmu_guestBase : (setActiveTlbMmu c m).guestBase = c.guestBase := by
  simp only [setActiveTlbMmu]
  split <;> rfl

@[simp] theorem setActiveTlbMmu_inGuestMode : (setActiveTlbMmu c m).inGuestMode = c.inGuestMode := by
  simp [LoongArchCpu.inGuestMode]

@[simp] theorem activeTlbMmu_setActiveTlbMmu : activeTlbMmu (setActiveTlbMmu c m) = m := by
  rw [activeTlbMmu, setActiveTlbMmu_inGuestMode]
  cases hmode : c.inGuestMode <;> simp [setActiveTlbMmu, hmode]

end

variable (c : LoongArchCpu)

/-- The family `active_tlbidx`, `active_tlbehi`, ...: one register of the running mode. -/
def active (num : Nat) : BitVec 64 := if c.inGuestMode then c.gcsr num else c.csr num

/-- The family `set_active_tlbidx`, `set_active_tlbehi`, ... -/
def setActive (num : Nat) (val : BitVec 64) : LoongArchCpu :=
  if c.inGuestMode then c.setGcsr num val else c.setCsr num val

def activeTranslationAsid : BitVec 16 := asidOf (active c csrAsid)

def activeTranslationStlbps : Nat := stlbPsOf (active c csrStlbps)

/-- Unlike the host's, the guest's ASID is stored without invalidating anything. -/
def setActiveAsidLow (asid : BitVec 64) : LoongArchCpu :=
  if c.inGuestMode then c.setGcsr csrAsid (put (c.gcsr csrAsid) asidWriteMask (asid &&& asidWriteMask))
  else setAsidLow c asid

/-! ## Search and read -/

def tlbEntryMatchesVa (e : TlbEntry) (va : BitVec 64) (asid : BitVec 16) (gid : BitVec 8) : Bool :=
  let pairMask := ~~~((1#64 <<< (e.pageSize + 1)) - 1#64)
  e.valid && e.gid == gid && (e.g || e.asid == asid) && decide (e.pageSize < 63) &&
    va &&& targetVirtMask &&& pairMask == (e.vppn <<< 13) &&& targetVirtMask &&& pairMask

def tlbSearch : Option Nat :=
  let entryhi := if has (active c csrTlbrera) 1#64 then active c csrTlbrehi else active c csrTlbehi
  let hit := fun e => tlbEntryMatchesVa e entryhi (activeTranslationAsid c) c.targetGid
  let mmu := activeTlbMmu c
  match (List.range mtlbSize).find? fun i => hit (mmu.mtlb i) with
  | some i => mtlbFlatIndex i
  | none =>
    (stlbSetIndex entryhi (activeTranslationStlbps c)).bind fun set =>
      ((List.range stlbWays).find? fun w => hit (mmu.stlb set w)).bind (stlbFlatIndex set)

def tlbSearchAndUpdate : LoongArchCpu :=
  match tlbSearch c with
  | some idx => setActive c csrTlbidx (put (active c csrTlbidx) (0xFFF#64 ||| bit 31) (BitVec.ofNat 64 idx))
  | none => setActive c csrTlbidx (active c csrTlbidx ||| bit 31)

def encodeTlbelo (p : TlbPage) (g : Bool) : BitVec 64 :=
  (BitVec.ofBool p.v).setWidth 64 ||| (BitVec.ofBool p.d).setWidth 64 <<< 1 ||| p.plv.setWidth 64 <<< 2 |||
    p.mat.setWidth 64 <<< 4 ||| (BitVec.ofBool g).setWidth 64 <<< 6 ||| p.ppn <<< 12 |||
    (BitVec.ofBool p.nr).setWidth 64 <<< 61 ||| (BitVec.ofBool p.nx).setWidth 64 <<< 62 |||
    (BitVec.ofBool p.rplv).setWidth 64 <<< 63

def readInvalidTlbEntry : LoongArchCpu :=
  let c := setActive c csrTlbidx (put (active c csrTlbidx) (0x3F#64 <<< 24) (bit 31))
  let c := setActive c csrTlbehi 0
  let c := setActive c csrTlbelo0 0
  let c := setActive c csrTlbelo1 0
  setActiveAsidLow c 0

/-- The entry that `tlb_read` shows, if it is valid and, for a guest, its own. -/
def readableEntry (idx : Nat) : Option TlbEntry :=
  ((activeTlbMmu c).entry idx).filter fun e => e.valid && !(c.inGuestMode && e.gid != c.targetGid)

def tlbRead (idx : Nat) : LoongArchCpu :=
  match readableEntry c idx with
  | none => readInvalidTlbEntry c
  | some e =>
    let tlbidx := put (active c csrTlbidx) (bit 31 ||| 0x3F#64 <<< 24 ||| 0xFFF#64)
      (BitVec.ofNat 64 e.pageSize <<< 24 ||| (BitVec.ofNat 64 idx &&& 0xFFF#64))
    let c := setActive c csrTlbidx tlbidx
    let c := setActive c csrTlbehi (e.vppn <<< 13)
    let c := setActive c csrTlbelo0 (encodeTlbelo e.lo0 e.g)
    let c := setActive c csrTlbelo1 (encodeTlbelo e.lo1 e.g)
    setActiveAsidLow c (e.asid.setWidth 64)

/-! ## Write -/

/-- `tlb_entry_source_csrs`: entry high, the two low words and the page size. -/
def tlbEntrySourceCsrs : BitVec 64 × BitVec 64 × BitVec 64 × Nat :=
  if has (active c csrTlbrera) 1#64 then
    (active c csrTlbrehi, active c csrTlbrelo0, active c csrTlbrelo1, (active c csrTlbrehi &&& 0x3F#64).toNat)
  else
    (active c csrTlbehi, active c csrTlbelo0, active c csrTlbelo1, ((active c csrTlbidx >>> 24) &&& 0x3F#64).toNat)

def tlbPageFromElo (elo : BitVec 64) : TlbPage where
  ppn := (elo >>> 12) &&& 0xFFFFFFFFF#64
  plv := ((elo >>> 2) &&& 0x3#64).setWidth 8
  mat := ((elo >>> 4) &&& 0x3#64).setWidth 8
  d := has elo (bit 1)
  v := has elo (bit 0)
  nr := has elo (bit 61)
  nx := has elo (bit 62)
  rplv := has elo (bit 63)

def tlbEntryFromCsrs (entryhi elo0 elo1 : BitVec 64) (ps : Nat) : TlbEntry where
  vppn := entryhi >>> 13
  pageSize := ps
  asid := activeTranslationAsid c
  gid := c.targetGid
  g := has (elo0 &&& elo1) (bit 6)
  valid := true
  lo0 := tlbPageFromElo elo0
  lo1 := tlbPageFromElo elo1

/-- The entry that the registers of the running mode describe. -/
def sourceEntry : TlbEntry :=
  let (entryhi, elo0, elo1, ps) := tlbEntrySourceCsrs c
  tlbEntryFromCsrs c entryhi elo0 elo1 ps

/-- Store an entry and, if the index exists, invalidate. -/
def writeAndInvalidate (idx : Nat) (e : TlbEntry) : LoongArchCpu :=
  match (activeTlbMmu c).writeEntry idx e with
  | none => c
  | some m => (setActiveTlbMmu c m).invalidateTlbTranslations

def tlbWrite (idx : Nat) : LoongArchCpu :=
  if has (active c csrTlbidx) (bit 31) then writeAndInvalidate c idx {} else writeAndInvalidate c idx (sourceEntry c)

def tlbFill : LoongArchCpu :=
  let (entryhi, _, _, ps) := tlbEntrySourceCsrs c
  let idx :=
    if ps = activeTranslationStlbps c then (stlbSetIndex entryhi ps).bind fun set => stlbFlatIndex set 0
    else mtlbFlatIndex ((active c csrTlbidx).toNat % mtlbSize)
  idx.elim c fun idx => writeAndInvalidate c idx (sourceEntry c)

/-! ## Invalidation -/

variable (p : TlbEntry → Bool)

def clearIf (e : TlbEntry) : TlbEntry := if p e then { e with valid := false } else e

def clearMtlb (m : LoongArchMmu) : LoongArchMmu := { m with mtlb := fun i => clearIf p (m.mtlb i) }

def clearStlbSet (set : Nat) (m : LoongArchMmu) : LoongArchMmu :=
  { m with stlb := Function.update m.stlb set fun w => clearIf p (m.stlb set w) }

def clearTlb (m : LoongArchMmu) : LoongArchMmu :=
  { m with mtlb := fun i => clearIf p (m.mtlb i), stlb := fun set w => clearIf p (m.stlb set w) }

/-- The part of the TLB that an index names: its set of the STLB, or the whole MTLB. -/
def clearAtIndex (c : LoongArchCpu) : LoongArchCpu :=
  let idx := (active c csrTlbidx &&& 0xFFF#64).toNat
  let m := activeTlbMmu c
  let c :=
    if idx < stlbSize then setActiveTlbMmu c (clearStlbSet p (idx % stlbSets) m)
    else if idx < tlbTotalSize then setActiveTlbMmu c (clearMtlb p m)
    else c
  c.invalidateTlbTranslations

def tlbClearByIndex : LoongArchCpu :=
  clearAtIndex (fun e => e.valid && e.gid == c.targetGid && !e.g && e.asid == activeTranslationAsid c) c

def tlbFlushByIndex : LoongArchCpu := clearAtIndex (fun _ => true) c

/-- Which entries of the active TLB the operations 0 to 6 of `invtlb` drop. -/
def invtlbDrops (op : Nat) (gid : BitVec 8) (asid : BitVec 16) (va : BitVec 64) (e : TlbEntry) : Bool :=
  if op = 0 ∨ op = 1 then true
  else if op = 2 then e.g && e.gid == gid
  else if op = 3 then !e.g && e.gid == gid
  else if op = 4 then !e.g && e.gid == gid && e.asid == asid
  else if op = 5 then !e.g && tlbEntryMatchesVa e va asid gid
  else tlbEntryMatchesVa e va asid gid

def isLvzOp (op : Nat) : Bool := (0x9 ≤ op && op ≤ 0xE) || (0x10 ≤ op && op ≤ 0x16)

def invtlb (op : Nat) (asid : BitVec 16) (va : BitVec 64) : LoongArchCpu :=
  if op ≤ 6 then
    (setActiveTlbMmu c (clearTlb (invtlbDrops op c.targetGid asid va) (activeTlbMmu c))).invalidateTlbTranslations
  else if isLvzOp op then
    { c with
      mmu := clearTlb (fun _ => true) c.mmu
      guestMmu := clearTlb (fun _ => true) c.guestMmu }.invalidateTlbTranslations
  else c

def ecodeIne : BitVec 64 := 0xD

/-- `loongarch_helper_invtlb`: 0, or the vector of the exception for an invalid operation. -/
def helperInvtlb (op : Nat) (asid : BitVec 16) (va : BitVec 64) : BitVec 64 × LoongArchCpu :=
  if 6 < op ∧ (c.hasLvz && isLvzOp op) = false then c.enterException ecodeIne 0 none else (0, invtlb c op asid va)

/-- `loongarch_helper_tlbrd` takes the index from the host's register in both modes. -/
def helperTlbrd : LoongArchCpu := tlbRead c (c.csr csrTlbidx &&& 0xFFF#64).toNat

/-- `loongarch_helper_tlbwr`, with the host's index too. -/
def helperTlbwr : LoongArchCpu := tlbWrite c (c.csr csrTlbidx &&& 0xFFF#64).toNat

/-! ## Page walks -/

def tlbentryHuge : BitVec 64 := bit 6
def tlbentryHglobal : BitVec 64 := bit 12
def hwPteMaskLa64 : BitVec 64 := 0xE000FFFFFFFFF1FF

def pageWalkDirBaseWidth (level : BitVec 64) : BitVec 64 × BitVec 64 :=
  let pwcl := active c csrPwcl
  let pwch := active c csrPwch
  if level = 1 then ((pwcl >>> 10) &&& 0x1F#64, (pwcl >>> 15) &&& 0x1F#64)
  else if level = 2 then ((pwcl >>> 20) &&& 0x1F#64, (pwcl >>> 25) &&& 0x1F#64)
  else if level = 3 then (pwch &&& 0x3F#64, (pwch >>> 6) &&& 0x3F#64)
  else if level = 4 then ((pwch >>> 12) &&& 0x3F#64, (pwch >>> 18) &&& 0x3F#64)
  else (pwcl &&& 0x1F#64, (pwcl >>> 5) &&& 0x1F#64)

section

variable (ram : BitVec 64 → BitVec 64)

/-- The 64-bit word at a physical address, from `ram`, which says what RAM holds at the time. -/
def readPhysU64 (pa : BitVec 64) : BitVec 64 :=
  if c.guestBase = 0 then 0
  else if pa < c.ramBase ∨ 2 ^ 64 ≤ pa.toNat + 8 ∨ c.ramEnd.toNat < pa.toNat + 8 then 0
  else ram pa

def readPageWalkU64 (gpa : BitVec 64) : BitVec 64 :=
  if c.inGuestMode then
    match c.translateGuestHostStage gpa .load with
    | .hit pa _ => readPhysU64 c ram pa
    | _ => 0
  else readPhysU64 c ram gpa

def storePte (odd pte ps : BitVec 64) : LoongArchCpu :=
  let c := setActive c (if odd ≠ 0 then csrTlbrelo1 else csrTlbrelo0) (pte &&& hwPteMaskLa64)
  setActive c csrTlbrehi (put (active c csrTlbrehi) 0x3F#64 (ps &&& 0x3F#64))

def ldpte (base odd : BitVec 64) : LoongArchCpu :=
  if has base tlbentryHuge then
    let (dirBase, dirWidth) := pageWalkDirBaseWidth c ((base >>> 13) &&& 0x3#64)
    let huge := base &&& ~~~tlbentryHuge &&& ~~~(0x3#64 <<< 13)
    let huge := if has huge tlbentryHglobal then (huge &&& ~~~tlbentryHglobal) ||| bit 6 else huge
    let ps := dirBase + dirWidth - 1#64
    -- the shift amount is reduced modulo 64, as a release build does
    storePte c odd (if odd ≠ 0 then huge + 1#64 <<< (ps &&& 0x3F#64) else huge) ps
  else
    let pwcl := active c csrPwcl
    let ptbase := pwcl &&& 0x1F#64
    let ptwidth := (pwcl >>> 5) &&& 0x1F#64
    if ptwidth = 0 then c
    else
      let ptindex := (active c csrTlbrbadv >>> ptbase) &&& ((1#64 <<< ptwidth) - 1#64) &&& ~~~1#64
      let offset := (if odd ≠ 0 then ptindex + 1#64 else ptindex) <<< 3
      storePte c odd (readPageWalkU64 c ram ((base &&& targetVirtMask) ||| offset)) ptbase

/-! ## Faults and accesses -/

def faultEcode (fault : TlbLookupResult) (access : AccessType) : BitVec 64 :=
  match fault with
  | .miss => ecodeTlbr
  | .invalid =>
    match access with
    | .load => ecodePil
    | .store => ecodePis
    | .fetch => ecodePif
  | .dirty => ecodePme
  | .privViolation => ecodePpi
  | .readProtect => ecodePnr
  | .execProtect => ecodePnx
  | .hit _ _ => ecodeInt -- not reached: a hit is not a fault

end

variable (va : BitVec 64)

/-- The register that receives the faulting page, and what it receives. -/
def setFaultPage (fault : TlbLookupResult) : LoongArchCpu :=
  if fault = .miss then setActive c csrTlbrehi ((active c csrTlbrehi &&& 0x3F#64) ||| (va &&& ~~~0x1FFF#64))
  else setActive c csrTlbehi (va &&& ~~~0x1FFF#64)

variable (access : AccessType)

def enterAddressTranslationExceptionForStage
    (fault : TlbLookupResult) (faultPc : BitVec 64) (hostStage : Bool) : BitVec 64 × LoongArchCpu :=
  let c := { c with pc := faultPc }
  if hostStage && c.inGuestMode then c.enterException ecodeGcm esubcodeGchc (some va)
  else (setFaultPage c va fault).enterException (faultEcode fault access) 0 (some va)

/-- The physical address, or the vector of the exception that was entered. -/
def translateAddressOrException (faultPc : BitVec 64) : Except (BitVec 64) (BitVec 64) × LoongArchCpu :=
  match c.translateAddressDetail va access with
  | .hit pa _ => (.ok pa, c)
  | .fault f =>
    let (vec, c) := enterAddressTranslationExceptionForStage c f.addr access f.fault faultPc f.hostStage
    (.error vec, c)

def fillFastTlbForTranslation (pa addend : BitVec 64) : LoongArchCpu :=
  setActiveTlbMmu c ((activeTlbMmu c).fillFastTlb va access pa addend)

/-- The addend under which generated code reaches the page. -/
def ramAddend (va pa : BitVec 64) : BitVec 64 :=
  c.guestBase + (pa &&& fastTlbPageMask) - (va &&& fastTlbPageMask)

def fastTlbAddend (va pa : BitVec 64) : BitVec 64 :=
  if c.ramBase ≤ pa ∧ pa < c.ramEnd then ramAddend c va pa else fastTlbMmioAddend

def translateAddressAndCache : TlbLookupResult × LoongArchCpu :=
  match c.translateAddressDetail va access with
  | .hit pa mat => (.hit pa mat, fillFastTlbForTranslation c va access pa (fastTlbAddend c va pa))
  | .fault f => (f.fault, c)

/-- `mapped` is the address space's `is_mapped`, constantly false when the CPU has no address space. -/
def helperFastTlbAddend (mapped : BitVec 64 → Nat → Bool) (gva pa : BitVec 64) (size : Nat) : BitVec 64 :=
  if mapped pa size then fastTlbMmioAddend
  else if c.ramBase ≤ pa ∧ pa.toNat + size < 2 ^ 64 ∧ pa.toNat + size ≤ c.ramEnd.toNat then ramAddend c gva pa
  else fastTlbMmioAddend

def translateForHelper (mapped : BitVec 64 → Nat → Bool) (gva : BitVec 64) (access : AccessType)
    (size : Nat) : Option (BitVec 64) × LoongArchCpu :=
  let faultPc := c.faultPc
  match translateAddressOrException c gva access faultPc with
  | (.error vector, c) => (none, { c with pc := vector, memFaultCause := 1, faultPc := faultPc })
  | (.ok pa, c) => (some pa, fillFastTlbForTranslation c gva access pa (helperFastTlbAddend c mapped gva pa size))

/-! ## Return from exceptions -/

def clearLlScReservation : LoongArchCpu :=
  { c.setCsr csrLlbctl 0 with llResAddr := BitVec.allOnes 64, llResVal := 0 }

/-- CRMD after a return from a TLB refill: the saved PLV and IE, and paging back on. -/
def crmdAfterRefill (crmd saved : BitVec 64) : BitVec 64 :=
  (crmd &&& ~~~0x7#64 &&& ~~~crmdDa &&& ~~~crmdPg) ||| (saved &&& 0x7#64) ||| crmdPg

/-- The program counter to continue at, and the state. -/
def helperErtn : BitVec 64 × LoongArchCpu :=
  if c.inGuestMode then
    let gtlbrera := gcsrRead c csrTlbrera
    if has gtlbrera 1#64 then
      let c := gcsrWrite c csrCrmd (crmdAfterRefill (gcsrRead c csrCrmd) (gcsrRead c csrTlbrprmd))
      (gtlbrera &&& ~~~0x3#64, clearLlScReservation (gcsrWrite c csrTlbrera (gtlbrera &&& ~~~1#64)))
    else
      let c := gcsrWrite c csrCrmd ((gcsrRead c csrCrmd &&& ~~~0x7#64) ||| (gcsrRead c csrPrmd &&& 0x7#64))
      (gcsrRead c csrEra, clearLlScReservation c)
  else if has (c.csr csrTlbrera) 1#64 then
    let c := c.setCrmd (crmdAfterRefill (c.csr csrCrmd) (c.csr csrTlbrprmd))
    (c.csr csrTlbrera &&& ~~~0x3#64, clearLlScReservation (c.setCsr csrTlbrera (c.csr csrTlbrera &&& ~~~1#64)))
  else
    let c := c.setCrmd ((c.csr csrCrmd &&& ~~~0x7#64) ||| (c.csr csrPrmd &&& 0x7#64))
    let c := if has (c.csr csrGstat) gstatPvm then c.enterGuestMode else c
    (c.csr csrEra, clearLlScReservation c)

end MachinaLoongTlb
