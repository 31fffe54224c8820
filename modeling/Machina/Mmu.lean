import Machina.Pmp
import Machina.Csr
import Machina.ByteMem

/-!
# The Sv39/Sv48 MMU with its software TLB

Page-table walk, permission check, hardware A/D update and refill of the
256-entry direct-mapped TLB. An entry has one tag for each access kind, and the
generated code compares only the tag of its own kind.
-/

namespace MachinaMmu

open MachinaBits MachinaRiscv MachinaPmp MachinaCsr MachinaByteMem

def pageSize : BitVec 64 := 4096#64
def pteSize : BitVec 64 := 8#64
def vpnMask : BitVec 64 := 0x1FF#64
def satpModeBare : BitVec 64 := 0#64
def satpModeSv39 : BitVec 64 := 8#64
def satpModeSv48 : BitVec 64 := 9#64
def satpAsidMask : BitVec 64 := 0xFFFF#64
def satpPpnMask : BitVec 64 := (1#64 <<< 44) - 1#64

def pteV : BitVec 8 := bit 0
def pteR : BitVec 8 := bit 1
def pteW : BitVec 8 := bit 2
def pteX : BitVec 8 := bit 3
def pteU : BitVec 8 := bit 4
def pteA : BitVec 8 := bit 6
def pteD : BitVec 8 := bit 7
def pteN : BitVec 64 := bit 63
def ptePbmt : BitVec 64 := 0x6000000000000000#64
def ptePpnMask : BitVec 64 := (1#64 <<< 44) - 1#64
def pteTheadMaeeAttrs : BitVec 64 := 0xf800000000000000#64

/-- Page mask for tag comparison (low 12 bits zeroed). -/
def pageMask : BitVec 64 := ~~~(pageSize - 1#64)

/-- A tag no page-aligned address equals. -/
def tlbInvalidTag : BitVec 64 := BitVec.allOnes 64

/-- The addend that forces the slow path. -/
def tlbMmioAddend : BitVec 64 := BitVec.allOnes 64

structure TlbEntry where
  addrRead : BitVec 64
  addrWrite : BitVec 64
  addrCode : BitVec 64
  addend : BitVec 64
  dirty : BitVec 8
  physPage : BitVec 64
  perm : BitVec 8
  asid : BitVec 16
  pageSize : BitVec 64
  deriving DecidableEq, Repr

def TlbEntry.default : TlbEntry :=
  ⟨tlbInvalidTag, tlbInvalidTag, tlbInvalidTag, 0#64, 0#8, 0#64, 0#8, 0#16, 0#64⟩

/-- The tag an access of the given kind is compared with. -/
def TlbEntry.tag (e : TlbEntry) : AccessType → BitVec 64
  | .read => e.addrRead
  | .write => e.addrWrite
  | .execute => e.addrCode

def TlbEntry.invalidate (e : TlbEntry) : TlbEntry :=
  { e with addrRead := tlbInvalidTag, addrWrite := tlbInvalidTag, addrCode := tlbInvalidTag }

structure Mmu where
  satp : BitVec 64
  tlb : Fin 256 → TlbEntry
  maxSatpMode : BitVec 64
  extSvpbmt : Bool
  extSsvnapot : Bool
  extXtheadmaee : Bool

def Mmu.new : Mmu := ⟨0#64, fun _ => .default, satpModeSv39, false, false, false⟩

variable (m : Mmu)

def Mmu.configureProfile (maxSatpMode : BitVec 64) (extSvpbmt extSsvnapot extXtheadmaee : Bool) : Mmu :=
  { m with maxSatpMode := maxSatpMode, extSvpbmt := extSvpbmt, extSsvnapot := extSsvnapot,
           extXtheadmaee := extXtheadmaee }

/-- Extract VPN[level] from a virtual address. -/
def vpnIndex (va : BitVec 64) (level : Nat) : BitVec 64 := (va >>> (12 + level * 9)) &&& vpnMask

/-- Page size of a leaf at a level (0 = 4K, 1 = 2M, 2 = 1G, 3 = 512G). -/
def levelPageSize (level : Nat) : BitVec 64 := pageSize <<< (level * 9)

def ptePpn (pte : BitVec 64) : BitVec 64 := (pte >>> 10) &&& ptePpnMask

/-- Only the 64 KiB NAPOT size is supported. -/
def isSupportedSvnapotPte (pte : BitVec 64) : Bool :=
  has pte pteN && decide ((ptePpn pte).ctz.toNat + 1 = 4)

/-- For Sv39 bits 63:39 must equal bit 38, for Sv48 bits 63:48 bit 47. -/
def isCanonicalSv (gva satpMode : BitVec 64) : Bool :=
  if satpMode = satpModeSv39 then decide (gva.sshiftRight 38 = 0#64 ∨ gva.sshiftRight 38 = BitVec.allOnes 64)
  else if satpMode = satpModeSv48 then
    decide (gva.sshiftRight 47 = 0#64 ∨ gva.sshiftRight 47 = BitVec.allOnes 64)
  else true

def tlbIndex (va : BitVec 64) : Fin 256 :=
  let vpn := va >>> 12
  ⟨(vpn ^^^ (vpn >>> 8)).toNat % 256, Nat.mod_lt _ (by decide)⟩

def Mmu.setSatp (val : BitVec 64) : Mmu := { m with satp := val }

/-- The SATP mode field (bits [63:60]). -/
def Mmu.satpMode : BitVec 64 := (m.satp >>> 60) &&& 0xF#64

def Mmu.theadMaeeAttrMask (pte : BitVec 64) : BitVec 64 :=
  if m.extSsvnapot && isSupportedSvnapotPte pte then pteTheadMaeeAttrs &&& ~~~pteN else pteTheadMaeeAttrs

/-- The PTE without the vendor's memory attributes. -/
def Mmu.pteStandardView (pte : BitVec 64) : BitVec 64 :=
  if m.extXtheadmaee then pte &&& ~~~(m.theadMaeeAttrMask pte) else pte

/-- Lookup by tag of one kind; a hit on an MMIO entry counts as a miss. -/
def Mmu.tlbLookup (access : AccessType) (gva : BitVec 64) : Option (BitVec 64) :=
  let entry := m.tlb (tlbIndex gva)
  if entry.tag access = gva &&& pageMask ∧ entry.addend ≠ tlbMmioAddend then some entry.addend else none

/-- The guest physical address an entry yields for an address of its page. -/
def TlbEntry.phys (e : TlbEntry) (gva : BitVec 64) : BitVec 64 := (e.physPage <<< 12) ||| (gva &&& ~~~pageMask)

def Mmu.setEntry (i : Fin 256) (e : TlbEntry) : Mmu := { m with tlb := Function.update m.tlb i e }

def Mmu.flush : Mmu := { m with tlb := fun i => (m.tlb i).invalidate }

def Mmu.fillAddend (gva addend : BitVec 64) : Mmu :=
  m.setEntry (tlbIndex gva) { m.tlb (tlbIndex gva) with addend := addend }

/-- Fill with an identity mapping; for MMIO the tags stay invalid. -/
def Mmu.fillIdentity (gva addend : BitVec 64) : Mmu :=
  let tag := if addend = tlbMmioAddend then tlbInvalidTag else gva &&& pageMask
  m.setEntry (tlbIndex gva)
    { m.tlb (tlbIndex gva) with
      addrRead := tag, addrWrite := tag, addrCode := tag, addend := addend, physPage := gva >>> 12,
      perm := pteR ||| pteW ||| pteX ||| pteA ||| pteD, asid := 0#16, pageSize := pageSize }

structure Leaf where
  ppn : BitVec 64
  perm : BitVec 8
  pgSize : BitVec 64
  pteAddr : BitVec 64
  pte : BitVec 64
  deriving DecidableEq, Repr

/-- A valid PTE ends the walk or points to the next table. -/
inductive PteStep where
  | leaf (l : Leaf)
  | descend (a : BitVec 64)
  deriving DecidableEq, Repr

/-- The PPN of a leaf, with the low bits of a NAPOT page taken from the address. -/
def Mmu.leafPpn (gva : BitVec 64) (access : AccessType) (level : Nat) (pteView : BitVec 64) :
    Except Exception (BitVec 64) :=
  let ppn := ptePpn pteView
  if has pteView pteN then
    if m.extSsvnapot = false then .error (pageFault access)
    else if level ≠ 0 then .error (pageFault access)
    else if ppn.ctz.toNat + 1 ≠ 4 then .error (pageFault access)
    else
      let napotMask : BitVec 64 := (1#64 <<< 4) - 1#64
      .ok ((ppn &&& ~~~napotMask) ||| ((gva >>> 12) &&& napotMask))
  else .ok ppn

/-- Decode one PTE of the walk. -/
def Mmu.pteStep (gva : BitVec 64) (access : AccessType) (level : Nat) (pteAddr pte : BitVec 64) :
    Except Exception PteStep :=
  let pteView := m.pteStandardView pte
  let flags : BitVec 8 := (pteView &&& 0xFF#64).setWidth 8
  if m.extSvpbmt = false ∧ has pteView ptePbmt = true then .error (pageFault access)
  else if has flags pteV = false then .error (pageFault access)
  else if has flags pteR = false ∧ has flags pteW = true then .error (pageFault access)
  else if has flags pteR = true ∨ has flags pteX = true then
    match m.leafPpn gva access level pteView with
    | .error e => .error e
    | .ok ppn =>
      if 0 < level ∧ has (ptePpn pteView) ((1#64 <<< (level * 9)) - 1#64) = true then .error (pageFault access)
      else .ok (.leaf ⟨ppn, flags, levelPageSize level, pteAddr, pte⟩)
  else .ok (.descend (ptePpn pte * pageSize))

/-- The optional PMP check of the MMU. -/
def pmpCheck (pmp : Option Pmp) (addr size : BitVec 64) (access : AccessType) (priv : PrivLevel) :
    Except Exception Unit :=
  match pmp with
  | some p => checkAccess p addr size access priv
  | none => .ok ()

/-- The walk below the table at `a`, with the given number of levels left. Every PTE
read is subject to PMP; its failure is reported for the original access. -/
def Mmu.walkFrom (m : Mmu) (mem : Mem) (gva : BitVec 64) (access : AccessType) (pmp : Option Pmp)
    (priv : PrivLevel) : Nat → BitVec 64 → Except Exception Leaf
  | 0, _ => .error (pageFault access)
  | level + 1, a =>
    let pteAddr := a + vpnIndex gva level * pteSize
    match pmpCheck pmp pteAddr pteSize .read priv with
    | .error _ => .error (accessFault access)
    | .ok () =>
      match m.pteStep gva access level pteAddr (read mem pteAddr 8) with
      | .error e => .error e
      | .ok (.leaf l) => .ok l
      | .ok (.descend next) => m.walkFrom mem gva access pmp priv level next

/-- Sv39 or Sv48 page table walk from the root in satp. -/
def Mmu.walkPageTable (mem : Mem) (gva : BitVec 64) (access : AccessType) (pmp : Option Pmp)
    (priv : PrivLevel) : Except Exception Leaf :=
  if isCanonicalSv gva m.satpMode = false then .error (pageFault access)
  else
    m.walkFrom mem gva access pmp priv (if m.satpMode = satpModeSv48 then 4 else 3)
      ((m.satp &&& satpPpnMask) * pageSize)

/-- The permission bits allow the kind, before U is looked at. -/
def permitsKind (perm : BitVec 8) (access : AccessType) (mstatus : BitVec 64) : Bool :=
  match access with
  | .read => has perm pteR || (has mstatus mstatusMxr && has perm pteX)
  | .write => has perm pteW
  | .execute => has perm pteX

/-- The U bit allows the privilege: user needs it, supervisor never executes from a
user page and needs SUM for data. -/
def permitsPriv (perm : BitVec 8) (access : AccessType) (priv : PrivLevel) (mstatus : BitVec 64) : Bool :=
  match priv with
  | .user => has perm pteU
  | .supervisor => !has perm pteU || (decide (access ≠ .execute) && has mstatus mstatusSum)
  | .machine => true

/-- Check R/W/X permissions, U-bit, MXR, and SUM. -/
def checkPerm (perm : BitVec 8) (access : AccessType) (priv : PrivLevel) (mstatus : BitVec 64) :
    Except Exception Unit :=
  if permitsKind perm access mstatus && permitsPriv perm access priv mstatus then .ok ()
  else .error (pageFault access)

/-- Svadu: A is set on every access and D on writes. -/
def touchPte (pte : BitVec 64) (access : AccessType) : BitVec 64 :=
  let newPte := pte ||| pteA.setWidth 64
  if access = .write then newPte ||| pteD.setWidth 64 else newPte

/-- The memory after the A/D update, which is itself subject to PMP. -/
def updateAd (mem : Mem) (leaf : Leaf) (access : AccessType) (pmp : Option Pmp) (priv : PrivLevel) :
    Except Exception Mem :=
  let newPte := touchPte leaf.pte access
  if newPte = leaf.pte then .ok mem
  else
    match pmpCheck pmp leaf.pteAddr pteSize .write priv with
    | .error _ => .error (accessFault access)
    | .ok () => .ok (write mem leaf.pteAddr 8 newPte)

def Leaf.phys (leaf : Leaf) (gva : BitVec 64) : BitVec 64 :=
  (leaf.ppn <<< 12) ||| (gva &&& (leaf.pgSize - 1#64))

/-- Refill in three-tag format: every tag the page's permissions allow is set, whatever
access caused the refill. -/
def Mmu.refill (gva mstatus newPte pa pgSize : BitVec 64) : Mmu :=
  let tag := gva &&& pageMask
  let perm : BitVec 8 := (newPte &&& 0xFF#64).setWidth 8
  m.setEntry (tlbIndex gva)
    { m.tlb (tlbIndex gva) with
      addrRead := if permitsKind perm .read mstatus then tag else tlbInvalidTag
      addrWrite := if has perm pteW && has perm pteD then tag else tlbInvalidTag
      addrCode := if has perm pteX then tag else tlbInvalidTag
      addend := 0#64, physPage := pa >>> 12, perm := perm
      asid := ((m.satp >>> 44) &&& satpAsidMask).setWidth 16, pageSize := pgSize }

/-- TLB miss handler: walk, check, update A/D, refill. A PMP failure of the access
itself comes after the A/D update and leaves it in memory. -/
def Mmu.translateMiss (mem : Mem) (gva : BitVec 64) (access : AccessType) (priv : PrivLevel)
    (mstatus size : BitVec 64) (pmp : Option Pmp) : Mmu × Mem × Except Exception (BitVec 64) :=
  match m.walkPageTable mem gva access pmp priv with
  | .error e => (m, mem, .error e)
  | .ok leaf =>
    match checkPerm leaf.perm access priv mstatus with
    | .error e => (m, mem, .error e)
    | .ok () =>
      match updateAd mem leaf access pmp priv with
      | .error e => (m, mem, .error e)
      | .ok mem' =>
        match pmpCheck pmp (leaf.phys gva) size access priv with
        | .error e => (m, mem', .error e)
        | .ok () =>
          (m.refill gva mstatus (touchPte leaf.pte access) (leaf.phys gva) leaf.pgSize, mem', .ok (leaf.phys gva))

end MachinaMmu
