import Machina.Bits

/-!
# The LoongArch MMU

The software-managed TLBs (64 fully associative entries and 256 sets of 8), the direct-mapping windows, and the fast
TLB that caches finished translations for generated code.
-/

namespace MachinaLoongMmu

open MachinaBits

def mtlbSize : Nat := 64
def stlbSets : Nat := 256
def stlbWays : Nat := 8
def stlbSize : Nat := stlbSets * stlbWays
def tlbTotalSize : Nat := stlbSize + mtlbSize
def targetVirtMask : BitVec 64 := (1#64 <<< 48) - 1#64
def fastTlbSize : Nat := 256
def fastTlbPageMask : BitVec 64 := ~~~0xFFF#64
def fastTlbInvalidTag : BitVec 64 := BitVec.allOnes 64
def fastTlbMmioAddend : BitVec 64 := BitVec.allOnes 64

def crmdPlvMask : BitVec 64 := 0x3
def crmdIe : BitVec 64 := bit 2
def crmdDa : BitVec 64 := bit 3
def crmdPg : BitVec 64 := bit 4

/-- One page of the pair that a TLB entry maps. -/
structure TlbPage where
  ppn : BitVec 64 := 0
  plv : BitVec 8 := 0
  mat : BitVec 8 := 0
  d : Bool := false
  v : Bool := false
  nr : Bool := false
  nx : Bool := false
  rplv : Bool := false
  deriving DecidableEq, Repr

/-- `TlbEntry`; the fields ending in 0 and 1 are the pages `lo0` and `lo1`. -/
structure TlbEntry where
  vppn : BitVec 64 := 0
  pageSize : Nat := 0
  asid : BitVec 16 := 0
  gid : BitVec 8 := 0
  g : Bool := false
  valid : Bool := false
  lo0 : TlbPage := {}
  lo1 : TlbPage := {}
  deriving DecidableEq, Repr

structure FastTlbEntry where
  addrRead : BitVec 64 := fastTlbInvalidTag
  addrWrite : BitVec 64 := fastTlbInvalidTag
  addrCode : BitVec 64 := fastTlbInvalidTag
  addend : BitVec 64 := 0
  dirty : BitVec 8 := 0
  physPage : BitVec 64 := 0
  deriving DecidableEq, Repr

structure LoongArchMmu where
  mtlb : Nat → TlbEntry := fun _ => {}
  stlb : Nat → Nat → TlbEntry := fun _ _ => {}
  fastTlb : Nat → FastTlbEntry := fun _ => {}

inductive AccessType where
  | load | store | fetch
  deriving DecidableEq, Repr

inductive TlbLookupResult where
  | hit (pa : BitVec 64) (mat : BitVec 8)
  | miss
  | invalid
  | dirty
  | privViolation
  | readProtect
  | execProtect
  deriving DecidableEq, Repr

inductive TlbSlot where
  | stlb (set way : Nat)
  | mtlb (index : Nat)
  deriving DecidableEq, Repr

def stlbSetIndex (va : BitVec 64) (pageSize : Nat) : Option Nat :=
  if pageSize = 0 ∨ 63 ≤ pageSize then none
  else some (((va &&& targetVirtMask) >>> (pageSize + 1)).toNat % stlbSets)

def stlbFlatIndex (set way : Nat) : Option Nat :=
  if set < stlbSets ∧ way < stlbWays then some (way * stlbSets + set) else none

def mtlbFlatIndex (index : Nat) : Option Nat := if index < mtlbSize then some (stlbSize + index) else none

def decodeTlbIndex (index : Nat) : Option TlbSlot :=
  if index < stlbSize then some (.stlb (index % stlbSets) (index / stlbSets))
  else if index < tlbTotalSize then some (.mtlb (index - stlbSize))
  else none

def fastTlbIndex (va : BitVec 64) : Nat :=
  let vpn := va >>> 12
  (vpn ^^^ (vpn >>> 8)).toNat % fastTlbSize

def FastTlbEntry.tag (e : FastTlbEntry) : AccessType → BitVec 64
  | .load => e.addrRead
  | .store => e.addrWrite
  | .fetch => e.addrCode

def FastTlbEntry.setTag (e : FastTlbEntry) (access : AccessType) (tag : BitVec 64) : FastTlbEntry :=
  match access with
  | .load => { e with addrRead := tag }
  | .store => { e with addrWrite := tag }
  | .fetch => { e with addrCode := tag }

variable (m : LoongArchMmu)

def LoongArchMmu.flushFastTlb : LoongArchMmu := { m with fastTlb := fun _ => {} }

variable (va : BitVec 64)

def LoongArchMmu.fastTlbLookupAddend (access : AccessType) : Option (BitVec 64) :=
  let entry := m.fastTlb (fastTlbIndex va)
  if entry.tag access = va &&& fastTlbPageMask ∧ entry.addend ≠ fastTlbMmioAddend then some entry.addend else none

/-- The entry of `fill_fast_tlb` after the update. -/
def FastTlbEntry.fill (entry : FastTlbEntry) (va : BitVec 64) (access : AccessType) (pa addend : BitVec 64) :
    FastTlbEntry :=
  let tag := va &&& fastTlbPageMask
  let samePageOrEmpty := [entry.addrRead, entry.addrWrite, entry.addrCode].all fun existing =>
    existing == fastTlbInvalidTag || existing == tag
  let entry := if samePageOrEmpty then entry else {}
  let entry := entry.setTag access (if addend = fastTlbMmioAddend then fastTlbInvalidTag else tag)
  { entry with addend := addend, dirty := 0, physPage := pa >>> 12 }

def LoongArchMmu.fillFastTlb (access : AccessType) (pa addend : BitVec 64) : LoongArchMmu :=
  let i := fastTlbIndex va
  { m with fastTlb := Function.update m.fastTlb i ((m.fastTlb i).fill va access pa addend) }

def LoongArchMmu.entry (index : Nat) : Option TlbEntry :=
  (decodeTlbIndex index).map fun
    | .stlb set way => m.stlb set way
    | .mtlb i => m.mtlb i

/-- `write_entry`; `none` when the index is out of range -/
def LoongArchMmu.writeEntry (index : Nat) (e : TlbEntry) : Option LoongArchMmu :=
  (decodeTlbIndex index).map fun
    | .stlb set way => { m with stlb := Function.update m.stlb set (Function.update (m.stlb set) way e) }
    | .mtlb i => { m with mtlb := Function.update m.mtlb i e }

def dmwMatchWith (crmd : BitVec 64) (dmw : List (BitVec 64)) (va : BitVec 64) : Option (BitVec 64) :=
  let plv := (crmd &&& crmdPlvMask).toNat
  dmw.findSome? fun window =>
    if window = 0 then none
    else if !has window (bit plv) then none
    else if (window >>> 60) &&& 0xF#64 = (va >>> 60) &&& 0xF#64 then some (va &&& targetVirtMask)
    else none

def directMapAddressWith (crmd : BitVec 64) (dmw : List (BitVec 64)) (va : BitVec 64) : Option (BitVec 64) :=
  if has crmd crmdDa && !has crmd crmdPg then some (va &&& targetVirtMask) else dmwMatchWith crmd dmw va

/-- The page of a matching entry that the address lies in, with the access checks. -/
def checkPage (p : TlbPage) (ps : Nat) (va : BitVec 64) (access : AccessType) (plv : BitVec 8) : TlbLookupResult :=
  if !p.v then .invalid
  else if access = .fetch ∧ p.nx = true then .execProtect
  else if access = .load ∧ p.nr = true then .readProtect
  else if (!p.rplv && p.plv < plv) || (p.rplv && plv != p.plv) then .privViolation
  else if access = .store ∧ p.d = false then .dirty
  else
    let ppn := if 12 < ps then p.ppn &&& ~~~((1#64 <<< (ps - 12)) - 1#64) else p.ppn
    .hit ((ppn <<< 12) ||| (va &&& ((1#64 <<< ps) - 1#64))) p.mat

def TlbEntry.matches (e : TlbEntry) (va : BitVec 64) (asid : BitVec 16) (gid : BitVec 8) : Bool :=
  let vppnMask := ~~~((1#64 <<< (e.pageSize + 1)) - 1#64)
  e.pageSize < 63 && va &&& vppnMask == (e.vppn <<< 13) &&& vppnMask && (e.g || e.asid == asid) && e.gid == gid

def checkEntry (e : TlbEntry) (va : BitVec 64) (asid : BitVec 16) (gid : BitVec 8) (access : AccessType)
    (plv : BitVec 8) : Option TlbLookupResult :=
  if e.matches va asid gid then
    let page := if ((va >>> e.pageSize) &&& 1#64) ≠ 0 then e.lo1 else e.lo0
    some (checkPage page e.pageSize va access plv)
  else none

/-- The first valid entry of a list that answers. -/
def searchEntries (entries : List TlbEntry) (va : BitVec 64) (asid : BitVec 16) (gid : BitVec 8)
    (access : AccessType) (plv : BitVec 8) : Option TlbLookupResult :=
  entries.findSome? fun e => if e.valid then checkEntry e va asid gid access plv else none

def LoongArchMmu.mtlbEntries : List TlbEntry := (List.range mtlbSize).map m.mtlb

def LoongArchMmu.stlbEntries (set : Nat) : List TlbEntry := (List.range stlbWays).map (m.stlb set)

def LoongArchMmu.searchMtlb (asid : BitVec 16) (gid : BitVec 8)
    (access : AccessType) (plv : BitVec 8) : Option TlbLookupResult :=
  searchEntries m.mtlbEntries va asid gid access plv

def LoongArchMmu.searchStlb (asid : BitVec 16) (gid : BitVec 8) (stlbPs : Nat)
    (access : AccessType) (plv : BitVec 8) : TlbLookupResult :=
  if stlbPs = 0 then .miss
  else
    match stlbSetIndex va stlbPs with
    | none => .miss
    | some set => (searchEntries (m.stlbEntries set) va asid gid access plv).getD .miss

def LoongArchMmu.tlbLookup (asid : BitVec 16) (gid : BitVec 8) (stlbPs : Nat)
    (access : AccessType) (plv : BitVec 8) : TlbLookupResult :=
  match m.searchMtlb va asid gid access plv with
  | some r => r
  | none => m.searchStlb va asid gid stlbPs access plv

end MachinaLoongMmu
