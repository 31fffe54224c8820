import Machina.RiscvTypes

/-!
# Physical memory protection

The 16-entry PMP unit: configuration bytes, address decoding for the OFF, TOR,
NA4 and NAPOT modes, and the access check. All address arithmetic is the 64-bit
arithmetic of the source, so shifts drop high bits and sums wrap.
-/

namespace MachinaPmp

open MachinaBits MachinaRiscv

def pmpR : BitVec 8 := bit 0
def pmpW : BitVec 8 := bit 1
def pmpX : BitVec 8 := bit 2
def pmpAMask : BitVec 8 := 3#8 <<< 3
def pmpL : BitVec 8 := bit 7

/-- PMP address-matching mode (A field, bits [4:3] of the configuration byte). -/
inductive PmpAddrMatch where
  | off | tor | na4 | napot
  deriving DecidableEq, Repr

def PmpAddrMatch.fromCfg (cfg : BitVec 8) : PmpAddrMatch :=
  match ((cfg &&& pmpAMask) >>> 3).toNat with
  | 0 => off
  | 1 => tor
  | 2 => na4
  | _ => napot

/-- A configuration byte with its address register (physical address shifted right by two). -/
structure PmpEntry where
  cfg : BitVec 8
  addr : BitVec 64
  deriving DecidableEq, Repr

structure Pmp where
  entries : Fin 16 → PmpEntry

def Pmp.new : Pmp := ⟨fun _ => ⟨0#8, 0#64⟩⟩

theorem cfgIndex_lt (i : Fin 16) : i.val / 8 < 4 := by omega

/-- Byte `i % 8` of configuration register `i / 8`; the decoding only reads the first two. -/
def cfgByte (pmpcfg : Fin 4 → BitVec 64) (i : Fin 16) : BitVec 8 :=
  ((pmpcfg ⟨i.val / 8, cfgIndex_lt i⟩ >>> (i.val % 8 * 8)) &&& 255#64).setWidth 8

/-- Sync the entries from the CSR file's configuration and address registers. -/
def syncFromCsr (pmpcfg : Fin 4 → BitVec 64) (pmpaddr : Fin 16 → BitVec 64) : Pmp :=
  ⟨fun i => ⟨cfgByte pmpcfg i, pmpaddr i⟩⟩

/-- Decode a NAPOT address register into its byte window: the number of trailing
ones gives the size, and 61 or more of them cover everything. -/
def napotRange (pmpaddr : BitVec 64) : BitVec 64 × BitVec 64 :=
  let g := (~~~pmpaddr).ctz.toNat
  if 61 ≤ g then (0#64, BitVec.allOnes 64)
  else
    let size : BitVec 64 := 1#64 <<< (g + 3)
    let base := (pmpaddr <<< 2) &&& ~~~(size - 1#64)
    (base, base + size)

variable (p : Pmp)

/-- Lower bound of a TOR entry: the address register before it. -/
def torBase (i : Fin 16) : BitVec 64 :=
  if i.val = 0 then 0#64 else (p.entries (i - 1)).addr <<< 2

/-- The window `(base, end)` the check computes for entry `i`, if the entry is on. -/
def entryRange (i : Fin 16) : Option (BitVec 64 × BitVec 64) :=
  let entry := p.entries i
  match PmpAddrMatch.fromCfg entry.cfg with
  | .off => none
  | .napot => some (napotRange entry.addr)
  | .na4 => some (entry.addr <<< 2, (entry.addr <<< 2) + 4#64)
  | .tor => some (torBase p i, entry.addr <<< 2)

variable (addr size : BitVec 64)

/-- The window test `addr >= base && addr.wrapping_add(size) <= end`. -/
def accepts (i : Fin 16) : Bool :=
  match entryRange p i with
  | none => false
  | some (base, stop) => decide (base ≤ addr) && decide (addr + size ≤ stop)

/-- The R, W or X bit that governs an access kind. -/
def kindBit : AccessType → BitVec 8
  | .read => pmpR
  | .write => pmpW
  | .execute => pmpX

/-- Verify the permission bits of one entry; machine mode is only bound by locked entries. -/
def checkPermission (entry : PmpEntry) (access : AccessType) (priv : PrivLevel) : Except Exception Unit :=
  if priv = .machine ∧ has entry.cfg pmpL = false then .ok ()
  else if has entry.cfg (kindBit access) then .ok ()
  else .error (accessFault access)

/-- The entry the loop settles on: the first whose window accepts the access. -/
def pick : Option (Fin 16) :=
  (List.finRange 16).find? (accepts p addr size)

def hasLocked : Bool := (List.finRange 16).any fun i => has (p.entries i).cfg pmpL

/-- Check whether the access to `[addr, addr + size)` is permitted. -/
def checkAccess (access : AccessType) (priv : PrivLevel) : Except Exception Unit :=
  if priv = .machine ∧ hasLocked p = false then .ok ()
  else
    match pick p addr size with
    | some i => checkPermission (p.entries i) access priv
    | none => if priv = .machine then .ok () else .error (accessFault access)

def grants (access : AccessType) (priv : PrivLevel) : Bool :=
  (checkAccess p addr size access priv).isOk

/-- Every denial is reported as the access fault of the attempted kind. -/
theorem checkAccess_error (access : AccessType) (priv : PrivLevel)
    (e : Exception) (h : checkAccess p addr size access priv = .error e) : e = accessFault access := by
  unfold checkAccess checkPermission at h
  split at h
  · cases h
  split at h
  · split at h
    · cases h
    · split at h <;> cases h
      rfl
  · split at h <;> cases h
    rfl

end MachinaPmp
