import Machina.Translate

/-!
# The translation algorithm of the privileged architecture

Sv39 and Sv48 as the architecture manual states them, over numbers and bit fields. The
page walk of the MMU accepts everything this algorithm accepts, and the bits it ignores
are the only difference.
-/

namespace MachinaSvSpec

open MachinaBits MachinaRiscv MachinaPmp MachinaCsr MachinaMmu MachinaByteMem MachinaWalk MachinaTranslate

inductive Mode where
  | sv39 | sv48
  deriving DecidableEq, Repr

def Mode.levels : Mode → Nat
  | .sv39 => 3
  | .sv48 => 4

/-- The bits of a virtual address that are translated. -/
def Mode.vaBits (mode : Mode) : Nat := 12 + 9 * mode.levels

/-- The extensions that give meaning to the high bits of a PTE. -/
structure Extensions where
  svnapot : Bool
  svpbmt : Bool

section

variable (pte : BitVec 64)

def isLeaf : Bool := pte.getLsbD 1 || pte.getLsbD 3

def ppnField : Nat := (pte.extractLsb' 10 44).toNat

def pbmtField : Nat := (pte.extractLsb' 61 2).toNat

/-- Bits 60 to 54 belong to no extension. -/
def futureField : Nat := (pte.extractLsb' 54 7).toNat

/-- The only NAPOT encoding is the 64 KiB page at the last level. -/
def napotEncoded (level : Nat) (pte : BitVec 64) : Bool := decide (level = 0 ∧ ppnField pte % 16 = 8)

/-- A bit or an encoding is set that is reserved for future standard use. In a pointer to the next level these are
also N, PBMT, D, A and U. -/
def reserved (ext : Extensions) (level : Nat) (pte : BitVec 64) : Bool :=
  decide (futureField pte ≠ 0) ||
    if isLeaf pte then
      (pte.getLsbD 63 && !(ext.svnapot && napotEncoded level pte)) ||
        decide (if ext.svpbmt then pbmtField pte = 3 else pbmtField pte ≠ 0)
    else
      pte.getLsbD 63 || decide (pbmtField pte ≠ 0) || pte.getLsbD 7 || pte.getLsbD 6 || pte.getLsbD 4

def invalid (ext : Extensions) (level : Nat) (pte : BitVec 64) : Bool :=
  !pte.getLsbD 0 || (!pte.getLsbD 1 && pte.getLsbD 2) || reserved ext level pte

/-- A superpage whose physical page is not aligned to its size. -/
def misaligned (level : Nat) (pte : BitVec 64) : Bool := decide (ppnField pte % 2 ^ (9 * level) ≠ 0)

/-- R, W and X allow the access; MXR makes executable pages readable. -/
def allowsKind (mxr : Bool) : AccessType → Bool
  | .read => pte.getLsbD 1 || (mxr && pte.getLsbD 3)
  | .write => pte.getLsbD 2
  | .execute => pte.getLsbD 3

/-- U allows the privilege; SUM opens user pages to the data accesses of the supervisor. No rule about U restricts
machine mode. -/
def allowsPriv (sum : Bool) (access : AccessType) : PrivLevel → Bool
  | .user => pte.getLsbD 4
  | .supervisor => if access = .execute then !pte.getLsbD 4 else !pte.getLsbD 4 || sum
  | .machine => true

def allowed (access : AccessType) (priv : PrivLevel) (sum mxr : Bool) : Bool :=
  allowsKind pte mxr access && allowsPriv pte sum access priv

/-- The bits of an address that are the offset in the page. -/
def pageBits (level : Nat) (pte : BitVec 64) : Nat := if pte.getLsbD 63 then 16 else 12 + 9 * level

def physical (level : Nat) (pte : BitVec 64) (va : Nat) : Nat :=
  ppnField pte * 4096 / 2 ^ pageBits level pte * 2 ^ pageBits level pte + va % 2 ^ pageBits level pte

/-- The PTE of the address in the table at `a` of a level. -/
def pteSlot (va level a : Nat) : Nat := a + va / 2 ^ (12 + 9 * level) % 512 * 8

end

/-- The leaf for an address and its level, below the table at `a`. A PTE that may not be read ends the search. -/
def lookup (ext : Extensions) (pteAt : Nat → BitVec 64) (readable : Nat → Bool) (va : Nat) :
    Nat → Nat → Option (Nat × BitVec 64)
  | 0, _ => none
  | level + 1, a =>
    let pte := pteAt (pteSlot va level a)
    if readable (pteSlot va level a) = false ∨ invalid ext level pte = true then none
    else if isLeaf pte then if misaligned level pte then none else some (level, pte)
    else lookup ext pteAt readable va level (ppnField pte * 4096)

/-- The bits above the translated ones are all equal to the highest translated one. -/
def Canonical (mode : Mode) (va : BitVec 64) : Prop :=
  ∀ i, i < 64 → mode.vaBits ≤ i → va.getLsbD i = va.getLsbD (mode.vaBits - 1)

instance (mode : Mode) (va : BitVec 64) : Decidable (Canonical mode va) :=
  inferInstanceAs (Decidable (∀ i, i < 64 → mode.vaBits ≤ i → va.getLsbD i = va.getLsbD (mode.vaBits - 1)))

/-- The physical address of a virtual address, if the access is allowed. -/
def translation (ext : Extensions) (mode : Mode) (rootPpn : Nat) (pteAt : Nat → BitVec 64) (readable : Nat → Bool)
    (va : BitVec 64) (access : AccessType) (priv : PrivLevel) (sum mxr : Bool) : Option Nat :=
  if Canonical mode va then
    match lookup ext pteAt readable va.toNat mode.levels (rootPpn * 4096) with
    | none => none
    | some (level, pte) => if allowed pte access priv sum mxr then some (physical level pte va.toNat) else none
  else none

section Agreement

variable (m : Mmu) (mem : Mem) (gva : BitVec 64) (access : AccessType) (priv : PrivLevel) (mstatus size : BitVec 64)
  (pmp : Option Pmp)

def extensions : Extensions := ⟨m.extSsvnapot, m.extSvpbmt⟩

def mode : Mode := if m.satpMode = satpModeSv48 then .sv48 else .sv39

/-- The PTE in memory, without the attributes of the vendor extension if that is on. -/
def pteAt (a : Nat) : BitVec 64 := m.pteStandardView (read mem (BitVec.ofNat 64 a) 8)

/-- Page tables are read as the supervisor, also for the user. -/
def tablePriv : PrivLevel → PrivLevel
  | .machine => .machine
  | _ => .supervisor

def readable (a : Nat) : Bool := (pmpCheck pmp (BitVec.ofNat 64 a) 8#64 .read (tablePriv priv)).isOk

/-- What the architecture says about a request to the MMU. -/
def specAddress : Option Nat :=
  translation (extensions m) (mode m) (m.satp.extractLsb' 0 44).toNat (pteAt m mem) (readable priv pmp) gva access priv
    (mstatus.getLsbD 18) (mstatus.getLsbD 19)

/-- PMP denies setting the accessed or dirty bit, or the access itself. -/
def PmpDenies (pa : BitVec 64) : Prop :=
  (∃ l, m.walkPageTable mem gva access pmp priv = .ok l ∧ ¬AdAllowed l access pmp priv) ∨
    pmpCheck pmp pa size access priv ≠ .ok ()

/-- Walk and permission check succeed exactly when the architecture translates the address, and a miss then gives that
address unless PMP denies it. -/
structure FollowsSpec : Prop where
  succeeds : (∃ l, m.walkPageTable mem gva access pmp priv = .ok l ∧ checkPerm l.perm access priv mstatus = .ok ()) ↔
    ∃ pa, specAddress m mem gva access priv mstatus pmp = some pa
  address : ∀ pa, specAddress m mem gva access priv mstatus pmp = some pa →
    (m.translateMiss mem gva access priv mstatus size pmp).2.2 = .ok (BitVec.ofNat 64 pa) ∨
      PmpDenies m mem gva access priv size pmp (BitVec.ofNat 64 pa)

/-- The reserved bits that the walk does not look at. -/
def ignored (pte : BitVec 64) : Bool :=
  decide (futureField pte ≠ 0) ||
    if isLeaf pte then decide (pbmtField pte = 3)
    else pte.getLsbD 63 || decide (pbmtField pte ≠ 0) || pte.getLsbD 7 || pte.getLsbD 6 || pte.getLsbD 4

def CleanBelow (n : Nat) (a : BitVec 64) : Prop :=
  ∀ w ∈ walkWords m mem gva n a, ignored (m.pteStandardView (read mem w 8)) = false

/-- No PTE on the way to a permitted leaf has a reserved bit that the walk ignores. -/
def CleanPath : Prop :=
  ∀ l, m.walkPageTable mem gva access pmp priv = .ok l → checkPerm l.perm access priv mstatus = .ok () →
    CleanBelow m mem gva (levels m) (root m)

end Agreement

theorem toNat_ptePpn (pte : BitVec 64) : (ptePpn pte).toNat = ppnField pte := by
  rw [ptePpn, ptePpnMask, toNat_and_low _ (by decide), ppnField, BitVec.extractLsb'_toNat, BitVec.toNat_ushiftRight]

theorem has_pteN (pte : BitVec 64) : has pte pteN = pte.getLsbD 63 := has_bit pte (by decide)

theorem pbmtField_eq (pte : BitVec 64) : pbmtField pte = (pte.getLsbD 61).toNat + 2 * (pte.getLsbD 62).toNat := by
  rw [pbmtField, BitVec.extractLsb'_toNat, Nat.shiftRight_eq_div_pow, BitVec.getLsbD, BitVec.getLsbD,
    Nat.toNat_testBit, Nat.toNat_testBit]
  omega

theorem has_ptePbmt (pte : BitVec 64) : has pte ptePbmt = decide (pbmtField pte ≠ 0) := by
  rw [show ptePbmt = bit 61 ||| bit 62 by decide, has_or, has_bit _ (by decide), has_bit _ (by decide), pbmtField_eq]
  cases pte.getLsbD 61 <;> cases pte.getLsbD 62 <;> rfl

theorem toNat_ctz_eq_iff (x : BitVec 64) {k : Nat} (hk : k < 64) :
    x.ctz.toNat = k ↔ (∀ i < k, x.getLsbD i = false) ∧ x.getLsbD k = true := by
  constructor
  · rintro rfl
    refine ⟨fun i hi => BitVec.getLsbD_false_of_lt_ctz hi, BitVec.getLsbD_true_ctz_of_ne_zero ?_⟩
    rw [← BitVec.ctz_lt_iff_ne_zero, BitVec.lt_def]
    exact hk
  · rintro ⟨hlow, hset⟩
    have hne : x ≠ 0#64 := by
      rintro rfl
      simp at hset
    rcases Nat.lt_trichotomy x.ctz.toNat k with h | h | h
    · have hbit := hlow _ h
      rw [BitVec.getLsbD_true_ctz_of_ne_zero hne] at hbit
      cases hbit
    · exact h
    · rw [BitVec.getLsbD_false_of_lt_ctz h] at hset
      cases hset

theorem ctz_eq_three (x : BitVec 64) : x.ctz.toNat + 1 = 4 ↔ x.toNat % 16 = 8 := by
  rw [show x.ctz.toNat + 1 = 4 ↔ x.ctz.toNat = 3 by omega, toNat_ctz_eq_iff x (by decide)]
  have hbits : (∀ i < 3, x.getLsbD i = false) ↔
      x.getLsbD 0 = false ∧ x.getLsbD 1 = false ∧ x.getLsbD 2 = false := by
    constructor
    · intro h
      exact ⟨h 0 (by decide), h 1 (by decide), h 2 (by decide)⟩
    · rintro ⟨h0, h1, h2⟩ i hi
      interval_cases i <;> assumption
  rw [hbits]
  simp only [BitVec.getLsbD, Nat.testBit_eq_decide_div_mod_eq, decide_eq_false_iff_not, decide_eq_true_eq]
  omega

theorem has_low (x : BitVec 64) {k : Nat} (hk : k < 64) :
    has x ((1#64 <<< k) - 1#64) = decide (x.toNat % 2 ^ k ≠ 0) := by
  rw [Bool.eq_iff_iff, has, bne_iff_ne, ne_eq, ← BitVec.toNat_inj, toNat_and_low x hk, decide_eq_true_iff]
  rfl

def refused (ext : Extensions) (level : Nat) (pte : BitVec 64) : Bool :=
  (!ext.svpbmt && decide (pbmtField pte ≠ 0)) || !pte.getLsbD 0 || (!pte.getLsbD 1 && pte.getLsbD 2) ||
    (isLeaf pte && ((pte.getLsbD 63 && !(ext.svnapot && napotEncoded level pte)) || misaligned level pte))

/-- The architecture refuses in addition exactly what the walk ignores. -/
theorem refused_or_ignored (ext : Extensions) (level : Nat) (pte : BitVec 64) :
    (refused ext level pte || ignored pte) = (invalid ext level pte || (isLeaf pte && misaligned level pte)) := by
  simp only [refused, ignored, invalid, reserved]
  cases isLeaf pte <;> cases ext.svpbmt <;> by_cases hpbmt : pbmtField pte = 0 <;> simp [hpbmt] <;> grind

theorem misaligned_eq {level : Nat} (hlevel : level < 4) (pte : BitVec 64) :
    (0 < level ∧ has (ptePpn pte) ((1#64 <<< (level * 9)) - 1#64) = true) ↔ misaligned level pte = true := by
  rw [has_low _ (by omega), toNat_ptePpn, misaligned, decide_eq_true_iff, decide_eq_true_iff, Nat.mul_comm level 9]
  refine ⟨And.right, fun h => ⟨?_, h⟩⟩
  by_contra hzero
  obtain rfl : level = 0 := by omega
  exact h (Nat.mod_one _)

/-- The PPN of a leaf: a NAPOT page takes four bits from the address. -/
def napotPpn (gva pte : BitVec 64) : BitVec 64 :=
  if pte.getLsbD 63 then (ptePpn pte &&& ~~~((1#64 <<< 4) - 1#64)) ||| ((gva >>> 12) &&& ((1#64 <<< 4) - 1#64))
  else ptePpn pte

section Step

variable (m : Mmu) (gva : BitVec 64) (access : AccessType)

theorem leafPpn_eq (level : Nat) (pte : BitVec 64) : m.leafPpn gva access level pte =
      if (pte.getLsbD 63 && !(m.extSsvnapot && napotEncoded level pte)) = true then .error (pageFault access)
      else .ok (napotPpn gva pte) := by
  simp only [Mmu.leafPpn, has_pteN, ne_eq, ctz_eq_three, toNat_ptePpn, napotEncoded, napotPpn]
  cases pte.getLsbD 63 <;> cases m.extSsvnapot <;> by_cases hlevel : level = 0 <;>
    by_cases hppn : ppnField pte % 16 = 8 <;> simp [hlevel, hppn]

/-- One PTE of the walk: it is refused, or it is a leaf, or it points to the next table. -/
theorem pteStep_eq {level : Nat} (hlevel : level < 4) (addr pte : BitVec 64) : m.pteStep gva access level addr pte =
      if refused (extensions m) level (m.pteStandardView pte) = true then .error (pageFault access)
      else if isLeaf (m.pteStandardView pte) = true then
        .ok (.leaf ⟨napotPpn gva (m.pteStandardView pte), permOf (m.pteStandardView pte),
          levelPageSize level, addr, pte⟩)
      else .ok (.descend (ptePpn pte * pageSize)) := by
  rw [Mmu.pteStep]
  generalize m.pteStandardView pte = v
  rw [← permOf]
  simp only [leafPpn_eq, has_ptePbmt, pteV, pteR, pteW, pteX, has_permOf _ (show 0 < 8 by decide),
    has_permOf _ (show 1 < 8 by decide), has_permOf _ (show 2 < 8 by decide), has_permOf _ (show 3 < 8 by decide),
    misaligned_eq hlevel, refused, extensions]
  have hleaf : (v.getLsbD 1 = true ∨ v.getLsbD 3 = true) ↔ isLeaf v = true := (Bool.or_eq_true ..).symm.to_iff
  simp only [hleaf]
  obtain ⟨napot, hnapot⟩ : ∃ b, (v.getLsbD 63 && !(m.extSsvnapot && napotEncoded level v)) = b := ⟨_, rfl⟩
  simp only [hnapot]
  clear hnapot
  by_cases hpbmt : m.extSvpbmt = false ∧ decide (pbmtField v ≠ 0) = true
  · rw [if_pos hpbmt, hpbmt.1, hpbmt.2]
    rfl
  have hpbmt' : (!m.extSvpbmt && decide (pbmtField v ≠ 0)) = false := by simpa using hpbmt
  rw [if_neg hpbmt, hpbmt']
  cases hvalid : v.getLsbD 0 with
  | false => simp
  | true =>
    by_cases hwrite : v.getLsbD 1 = false ∧ v.getLsbD 2 = true
    · rw [if_neg (by decide), if_pos hwrite, hwrite.1, hwrite.2]
      simp
    have hwrite' : (!v.getLsbD 1 && v.getLsbD 2) = false := by simpa using hwrite
    rw [if_neg (by decide), if_neg hwrite, hwrite']
    cases isLeaf v <;> cases napot <;> cases misaligned level v <;> rfl

end Step

section Address

variable {ext : Extensions} {gva v : BitVec 64} {level : Nat}

theorem toNat_or_of_dvd {x y : BitVec 64} {k : Nat} (hx : 2 ^ k ∣ x.toNat) (hy : y.toNat < 2 ^ k) :
    (x ||| y).toNat = x.toNat + y.toNat := by
  obtain ⟨q, hq⟩ := hx
  rw [BitVec.toNat_or, hq, Nat.two_pow_add_eq_or_of_lt hy]

theorem levelPageSize_eq (hlevel : level < 4) : levelPageSize level = 1#64 <<< (12 + 9 * level) := by
  interval_cases level <;> rfl

theorem ppnField_lt (pte : BitVec 64) : ppnField pte < 2 ^ 44 := BitVec.isLt _

theorem toNat_ppn_shift {x : BitVec 64} (hx : x.toNat < 2 ^ 44) : (x <<< 12).toNat = x.toNat * 4096 := by
  rw [BitVec.toNat_shiftLeft, Nat.shiftLeft_eq, Nat.mod_eq_of_lt (by omega)]

theorem toNat_napotPpn (hn : v.getLsbD 63 = true) :
    (napotPpn gva v).toNat = ppnField v / 16 * 16 + gva.toNat / 4096 % 16 := by
  have hlow : ((gva >>> 12) &&& ((1#64 <<< 4) - 1#64)).toNat = gva.toNat / 4096 % 16 := by
    rw [toNat_and_low _ (by decide), BitVec.toNat_ushiftRight, Nat.shiftRight_eq_div_pow]
    rfl
  have hhigh : (ptePpn v &&& ~~~((1#64 <<< 4) - 1#64)).toNat = ppnField v / 16 * 16 := by
    rw [toNat_clear_low _ (by decide), toNat_ptePpn]
    rfl
  rw [napotPpn, if_pos hn, toNat_or_of_dvd (k := 4) (hhigh ▸ Dvd.intro_left _ rfl) (hlow ▸ Nat.mod_lt _ (by decide)),
    hhigh, hlow]

/-- The page and the offset are joined as the architecture does. -/
theorem toNat_phys (hlevel : level < 4) (hok : refused ext level v = false) (hleaf : isLeaf v = true) (perm : BitVec 8)
    (addr pte : BitVec 64) :
    ((⟨napotPpn gva v, perm, levelPageSize level, addr, pte⟩ : Leaf).phys gva).toNat = physical level v gva.toNat := by
  have hppn := ppnField_lt v
  simp only [refused, hleaf, Bool.true_and, Bool.or_eq_false_iff] at hok
  obtain ⟨-, hnapot, haligned⟩ := hok
  have hoffset : (gva &&& (levelPageSize level - 1#64)).toNat = gva.toNat % 2 ^ (12 + 9 * level) := by
    rw [levelPageSize_eq hlevel, toNat_and_low _ (by omega)]
  have hbound : (gva &&& (levelPageSize level - 1#64)).toNat < 2 ^ (12 + 9 * level) :=
    hoffset ▸ Nat.mod_lt _ (Nat.two_pow_pos _)
  rw [Leaf.phys, physical, pageBits]
  cases hn : v.getLsbD 63 with
  | true =>
    obtain ⟨-, rfl, -⟩ : ext.svnapot = true ∧ level = 0 ∧ ppnField v % 16 = 8 := by
      simpa [hn, napotEncoded] using hnapot
    have hpage : (napotPpn gva v).toNat = _ := toNat_napotPpn hn
    have hshift : (napotPpn gva v <<< 12).toNat = (napotPpn gva v).toNat * 4096 := toNat_ppn_shift (by omega)
    rw [toNat_or_of_dvd (hshift ▸ Dvd.intro_left _ rfl) hbound, hoffset, hshift, hpage]
    simp only [if_true]
    omega
  | false =>
    have hpage : napotPpn gva v = ptePpn v := if_neg (by rw [hn]; decide)
    have hshift : (ptePpn v <<< 12).toNat = ppnField v * 4096 := by
      rw [toNat_ppn_shift (by rw [toNat_ptePpn]; exact hppn), toNat_ptePpn]
    have hdvd : 2 ^ (12 + 9 * level) ∣ ppnField v * 4096 := by
      rw [Nat.pow_add, Nat.mul_comm]
      exact Nat.mul_dvd_mul (Nat.dvd_of_mod_eq_zero (by simpa [misaligned] using haligned)) (Nat.dvd_refl _)
    rw [hpage, toNat_or_of_dvd (hshift ▸ hdvd) hbound, hoffset, hshift, if_neg (by decide), Nat.div_mul_cancel hdvd]

end Address

section Lookup

variable (m : Mmu) (mem : Mem) (gva : BitVec 64) (access : AccessType) (priv : PrivLevel) (pmp : Option Pmp)

theorem vpnIndex_eq (level : Nat) : vpnIndex gva level = BitVec.ofNat 64 (gva.toNat / 2 ^ (12 + 9 * level) % 512) := by
  apply BitVec.eq_of_toNat_eq
  rw [vpnIndex, show vpnMask = (1#64 <<< 9) - 1#64 by decide, toNat_and_low _ (by decide), BitVec.toNat_ushiftRight,
    Nat.shiftRight_eq_div_pow, BitVec.toNat_ofNat, Nat.mul_comm level 9]
  omega

theorem pteSlot_eq (level a : Nat) :
    BitVec.ofNat 64 a + vpnIndex gva level * pteSize = BitVec.ofNat 64 (pteSlot gva.toNat level a) := by
  rw [vpnIndex_eq, pteSlot, BitVec.ofNat_add, BitVec.ofNat_mul]
  rfl

/-- The vendor's attributes are above the PPN. -/
theorem ppnField_standardView (pte : BitVec 64) : ppnField (m.pteStandardView pte) = ppnField pte := by
  have hattrs (i : Nat) (hi : i < 59) : (m.theadMaeeAttrMask pte).getLsbD i = false := by
    rw [Mmu.theadMaeeAttrMask]
    split <;> (revert i; decide)
  rw [ppnField, ppnField, Mmu.pteStandardView]
  split
  · congr 1
    apply BitVec.eq_of_getLsbD_eq
    intro i hi
    simp only [BitVec.getLsbD_extractLsb', BitVec.getLsbD_and, BitVec.getLsbD_not, hattrs (10 + i) (by omega), hi]
    simp
    omega
  · rfl

theorem descend_eq (pte : BitVec 64) :
    ptePpn pte * pageSize = BitVec.ofNat 64 (ppnField (m.pteStandardView pte) * 4096) := by
  rw [ppnField_standardView, BitVec.ofNat_mul, ← toNat_ptePpn, BitVec.ofNat_toNat, BitVec.setWidth_eq]
  rfl

theorem pmpCheck_tablePriv (addr size : BitVec 64) (kind : AccessType) :
    pmpCheck pmp addr size kind (tablePriv priv) = pmpCheck pmp addr size kind priv := by
  cases pmp with
  | none => rfl
  | some p => cases priv <;> simp [pmpCheck, tablePriv, checkAccess, checkPermission]

theorem readable_eq (a : Nat) : readable priv pmp a = (pmpCheck pmp (BitVec.ofNat 64 a) pteSize .read priv).isOk :=
  congrArg Except.isOk (pmpCheck_tablePriv priv pmp _ _ _)

/-- The walk and the search of the architecture: the search finds what the walk finds, if the words are clean. -/
structure Corresponds (found : Option (Nat × BitVec 64)) (walked : Except Exception Leaf) (clean : Prop) : Prop where
  sound : ∀ level v, found = some (level, v) → clean ∧ ∃ l, walked = .ok l ∧ l.perm = permOf v ∧
    (l.phys gva).toNat = physical level v gva.toNat
  complete : ∀ l, walked = .ok l → clean → found.isSome = true

variable {m mem gva access priv pmp}

theorem Corresponds.nothing {e : Exception} {clean : Prop} : Corresponds gva none (.error e) clean :=
  ⟨nofun, nofun⟩

theorem Corresponds.dirty {walked : Except Exception Leaf} {clean : Prop} (h : ¬clean) :
    Corresponds gva none walked clean :=
  ⟨nofun, fun _ _ hclean => absurd hclean h⟩

theorem Corresponds.congr {found : Option (Nat × BitVec 64)} {walked : Except Exception Leaf} {clean clean' : Prop}
    (h : Corresponds gva found walked clean) (hclean : clean ↔ clean') : Corresponds gva found walked clean' :=
  ⟨fun level v hv => (h.sound level v hv).imp_left hclean.mp, fun l hl hc => h.complete l hl (hclean.mpr hc)⟩

/-- One PTE of the search, by what the walk refuses and what it ignores. -/
theorem lookup_step (ext : Extensions) (level : Nat) (pte : BitVec 64) (next : Option (Nat × BitVec 64)) :
    (if invalid ext level pte = true then none
      else if isLeaf pte = true then if misaligned level pte = true then none else some (level, pte) else next) =
      if (refused ext level pte || ignored pte) = true then none
      else if isLeaf pte = true then some (level, pte) else next := by
  rw [refused_or_ignored]
  cases invalid ext level pte <;> cases isLeaf pte <;> cases misaligned level pte <;> rfl

theorem walkFrom_corresponds (n : Nat) (hn : n ≤ 4) (a : Nat) :
    Corresponds gva (lookup (extensions m) (pteAt m mem) (readable priv pmp) gva.toNat n a)
      (m.walkFrom mem gva access pmp priv n (BitVec.ofNat 64 a)) (CleanBelow m mem gva n (BitVec.ofNat 64 a)) := by
  induction n generalizing a with
  | zero => exact .nothing
  | succ level ih =>
    have hlevel : level < 4 := by omega
    rw [lookup, Mmu.walkFrom, CleanBelow, walkWords]
    simp only [pteSlot_eq, List.forall_mem_cons, readable_eq, pteStep_eq _ _ _ hlevel, descend_eq m]
    generalize pteSlot gva.toNat level a = slot
    cases pmpCheck pmp (BitVec.ofNat 64 slot) pteSize .read priv with
    | error e => exact .nothing
    | ok u =>
      simp only [Except.isOk, Except.toBool, Bool.true_eq_false, false_or, lookup_step]
      rw [← pteAt]
      generalize hv : pteAt m mem slot = v
      cases hrefused : refused (extensions m) level v with
      | true => exact .nothing
      | false =>
        cases hignored : ignored v with
        | true => exact .dirty fun h => absurd h.1 (by decide)
        | false =>
          cases hleaf : isLeaf v with
          | true =>
            refine ⟨?_, fun _ _ _ => rfl⟩
            rintro _ _ ⟨⟩
            exact ⟨⟨rfl, by simp⟩, _, rfl, rfl, toNat_phys hlevel hrefused hleaf ..⟩
          | false => exact (ih (by omega) _).congr (and_iff_right rfl).symm

theorem checkPerm_iff (v mstatus : BitVec 64) : checkPerm (permOf v) access priv mstatus = .ok () ↔
      allowed v access priv (mstatus.getLsbD 18) (mstatus.getLsbD 19) = true := by
  have hbit (k : Nat) (hk : k < 8) : has (permOf v) (bit k) = v.getLsbD k := has_permOf v hk
  have hsum : has mstatus mstatusSum = mstatus.getLsbD 18 := has_bit mstatus (by decide)
  have hmxr : has mstatus mstatusMxr = mstatus.getLsbD 19 := has_bit mstatus (by decide)
  rw [checkPerm_ok_iff, ← Bool.and_eq_true, allowed]
  cases priv <;> cases access <;>
    simp [permitsKind, permitsPriv, allowsKind, allowsPriv, pteR, pteW, pteX, pteU, hbit, hsum, hmxr,
      -BitVec.getLsbD_eq_getElem]

theorem sshiftRight_eq_iff (b : Bool) {k : Nat} (hk : k < 64) :
    gva.sshiftRight k = (if b then BitVec.allOnes 64 else 0#64) ↔ ∀ i, i < 64 → k ≤ i → gva.getLsbD i = b := by
  have hsame (i : Nat) (hi : i < 64) : (if b then BitVec.allOnes 64 else 0#64).getLsbD i = b := by
    cases b with
    | false => exact BitVec.getLsbD_zero
    | true => exact BitVec.getLsbD_allOnes.trans (decide_eq_true hi)
  constructor
  · intro h i hi hki
    have hbit : (gva.sshiftRight k).getLsbD (i - k) = gva.getLsbD i := by
      rw [BitVec.getLsbD_sshiftRight, show k + (i - k) = i by omega, if_pos hi]
      simp
      omega
    rw [← hbit, h, hsame _ (by omega)]
  · intro h
    apply BitVec.eq_of_getLsbD_eq
    intro i hi
    rw [hsame i hi, BitVec.getLsbD_sshiftRight]
    by_cases hki : k + i < 64
    · rw [if_pos hki, h _ hki (by omega)]
      simp [hi]
    · rw [if_neg hki, BitVec.msb_eq_getLsbD_last, h _ (by omega) (by omega)]
      simp [hi]

theorem sign_iff {k : Nat} (hk : k < 63) : (gva.sshiftRight k = 0#64 ∨ gva.sshiftRight k = BitVec.allOnes 64) ↔
      ∀ i, i < 64 → k + 1 ≤ i → gva.getLsbD i = gva.getLsbD k := by
  have hzero : gva.sshiftRight k = 0#64 ↔ _ := sshiftRight_eq_iff false (by omega)
  have hones : gva.sshiftRight k = BitVec.allOnes 64 ↔ _ := sshiftRight_eq_iff true (by omega)
  rw [hzero, hones]
  constructor
  · rintro (h | h) i hi hki
    · rw [h i hi (by omega), h k (by omega) (Nat.le_refl k)]
    · rw [h i hi (by omega), h k (by omega) (Nat.le_refl k)]
  · intro h
    have hall (i : Nat) (hi : i < 64) (hki : k ≤ i) : gva.getLsbD i = gva.getLsbD k := by
      by_cases heq : i = k
      · rw [heq]
      · exact h i hi (by omega)
    cases hk : gva.getLsbD k with
    | false => exact Or.inl fun i hi hki => (hall i hi hki).trans hk
    | true => exact Or.inr fun i hi hki => (hall i hi hki).trans hk

theorem canonical_iff (hmode : m.satpMode = satpModeSv39 ∨ m.satpMode = satpModeSv48) :
    isCanonicalSv gva m.satpMode = true ↔ Canonical (mode m) gva := by
  rcases hmode with h | h
  · have hspec : mode m = .sv39 := if_neg (by rw [h]; decide)
    rw [h, hspec, isCanonicalSv, if_pos rfl, decide_eq_true_iff]
    exact sign_iff (by decide)
  have hspec : mode m = .sv48 := if_pos h
  rw [h, hspec, isCanonicalSv, if_neg (by decide), if_pos rfl, decide_eq_true_iff]
  exact sign_iff (by decide)

theorem levels_eq : (mode m).levels = levels m := by
  rw [mode, levels]
  split <;> rfl

theorem root_eq : BitVec.ofNat 64 ((m.satp.extractLsb' 0 44).toNat * 4096) = root m := by
  rw [root, BitVec.ofNat_mul, satpPpnMask]
  congr 1
  apply BitVec.eq_of_toNat_eq
  rw [toNat_and_low _ (by decide), BitVec.extractLsb'_toNat, BitVec.toNat_ofNat, Nat.shiftRight_zero]
  omega

end Lookup

section Agreement

variable {m : Mmu} {mem : Mem} {gva : BitVec 64} {access : AccessType} {priv : PrivLevel} {mstatus size : BitVec 64}
  {pmp : Option Pmp}

theorem walkPageTable_eq : m.walkPageTable mem gva access pmp priv =
      if isCanonicalSv gva m.satpMode = false then .error (pageFault access)
      else m.walkFrom mem gva access pmp priv (levels m) (root m) := rfl

variable (m mem gva access priv pmp) in
theorem root_corresponds : Corresponds gva
      (lookup (extensions m) (pteAt m mem) (readable priv pmp) gva.toNat (mode m).levels
        ((m.satp.extractLsb' 0 44).toNat * 4096))
      (m.walkFrom mem gva access pmp priv (levels m) (root m)) (CleanBelow m mem gva (levels m) (root m)) := by
  rw [levels_eq, ← root_eq]
  exact walkFrom_corresponds _ (by rw [levels]; split <;> decide) _

variable (hmode : m.satpMode = satpModeSv39 ∨ m.satpMode = satpModeSv48)
include hmode

/-- What the architecture translates is found by the walk, on a clean path and with permission. -/
theorem specAddress_sound {pa : Nat} (h : specAddress m mem gva access priv mstatus pmp = some pa) :
    CleanBelow m mem gva (levels m) (root m) ∧ ∃ l, m.walkPageTable mem gva access pmp priv = .ok l ∧
      checkPerm l.perm access priv mstatus = .ok () ∧ l.phys gva = BitVec.ofNat 64 pa := by
  rw [specAddress, translation] at h
  split at h
  · rename_i hcanon
    split at h
    · cases h
    rename_i level v hfound
    split at h
    · rename_i hallowed
      cases h
      obtain ⟨hclean, l, hwalk, hperm, hphys⟩ := (root_corresponds m mem gva access priv pmp).sound level v hfound
      refine ⟨hclean, l, ?_, ?_, ?_⟩
      · rw [walkPageTable_eq, if_neg (by rw [(canonical_iff hmode).mpr hcanon]; decide)]
        exact hwalk
      · rw [hperm]
        exact (checkPerm_iff v mstatus).mpr hallowed
      · rw [← hphys, BitVec.ofNat_toNat, BitVec.setWidth_eq]
    · cases h
  · cases h

theorem specAddress_complete {l : Leaf}
    (hwalk : m.walkPageTable mem gva access pmp priv = .ok l) (hperm : checkPerm l.perm access priv mstatus = .ok ())
    (hclean : CleanBelow m mem gva (levels m) (root m)) :
    ∃ pa, specAddress m mem gva access priv mstatus pmp = some pa := by
  rw [walkPageTable_eq] at hwalk
  split at hwalk
  · cases hwalk
  rename_i hcanon
  have hcorr := root_corresponds m mem gva access priv pmp
  obtain ⟨⟨level, v⟩, hfound⟩ := Option.isSome_iff_exists.mp (hcorr.complete l hwalk hclean)
  obtain ⟨-, l', hwalk', hperm', -⟩ := hcorr.sound level v hfound
  obtain rfl : l = l' := Except.ok.inj (hwalk.symm.trans hwalk')
  rw [hperm'] at hperm
  rw [specAddress, translation, if_pos ((canonical_iff hmode).mp (Bool.not_eq_false _ ▸ hcanon)), hfound]
  dsimp only
  rw [if_pos ((checkPerm_iff v mstatus).mp hperm)]
  exact ⟨_, rfl⟩

end Agreement

/-- The MMU follows the architecture exactly when the reserved bits it ignores are clear. -/
theorem walk_follows_spec_iff (m : Mmu) (mem : Mem) (gva : BitVec 64) (access : AccessType) (priv : PrivLevel)
    (mstatus size : BitVec 64) (pmp : Option Pmp) (hmode : m.satpMode = satpModeSv39 ∨ m.satpMode = satpModeSv48) :
    FollowsSpec m mem gva access priv mstatus size pmp ↔ CleanPath m mem gva access priv mstatus pmp := by
  constructor
  · intro h l hwalk hperm
    obtain ⟨pa, hpa⟩ := h.succeeds.mp ⟨l, hwalk, hperm⟩
    exact (specAddress_sound hmode hpa).1
  · intro hclean
    refine ⟨⟨?_, ?_⟩, ?_⟩
    · rintro ⟨l, hwalk, hperm⟩
      exact specAddress_complete hmode hwalk hperm (hclean l hwalk hperm)
    · rintro ⟨pa, hpa⟩
      obtain ⟨-, l, hwalk, hperm, -⟩ := specAddress_sound hmode hpa
      exact ⟨l, hwalk, hperm⟩
    · intro pa hpa
      obtain ⟨-, l, hwalk, hperm, hphys⟩ := specAddress_sound hmode hpa
      obtain ⟨hkind, huser⟩ := (checkPerm_ok_iff ..).mp hperm
      by_cases hdenied : PmpDenies m mem gva access priv size pmp (BitVec.ofNat 64 pa)
      · exact Or.inr hdenied
      obtain ⟨had, hpmp⟩ := not_or.mp hdenied
      refine Or.inl ((translateMiss_ok_iff ..).mpr ⟨l, ⟨hwalk, hkind, huser, ?_, ?_⟩, hphys.symm⟩)
      · by_contra hnot
        exact had ⟨l, hwalk, hnot⟩
      · rw [hphys]
        exact not_not.mp hpmp

/-- A gigapage without reserved bits is translated as the architecture says. -/
theorem gigapage_follows_spec : oneTable.satpMode = satpModeSv39 ∧
      FollowsSpec oneTable (rootEntry writtenGigapage) 0x1234#64 .read .supervisor 0#64 8#64 none := by
  have hmode : oneTable.satpMode = satpModeSv39 := by decide
  have hwords : walkWords oneTable (rootEntry writtenGigapage) 0x1234#64 (levels oneTable) (root oneTable) =
      [0x1000#64] := by
    decide +kernel
  have hclean : ignored (oneTable.pteStandardView (read (rootEntry writtenGigapage) 0x1000#64 8)) = false := by
    decide +kernel
  refine ⟨hmode, (walk_follows_spec_iff oneTable (rootEntry writtenGigapage) 0x1234#64 .read .supervisor 0#64 8#64 none
    (.inl hmode)).mpr ?_⟩
  intro l _ _ w hw
  rw [hwords, List.mem_singleton] at hw
  rw [hw]
  exact hclean

/-- The same gigapage with bit 54 set. -/
def reservedGigapage : BitVec 64 := writtenGigapage ||| bit 54

/-- The architecture raises a page fault, the MMU translates. -/
theorem reserved_bit_is_translated :
    ¬FollowsSpec oneTable (rootEntry reservedGigapage) 0x1234#64 .read .supervisor 0#64 8#64 none := by
  intro h
  have hwalk : oneTable.walkPageTable (rootEntry reservedGigapage) 0x1234#64 .read none .supervisor =
      .ok ⟨0x80000#64, 0xCF#8, levelPageSize 2, 0x1000#64, reservedGigapage⟩ := by
    decide +kernel
  have hperm : checkPerm 0xCF#8 .read .supervisor 0#64 = .ok () := by decide
  have hspec : specAddress oneTable (rootEntry reservedGigapage) 0x1234#64 .read .supervisor 0#64 none = none := by
    decide +kernel
  obtain ⟨pa, hpa⟩ := h.succeeds.mp ⟨_, hwalk, hperm⟩
  rw [hspec] at hpa
  cases hpa

end MachinaSvSpec
