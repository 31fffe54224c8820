import Machina.RiscvTypes

/-!
# The CSR file

Control and status registers with privilege checks, WARL masking and the S-mode
aliases into the M-mode registers. Reads and writes first decode the address; a
write returns the register file it leaves behind together with its result, so a
failing write is not assumed to leave the file alone.
-/

namespace MachinaCsr

open MachinaBits MachinaRiscv

def mstatusSie : BitVec 64 := bit 1
def mstatusMie : BitVec 64 := bit 3
def mstatusSpie : BitVec 64 := bit 5
def mstatusMpie : BitVec 64 := bit 7
def mstatusSpp : BitVec 64 := bit 8
def mstatusMpp : BitVec 64 := 3#64 <<< 11
def mstatusFs : BitVec 64 := 3#64 <<< 13
def mstatusXs : BitVec 64 := 3#64 <<< 15
def mstatusMprv : BitVec 64 := bit 17
def mstatusSum : BitVec 64 := bit 18
def mstatusMxr : BitVec 64 := bit 19
def mstatusTvm : BitVec 64 := bit 20
def mstatusTw : BitVec 64 := bit 21
def mstatusTsr : BitVec 64 := bit 22
def mstatusUxl : BitVec 64 := 3#64 <<< 32
def mstatusSd : BitVec 64 := bit 63
def mstatusUxl64 : BitVec 64 := 2#64 <<< 32
def mstatusSxl64 : BitVec 64 := 2#64 <<< 34

/-- Writable mask for mstatus (WARL). -/
def mstatusWriteMask : BitVec 64 :=
  mstatusSie ||| mstatusMie ||| mstatusSpie ||| mstatusMpie ||| mstatusSpp ||| mstatusMpp ||| mstatusFs |||
    mstatusMprv ||| mstatusSum ||| mstatusMxr ||| mstatusTvm ||| mstatusTw ||| mstatusTsr

/-- S-mode view of mstatus. -/
def sstatusMask : BitVec 64 :=
  mstatusSie ||| mstatusSpie ||| mstatusSpp ||| mstatusFs ||| mstatusXs ||| mstatusSum ||| mstatusMxr |||
    mstatusUxl ||| mstatusSd

/-- S-mode writable bits within sstatus. -/
def sstatusWriteMask : BitVec 64 :=
  mstatusSie ||| mstatusSpie ||| mstatusSpp ||| mstatusFs ||| mstatusSum ||| mstatusMxr

/-- S-mode visible interrupt bits (SSIP, STIP, SEIP). -/
def sipMask : BitVec 64 := bit 1 ||| bit 5 ||| bit 9

def fflagsMask : BitVec 64 := 0x1F#64
def frmMask : BitVec 64 := 0x07#64

/-- MXL = 2 with the extensions A, C, D, F, I, M, S and U. -/
def misaRv64imafdcsu : BitVec 64 :=
  2#64 <<< 62 ||| bit 0 ||| bit 2 ||| bit 3 ||| bit 5 ||| bit 8 ||| bit 12 ||| bit 18 ||| bit 20

/-- Delegable synchronous exceptions. -/
def medelegMask : BitVec 64 :=
  bit 0 ||| bit 1 ||| bit 2 ||| bit 3 ||| bit 4 ||| bit 5 ||| bit 6 ||| bit 7 ||| bit 8 ||| bit 12 ||| bit 13 |||
    bit 15

def causeIllegalInsn : Nat := 2

/-- Minimum privilege for a CSR, from bits [9:8] of its address; the hypervisor
level is treated as machine. -/
def required (addr : BitVec 16) : PrivLevel :=
  match ((addr >>> 8) &&& 3#16).toNat with
  | 0 => .user
  | 1 => .supervisor
  | _ => .machine

structure CsrFile where
  mstatus : BitVec 64
  misa : BitVec 64
  medeleg : BitVec 64
  mideleg : BitVec 64
  mie : BitVec 64
  mtvec : BitVec 64
  mcounteren : BitVec 64
  mscratch : BitVec 64
  mepc : BitVec 64
  mcause : BitVec 64
  mtval : BitVec 64
  mip : BitVec 64
  menvcfg : BitVec 64
  mcountinhibit : BitVec 64
  pmpcfg : Fin 4 → BitVec 64
  pmpaddr : Fin 16 → BitVec 64
  satp : BitVec 64
  sscratch : BitVec 64
  sepc : BitVec 64
  scause : BitVec 64
  stval : BitVec 64
  stvec : BitVec 64
  scounteren : BitVec 64
  cycle : BitVec 64
  instret : BitVec 64
  fflags : BitVec 64
  frm : BitVec 64
  hartId : BitVec 64
  mvendorid : BitVec 64
  marchid : BitVec 64
  maxSatpMode : BitVec 64

/-- Reset values: FS is Initial and the highest translation mode is Sv39. -/
def CsrFile.new : CsrFile where
  mstatus := bit 13
  misa := misaRv64imafdcsu
  medeleg := 0#64
  mideleg := 0#64
  mie := 0#64
  mtvec := 0#64
  mcounteren := 0#64
  mscratch := 0#64
  mepc := 0#64
  mcause := 0#64
  mtval := 0#64
  mip := 0#64
  menvcfg := 0#64
  mcountinhibit := 0#64
  pmpcfg := fun _ => 0#64
  pmpaddr := fun _ => 0#64
  satp := 0#64
  sscratch := 0#64
  sepc := 0#64
  scause := 0#64
  stval := 0#64
  stvec := 0#64
  scounteren := 0#64
  cycle := 0#64
  instret := 0#64
  fflags := 0#64
  frm := 0#64
  hartId := 0#64
  mvendorid := 0#64
  marchid := 0#64
  maxSatpMode := 8#64

/-- A decoded CSR address. -/
inductive Reg where
  | mstatus | misa | medeleg | mideleg | mie | mtvec | mcounteren | mscratch | mepc | mcause | mtval | mip
  | menvcfg | mcountinhibit
  | pmpcfg (k : Fin 2) | pmpcfgOdd | pmpaddr (i : Fin 16)
  | sstatus | sie | stvec | scounteren | sscratch | sepc | scause | stval | sip | satp
  | mhartid | mvendorid | marchid | mimpid
  | cycle | time | instret | mcycle | minstret
  | trigger | fflags | frm | fcsr | hpm | vlenb
  deriving DecidableEq, Repr

/-- The address match of the source. On RV64 only `pmpcfg0` and `pmpcfg2` exist, and
the odd ones are ignored. -/
def decode (addr : BitVec 16) : Option Reg :=
  match addr.toNat with
  | 0x300 => some .mstatus
  | 0x301 => some .misa
  | 0x302 => some .medeleg
  | 0x303 => some .mideleg
  | 0x304 => some .mie
  | 0x305 => some .mtvec
  | 0x306 => some .mcounteren
  | 0x340 => some .mscratch
  | 0x341 => some .mepc
  | 0x342 => some .mcause
  | 0x343 => some .mtval
  | 0x344 => some .mip
  | 0x30A => some .menvcfg
  | 0x320 => some .mcountinhibit
  | 0x3A0 => some (.pmpcfg 0)
  | 0x3A2 => some (.pmpcfg 1)
  | 0x3A1 => some .pmpcfgOdd
  | 0x3A3 => some .pmpcfgOdd
  | 0x100 => some .sstatus
  | 0x104 => some .sie
  | 0x105 => some .stvec
  | 0x106 => some .scounteren
  | 0x140 => some .sscratch
  | 0x141 => some .sepc
  | 0x142 => some .scause
  | 0x143 => some .stval
  | 0x144 => some .sip
  | 0x180 => some .satp
  | 0xF14 => some .mhartid
  | 0xF11 => some .mvendorid
  | 0xF12 => some .marchid
  | 0xF13 => some .mimpid
  | 0xC00 => some .cycle
  | 0xC01 => some .time
  | 0xC02 => some .instret
  | 0xB00 => some .mcycle
  | 0xB02 => some .minstret
  | 0x7A0 => some .trigger
  | 0x7A1 => some .trigger
  | 0x7A2 => some .trigger
  | 0x7A3 => some .trigger
  | 0x7A5 => some .trigger
  | 0x001 => some .fflags
  | 0x002 => some .frm
  | 0x003 => some .fcsr
  | 0xC22 => some .vlenb
  | n =>
    if h : 0x3B0 ≤ n ∧ n < 0x3C0 then some (.pmpaddr ⟨n - 0x3B0, by omega⟩)
    else if (0xB03 ≤ n ∧ n ≤ 0xB1F) ∨ (0x323 ≤ n ∧ n ≤ 0x33F) then some .hpm
    else none

/-- The SD bit, computed from the FS and XS dirty states. -/
def CsrFile.sdBit (f : CsrFile) : BitVec 64 :=
  if f.mstatus &&& mstatusFs = mstatusFs ∨ f.mstatus &&& mstatusXs = mstatusXs then mstatusSd else 0#64

/-- S-mode access to satp traps while TVM is set. -/
def CsrFile.tvmTraps (f : CsrFile) (priv : PrivLevel) : Prop :=
  priv = .supervisor ∧ has f.mstatus mstatusTvm = true

instance (f : CsrFile) (priv : PrivLevel) : Decidable (f.tvmTraps priv) :=
  inferInstanceAs (Decidable (_ ∧ _))

section

variable (f : CsrFile)

def CsrFile.readReg (r : Reg) (priv : PrivLevel) : Except Nat (BitVec 64) :=
  match r with
  | .mstatus => .ok (f.mstatus ||| f.sdBit ||| mstatusUxl64 ||| mstatusSxl64)
  | .misa => .ok f.misa
  | .medeleg => .ok f.medeleg
  | .mideleg => .ok f.mideleg
  | .mie => .ok f.mie
  | .mtvec => .ok f.mtvec
  | .mcounteren => .ok f.mcounteren
  | .mscratch => .ok f.mscratch
  | .mepc => .ok f.mepc
  | .mcause => .ok f.mcause
  | .mtval => .ok f.mtval
  | .mip => .ok f.mip
  | .menvcfg => .ok f.menvcfg
  | .mcountinhibit => .ok f.mcountinhibit
  | .pmpcfg k => .ok (f.pmpcfg (k.castLE (by decide)))
  | .pmpcfgOdd => .ok 0#64
  | .pmpaddr i => .ok (f.pmpaddr i)
  | .sstatus => .ok ((f.mstatus ||| f.sdBit ||| mstatusUxl64) &&& sstatusMask)
  | .sie => .ok (f.mie &&& f.mideleg &&& sipMask)
  | .stvec => .ok f.stvec
  | .scounteren => .ok f.scounteren
  | .sscratch => .ok f.sscratch
  | .sepc => .ok f.sepc
  | .scause => .ok f.scause
  | .stval => .ok f.stval
  | .sip => .ok (f.mip &&& f.mideleg &&& sipMask)
  | .satp => if f.tvmTraps priv then .error causeIllegalInsn else .ok f.satp
  | .mhartid => .ok f.hartId
  | .mvendorid => .ok f.mvendorid
  | .marchid => .ok f.marchid
  | .mimpid => .ok 0#64
  | .cycle => .ok f.cycle
  | .time => .ok f.cycle
  | .instret => .ok f.instret
  | .mcycle => .ok f.cycle
  | .minstret => .ok f.instret
  | .trigger => .ok 0#64
  | .fflags => .ok (f.fflags &&& fflagsMask)
  | .frm => .ok (f.frm &&& frmMask)
  | .fcsr => .ok ((f.fflags &&& fflagsMask) ||| ((f.frm &&& frmMask) <<< 5))
  | .hpm => .ok 0#64
  | .vlenb => .ok 0#64

/-- Read a CSR with privilege check. -/
def CsrFile.read (addr : BitVec 16) (priv : PrivLevel) : Except Nat (BitVec 64) :=
  if priv < required addr then .error causeIllegalInsn
  else
    match decode addr with
    | some r => f.readReg r priv
    | none => .error causeIllegalInsn

def pmpcfgL : BitVec 64 := bit 7
def pmpcfgAMask : BitVec 64 := 3#64 <<< 3
def pmpcfgATor : BitVec 64 := 1#64 <<< 3

/-- Configuration byte of a PMP entry, zero extended. -/
def CsrFile.pmpcfgByte (entry : Fin 16) : BitVec 64 :=
  (f.pmpcfg ⟨entry.val / 8, by omega⟩ >>> (entry.val % 8 * 8)) &&& 0xff#64

/-- One round of the merge loop: a locked byte keeps its value. -/
def CsrFile.mergeByte (csr : Fin 2) (val next : BitVec 64) (byte : Fin 8) : BitVec 64 :=
  let mask : BitVec 64 := 0xff#64 <<< (byte.val * 8)
  if has (f.pmpcfgByte ⟨csr.val * 8 + byte.val, by omega⟩) pmpcfgL then next
  else put next mask (val &&& mask)

def CsrFile.writePmpcfg (csr : Fin 2) (val : BitVec 64) : CsrFile :=
  let k : Fin 4 := csr.castLE (by decide)
  { f with pmpcfg := Function.update f.pmpcfg k ((List.finRange 8).foldl (f.mergeByte csr val) (f.pmpcfg k)) }

/-- An address register is locked by its own entry, or by a locked TOR entry right above it. -/
def CsrFile.pmpaddrLocked (entry : Fin 16) : Bool :=
  if has (f.pmpcfgByte entry) pmpcfgL then true
  else if h : entry.val + 1 < 16 then
    let nextCfg := f.pmpcfgByte ⟨entry.val + 1, h⟩
    has nextCfg pmpcfgL && decide (nextCfg &&& pmpcfgAMask = pmpcfgATor)
  else false

/-- The satp modes a write accepts: Bare, or Sv39 up to the model's maximum. -/
def CsrFile.acceptsSatp (val : BitVec 64) : Prop :=
  let mode := (val >>> 60) &&& 0xF#64
  mode = 0#64 ∨ (8#64 ≤ mode ∧ mode ≤ f.maxSatpMode)

end

instance (f : CsrFile) (val : BitVec 64) : Decidable (f.acceptsSatp val) := inferInstanceAs (Decidable (_ ∨ _))

variable (f : CsrFile)

def CsrFile.writeReg (r : Reg) (val : BitVec 64) (priv : PrivLevel) : CsrFile × Except Nat Unit :=
  match r with
  | .mstatus => ({ f with mstatus := put f.mstatus mstatusWriteMask (val &&& mstatusWriteMask) }, .ok ())
  | .misa => (f, .ok ())
  | .medeleg => ({ f with medeleg := val &&& medelegMask }, .ok ())
  | .mideleg => ({ f with mideleg := val &&& sipMask }, .ok ())
  | .mie => ({ f with mie := val }, .ok ())
  | .mtvec => ({ f with mtvec := val }, .ok ())
  | .mcounteren => ({ f with mcounteren := val &&& 7#64 }, .ok ())
  | .mscratch => ({ f with mscratch := val }, .ok ())
  | .mepc => ({ f with mepc := val &&& ~~~1#64 }, .ok ())
  | .mcause => ({ f with mcause := val }, .ok ())
  | .mtval => ({ f with mtval := val }, .ok ())
  | .mip => ({ f with mip := put f.mip sipMask (val &&& sipMask) }, .ok ())
  | .menvcfg => ({ f with menvcfg := val }, .ok ())
  | .mcountinhibit => ({ f with mcountinhibit := val &&& 7#64 }, .ok ())
  | .pmpcfg k => (f.writePmpcfg k val, .ok ())
  | .pmpcfgOdd => (f, .ok ())
  | .pmpaddr i =>
    (if f.pmpaddrLocked i then f else { f with pmpaddr := Function.update f.pmpaddr i val }, .ok ())
  | .sstatus => ({ f with mstatus := put f.mstatus sstatusWriteMask (val &&& sstatusWriteMask) }, .ok ())
  | .sie => ({ f with mie := put f.mie (f.mideleg &&& sipMask) (val &&& (f.mideleg &&& sipMask)) }, .ok ())
  | .stvec => ({ f with stvec := val }, .ok ())
  | .scounteren => ({ f with scounteren := val &&& 7#64 }, .ok ())
  | .sscratch => ({ f with sscratch := val }, .ok ())
  | .sepc => ({ f with sepc := val &&& ~~~1#64 }, .ok ())
  | .scause => ({ f with scause := val }, .ok ())
  | .stval => ({ f with stval := val }, .ok ())
  | .sip => ({ f with mip := put f.mip (f.mideleg &&& sipMask) (val &&& (f.mideleg &&& sipMask)) }, .ok ())
  | .satp =>
    if f.tvmTraps priv then (f, .error causeIllegalInsn)
    else if f.acceptsSatp val then ({ f with satp := val }, .ok ())
    else (f, .ok ())
  | .fflags => ({ f with fflags := val &&& fflagsMask }, .ok ())
  | .frm => ({ f with frm := val &&& frmMask }, .ok ())
  | .fcsr => ({ f with fflags := val &&& fflagsMask, frm := (val >>> 5) &&& frmMask }, .ok ())
  | .mcycle => ({ f with cycle := val }, .ok ())
  | .minstret => ({ f with instret := val }, .ok ())
  | .trigger => (f, .ok ())
  | .hpm => (f, .ok ())
  | .mhartid | .mvendorid | .marchid | .mimpid | .cycle | .time | .instret | .vlenb =>
    (f, .error causeIllegalInsn)

variable (addr : BitVec 16) (val : BitVec 64) (priv : PrivLevel)

/-- Write a CSR with privilege check and WARL masking; address bits [11:10] = 3 mark
the read-only registers. -/
def CsrFile.write : CsrFile × Except Nat Unit :=
  if priv < required addr then (f, .error causeIllegalInsn)
  else if (addr >>> 10) &&& 3#16 = 3#16 then (f, .error causeIllegalInsn)
  else
    match decode addr with
    | some r => f.writeReg r val priv
    | none => (f, .error causeIllegalInsn)

inductive RiscvVendor where
  | generic | thead
  deriving DecidableEq, Repr

/-- The parts of a CPU profile that CSR accesses and translation depend on. -/
structure RiscvCpuProfile where
  vendor : RiscvVendor
  extSvpbmt : Bool
  extSsvnapot : Bool
  extXtheadmaee : Bool
  mvendorid : BitVec 64
  marchid : BitVec 64
  maxSatpMode : BitVec 64

def RiscvCpuProfile.genericRv64 : RiscvCpuProfile := ⟨.generic, false, false, false, 0#64, 0#64, 8#64⟩

def RiscvCpuProfile.theadC908 : RiscvCpuProfile :=
  ⟨.thead, true, true, true, 0x5b7#64, 0x8d143000#64, 9#64⟩

/-- The supervisor-level vendor registers. -/
def theadSupervisor (n : Nat) : Prop :=
  n ∈ [0x5c0, 0x5c1, 0x5c2, 0x5c3, 0x5c4, 0x5c5, 0x5e0, 0x9c0, 0x9c1, 0x9c2, 0x9c3] ∨ (0x5e3 ≤ n ∧ n ≤ 0x5ff)

/-- The machine-level vendor registers that read as zero. -/
def theadMachine (n : Nat) : Prop :=
  n ∈ [0x7c1, 0x7c2, 0x7c3, 0x7c5, 0x7c7, 0x7c9, 0x7ca, 0x7cb, 0x7d2, 0x7d3, 0x7d4, 0x7d5, 0x7f3, 0xfc0, 0xfc1]

instance (n : Nat) : Decidable (theadSupervisor n) := inferInstanceAs (Decidable (_ ∨ _))
instance (n : Nat) : Decidable (theadMachine n) := inferInstanceAs (Decidable (_ ∈ _))

def theadRequired : PrivLevel :=
  if addr.toNat = 0x800 then .user else if theadSupervisor addr.toNat then .supervisor else .machine

variable (profile : RiscvCpuProfile)

/-- The two status registers report the vendor extensions, all others read as zero. -/
def theadRead : Except Nat (BitVec 64) :=
  if profile.vendor ≠ .thead then .error causeIllegalInsn
  else if priv < theadRequired addr then .error causeIllegalInsn
  else if addr.toNat = 0x7c0 ∨ addr.toNat = 0x5c0 then
    .ok (bit 16 ||| bit 22 ||| if profile.extXtheadmaee then bit 21 else 0#64)
  else if theadMachine addr.toNat ∨ theadSupervisor addr.toNat ∨ addr.toNat = 0x800 then .ok 0#64
  else .error causeIllegalInsn

/-- Vendor registers ignore what is written to them. -/
def theadWrite : Except Nat Unit :=
  (theadRead addr priv profile).map fun _ => ()

/-- Standard registers first, then the vendor's; a double failure keeps the first error. -/
def CsrFile.readForProfile : Except Nat (BitVec 64) :=
  match f.read addr priv with
  | .ok value => .ok value
  | .error err => (theadRead addr priv profile).mapError fun _ => err

def CsrFile.writeForProfile : CsrFile × Except Nat Unit :=
  match f.write addr val priv with
  | (g, .ok ()) => (g, .ok ())
  | (g, .error err) => (g, (theadWrite addr priv profile).mapError fun _ => err)

@[simp] theorem writeForProfile_fst : (f.writeForProfile addr val priv profile).1 = (f.write addr val priv).1 := by
  unfold CsrFile.writeForProfile
  split <;> simp_all

/-- A write leaves the file alone or acts as the write of the decoded register. -/
theorem write_fst_cases : (f.write addr val priv).1 = f ∨
      ∃ r, decode addr = some r ∧ f.write addr val priv = f.writeReg r val priv := by
  unfold CsrFile.write
  split
  · exact Or.inl rfl
  split
  · exact Or.inl rfl
  · split
    · rename_i r hr
      exact Or.inr ⟨r, hr, rfl⟩
    · exact Or.inl rfl

theorem write_error {f : CsrFile} {addr : BitVec 16} {val : BitVec 64} {priv : PrivLevel} {e : Nat}
    (h : (f.write addr val priv).2 = .error e) : (f.write addr val priv).1 = f := by
  rcases write_fst_cases f addr val priv with hf | ⟨r, _, hr⟩
  · exact hf
  rw [hr] at h ⊢
  cases r <;> simp only [CsrFile.writeReg, reduceCtorEq] at h ⊢
  split at h <;> rename_i ht
  · simp [ht]
  · split at h <;> cases h

@[simp] theorem write_maxSatpMode : (f.write addr val priv).1.maxSatpMode = f.maxSatpMode := by
  rcases write_fst_cases f addr val priv with hf | ⟨r, _, hr⟩
  · rw [hf]
  rw [hr]
  cases r with
  | pmpaddr i =>
    simp only [CsrFile.writeReg]
    split <;> rfl
  | satp =>
    simp only [CsrFile.writeReg]
    split
    · rfl
    · split <;> rfl
  | _ => rfl

/-- A write changes satp only to an accepted value, through the address of satp. -/
theorem write_satp_cases : (f.write addr val priv).1.satp = f.satp ∨
      (decode addr = some .satp ∧ (f.write addr val priv).1.satp = val ∧ f.acceptsSatp val) := by
  rcases write_fst_cases f addr val priv with hf | ⟨r, hd, hr⟩
  · rw [hf]
    exact Or.inl rfl
  rw [hr]
  cases r with
  | pmpaddr i =>
    left
    simp only [CsrFile.writeReg]
    split <;> rfl
  | satp =>
    simp only [CsrFile.writeReg]
    split
    · exact Or.inl rfl
    split <;> rename_i ha
    · exact Or.inr ⟨hd, rfl, ha⟩
    · exact Or.inl rfl
  | _ => exact Or.inl rfl

/-- A write changes mstatus only through the addresses of mstatus and sstatus. -/
theorem write_mstatus_cases :
    (f.write addr val priv).1.mstatus = f.mstatus ∨ decode addr = some .mstatus ∨ decode addr = some .sstatus := by
  rcases write_fst_cases f addr val priv with hf | ⟨r, hd, hr⟩
  · rw [hf]
    exact Or.inl rfl
  rw [hr]
  cases r with
  | mstatus => exact Or.inr (Or.inl hd)
  | sstatus => exact Or.inr (Or.inr hd)
  | pmpaddr i =>
    left
    simp only [CsrFile.writeReg]
    split <;> rfl
  | satp =>
    left
    simp only [CsrFile.writeReg]
    split
    · rfl
    · split <;> rfl
  | _ => exact Or.inl rfl

theorem write_satp_ok {f : CsrFile} {val : BitVec 64} {priv : PrivLevel}
    (hok : (f.write 0x180#16 val priv).2 = .ok ()) (ha : f.acceptsSatp val) :
    (f.write 0x180#16 val priv).1.satp = val := by
  have hdecode : decode 0x180#16 = some .satp := by decide
  have hwritable : ¬ (0x180#16 >>> 10) &&& 3#16 = 3#16 := by decide
  by_cases hp : priv < required 0x180#16
  · rw [CsrFile.write, if_pos hp] at hok
    cases hok
  have heq : f.write 0x180#16 val priv = f.writeReg .satp val priv := by
    rw [CsrFile.write, if_neg hp, if_neg hwritable, hdecode]
  rw [heq] at hok ⊢
  simp only [CsrFile.writeReg] at hok ⊢
  by_cases ht : f.tvmTraps priv
  · rw [if_pos ht] at hok
    cases hok
  · rw [if_neg ht, if_pos ha]

end MachinaCsr
