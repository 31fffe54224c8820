import Machina.FullSystem

/-!
# What generated code does to the system

Guest loads and stores with their inline TLB check and slow path, the atomic
helpers, the two implementations of CSR instructions, and the debugger's writes.
A helper that raises an exception leaves the translation block, which is `none`
in its result.
-/

namespace MachinaFullSystem

open MachinaRiscv MachinaPmp MachinaMmu MachinaByteMem MachinaCpu

variable (s : FullSystemCpu)

/-- The inline check: an access that stays in its page and hits a tag of its own kind. -/
def FullSystemCpu.inlineHit (access : AccessType) (gva size : BitVec 64) : Option (BitVec 64) :=
  if (gva &&& ~~~pageMask).toNat + size.toNat ≤ 4096 then s.cpu.mmu.tlbLookup access gva else none

/-- The physical address behind the host address `gva + addend`. -/
def hostPhys (c : RiscvCpu) (gva addend : BitVec 64) : BitVec 64 := gva + addend - c.guestBase

def FullSystemCpu.machinaMemRead (gva size : BitVec 64) : FullSystemCpu × BitVec 64 :=
  match s.translateForHelper gva .read size with
  | (s', some pa) =>
    if s'.isPhysBacked pa size then (s', s'.readPhysSized pa size)
    else ({ s' with cpu := s'.cpu.latch 5#64 gva }, 0#64)
  | (s', none) => (s', 0#64)

def FullSystemCpu.machinaMemWrite (gva val size : BitVec 64) : FullSystemCpu :=
  match s.translateForHelper gva .write size with
  | (s', some pa) =>
    if s'.isPhysBacked pa size then s'.writePhysSized pa val size
    else { s' with cpu := s'.cpu.latch 7#64 gva }
  | (s', none) => s'

/-- A guest load as generated code performs it. -/
def FullSystemCpu.guestLoad (gva size : BitVec 64) : FullSystemCpu × BitVec 64 :=
  match s.inlineHit .read gva size with
  | some addend => (s, s.readPhysSized (hostPhys s.cpu gva addend) size)
  | none => s.machinaMemRead gva size

/-- Mark the entry of a page dirty, as the inline store does for `fence.i`. -/
def markDirty (m : Mmu) (gva : BitVec 64) : Mmu :=
  m.setEntry (tlbIndex gva) { m.tlb (tlbIndex gva) with dirty := 1#8 }

/-- A guest store as generated code performs it. -/
def FullSystemCpu.guestStore (gva val size : BitVec 64) : FullSystemCpu :=
  match s.inlineHit .write gva size with
  | some addend =>
    let s' := s.writePhysSized (hostPhys s.cpu gva addend) val size
    { s' with cpu := { s'.cpu with mmu := markDirty s'.cpu.mmu gva } }
  | none => s.machinaMemWrite gva val size

def FullSystemCpu.unreserve : FullSystemCpu :=
  { s with cpu := { s.cpu with loadRes := noReservation } }

def FullSystemCpu.raise (excp : Exception) (tval : BitVec 64) : FullSystemCpu :=
  { s with cpu := s.cpu.raiseException excp tval }

/-- Turn a latched fault into an exception, as the atomic helpers do. -/
def FullSystemCpu.raiseLatched (accessCause : BitVec 64) (onAccess onPage : Exception) : FullSystemCpu :=
  let cause := s.cpu.memFaultCause
  let tval := s.cpu.memFaultTval
  ({ s with cpu := s.cpu.latch 0#64 0#64 }).raise (if cause = accessCause then onAccess else onPage) tval

/-- A word or doubleword, sign extended. -/
def FullSystemCpu.readAtomic (pa size : BitVec 64) : BitVec 64 :=
  if size = 4#64 then ((s.readPhysSized pa 4#64).setWidth 32).signExtend 64 else s.readPhysSized pa 8#64

def FullSystemCpu.machinaLrOp (gva size : BitVec 64) : FullSystemCpu × Option (BitVec 64) :=
  match s.translateForHelper gva .read size with
  | (s', none) => (s'.unreserve.raiseLatched 5#64 .loadAccessFault .loadPageFault, none)
  | (s', some pa) =>
    if s'.isPhysBacked pa size then
      let val := s'.readAtomic pa size
      ({ s' with cpu := { s'.cpu with loadRes := pa, loadVal := val } }, some val)
    else (s'.unreserve.raise .loadAccessFault gva, none)

/-- Store-conditional: translated and checked as a store even when it then fails. -/
def FullSystemCpu.machinaScOp (gva val size : BitVec 64) : FullSystemCpu × Option (BitVec 64) :=
  match s.translateForHelper gva .write size with
  | (s', none) => (s'.unreserve.raiseLatched 7#64 .storeAccessFault .storePageFault, none)
  | (s', some pa) =>
    if s'.cpu.loadRes ≠ pa then (s'.unreserve, some 1#64)
    else if s'.isPhysBacked pa size then
      if s'.readAtomic pa size ≠ s'.cpu.loadVal then (s'.unreserve, some 1#64)
      else ((s'.writePhysSized pa val size).unreserve, some 0#64)
    else (s'.unreserve.raise .storeAccessFault gva, none)

inductive AmoOp where
  | swap | add | xor | and | or | min | max | minu | maxu
  deriving DecidableEq, Repr

/-- The word an AMO writes back; the 32-bit forms look at the low halves. -/
def amoResult (op : AmoOp) (word : Bool) (old val : BitVec 64) : BitVec 64 :=
  match op with
  | .swap => val
  | .add => if word then ((old.setWidth 32) + (val.setWidth 32)).setWidth 64 else old + val
  | .xor => old ^^^ val
  | .and => old &&& val
  | .or => old ||| val
  | .min => if (if word then (old.setWidth 32).sle (val.setWidth 32) else old.sle val) then old else val
  | .max => if (if word then (val.setWidth 32).sle (old.setWidth 32) else val.sle old) then old else val
  | .minu => if (if word then (old.setWidth 32).ule (val.setWidth 32) else old.ule val) then old else val
  | .maxu => if (if word then (val.setWidth 32).ule (old.setWidth 32) else val.ule old) then old else val

/-- Atomic memory operation; `none` as operation stands for an unknown number. -/
def FullSystemCpu.machinaAmoOp (gva val size : BitVec 64) (op : Option AmoOp) : FullSystemCpu × Option (BitVec 64) :=
  if size ≠ 4#64 ∧ size ≠ 8#64 then (s.raise .storeAccessFault gva, none)
  else if gva &&& (size - 1#64) ≠ 0#64 then (s.raise .storeMisaligned gva, none)
  else
    match s.translateForHelper gva .write size with
    | (s', none) => (s'.raiseLatched 7#64 .storeAccessFault .storePageFault, none)
    | (s', some pa) =>
      if s'.isPhysBacked pa size = false then (s'.raise .storeAccessFault gva, none)
      else
        match op with
        | none => (s'.raise .illegalInstruction 0#64, none)
        | some op =>
          let word := decide (size = 4#64)
          (s'.writePhysSized pa (amoResult op word (s'.readPhysSized pa size) val) size, some (s'.readAtomic pa size))

/-- The old value of a CSR instruction: time and cycle come from the machine timer. -/
def csrOld (c : RiscvCpu) (addr : BitVec 16) (time : BitVec 64) : Except Nat (BitVec 64) :=
  if addr = 0xC01#16 ∨ addr = 0xC00#16 then .ok time
  else if addr = 0xC02#16 then .ok c.csr.instret
  else c.csr.readForProfile addr c.priv c.profile

/-- The new value: CSRRW, CSRRS and CSRRC with their immediate forms. -/
def csrNew (funct3 : Nat) (old rs1Val : BitVec 64) : Option (BitVec 64) :=
  if funct3 = 1 ∨ funct3 = 5 then some rs1Val
  else if funct3 = 2 ∨ funct3 = 6 then some (old ||| rs1Val)
  else if funct3 = 3 ∨ funct3 = 7 then some (old &&& ~~~rs1Val)
  else none

/-- The set and clear forms with operand zero do not write. -/
def csrDoWrite (funct3 : Nat) (rs1Idx : Nat) : Bool := decide (funct3 = 1 ∨ funct3 = 5) || decide (rs1Idx ≠ 0)

def isPmpCsr (addr : BitVec 16) : Prop :=
  (0x3A0#16 ≤ addr ∧ addr ≤ 0x3A3#16) ∨ (0x3B0#16 ≤ addr ∧ addr < 0x3C0#16)

instance (addr : BitVec 16) : Decidable (isPmpCsr addr) := inferInstanceAs (Decidable (_ ∨ _))

def csrSatp : BitVec 16 := 0x180#16
def csrMstatus : BitVec 16 := 0x300#16
def csrSstatus : BitVec 16 := 0x100#16

/-- Bring the PMP unit, the MMU's satp and the TLB in line with a CSR write. The two
CSR paths differ in the satp value they pass on. -/
def syncRuntime (c : RiscvCpu) (addr : BitVec 16) (satp : BitVec 64) : RiscvCpu :=
  let pmp := if isPmpCsr addr then syncFromCsr c.csr.pmpcfg c.csr.pmpaddr else c.pmp
  let mmu :=
    if addr = csrSatp then (c.mmu.setSatp satp).flush
    else if addr = csrMstatus ∨ addr = csrSstatus then c.mmu.flush
    else c.mmu
  { c with pmp := pmp, mmu := mmu }

/-- The write part of a CSR instruction on the register file. -/
def csrWrite (c : RiscvCpu) (addr : BitVec 16) (val : BitVec 64) : RiscvCpu × Except Nat Unit :=
  let r := c.csr.writeForProfile addr val c.priv c.profile
  ({ c with csr := r.1 }, r.2)

/-- CSR instruction as a helper call of generated code. It passes the value it wrote,
not the value that was kept, to the MMU. -/
def FullSystemCpu.machinaCsrOp (csr rs1Val : BitVec 64) (rs1Idx funct3 : Nat)
    (time : BitVec 64) : FullSystemCpu × Option (BitVec 64) :=
  let addr := csr.setWidth 16
  match csrOld s.cpu addr time with
  | .error _ => (s.raise .illegalInstruction 0#64, none)
  | .ok old =>
    match csrNew funct3 old rs1Val with
    | none => (s, some old)
    | some newVal =>
      if csrDoWrite funct3 rs1Idx = false then (s, some old)
      else
        match csrWrite s.cpu addr newVal with
        | (c, .error _) => (({ s with cpu := c }).raise .illegalInstruction 0#64, none)
        | (c, .ok ()) =>
          let c := syncRuntime c addr newVal
          let flush := if addr = csrSatp then true else c.tbFlushPending
          ({ s with cpu := { c with tbFlushPending := flush } }, some old)

structure CsrInsn where
  opcode : Nat
  rd : Fin 32
  funct3 : Nat
  rs1 : Fin 32
  addr : BitVec 16

def decodeCsrInsn (insn : BitVec 32) : CsrInsn where
  opcode := (insn &&& 0x7F#32).toNat
  rd := ⟨((insn >>> 7) &&& 0x1F#32).toNat % 32, Nat.mod_lt _ (by decide)⟩
  funct3 := ((insn >>> 12) &&& 7#32).toNat
  rs1 := ⟨((insn >>> 15) &&& 0x1F#32).toNat % 32, Nat.mod_lt _ (by decide)⟩
  addr := (insn >>> 20).setWidth 16

/-- The operand: the immediate forms use the register field itself. -/
def csrOperand (c : RiscvCpu) (i : CsrInsn) : BitVec 64 :=
  if 5 ≤ i.funct3 then BitVec.ofNat 64 i.rs1.val else if i.rs1.val = 0 then 0#64 else c.gpr i.rs1

/-- Writes to the retired-instruction counter suppress its next increment. -/
def writesInstretCounter (addr : BitVec 16) (funct3 rs1Idx : Nat) : Bool :=
  (decide (funct3 = 1 ∨ funct3 = 5) || (decide (funct3 = 2 ∨ funct3 = 3 ∨ funct3 = 6 ∨ funct3 = 7) &&
    decide (rs1Idx ≠ 0))) && decide (addr = 0xC02#16 ∨ addr = 0xB02#16 ∨ addr = 0xB82#16)

def setGpr (c : RiscvCpu) (rd : Fin 32) (v : BitVec 64) : RiscvCpu :=
  if rd.val = 0 then c else { c with gpr := Function.update c.gpr rd v }

/-- The instruction part of `handle_priv_csr`, once the word is fetched. -/
def FullSystemCpu.privCsrInsn (i : CsrInsn) (time : BitVec 64) : FullSystemCpu × Bool :=
  if i.opcode ≠ 0x73 ∨ i.funct3 = 0 then (s, false)
  else
    match csrOld s.cpu i.addr time with
    | .error _ => (s, false)
    | .ok old =>
      match csrNew i.funct3 old (csrOperand s.cpu i) with
      | none => (s, false)
      | some newVal =>
        if csrDoWrite i.funct3 i.rs1.val = false then
          ({ s with cpu := { setGpr s.cpu i.rd old with pc := s.cpu.pc + 4#64 } }, true)
        else
          match csrWrite s.cpu i.addr newVal with
          | (c, .error _) => ({ s with cpu := c }, false)
          | (c, .ok ()) =>
            let c := syncRuntime c i.addr c.csr.satp
            ({ s with
               cpu := { setGpr c i.rd old with pc := s.cpu.pc + 4#64 }
               instretWriteSuppression :=
               s.instretWriteSuppression || writesInstretCounter i.addr i.funct3 i.rs1.val },
              true)

/-- CSR instruction as an exit of the translation block: fetch it again and execute
it. The flag is false when the instruction is illegal. -/
def FullSystemCpu.handlePrivCsr (time : BitVec 64) : FullSystemCpu × Bool :=
  let pc := s.cpu.pc
  let s₁ : FullSystemCpu := { s with cpu := { s.cpu with faultPc := 0#64 }, instretWriteSuppression := false }
  let (s₂, physPc) := s₁.translatePc pc
  if physPc = fetchFault then (s₂, s₂.cpu.memFaultCause != 0#64)
  else if s₂.fetchable physPc = false then ({ s₂ with cpu := s₂.cpu.latch 1#64 pc }, true)
  else s₂.privCsrInsn (decodeCsrInsn ((read s₂.mem physPc 4).setWidth 32)) time

/-- The CSRs the debugger sees as registers 66 and up. -/
def gdbCsrs : List (BitVec 16) :=
  [0x300, 0x301, 0x302, 0x303, 0x304, 0x305, 0x306, 0x340, 0x341, 0x342, 0x343, 0x344, 0x100, 0x104, 0x105,
    0x106, 0x140, 0x141, 0x142, 0x143, 0x144, 0x180, 0x3A0, 0x3A2, 0x3B0, 0x3B1, 0x3B2, 0x3B3, 0xB00, 0xB02]

/-- Restore CSRs from a debugger snapshot, one after the other, ignoring failures. -/
def restoreCsrs (c : RiscvCpu) (csrs : List (BitVec 64)) : RiscvCpu :=
  (gdbCsrs.zip csrs).foldl (fun c w => (csrWrite c w.1 w.2).1) c

/-- Resume with a snapshot the debugger has modified. -/
def restoreSnapshot (c : RiscvCpu) (gpr fpr : Fin 32 → BitVec 64) (pc : BitVec 64) (csrs : List (BitVec 64)) :
    RiscvCpu :=
  restoreCsrs { c with gpr := fun i => if i.val = 0 then c.gpr i else gpr i, pc := pc, fpr := fpr } csrs

/-- The debugger writes one register; the flag is false for an unknown number. -/
def gdbWriteRegister (c : RiscvCpu) (reg : Nat) (v : BitVec 64) : RiscvCpu × Bool :=
  if reg = 0 then (c, true)
  else if h : reg < 32 then ({ c with gpr := Function.update c.gpr ⟨reg, h⟩ v }, true)
  else if reg = 32 then ({ c with pc := v }, true)
  else if h : reg < 65 then ({ c with fpr := Function.update c.fpr ⟨reg - 33, by omega⟩ v }, true)
  else if reg = 65 then (c, true)
  else
    match gdbCsrs[reg - 66]? with
    | some addr => ((csrWrite c addr v).1, true)
    | none => (c, false)

end MachinaFullSystem
