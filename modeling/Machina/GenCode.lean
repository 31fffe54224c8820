import Machina.Blocks
import Machina.MemBytes

/-!
# Fetching the instructions of a translation block

`gen_code` translates the pc once and fetches the instructions of the block through a
pointer to that page. A 32-bit instruction may reach into the following page; its
second half is fetched in advance when the start of the block makes it look likely.
-/

namespace MachinaGenCode

open MachinaMmu MachinaByteMem MachinaFullSystem
open MachinaWalk MachinaBlocks

/-- An instruction word with its length; a compressed one is zero extended. -/
abbrev Insn := BitVec 32 × Nat

/-- A memory that instructions can be fetched from. -/
structure FetchRegion where
  base : BitVec 64
  size : BitVec 64
  deriving DecidableEq, Repr

def resolveFetchRegion (s : FullSystemCpu) (pa : BitVec 64) : Option FetchRegion :=
  if pa - s.cpu.ramBase < s.ramSize then some ⟨s.cpu.ramBase, s.ramSize⟩
  else if pa - s.mromBase < s.mromSize then some ⟨s.mromBase, s.mromSize⟩
  else none

inductive DisasJumpType where
  | next | tooMany | noReturn
  deriving DecidableEq, Repr

/-- The fetch part of the disassembly context. `guestBase` leads from virtual to physical addresses. -/
structure RiscvDisasContext where
  pcFirst : BitVec 64
  pcNext : BitVec 64
  isJmp : DisasJumpType
  numInsns : Nat
  maxInsns : Nat
  crossPageInsn : BitVec 32
  crossPagePc : BitVec 64
  pageByteLimit : BitVec 64
  guestBase : BitVec 64

def RiscvDisasContext.new (pc guestBase : BitVec 64) : RiscvDisasContext where
  pcFirst := pc
  pcNext := pc
  isJmp := .next
  numInsns := 0
  maxInsns := 512
  crossPageInsn := 0#32
  crossPagePc := 0#64
  pageByteLimit := (pc &&& ~~~0xFFF#64) + 0x1000#64
  guestBase := guestBase

def RiscvDisasContext.fetchInsn16 (d : RiscvDisasContext) (mem : Mem) : BitVec 16 :=
  (read mem (d.guestBase + d.pcNext) 2).setWidth 16

/-- The instruction fetched in advance stands for the one at its address. -/
def RiscvDisasContext.fetchInsn32 (d : RiscvDisasContext) (mem : Mem) : BitVec 32 :=
  if d.crossPageInsn ≠ 0#32 ∧ d.pcNext = d.crossPagePc then d.crossPageInsn
  else (read mem (d.guestBase + d.pcNext) 4).setWidth 32

section Translate

-- What the decoder makes of an instruction: whether the block goes on behind it.
variable (jump : BitVec 64 → Insn → DisasJumpType)

/-- Translate one instruction; the block ends at the page boundary. -/
def translateInsn (mem : Mem) (d : RiscvDisasContext) : RiscvDisasContext × Insn :=
  let half := d.fetchInsn16 mem
  let insn : Insn := if half &&& 3#16 ≠ 3#16 then (half.setWidth 32, 2) else (d.fetchInsn32 mem, 4)
  let pcNext := d.pcNext + BitVec.ofNat 64 insn.2
  let isJmp := jump d.pcNext insn
  ({ d with
     pcNext := pcNext
     isJmp := if isJmp = .next ∧ d.pageByteLimit ≤ pcNext then .tooMany else isJmp
     numInsns := d.numInsns + 1 }, insn)

/-- The translation loop; the count bounds the number of rounds. -/
def translateLoop (mem : Mem) : Nat → RiscvDisasContext → RiscvDisasContext × List (BitVec 64 × Insn)
  | 0, d => (d, [])
  | n + 1, d =>
    let (d', insn) := translateInsn jump mem d
    if d'.isJmp ≠ .next then (d', [(d.pcNext, insn)])
    else if d'.maxInsns ≤ d'.numInsns then ({ d' with isJmp := .tooMany }, [(d.pcNext, insn)])
    else
      let (d'', insns) := translateLoop mem n d'
      (d'', (d.pcNext, insn) :: insns)

end Translate

section

variable (s : FullSystemCpu)

/-- Find the first instruction of a block: its physical address and the memory it is in. -/
def fetchStart (pc : BitVec 64) : FullSystemCpu × Option (BitVec 64 × FetchRegion) :=
  let s₀ : FullSystemCpu := { s with cpu := { s.cpu with faultPc := 0#64 } }
  let (s₁, physPc) := s₀.translatePc pc
  if physPc = fetchFault then (s₁, none)
  else
    let s₂ : FullSystemCpu := { s₁ with cpu := { s₁.cpu with lastPhysPc := physPc } }
    match resolveFetchRegion s₂ physPc with
    | none => ({ s₂ with cpu := s₂.cpu.latch 1#64 pc }, none)
    | some r => (s₂, some (physPc, r))

def pageRemain (physPc : BitVec 64) : BitVec 64 := 4096#64 - (physPc &&& 0xFFF#64)

/-- The largest number of instructions up to the end of the page and of the memory. -/
def blockLimit (physPc : BitVec 64) (r : FetchRegion) (maxInsns : Nat) : Nat :=
  min maxInsns ((min (pageRemain physPc).toNat (r.size - (physPc - r.base)).toNat) / 2)

/-- The low half of a 32-bit instruction, longer encodings left out. -/
def is32bit (lo : BitVec 16) : Bool := decide (lo &&& 3#16 = 3#16 ∧ (lo >>> 2) &&& 7#16 ≠ 7#16)

def read16 (mem : Mem) (pa : BitVec 64) : BitVec 16 := (read mem pa 2).setWidth 16

/-- Put back the fault state from before a translation. -/
def restoreFault (s s₁ : FullSystemCpu) : FullSystemCpu :=
  { s₁ with cpu := { s₁.cpu.latch s.cpu.memFaultCause s.cpu.memFaultTval with faultPc := s.cpu.faultPc } }

/-- Fetch the instruction across the page boundary in advance, zero for none; a fault is latched. -/
def prefetch (pc physPc : BitVec 64) (r : FetchRegion) : FullSystemCpu × BitVec 32 :=
  if pageRemain physPc % 4#64 = 2#64 then
    let boundaryPa := physPc + pageRemain physPc - 2#64
    if boundaryPa - r.base < r.size then
      let lo := read16 s.mem boundaryPa
      if is32bit lo then
        let nextVpc := pc + pageRemain physPc
        let (s₁, nextPhys) := s.translatePc nextVpc
        if nextPhys = fetchFault then (s₁, 0#32)
        else
          let s₂ := restoreFault s s₁
          match resolveFetchRegion s₂ nextPhys with
          | none => ({ s₂ with cpu := s₂.cpu.latch 1#64 nextVpc }, 0#32)
          | some _ => (s₂, lo.setWidth 32 ||| ((read16 s₂.mem nextPhys).setWidth 32 <<< 16))
      else (s, 0#32)
    else (s, 0#32)
  else (s, 0#32)

/-- What is left by `gen_code`: the system, the instructions and their size, zero for none. -/
structure Generated where
  sys : FullSystemCpu
  insns : List (BitVec 64 × Insn)
  size : BitVec 32

def blockContext (pc physPc : BitVec 64) (crossPage : BitVec 32) (limit : Nat) : RiscvDisasContext :=
  { RiscvDisasContext.new pc (physPc - pc) with
    maxInsns := limit
    crossPageInsn := crossPage
    crossPagePc := if crossPage ≠ 0#32 then pc + pageRemain physPc - 2#64 else 0#64 }

def genCode (jump : BitVec 64 → Insn → DisasJumpType) (pc : BitVec 64) (maxInsns : Nat) : Generated :=
  match fetchStart s pc with
  | (s₁, none) => ⟨s₁, [], 0#32⟩
  | (s₁, some (physPc, r)) =>
    let limit := blockLimit physPc r maxInsns
    if limit = 0 then ⟨s₁, [], 0#32⟩
    else
      let (s₂, crossPage) := prefetch s₁ pc physPc r
      if s₂.cpu.memFaultCause ≠ 0#64 then ⟨s₂, [], 0#32⟩
      else
        let (d, insns) := translateLoop jump s₂.mem limit (blockContext pc physPc crossPage limit)
        ⟨s₂, insns, (d.pcNext - d.pcFirst).setWidth 32⟩

/-! ## Every byte through its own page -/

/-- The length of an instruction shows in its first byte. -/
def insnLen (b : BitVec 8) : Nat := if b &&& 3#8 ≠ 3#8 then 2 else 4

/-- The instruction at an address, from its bytes. -/
def insnAt (byte : BitVec 64 → Option (BitVec 8)) (va : BitVec 64) : Option Insn := do
  let b₀ ← byte va
  let b₁ ← byte (va + 1#64)
  if insnLen b₀ = 2 then return ((b₁ ++ b₀).setWidth 32, 2)
  let b₂ ← byte (va + 2#64)
  let b₃ ← byte (va + 3#64)
  return (b₃ ++ b₂ ++ b₁ ++ b₀, 4)

/-- The physical page behind a page, where instructions can be fetched from it. -/
def frame (page : BitVec 64) : Option (BitVec 64) :=
  let pa := (s.translatePc page).2
  if pa = fetchFault ∨ resolveFetchRegion s pa = none then none else some pa

instance (a b : BitVec 64) : Decidable (SamePage a b) := inferInstanceAs (Decidable (_ = _))

/-- The bytes of the page the block starts in. -/
def startByte (mem : Mem) (pc physPc va : BitVec 64) : Option (BitVec 8) :=
  if SamePage pc va then some (mem (physPc + (va - pc))) else none

/-- The bytes of the block's page and of the one that follows, each through its own translation. -/
def ownByte (mem : Mem) (pc physPc va : BitVec 64) : Option (BitVec 8) :=
  if SamePage pc va then some (mem (physPc + (va - pc)))
  else (frame s (va &&& pageMask)).map fun pa => mem (pa + (va &&& ~~~pageMask))

/-- The bytes that follow in physical memory. -/
def rawByte (mem : Mem) (pc physPc va : BitVec 64) : Option (BitVec 8) := some (mem (physPc + (va - pc)))

def nextPage (pc : BitVec 64) : BitVec 64 := (pc &&& pageMask) + 4096#64

/-- A block goes on while the decoder says so and the page lasts. -/
def rules (jump : BitVec 64 → Insn → DisasJumpType) (pc : BitVec 64) : Rules (BitVec 64) Insn where
  next va i := va + BitVec.ofNat 64 i.2
  last va i := decide (jump va i ≠ .next) || decide (nextPage pc ≤ va + BitVec.ofNat 64 i.2)

/-- A fault on the following page has been latched. -/
def FaultsNext (pc : BitVec 64) : Prop :=
  s.cpu.memFaultCause ≠ 0#64 ∧ s.cpu.memFaultTval = nextPage pc

/-- The last halfword of the page is fetched from, and looks like the start of a 32-bit instruction. -/
def LooksWide (physPc : BitVec 64) (r : FetchRegion) : Prop :=
  pageRemain physPc % 4#64 = 2#64 ∧ physPc + pageRemain physPc - 2#64 - r.base < r.size ∧
    is32bit (read16 s.mem (physPc + pageRemain physPc - 2#64)) = true

/-- The instructions of a block have the bytes of their own pages, and a fault on the following page has been
latched exactly when one of them has no byte there. -/
def OwnBlock (s₁ : FullSystemCpu) (jump : BitVec 64 → Insn → DisasJumpType) (pc physPc : BitVec 64) (n : Nat)
    (sys : FullSystemCpu) (insns : List (BitVec 64 × Insn)) : Prop :=
  (∀ i ∈ insns, insnAt (ownByte s₁ sys.mem pc physPc) i.1 = some i.2) ∧
    (FaultsNext sys pc ↔ (block (rules jump pc) (insnAt (ownByte s₁ sys.mem pc physPc)) n pc).2 ≠ none)

end

instance (s : FullSystemCpu) (pc : BitVec 64) : Decidable (FaultsNext s pc) := inferInstanceAs (Decidable (_ ∧ _))

section Spec

variable (s : FullSystemCpu) (jump : BitVec 64 → Insn → DisasJumpType) (pc : BitVec 64) (maxInsns : Nat)

/-- What `gen_code` translates and reports is right; a block that is not found has no instructions and reports
nothing about the following page. -/
def FetchesOwn : Prop :=
  match fetchStart s pc with
  | (_, none) => (genCode s jump pc maxInsns).insns = [] ∧ ¬ FaultsNext (genCode s jump pc maxInsns).sys pc
  | (s₁, some (physPc, r)) =>
    OwnBlock s₁ jump pc physPc (blockLimit physPc r maxInsns) (genCode s jump pc maxInsns).sys
      (genCode s jump pc maxInsns).insns

/-- The block gets to the translation, and its start and the last halfword of its page make `gen_code` fetch
the first halfword of the following page. -/
def Prefetches (s₁ : FullSystemCpu) (physPc : BitVec 64) (r : FetchRegion) : Prop :=
  blockLimit physPc r maxInsns ≠ 0 ∧ LooksWide s₁ physPc r

/-- If no instruction reaches into the following page, that page is not looked at or can be fetched. If one does,
it is fetched in advance, or the bytes that follow in physical memory are those of the following page. The bytes are
those in memory after the translations of the two pages, which set the accessed bits of their entries. -/
def FetchSafe : Prop :=
  match fetchStart s pc with
  | (_, none) => True
  | (s₁, some (physPc, r)) =>
    let mem := (prefetch s₁ pc physPc r).1.mem
    match (block (rules jump pc) (insnAt (startByte mem pc physPc)) (blockLimit physPc r maxInsns) pc).2 with
    | none => ¬ (Prefetches maxInsns s₁ physPc r ∧ frame s₁ (nextPage pc) = none)
    | some va => Prefetches maxInsns s₁ physPc r ∨
        insnAt (ownByte s₁ mem pc physPc) va = insnAt (rawByte mem pc physPc) va

end Spec

/-! ## Pages and bytes -/

theorem samePage_iff (a b : BitVec 64) : SamePage a b ↔ b.toNat / 4096 = a.toNat / 4096 := by
  have hdiv (x : BitVec 64) : (x >>> 12).toNat = x.toNat / 4096 := by
    rw [BitVec.toNat_ushiftRight, Nat.shiftRight_eq_div_pow]
  rw [← hdiv, ← hdiv, BitVec.toNat_inj]
  constructor
  · intro h
    exact h.agreeFrom.ushiftRight (Nat.le_refl 12)
  · intro h
    rw [SamePage, ← page_shift, h, page_shift]

theorem toNat_nextPage (pc : BitVec 64) : (nextPage pc).toNat = (pc.toNat / 4096 * 4096 + 4096) % 2 ^ 64 := by
  rw [nextPage, BitVec.toNat_add, toNat_and_pageMask]
  rfl

section Bytes

variable {byte byte' : BitVec 64 → Option (BitVec 8)} {va : BitVec 64} {i : Insn}

theorem insnAt_two {b0 b1 : BitVec 8} (h₀ : byte va = some b0) (hlen : insnLen b0 = 2)
    (h₁ : byte (va + 1#64) = some b1) : insnAt byte va = some ((b1 ++ b0).setWidth 32, 2) := by
  simp [insnAt, h₀, h₁, if_pos hlen]

theorem insnAt_four {b0 b1 b2 b3 : BitVec 8} (h₀ : byte va = some b0) (hlen : insnLen b0 = 4)
    (h₁ : byte (va + 1#64) = some b1) (h2 : byte (va + 2#64) = some b2) (h3 : byte (va + 3#64) = some b3) :
    insnAt byte va = some (b3 ++ b2 ++ b1 ++ b0, 4) := by
  have hlong : insnLen b0 ≠ 2 := by
    rw [hlen]
    decide
  simp [insnAt, h₀, h₁, h2, h3, if_neg hlong]

theorem insnLen_cases (b : BitVec 8) : insnLen b = 2 ∨ insnLen b = 4 := by
  unfold insnLen
  split
  · exact Or.inl rfl
  · exact Or.inr rfl

/-- The bytes of an instruction. -/
theorem insnAt_cases (h : insnAt byte va = some i) : ∃ b0 b1, byte va = some b0 ∧ byte (va + 1#64) = some b1 ∧
      ((insnLen b0 = 2 ∧ i = ((b1 ++ b0).setWidth 32, 2)) ∨
        ∃ b2 b3, insnLen b0 = 4 ∧ byte (va + 2#64) = some b2 ∧ byte (va + 3#64) = some b3 ∧
          i = (b3 ++ b2 ++ b1 ++ b0, 4)) := by
  simp only [insnAt, bind, Option.bind_eq_some_iff] at h
  obtain ⟨b0, h₀, b1, h₁, hrest⟩ := h
  refine ⟨b0, b1, h₀, h₁, ?_⟩
  split at hrest
  · rename_i hlen
    cases hrest
    exact Or.inl ⟨hlen, rfl⟩
  rename_i hlen
  obtain ⟨b2, h2, hrest⟩ := Option.bind_eq_some_iff.mp hrest
  obtain ⟨b3, h3, hi⟩ := Option.bind_eq_some_iff.mp hrest
  cases hi
  exact Or.inr ⟨b2, b3, (insnLen_cases b0).resolve_left hlen, h2, h3, rfl⟩

/-- More bytes do not change an instruction that is there. -/
theorem insnAt_mono (hmore : ∀ a b, byte a = some b → byte' a = some b) (h : insnAt byte va = some i) :
    insnAt byte' va = some i := by
  obtain ⟨b0, b1, h₀, h₁, ⟨hlen, rfl⟩ | ⟨b2, b3, hlen, h2, h3, rfl⟩⟩ := insnAt_cases h
  · exact insnAt_two (hmore _ _ h₀) hlen (hmore _ _ h₁)
  · exact insnAt_four (hmore _ _ h₀) hlen (hmore _ _ h₁) (hmore _ _ h2) (hmore _ _ h3)

theorem insnAt_len (h : insnAt byte va = some i) {b0 : BitVec 8} (h₀ : byte va = some b0) : i.2 = insnLen b0 := by
  obtain ⟨b, b1, hb, h₁, ⟨hlen, rfl⟩ | ⟨b2, b3, hlen, h2, h3, rfl⟩⟩ := insnAt_cases h
  · cases hb.symm.trans h₀
    exact hlen.symm
  · cases hb.symm.trans h₀
    exact hlen.symm

theorem insnAt_byte (h : insnAt byte va = some i) {k : Nat} (hk : k < i.2) :
    ∃ b, byte (va + BitVec.ofNat 64 k) = some b := by
  have hzero : va + BitVec.ofNat 64 0 = va := BitVec.add_zero va
  obtain ⟨b0, b1, h₀, h₁, ⟨-, rfl⟩ | ⟨b2, b3, -, h2, h3, rfl⟩⟩ := insnAt_cases h
  · obtain rfl | rfl : k = 0 ∨ k = 1 := by
      omega
    · rw [hzero]
      exact ⟨b0, h₀⟩
    · exact ⟨b1, h₁⟩
  · obtain rfl | rfl | rfl | rfl : k = 0 ∨ k = 1 ∨ k = 2 ∨ k = 3 := by
      omega
    · rw [hzero]
      exact ⟨b0, h₀⟩
    · exact ⟨b1, h₁⟩
    · exact ⟨b2, h2⟩
    · exact ⟨b3, h3⟩

end Bytes

section Layout

variable {pc physPc : BitVec 64} {mem : Mem}

theorem startByte_some {va : BitVec 64} {b : BitVec 8} (h : startByte mem pc physPc va = some b) :
    SamePage pc va ∧ b = mem (physPc + (va - pc)) := by
  unfold startByte at h
  split at h
  · rename_i hpage
    exact ⟨hpage, (Option.some.inj h).symm⟩
  · cases h

theorem startByte_inPage {va : BitVec 64} (h : SamePage pc va) :
    startByte mem pc physPc va = some (mem (physPc + (va - pc))) := if_pos h

/-- The addresses of instructions: in the page, at an even distance from the start. -/
def InBlock (pc va : BitVec 64) : Prop := SamePage pc va ∧ va.toNat % 2 = pc.toNat % 2

theorem inBlock_self (pc : BitVec 64) : InBlock pc pc := ⟨rfl, rfl⟩

/-- The last byte of an instruction that is there lies in the page. -/
theorem insnAt_startByte {va : BitVec 64} {i : Insn} (h : insnAt (startByte mem pc physPc) va = some i) :
    (i.2 = 2 ∧ SamePage pc (va + 1#64)) ∨ (i.2 = 4 ∧ SamePage pc (va + 3#64)) := by
  obtain ⟨b0, b1, -, h₁, ⟨-, rfl⟩ | ⟨b2, b3, -, -, h3, rfl⟩⟩ := insnAt_cases h
  · exact Or.inl ⟨rfl, (startByte_some h₁).1⟩
  · exact Or.inr ⟨rfl, (startByte_some h3).1⟩

theorem toNat_add_ofNat (va : BitVec 64) {k : Nat} (hk : k < 8) :
    (va + BitVec.ofNat 64 k).toNat = (va.toNat + k) % 2 ^ 64 := by
  rw [BitVec.toNat_add, BitVec.toNat_ofNat, Nat.mod_eq_of_lt (show k < 2 ^ 64 by omega)]

/-- A block that goes on stays in its page. -/
theorem keeps_startByte (jump : BitVec 64 → Insn → DisasJumpType) :
    Keeps (rules jump pc) (insnAt (startByte mem pc physPc)) (InBlock pc) := by
  rintro va i ⟨hpage, hpar⟩ hi hlast
  have hnext : ¬ nextPage pc ≤ va + BitVec.ofNat 64 i.2 := by
    intro hle
    simp [rules, hle] at hlast
  rw [BitVec.le_def, toNat_nextPage] at hnext
  rw [samePage_iff] at hpage
  rcases insnAt_startByte hi with ⟨hlen, hin⟩ | ⟨hlen, hin⟩
  all_goals
    rw [samePage_iff, toNat_add_ofNat va (by decide)] at hin
    rw [hlen, toNat_add_ofNat va (by decide)] at hnext
    change InBlock pc (va + BitVec.ofNat 64 i.2)
    rw [InBlock, samePage_iff, hlen, toNat_add_ofNat va (by decide)]
    omega

/-- An instruction that the page does not hold has a byte outside. -/
theorem outside_of_stuck {va : BitVec 64} (hva : SamePage pc va)
    (hstuck : insnAt (startByte mem pc physPc) va = none) :
    ∃ k < insnLen (mem (physPc + (va - pc))), ¬ SamePage pc (va + BitVec.ofNat 64 k) := by
  by_contra hall
  push Not at hall
  have h₀ : startByte mem pc physPc va = some (mem (physPc + (va - pc))) := startByte_inPage hva
  rcases insnLen_cases (mem (physPc + (va - pc))) with hlen | hlen
  · have h := insnAt_two h₀ hlen (startByte_inPage (hall 1 (by omega)))
    rw [hstuck] at h
    cases h
  have h := insnAt_four h₀ hlen (startByte_inPage (hall 1 (by omega))) (startByte_inPage (hall 2 (by omega)))
    (startByte_inPage (hall 3 (by omega)))
  rw [hstuck] at h
  cases h

theorem nextPage_le_of_stuck {va : BitVec 64} (hva : InBlock pc va)
    (hstuck : insnAt (startByte mem pc physPc) va = none) :
    nextPage pc ≤ va + BitVec.ofNat 64 (insnLen (mem (physPc + (va - pc)))) := by
  obtain ⟨k, hk, hout⟩ := outside_of_stuck hva.1 hstuck
  have hlen : insnLen (mem (physPc + (va - pc))) ≤ 4 := by
    rcases insnLen_cases (mem (physPc + (va - pc))) with h | h <;> omega
  have hpage := (samePage_iff pc va).mp hva.1
  rw [samePage_iff, toNat_add_ofNat va (by omega)] at hout
  rw [BitVec.le_def, toNat_nextPage, toNat_add_ofNat va (by omega)]
  omega

/-- In a block that starts at an even address it is the 32-bit instruction at the last halfword. -/
theorem stuck_at_boundary {va : BitVec 64} (heven : pc.toNat % 2 = 0) (hva : InBlock pc va)
    (hstuck : insnAt (startByte mem pc physPc) va = none) :
    va = nextPage pc - 2#64 ∧ insnLen (mem (physPc + (va - pc))) = 4 := by
  obtain ⟨k, hk, hout⟩ := outside_of_stuck hva.1 hstuck
  have hpage := (samePage_iff pc va).mp hva.1
  have hpar := hva.2
  have hcases := insnLen_cases (mem (physPc + (va - pc)))
  rw [samePage_iff, toNat_add_ofNat va (by omega)] at hout
  refine ⟨?_, by omega⟩
  rw [← BitVec.toNat_inj, BitVec.toNat_sub, toNat_nextPage]
  change va.toNat = (2 ^ 64 - 2 + (pc.toNat / 4096 * 4096 + 4096) % 2 ^ 64) % 2 ^ 64
  omega

/-- A stream that agrees with the bytes of the page has the block of the page, or one more instruction. -/
theorem block_of_startByte (jump : BitVec 64 → Insn → DisasJumpType) {get : BitVec 64 → Option Insn}
    (hmore : ∀ va i, InBlock pc va → insnAt (startByte mem pc physPc) va = some i → get va = some i)
    (hlen : ∀ va i, InBlock pc va → get va = some i → i.2 = insnLen (mem (physPc + (va - pc)))) (n : Nat) :
    block (rules jump pc) get n pc = resume get (block (rules jump pc) (insnAt (startByte mem pc physPc)) n pc) := by
  refine block_extend (keeps_startByte jump) hmore (fun va i hva hstuck hi => ?_) n (inBlock_self pc)
  have hle := nextPage_le_of_stuck hva hstuck
  rw [← hlen va i hva hi] at hle
  simp [rules, hle]

end Layout

/-! ## The translation loop -/

section

variable {jump : BitVec 64 → Insn → DisasJumpType} {mem : Mem} (d : RiscvDisasContext)

/-- The instruction the context fetches at an address. -/
def fetched (mem : Mem) (va : BitVec 64) : Insn :=
  let d := { d with pcNext := va }
  if d.fetchInsn16 mem &&& 3#16 ≠ 3#16 then ((d.fetchInsn16 mem).setWidth 32, 2) else (d.fetchInsn32 mem, 4)

/-- What the context fetches is always there. -/
def stream (mem : Mem) (va : BitVec 64) : Option Insn := some (fetched d mem va)

theorem translateInsn_snd : (translateInsn jump mem d).2 = fetched d mem d.pcNext := rfl

/-- The loop stops behind an instruction exactly as a block does. -/
theorem translateInsn_isJmp {pc : BitVec 64} (hlimit : d.pageByteLimit = nextPage pc) :
    (translateInsn jump mem d).1.isJmp ≠ .next ↔ (rules jump pc).last d.pcNext (fetched d mem d.pcNext) = true := by
  have hjmp : (translateInsn jump mem d).1.isJmp =
      if jump d.pcNext (fetched d mem d.pcNext) = .next ∧
        d.pageByteLimit ≤ d.pcNext + BitVec.ofNat 64 (fetched d mem d.pcNext).2 then .tooMany
      else jump d.pcNext (fetched d mem d.pcNext) := rfl
  rw [hjmp, hlimit, rules, Bool.or_eq_true, decide_eq_true_eq, decide_eq_true_eq]
  split
  · rename_i h
    exact iff_of_true (by decide) (Or.inr h.2)
  rename_i h
  constructor
  · exact Or.inl
  · rintro (hne | hle)
    · exact hne
    · exact fun heq => h ⟨heq, hle⟩

/-- The instructions of the loop are a block of what the context fetches. -/
theorem translateLoop_eq {pc : BitVec 64} (n : Nat) (d : RiscvDisasContext) (hlimit : d.pageByteLimit = nextPage pc)
    (hcount : d.numInsns + n = d.maxInsns) :
    (translateLoop jump mem n d).2 = (block (rules jump pc) (stream d mem) n d.pcNext).1 := by
  induction n generalizing d with
  | zero => rfl
  | succ n ih =>
    have hget : stream d mem d.pcNext = some (fetched d mem d.pcNext) := rfl
    have hlast : (translateInsn jump mem d).1.isJmp ≠ .next ↔
        (rules jump pc).last d.pcNext (fetched d mem d.pcNext) = true := translateInsn_isJmp d hlimit
    rw [translateLoop]
    dsimp only
    split
    · rename_i hjmp
      rw [block_last hget (hlast.mp hjmp), translateInsn_snd]
    rename_i hjmp
    have hgo : (rules jump pc).last d.pcNext (fetched d mem d.pcNext) = false :=
      Bool.eq_false_iff.mpr fun h => hjmp (hlast.mpr h)
    rw [block_next hget hgo]
    split
    · rename_i hmax
      have hzero : n = 0 := by
        have hle : d.maxInsns ≤ d.numInsns + 1 := hmax
        omega
      subst hzero
      rfl
    · have hcount' : (translateInsn jump mem d).1.numInsns + n = (translateInsn jump mem d).1.maxInsns := by
        have hone : (translateInsn jump mem d).1.numInsns = d.numInsns + 1 := rfl
        have hmax : (translateInsn jump mem d).1.maxInsns = d.maxInsns := rfl
        omega
      exact congrArg (List.cons _) (ih (translateInsn jump mem d).1 hlimit hcount')

end

section Words

variable (mem : Mem) (a : BitVec 64)

theorem read16_bytes : read16 mem a = mem (a + 1#64) ++ mem a := by
  apply BitVec.eq_of_getLsbD_eq
  intro j hj
  rw [read16, BitVec.getLsbD_setWidth, getLsbD_read _ _ _ _ (by decide), BitVec.getLsbD_append]
  by_cases hlow : j < 8
  · have hzero : a + BitVec.ofNat 64 (j / 8) = a := by
      rw [show j / 8 = 0 by omega]
      exact BitVec.add_zero a
    simp [hlow, hj, hzero, show j % 8 = j by omega]
  · simp [hlow, show j < 16 by omega, show j / 8 = 1 by omega, show j % 8 = j - 8 by omega]

theorem read32_bytes : (read mem a 4).setWidth 32 = mem (a + 3#64) ++ mem (a + 2#64) ++ mem (a + 1#64) ++ mem a := by
  apply BitVec.eq_of_getLsbD_eq
  intro j hj
  have hj32 : j < 32 := hj
  rw [BitVec.getLsbD_setWidth, getLsbD_read _ _ _ _ (by decide), BitVec.getLsbD_append, BitVec.getLsbD_append,
    BitVec.getLsbD_append]
  obtain h | h | h | h : j / 8 = 0 ∨ j / 8 = 1 ∨ j / 8 = 2 ∨ j / 8 = 3 := by omega
  · simp [hj32, h, show j < 8 by omega, show j % 8 = j by omega]
  · simp [hj32, h, show ¬ j < 8 by omega, show j - 8 < 8 by omega, show j % 8 = j - 8 by omega]
  · simp [hj32, h, show ¬ j < 8 by omega, show ¬ j - 8 < 8 by omega, show j - 8 - 8 < 8 by omega,
      show j % 8 = j - 8 - 8 by omega]
  · simp [hj32, h, show ¬ j < 8 by omega, show ¬ j - 8 < 8 by omega, show ¬ j - 8 - 8 < 8 by omega,
      show j % 8 = j - 8 - 8 - 8 by omega]

theorem and_three_iff {w : Nat} (hw : 2 ≤ w) (x : BitVec w) :
    x &&& 3#w = 3#w ↔ x.getLsbD 0 = true ∧ x.getLsbD 1 = true := by
  constructor
  · intro h
    have h0 := congrArg (fun y => y.getLsbD 0) h
    have h1 := congrArg (fun y => y.getLsbD 1) h
    simp only [BitVec.getLsbD_and, BitVec.getLsbD_ofNat, show 0 < w by omega, show 1 < w by omega, decide_true,
      show Nat.testBit 3 0 = true by decide, show Nat.testBit 3 1 = true by decide,
      Bool.and_true] at h0 h1
    exact ⟨h0, h1⟩
  · rintro ⟨h0, h1⟩
    apply BitVec.eq_of_getLsbD_eq
    intro i hi
    rw [BitVec.getLsbD_and, BitVec.getLsbD_ofNat]
    obtain rfl | rfl | hge : i = 0 ∨ i = 1 ∨ 2 ≤ i := by omega
    · simp [h0]
    · simp [h1]
    have hbit : Nat.testBit 3 i = false := Nat.testBit_lt_two_pow (Nat.lt_of_lt_of_le (by decide)
      (Nat.pow_le_pow_right (by decide) hge))
    simp [hbit]

theorem insnLen_eq_two_iff (b0 b1 : BitVec 8) : (b1 ++ b0) &&& 3#16 ≠ 3#16 ↔ insnLen b0 = 2 := by
  have hlow : (b1 ++ b0) &&& 3#16 = 3#16 ↔ b0 &&& 3#8 = 3#8 := by
    rw [and_three_iff (by decide), and_three_iff (by decide), BitVec.getLsbD_append, BitVec.getLsbD_append]
    rfl
  unfold insnLen
  rw [Ne, hlow]
  split
  · rename_i h
    exact iff_of_true h rfl
  · rename_i h
    exact iff_of_false h (by decide)

end Words

/-! ## What the context fetches -/

section

variable {pc physPc : BitVec 64} {mem : Mem} {d : RiscvDisasContext}

theorem rawByte_add (hbase : d.guestBase = physPc - pc) (va k : BitVec 64) :
    rawByte mem pc physPc (va + k) = some (mem (d.guestBase + va + k)) := by
  rw [rawByte, hbase]
  congr 2
  ring

theorem guestBase_add (hbase : d.guestBase = physPc - pc) (va : BitVec 64) :
    d.guestBase + va = physPc + (va - pc) := by
  rw [hbase]
  ring

theorem fetched_two (va : BitVec 64) (hlen : insnLen (mem (d.guestBase + va)) = 2) :
    fetched d mem va = ((mem (d.guestBase + va + 1#64) ++ mem (d.guestBase + va)).setWidth 32, 2) := by
  have hhalf : ({ d with pcNext := va } : RiscvDisasContext).fetchInsn16 mem =
      mem (d.guestBase + va + 1#64) ++ mem (d.guestBase + va) := read16_bytes mem (d.guestBase + va)
  rw [fetched, hhalf, if_pos ((insnLen_eq_two_iff _ _).mpr hlen)]

theorem fetched_four (va : BitVec 64) (hlen : insnLen (mem (d.guestBase + va)) = 4) :
    fetched d mem va = (({ d with pcNext := va } : RiscvDisasContext).fetchInsn32 mem, 4) := by
  have hhalf : ({ d with pcNext := va } : RiscvDisasContext).fetchInsn16 mem =
      mem (d.guestBase + va + 1#64) ++ mem (d.guestBase + va) := read16_bytes mem (d.guestBase + va)
  have hlong : ¬ (mem (d.guestBase + va + 1#64) ++ mem (d.guestBase + va)) &&& 3#16 ≠ 3#16 := by
    rw [insnLen_eq_two_iff, hlen]
    decide
  rw [fetched, hhalf, if_neg hlong]

variable (hbase : d.guestBase = physPc - pc)
include hbase

theorem stream_len {va : BitVec 64} {i : Insn} (h : stream d mem va = some i) :
    i.2 = insnLen (mem (physPc + (va - pc))) := by
  cases h
  rw [← guestBase_add hbase]
  rcases insnLen_cases (mem (d.guestBase + va)) with hlen | hlen
  · rw [fetched_two va hlen, hlen]
  · rw [fetched_four va hlen, hlen]

/-- Away from the instruction fetched in advance the bytes are those that follow in physical memory. -/
theorem stream_raw (va : BitVec 64)
    (hother : d.crossPageInsn = 0#32 ∨ va ≠ d.crossPagePc ∨ insnLen (mem (physPc + (va - pc))) = 2) :
    stream d mem va = insnAt (rawByte mem pc physPc) va := by
  have h₀ : rawByte mem pc physPc va = some (mem (d.guestBase + va)) := by
    rw [rawByte, guestBase_add hbase]
  rw [← guestBase_add hbase] at hother
  rcases insnLen_cases (mem (d.guestBase + va)) with hlen | hlen
  · rw [stream, fetched_two va hlen, insnAt_two h₀ hlen (rawByte_add hbase va 1#64)]
  have hnot : ¬ (d.crossPageInsn ≠ 0#32 ∧ va = d.crossPagePc) := by
    rintro ⟨hcross, hva⟩
    rcases hother with h | h | h
    · exact hcross h
    · exact h hva
    · rw [hlen] at h
      cases h
  have hword : ({ d with pcNext := va } : RiscvDisasContext).fetchInsn32 mem =
      (read mem (d.guestBase + va) 4).setWidth 32 := if_neg hnot
  rw [stream, fetched_four va hlen, hword, read32_bytes, insnAt_four h₀ hlen (rawByte_add hbase va 1#64)
    (rawByte_add hbase va 2#64) (rawByte_add hbase va 3#64)]

theorem stream_cross (hcross : d.crossPageInsn ≠ 0#32) (hlen : insnLen (mem (physPc + (d.crossPagePc - pc))) = 4) :
    stream d mem d.crossPagePc = some (d.crossPageInsn, 4) := by
  rw [← guestBase_add hbase] at hlen
  have hword : ({ d with pcNext := d.crossPagePc } : RiscvDisasContext).fetchInsn32 mem = d.crossPageInsn :=
    if_pos ⟨hcross, rfl⟩
  rw [stream, fetched_four _ hlen, hword]

end

end MachinaGenCode
