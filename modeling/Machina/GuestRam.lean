import Machina.Translate
import Machina.Tlb
import Machina.RvTrans

/-!
# Guest memory under generated code

Guest loads and stores of the intermediate code reach memory directly, or through
the inline TLB check with its slow path. Where an address translates to RAM and
no page-table bit has to be set, both read and write the bytes at the physical
address, and a helper that translates the address itself finds the same bytes.
-/

namespace MachinaGuestRam

open MachinaBits MachinaRiscv MachinaMmu MachinaPmp MachinaByteMem MachinaCpu MachinaFullSystem MachinaTranslate
open MachinaWalk MachinaTlb

variable {access : AccessType} {gva pa size : BitVec 64} {s s' : FullSystemCpu}

section Translation

def withTlb (s : FullSystemCpu) (tlb : Fin 256 → TlbEntry) : FullSystemCpu :=
  { s with cpu := { s.cpu with mmu := { s.cpu.mmu with tlb := tlb } } }

/-- Every TLB hit for an address leads to the physical address. -/
def LeadsTo (s : FullSystemCpu) (gva pa : BitVec 64) : Prop :=
  ∀ access addend, s.cpu.mmu.tlbLookup access gva = some addend → hostPhys s.cpu gva addend = pa

theorem translateMiss_tlb (m : Mmu) (tlb : Fin 256 → TlbEntry) (mem : Mem) (gva : BitVec 64) (access : AccessType)
    (priv : PrivLevel) (mstatus size : BitVec 64) (pmp : Option Pmp) :
    (({ m with tlb := tlb } : Mmu).translateMiss mem gva access priv mstatus size pmp).2 =
      (m.translateMiss mem gva access priv mstatus size pmp).2 := by
  unfold Mmu.translateMiss
  rw [walkPageTable_tlb]
  split
  · rfl
  split
  · rfl
  · split
    · rfl
    · split <;> rfl

abbrev dataPriv (s : FullSystemCpu) : PrivLevel := effectiveDataPriv s.cpu.priv s.cpu.csr.mstatus

/-- The addend of a page that is mapped to itself. -/
abbrev identityAddend (c : RiscvCpu) (gva : BitVec 64) : BitVec 64 :=
  if c.ramBase ≤ gva ∧ gva < c.ramEnd then c.guestBase else tlbMmioAddend

theorem translateForHelper_bare (hbare : translationMode s.cpu (dataPriv s) = satpModeBare)
    (gva : BitVec 64) (access : AccessType) (size : BitVec 64) : s.translateForHelper gva access size =
      match checkAccess s.cpu.pmp gva size access (dataPriv s) with
      | .error e => ({ s with cpu := s.cpu.latch (dataFaultCause e) gva }, none)
      | .ok () =>
        ({ s with cpu := { s.cpu with mmu := s.cpu.mmu.fillIdentity gva (identityAddend s.cpu gva) } }, some gva) :=
  if_pos hbare

theorem translateForHelper_paged (hpaged : translationMode s.cpu (dataPriv s) ≠ satpModeBare)
    (gva : BitVec 64) (access : AccessType) (size : BitVec 64) :
    s.translateForHelper gva access size = s.translatePaged gva access (dataPriv s) size dataFaultCause :=
  if_neg hpaged

theorem translateForHelper_tlb (s : FullSystemCpu) (tlb : Fin 256 → TlbEntry) (gva : BitVec 64) (access : AccessType)
    (size : BitVec 64) :
    ((withTlb s tlb).translateForHelper gva access size).2 = (s.translateForHelper gva access size).2 ∧
      ((withTlb s tlb).translateForHelper gva access size).1.mem = (s.translateForHelper gva access size).1.mem := by
  by_cases hbare : translationMode s.cpu (dataPriv s) = satpModeBare
  · have hbare' : translationMode (withTlb s tlb).cpu (dataPriv (withTlb s tlb)) = satpModeBare := hbare
    have hpmp : checkAccess (withTlb s tlb).cpu.pmp gva size access (dataPriv (withTlb s tlb)) =
        checkAccess s.cpu.pmp gva size access (dataPriv s) := rfl
    rw [translateForHelper_bare hbare, translateForHelper_bare hbare', hpmp]
    cases checkAccess s.cpu.pmp gva size access (dataPriv s) with
    | error e | ok u => exact ⟨rfl, rfl⟩
  · have hpaged' : translationMode (withTlb s tlb).cpu (dataPriv (withTlb s tlb)) ≠ satpModeBare := hbare
    have hmiss := translateMiss_tlb s.cpu.mmu tlb s.mem gva access (dataPriv s) s.cpu.csr.mstatus size (some s.cpu.pmp)
    rw [translateForHelper_paged hbare, translateForHelper_paged hpaged', FullSystemCpu.translatePaged,
      FullSystemCpu.translatePaged]
    rcases hplain : s.cpu.mmu.translateMiss s.mem gva access (dataPriv s) s.cpu.csr.mstatus size (some s.cpu.pmp) with
      ⟨mmu, mem, r⟩
    rcases hother : (withTlb s tlb).cpu.mmu.translateMiss (withTlb s tlb).mem gva access (dataPriv (withTlb s tlb))
      (withTlb s tlb).cpu.csr.mstatus size (some (withTlb s tlb).cpu.pmp) with ⟨mmu', mem', r'⟩
    have heq : (mem', r') = (mem, r) := (congrArg Prod.snd hother).symm.trans (hmiss.trans (congrArg Prod.snd hplain))
    cases heq
    cases r with
    | error e | ok pa => exact ⟨rfl, rfl⟩

theorem tlbLookup_addend {m : Mmu} {addend : BitVec 64} (h : m.tlbLookup access gva = some addend) :
    addend = (m.tlb (tlbIndex gva)).addend ∧ addend ≠ tlbMmioAddend := by
  simp only [Mmu.tlbLookup] at h
  split at h
  · rename_i hhit
    cases h
    exact ⟨rfl, hhit.2⟩
  · cases h

@[simp] theorem fillAddend_addend (m : Mmu) (gva addend : BitVec 64) :
    ((m.fillAddend gva addend).tlb (tlbIndex gva)).addend = addend := by
  simp [Mmu.fillAddend, Mmu.setEntry]

@[simp] theorem fillIdentity_addend (m : Mmu) (gva addend : BitVec 64) :
    ((m.fillIdentity gva addend).tlb (tlbIndex gva)).addend = addend := by
  simp [Mmu.fillIdentity, Mmu.setEntry]

/-- A successful translation keeps the offset in the page and changes the TLB, and in memory the accessed and dirty
bits. Then the hits for the address lead where the translation does. -/
theorem translateForHelper_ok (h : s.translateForHelper gva access size = (s', some pa)) :
    (∃ tlb, s' = { withTlb s tlb with mem := s'.mem }) ∧ KeepsOffset gva pa ∧ LeadsTo s' gva pa := by
  by_cases hbare : translationMode s.cpu (dataPriv s) = satpModeBare
  · rw [translateForHelper_bare hbare] at h
    cases hpmp : checkAccess s.cpu.pmp gva size access (dataPriv s) with
    | error e =>
      rw [hpmp] at h
      cases h
    | ok u =>
      rw [hpmp] at h
      cases h
      have hoff : KeepsOffset gva gva := by
        rw [KeepsOffset, show pageSize - 1#64 = ~~~pageMask by decide]
        exact ((and_or_and_not _ _ _).trans (and_add_and_not _ _)).symm
      refine ⟨⟨_, rfl⟩, hoff, fun access' addend hhit => ?_⟩
      obtain ⟨haddend, hne⟩ := tlbLookup_addend hhit
      have hadd := haddend.trans (fillIdentity_addend ..)
      rw [identityAddend] at hadd
      split at hadd
      · rw [hadd]
        exact BitVec.add_sub_cancel _ _
      · exact absurd hadd hne
  · rw [translateForHelper_paged hbare, FullSystemCpu.translatePaged] at h
    rcases hmiss : s.cpu.mmu.translateMiss s.mem gva access (dataPriv s) s.cpu.csr.mstatus size (some s.cpu.pmp) with
      ⟨mmu, mem, r⟩
    rw [hmiss] at h
    cases r with
    | error e => cases h
    | ok pa' =>
      cases h
      have hok : (s.cpu.mmu.translateMiss s.mem gva access (dataPriv s) s.cpu.csr.mstatus size
          (some s.cpu.pmp)).2.2 = .ok pa := by rw [hmiss]
      obtain ⟨l, hl, rfl⟩ := (translateMiss_ok_iff ..).mp hok
      have hmmu := translateMiss_fst hl
      rw [hmiss] at hmmu
      cases hmmu
      have hoff := keepsOffset_phys hl.walk
      refine ⟨⟨_, rfl⟩, hoff, fun access' addend hhit => ?_⟩
      obtain ⟨haddend, hne⟩ := tlbLookup_addend hhit
      have hfill : addend = hostAddend s.cpu gva (l.phys gva) :=
        haddend.trans (fillAddend_addend ..)
      rw [hfill] at hne ⊢
      have hphys := hostPhys_hostAddend (show SamePage gva gva from rfl) hne
      rw [page_shift] at hphys
      exact hphys.trans hoff.symm

/-- The accessed bit of the page of an address is set, and for a store its dirty bit. -/
def AdSet (s : FullSystemCpu) (gva : BitVec 64) (access : AccessType) : Prop :=
  translationMode s.cpu (dataPriv s) = satpModeBare ∨
    ∀ l, s.cpu.mmu.walkPageTable s.mem gva access (some s.cpu.pmp) (dataPriv s) = .ok l → touchPte l.pte access = l.pte

/-- Then a translation leaves memory alone, whatever comes of it. -/
theorem AdSet.mem (h : AdSet s gva access) (size : BitVec 64) :
    (s.translateForHelper gva access size).1.mem = s.mem := by
  by_cases hbare : translationMode s.cpu (dataPriv s) = satpModeBare
  · rw [translateForHelper_bare hbare]
    split <;> rfl
  have hset := h.resolve_left hbare
  have hmem : (s.cpu.mmu.translateMiss s.mem gva access (dataPriv s) s.cpu.csr.mstatus size (some s.cpu.pmp)).2.1 =
      s.mem := by
    unfold Mmu.translateMiss
    split
    · rfl
    rename_i l hwalk
    split
    · rfl
    rw [updateAd, if_pos (hset l hwalk)]
    dsimp only
    split <;> rfl
  rw [translateForHelper_paged hbare, FullSystemCpu.translatePaged]
  split
  · rename_i heq
    rw [heq] at hmem
    exact hmem
  rename_i heq
  rw [heq] at hmem
  exact hmem

theorem dataFaultCause_ne (e : Exception) : dataFaultCause e ≠ 0#64 := by cases e <;> decide

/-- A failing translation latches its cause and leaves the rest of the CPU alone. -/
theorem translateForHelper_none
    (h : s.translateForHelper gva access size = (s', none)) : s'.cpu.memFaultCause ≠ 0#64 := by
  by_cases hbare : translationMode s.cpu (dataPriv s) = satpModeBare
  · rw [translateForHelper_bare hbare] at h
    split at h
    · cases h
      exact dataFaultCause_ne _
    · cases h
  · rw [translateForHelper_paged hbare, FullSystemCpu.translatePaged] at h
    split at h
    · cases h
    · cases h
      exact dataFaultCause_ne _

theorem translateForHelper_loadRes (s : FullSystemCpu) (gva : BitVec 64) (access : AccessType) (size : BitVec 64) :
    (s.translateForHelper gva access size).1.cpu.loadRes = s.cpu.loadRes := by
  by_cases hbare : translationMode s.cpu (dataPriv s) = satpModeBare
  · rw [translateForHelper_bare hbare]
    split <;> rfl
  · rw [translateForHelper_paged hbare, FullSystemCpu.translatePaged]
    split <;> rfl

end Translation

/-- Loads and stores of the intermediate code; a faulting load has no value and a faulting
store says so. -/
structure GuestMemory (W : Type) where
  load : W → BitVec 64 → BitVec 64 → W × Option (BitVec 64)
  store : W → BitVec 64 → BitVec 64 → BitVec 64 → W × Bool
  mem : W → Mem

/-- Guest memory without an MMU. -/
def flatMemory : GuestMemory Mem where
  load mem gva size := (mem, some (read mem gva (accessBytes size)))
  store mem gva val size := (write mem gva (accessBytes size) val, true)
  mem := id

/-- Guest memory behind the TLB; the slow path looks for a latched fault. -/
def softMmu : GuestMemory FullSystemCpu where
  load s gva size :=
    match s.inlineHit .read gva size with
    | some _ => ((s.guestLoad gva size).1, some (s.guestLoad gva size).2)
    | none => ((s.guestLoad gva size).1,
        if (s.guestLoad gva size).1.cpu.memFaultCause = 0#64 then some (s.guestLoad gva size).2 else none)
  store s gva val size :=
    match s.inlineHit .write gva size with
    | some _ => (s.guestStore gva val size, true)
    | none => (s.guestStore gva val size, decide ((s.guestStore gva val size).cpu.memFaultCause = 0#64))
  mem s := s.mem

/-- A load reads the bytes at the physical address, and a store after it writes them. -/
def GuestMemory.Serves {W : Type} (M : GuestMemory W) (w : W) (gva size pa : BitVec 64) : Prop :=
  ∃ w₁, M.load w gva size = (w₁, some (read (M.mem w) pa (accessBytes size))) ∧
    ∀ val, ∃ w₂, M.store w₁ gva val size = (w₂, true) ∧ M.mem w₂ = write (M.mem w) pa (accessBytes size) val

theorem flatMemory_serves (mem : Mem) (a size : BitVec 64) : flatMemory.Serves mem a size a :=
  ⟨mem, rfl, fun _ => ⟨_, rfl, rfl⟩⟩

/-- An address that translates to RAM, for loads and stores, with no page-table bit left to set
and no other translation of it in the TLB. -/
structure RamWord (s : FullSystemCpu) (gva size pa : BitVec 64) : Prop where
  inRam : s.cpu.ramBase ≤ pa ∧ pa.toNat + size.toNat ≤ s.cpu.ramEnd.toNat
  translates : ∀ access, access ≠ .execute → ∃ s', s.translateForHelper gva access size = (s', some pa) ∧
    s'.mem = s.mem
  tlb : LeadsTo s gva pa
  noFault : s.cpu.memFaultCause = 0#64

theorem RamWord.backed (h : RamWord s gva size pa) : s.isPhysBacked pa size = true := by
  obtain ⟨hbase, hend⟩ := h.inRam
  have hsum : pa + size ≤ s.cpu.ramEnd := by
    rw [BitVec.le_def, BitVec.toNat_add, Nat.mod_eq_of_lt (by omega)]
    exact hend
  unfold FullSystemCpu.isPhysBacked
  simp only [hbase, hsum, decide_true, Bool.true_and, Bool.and_true]
  simp only [show pa.toNat + size.toNat < 2 ^ 64 by omega, decide_true, Bool.true_or]

/-- The address is still the same word after it has been translated. -/
theorem RamWord.translated
    (h : RamWord s gva size pa) (ht : s.translateForHelper gva access size = (s', some pa)) (hmem : s'.mem = s.mem) :
    RamWord s' gva size pa := by
  obtain ⟨⟨tlb, hs'⟩, -, hleads⟩ := translateForHelper_ok ht
  rw [hmem] at hs'
  have hsame : s' = withTlb s tlb := hs'
  refine ⟨?_, fun access' hdata => ?_, hleads, ?_⟩
  · rw [hsame]
    exact h.inRam
  · obtain ⟨s1, ht1, hmem1⟩ := h.translates access' hdata
    obtain ⟨hpa, hmem'⟩ := translateForHelper_tlb s tlb gva access' size
    rw [ht1] at hpa hmem'
    rw [hsame]
    exact ⟨_, Prod.ext rfl hpa, hmem'.trans hmem1⟩
  · rw [hsame]
    exact h.noFault

theorem tlbLookup_of_inlineHit {addend : BitVec 64}
    (h : s.inlineHit access gva size = some addend) : s.cpu.mmu.tlbLookup access gva = some addend := by
  unfold FullSystemCpu.inlineHit at h
  split at h
  · exact h
  · cases h

theorem RamWord.load (h : RamWord s gva size pa) :
    ∃ s', softMmu.load s gva size = (s', some (s.readPhysSized pa size)) ∧ s'.mem = s.mem ∧
    RamWord s' gva size pa := by
  cases hhit : s.inlineHit .read gva size with
  | some addend =>
    have hphys := h.tlb .read addend (tlbLookup_of_inlineHit hhit)
    refine ⟨s, ?_, rfl, h⟩
    simp [softMmu, FullSystemCpu.guestLoad, hhit, hphys]
  | none =>
    obtain ⟨s', ht, hmem⟩ := h.translates .read (by decide)
    have h' := h.translated ht hmem
    refine ⟨s', ?_, hmem, h'⟩
    simp [softMmu, FullSystemCpu.guestLoad, FullSystemCpu.machinaMemRead, hhit, ht, h'.backed, h'.noFault,
      FullSystemCpu.readPhysSized, hmem]

theorem RamWord.store (h : RamWord s gva size pa) (val : BitVec 64) :
    ∃ s', softMmu.store s gva val size = (s', true) ∧ s'.mem = write s.mem pa (accessBytes size) val := by
  cases hhit : s.inlineHit .write gva size with
  | some addend =>
    have hphys := h.tlb .write addend (tlbLookup_of_inlineHit hhit)
    refine ⟨s.guestStore gva val size, ?_, ?_⟩
    · simp [softMmu, hhit]
    · simp [FullSystemCpu.guestStore, hhit, FullSystemCpu.writePhysSized, hphys]
  | none =>
    obtain ⟨s', ht, hmem⟩ := h.translates .write (by decide)
    have h' := h.translated ht hmem
    have hstore : s.guestStore gva val size = s'.writePhysSized pa val size := by
      simp [FullSystemCpu.guestStore, FullSystemCpu.machinaMemWrite, hhit, ht, h'.backed]
    refine ⟨s'.writePhysSized pa val size, ?_, ?_⟩
    · simp [softMmu, hhit, hstore, FullSystemCpu.writePhysSized, h'.noFault]
    · rw [FullSystemCpu.writePhysSized, hmem]

theorem RamWord.serves (h : RamWord s gva size pa) : softMmu.Serves s gva size pa := by
  obtain ⟨s1, hload, hmem, h1⟩ := h.load
  refine ⟨s1, hload, fun val => ?_⟩
  obtain ⟨s2, hstore, hmem2⟩ := h1.store val
  rw [hmem] at hmem2
  exact ⟨s2, hstore, hmem2⟩

theorem ramWord_ramSystem (mem : Mem) (hbase : 0x80000000#64 ≤ gva)
    (hend : gva.toNat + size.toNat ≤ 0x90000000) : RamWord (ramSystem mem) gva size gva := by
  -- The memory takes no part in these.
  have hpriv : dataPriv (ramSystem fun _ => 0#8) = .machine := by decide +kernel
  have hlock : hasLocked (ramSystem fun _ => 0#8).cpu.pmp = false := by decide +kernel
  have hbare : translationMode (ramSystem mem).cpu (dataPriv (ramSystem mem)) = satpModeBare := if_pos hpriv
  refine ⟨⟨hbase, hend⟩, fun access _ => ?_, fun access addend hhit => ?_, rfl⟩
  · rw [translateForHelper_bare hbare, checkAccess, if_pos ⟨hpriv, hlock⟩]
    exact ⟨_, rfl, rfl⟩
  · have htag := empty_ramSystem mem (tlbIndex gva) access
    simp only [Mmu.tlbLookup, htag] at hhit
    rw [if_neg (fun h => invalidTag_ne gva h.1)] at hhit
    cases hhit

/-! ## Loads and stores of the intermediate code -/

section

open MachinaIr MachinaIrSem MachinaIrGen MachinaRvTrans

def memopBytes (memop : Nat) : BitVec 64 := 1#64 <<< (memop % 4)

/-- A loaded word, extended as the memory operation says. -/
def memopExtend (memop : Nat) (v : BitVec 64) : BitVec 64 :=
  if memop.testBit 2 then (v.setWidth (8 * (memopBytes memop).toNat)).signExtend 64 else v

/-- 32 bits, signed, and 64 bits. -/
def memSl : Nat := 6
def memUq : Nat := 3

variable {W E β : Type} (M : GuestMemory W) (fault : E) (other : Sem W E)

/-- Guest loads and stores by a guest memory, over a meaning of all other operations. -/
def guest : Sem W E := fun i xs world =>
  let memop := i.cargs.getD 0 0
  match i.opc with
  | .qemuLd =>
    match M.load world (xs.getD 0 0#64) (memopBytes memop) with
    | (world', some v) => ⟨[(low i.opType (memopExtend memop v)).setWidth 64], world', none⟩
    | (world', none) => ⟨[], world', some fault⟩
  | .qemuSt =>
    match M.store world (xs.getD 1 0#64) (xs.getD 0 0#64) (memopBytes memop) with
    | (world', true) => ⟨[], world', none⟩
    | (world', false) => ⟨[], world', some fault⟩
  | _ => other i xs world

variable {M fault other} {trap : E} {base : Context} {old : TempIdx → BitVec 64} {world world' : W}
variable {l : List (TempIdx × BitVec 64)} {g : Gen} {σ : State W} {post : β → Gen → State W → Prop}

theorem Emits.genQemuLd {addr : TempIdx} {memop : Nat} {x v : BitVec 64} {f : TempIdx → Builder β}
    (hk : Knows base old world l g σ) (ha : (addr, x) ∈ l)
    (hload : M.load world x (memopBytes memop) = (world', some v))
    (h : ∀ d g' σ', Knows base old world' ((d, memopExtend memop v) :: l) g' σ' →
      Emits (exact trap (guest M fault other)) (f d) g' σ' post) : Emits (exact trap (guest M fault other))
      (newTemp .i64 >>= fun d => genQemuLd .i64 d addr memop >>= fun _ => f d) g σ post := by
  have hin : ∀ d, List.Forall₂ (fun t x => (t, x) ∈ l) (Op.withArgs .qemuLd .i64 [d, addr, memop]).iargs [x] :=
    fun _ => .cons ha .nil
  have hdoes : ∀ d, Does (exact trap (guest M fault other)) (instr (.withArgs .qemuLd .i64 [d, addr, memop])) [x] world
      [memopExtend memop v] world' := by
    intro d
    refine Or.inr ⟨rfl, ?_⟩
    change (match M.load world x (memopBytes memop) with
      | (world', some v) => (⟨[(low .i64 (memopExtend memop v)).setWidth 64], world', none⟩ : Effect W E)
      | (world', none) => ⟨[], world', some fault⟩) = _
    rw [hload]
    simp [low, width]
  exact Emits.fresh hk hin hdoes (fun _ => rfl) fun d g' σ' _ _ _ => h d g' σ'

theorem Emits.genQemuSt {val addr : TempIdx} {memop : Nat} {x v : BitVec 64} {f : Unit → Builder β}
    (hk : Knows base old world l g σ) (hv : (val, v) ∈ l) (ha : (addr, x) ∈ l)
    (hstore : M.store world x v (memopBytes memop) = (world', true))
    (h : ∀ g' σ', Knows base old world' l g' σ' → Emits (exact trap (guest M fault other)) (f ()) g' σ' post) :
    Emits (exact trap (guest M fault other)) (genQemuSt .i64 val addr memop >>= f) g σ post := by
  have hin : List.Forall₂ (fun t x => (t, x) ∈ l) (Op.withArgs .qemuSt .i64 [val, addr, memop]).iargs [v, x] :=
    .cons hv (.cons ha .nil)
  have hdoes : Does (exact trap (guest M fault other)) (instr (.withArgs .qemuSt .i64 [val, addr, memop])) [v, x] world
      [] world' := by
    refine Or.inr ⟨rfl, ?_⟩
    change (match M.store world x v (memopBytes memop) with
      | (world', true) => (⟨[], world', none⟩ : Effect W E)
      | (world', false) => ⟨[], world', some fault⟩) = _
    rw [hstore]
  have hkeep : ∀ p ∈ l, p ∈ l ∧ p.1 ∉ (Op.withArgs .qemuSt .i64 [val, addr, memop]).oargs := fun p hp =>
    ⟨hp, List.not_mem_nil⟩
  exact Emits.op hk hin hdoes (List.forall_mem_nil _) List.nodup_nil hkeep fun g' σ' _ => h g' σ'

end

end MachinaGuestRam
