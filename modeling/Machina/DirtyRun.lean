import Machina.DirtyPages

/-!
# Which dirty pages are taken

The flag of an inline store stays with the TLB entry, while a refill gives the entry to another page. A page that
holds code is returned by the next `take_dirty_pages` if the store that touched it was recorded under that page, and
no refill in between moves a dirty entry to another page.
-/

namespace MachinaDirtyRun

open MachinaBits MachinaRiscv MachinaPmp MachinaMmu MachinaByteMem MachinaCpu MachinaFullSystem
open MachinaRuns MachinaWalk MachinaTlb MachinaTbStore MachinaDirtyPages
open MachinaMachine hiding Event step
open MachinaTbPages hiding Event step

variable {access : AccessType} {gva page size : BitVec 64} {s : FullSystemCpu} {e : MachinaMachine.Event}
    {r : Option Refill} {c c' : RiscvCpu} {w : Store} {t : Tracked}

/-- The entry of a page is filled with a physical page and a host addend. -/
structure Refill where
  gva : BitVec 64
  page : BitVec 64
  addend : BitVec 64
  deriving DecidableEq

def pagedRefill (s : FullSystemCpu) (gva : BitVec 64) (access : AccessType) (priv : PrivLevel) (size : BitVec 64) :
    Option Refill :=
  match (s.cpu.mmu.translateMiss s.mem gva access priv s.cpu.csr.mstatus size (some s.cpu.pmp)).2.2 with
  | .ok pa => some ⟨gva, pa >>> 12, hostAddend s.cpu gva pa⟩
  | .error _ => none

/-- The refill of a data access that is not let through by a tag. -/
def dataRefill (s : FullSystemCpu) (gva : BitVec 64) (access : AccessType) (size : BitVec 64) : Option Refill :=
  let effPriv := effectiveDataPriv s.cpu.priv s.cpu.csr.mstatus
  if translationMode s.cpu effPriv = satpModeBare then
    match checkAccess s.cpu.pmp gva size access effPriv with
    | .ok () => some ⟨gva, gva >>> 12, if inRam s.cpu gva then s.cpu.guestBase else tlbMmioAddend⟩
    | .error _ => none
  else pagedRefill s gva access effPriv size

def fetchRefill (s : FullSystemCpu) (vpc : BitVec 64) : Option Refill :=
  if translationMode s.cpu s.cpu.priv = satpModeBare then none else pagedRefill s vpc .execute s.cpu.priv 2#64

def refill (s : FullSystemCpu) (e : MachinaMachine.Event) : Option Refill :=
  match slowAccess s e with
  | none => none
  | some (.execute, vpc, _) => fetchRefill s vpc
  | some (access, gva, size) => dataRefill s gva access size

/-- The entry is still about the same page; it may have lost its tag and become dirty. -/
structure Kept (e e' : TlbEntry) : Prop where
  dirty : e.dirty ≠ 0#8 → e'.dirty ≠ 0#8
  page : e'.physPage = e.physPage
  addend : e'.addend = e.addend
  tag : e'.addrWrite = e.addrWrite ∨ e'.addrWrite = tlbInvalidTag

/-- The entry is about the page of the refill, and dirty if it was. -/
structure Filled (r : Refill) (e e' : TlbEntry) : Prop where
  dirty : e.dirty ≠ 0#8 → e'.dirty ≠ 0#8
  page : e'.physPage = r.page
  addend : e'.addend = r.addend
  tag : e'.addrWrite = r.gva &&& pageMask ∨ e'.addrWrite = tlbInvalidTag

/-- What translation and dirty tracking take from the layout of memory. -/
def ramLayout (c : RiscvCpu) : BitVec 64 × BitVec 64 × BitVec 64 := (c.guestBase, c.ramBase, c.ramEnd)

/-- Every entry is kept, apart from that of the refill. -/
structure Refilled (r : Option Refill) (c c' : RiscvCpu) : Prop where
  layout : ramLayout c' = ramLayout c
  entry : ∀ i, Kept (c.mmu.tlb i) (c'.mmu.tlb i) ∨
    ∃ ρ, r = some ρ ∧ tlbIndex ρ.gva = i ∧ Filled ρ (c.mmu.tlb i) (c'.mmu.tlb i)

theorem Kept.refl (e : TlbEntry) : Kept e e := ⟨id, rfl, rfl, Or.inl rfl⟩

theorem Kept.trans {e e' e'' : TlbEntry} (h : Kept e e') (h' : Kept e' e'') : Kept e e'' where
  dirty := fun hd => h'.dirty (h.dirty hd)
  page := h'.page.trans h.page
  addend := h'.addend.trans h.addend
  tag := by
    rcases h'.tag with ht | ht
    · rw [ht]
      exact h.tag
    · exact Or.inr ht

theorem Filled.trans {r : Refill} {e e' e'' : TlbEntry} (h : Filled r e e') (h' : Kept e' e'') : Filled r e e'' where
  dirty := fun hd => h'.dirty (h.dirty hd)
  page := h'.page.trans h.page
  addend := h'.addend.trans h.addend
  tag := by
    rcases h'.tag with ht | ht
    · rw [ht]
      exact h.tag
    · exact Or.inr ht

theorem Refilled.keep (hlayout : ramLayout c' = ramLayout c)
    (h : ∀ i, Kept (c.mmu.tlb i) (c'.mmu.tlb i)) : Refilled r c c' :=
  ⟨hlayout, fun i => Or.inl (h i)⟩

theorem Refilled.same (hlayout : ramLayout c' = ramLayout c) (htlb : c'.mmu.tlb = c.mmu.tlb) : Refilled r c c' := by
  refine .keep hlayout fun i => ?_
  rw [htlb]
  exact Kept.refl _

theorem Refilled.flush (hlayout : ramLayout c' = ramLayout c)
    (hmmu : ∀ i, c'.mmu.tlb i = (c.mmu.tlb i).invalidate) : Refilled r c c' := by
  refine .keep hlayout fun i => ?_
  rw [hmmu]
  exact ⟨id, rfl, rfl, Or.inr rfl⟩

/-- What comes after the refill of an event keeps the entries. -/
theorem Refilled.trans {c1 c2 : RiscvCpu} (h : Refilled r c c1) (h' : Refilled none c1 c2) : Refilled r c c2 := by
  refine ⟨h'.layout.trans h.layout, fun i => ?_⟩
  rcases h'.entry i with hkept | ⟨_, hnone, _⟩
  · rcases h.entry i with hfirst | ⟨ρ, hr, hi, hfilled⟩
    · exact Or.inl (hfirst.trans hkept)
    · exact Or.inr ⟨ρ, hr, hi, hfilled.trans hkept⟩
  · cases hnone

theorem refilled_doTrap (r : Option Refill) (c : RiscvCpu) (cause tval : BitVec 64) :
    Refilled r c (c.doTrap cause tval) := by
  unfold RiscvCpu.doTrap
  split <;> exact .flush rfl fun _ => rfl

theorem translatePaged_refilled (s : FullSystemCpu) (gva : BitVec 64) (access : AccessType) (priv : PrivLevel)
    (size : BitVec 64) (fault : Exception → BitVec 64) :
    Refilled (pagedRefill s gva access priv size) s.cpu (s.translatePaged gva access priv size fault).1.cpu := by
  unfold pagedRefill
  generalize hmiss : s.cpu.mmu.translateMiss s.mem gva access priv s.cpu.csr.mstatus size (some s.cpu.pmp) = r
  obtain ⟨mmu, mem, result⟩ := r
  unfold FullSystemCpu.translatePaged
  rw [hmiss]
  cases result with
  | ok pa =>
    obtain ⟨l, hpass, rfl⟩ := (translateMiss_ok_iff _ _ _ _ _ _ _ _ _).mp (congrArg (fun r => r.2.2) hmiss)
    have hmmu : mmu = s.cpu.mmu.refill gva s.cpu.csr.mstatus (touchPte l.pte access) (l.phys gva) l.pgSize := by
      rw [← translateMiss_fst hpass, hmiss]
    refine ⟨rfl, fun i => ?_⟩
    by_cases hi : i = tlbIndex gva
    · subst hi
      refine Or.inr ⟨_, rfl, rfl, ?_⟩
      simp only [hmmu, Mmu.fillAddend, Mmu.refill, Mmu.setEntry, Function.update_self]
      refine ⟨id, rfl, rfl, ?_⟩
      dsimp only
      split
      · exact Or.inl rfl
      · exact Or.inr rfl
    · left
      simp only [hmmu, Mmu.fillAddend, Mmu.refill, Mmu.setEntry, Function.update_of_ne hi]
      exact Kept.refl _
  | error e =>
    have hmmu := translateMiss_error (congrArg (fun r => r.2.2) hmiss)
    rw [hmiss] at hmmu
    dsimp only at hmmu ⊢
    rw [hmmu]
    exact .same rfl rfl

theorem translateForHelper_refilled (s : FullSystemCpu) (gva : BitVec 64) (access : AccessType) (size : BitVec 64) :
    Refilled (dataRefill s gva access size) s.cpu (s.translateForHelper gva access size).1.cpu := by
  unfold FullSystemCpu.translateForHelper dataRefill
  dsimp only
  split
  · cases checkAccess s.cpu.pmp gva size access (effectiveDataPriv s.cpu.priv s.cpu.csr.mstatus) with
    | error e => exact .same rfl rfl
    | ok u =>
      refine ⟨rfl, fun i => ?_⟩
      by_cases hi : i = tlbIndex gva
      · subst hi
        refine Or.inr ⟨_, rfl, rfl, ?_⟩
        simp only [Mmu.fillIdentity, Mmu.setEntry, Function.update_self]
        refine ⟨id, rfl, rfl, ?_⟩
        exact (ite_eq_or_eq _ _ _).symm
      · left
        simp only [Mmu.fillIdentity, Mmu.setEntry, Function.update_of_ne hi]
        exact Kept.refl _
  · exact translatePaged_refilled s gva access _ size _

/-- The pc of a fault does not concern translation. -/
theorem translatePc_refilled {s1 : FullSystemCpu} (vpc : BitVec 64) (hcpu : s1.cpu = { s.cpu with faultPc := 0#64 })
    (hmem : s1.mem = s.mem) : Refilled (fetchRefill s vpc) s.cpu (s1.translatePc vpc).1.cpu := by
  have hr : fetchRefill s vpc = fetchRefill s1 vpc := by
    unfold fetchRefill pagedRefill
    rw [hcpu, hmem]
    rfl
  have hrest : Refilled (fetchRefill s1 vpc) s1.cpu (s1.translatePc vpc).1.cpu := by
    unfold FullSystemCpu.translatePc fetchRefill
    split
    · split <;> exact .same rfl rfl
    · have hpaged := translatePaged_refilled s1 vpc .execute s1.cpu.priv 2#64 fetchFaultCause
      split <;> rename_i heq <;> rw [heq] at hpaged <;> exact hpaged
  rw [hr]
  rw [hcpu] at hrest
  exact ⟨hrest.layout, hrest.entry⟩

theorem refilled_csrWrite (r : Option Refill) (c : RiscvCpu) (addr : BitVec 16) (val : BitVec 64) :
    Refilled r c (csrWrite c addr val).1 :=
  .same rfl rfl

theorem refilled_syncRuntime (r : Option Refill) (c : RiscvCpu) (addr : BitVec 16) (satp : BitVec 64) :
    Refilled r c (syncRuntime c addr satp) := by
  by_cases hsatp : addr = csrSatp
  · refine .flush rfl fun i => ?_
    simp only [syncRuntime, if_pos hsatp]
    rfl
  by_cases hstatus : addr = csrMstatus ∨ addr = csrSstatus
  · refine .flush rfl fun i => ?_
    simp only [syncRuntime, if_neg hsatp, if_pos hstatus]
    rfl
  · refine .same rfl ?_
    simp [syncRuntime, if_neg hsatp, if_neg hstatus]

/-- A CSR instruction writes the register and then brings the MMU in line with it. -/
theorem Refilled.csr {c0 c1 : RiscvCpu} {addr : BitVec 16} {val : BitVec 64} {u : Except Nat Unit}
    (h : Refilled r c c0) (hwrite : csrWrite c0 addr val = (c1, u)) (satp : BitVec 64) :
    Refilled r c (syncRuntime c1 addr satp) := by
  have hc1 : c1 = (csrWrite c0 addr val).1 := by rw [hwrite]
  rw [hc1]
  exact (h.trans (refilled_csrWrite none c0 addr val)).trans (refilled_syncRuntime none _ addr satp)

theorem refilled_restoreCsrs (ws : List (BitVec 16 × BitVec 64)) (c : RiscvCpu) :
    Refilled none c (ws.foldl (fun c w => (csrWrite c w.1 w.2).1) c) := by
  induction ws generalizing c with
  | nil => exact .same rfl rfl
  | cons w ws ih => exact (refilled_csrWrite none c w.1 w.2).trans (ih _)

theorem refilled_gdbWriteRegister (r : Option Refill) (c : RiscvCpu) (reg : Nat) (v : BitVec 64) :
    Refilled r c (gdbWriteRegister c reg v).1 := by
  unfold gdbWriteRegister
  split_ifs
  · exact .same rfl rfl
  · exact .same rfl rfl
  · exact .same rfl rfl
  · exact .same rfl rfl
  · exact .same rfl rfl
  split
  · exact refilled_csrWrite r c _ v
  · exact .same rfl rfl

/-- The flag of an inline store is all it changes in the TLB. -/
theorem refilled_markDirty (r : Option Refill) (c : RiscvCpu) (gva : BitVec 64) :
    Refilled r c { c with mmu := markDirty c.mmu gva } := by
  refine .keep rfl fun i => ?_
  by_cases hi : i = tlbIndex gva
  · subst hi
    simp only [markDirty, Mmu.setEntry, Function.update_self]
    exact ⟨fun _ => (by decide : (1#8 : BitVec 8) ≠ 0#8), rfl, rfl, Or.inl rfl⟩
  · simp only [markDirty, Mmu.setEntry, Function.update_of_ne hi]
    exact Kept.refl _

theorem translated_refilled (h : Translated s e c) : Refilled (refill s e) s.cpu c := by
  cases h with
  | none => exact .same rfl rfl
  | dirty gva => exact refilled_markDirty _ s.cpu gva
  | @data access gva size hslow hdata =>
    rw [refill, hslow]
    cases access with
    | execute => exact False.elim (hdata rfl)
    | read | write => exact translateForHelper_refilled s gva _ size
  | fetch hslow hcpu hmem =>
    rw [refill, hslow]
    exact translatePc_refilled _ hcpu hmem

theorem Refilled.quiet {c1 : RiscvCpu} (h : Refilled r c c1) (hq : Quiet c1 c') : Refilled r c c' :=
  h.trans (.same hq.layout (congrArg Mmu.tlb hq.mmu))

/-- What an event does to the TLB, whatever the registers hold. -/
theorem did_refilled (h : Did s e c) : Refilled (refill s e) s.cpu c := by
  cases h with
  | quiet ht hq => exact (translated_refilled ht).quiet hq
  | trap ht hq cause tval => exact ((translated_refilled ht).quiet hq).trans (refilled_doTrap none _ _ _)
  | flush | mret => exact .flush rfl fun _ => rfl
  | sret hlegal =>
    rw [RiscvCpu.executeSret, if_neg hlegal]
    exact .flush rfl fun _ => rfl
  | csrHelper _ _ hwrite hq => exact (Refilled.csr (.same rfl rfl) hwrite _).quiet hq
  | csrExit ht hwrite hq => exact ((translated_refilled ht).csr hwrite _).quiet hq
  | gdbWrite reg val => exact refilled_gdbWriteRegister _ s.cpu reg val
  | gdbRestore gpr fpr pc csrs =>
    have hregs : Refilled none s.cpu
        { s.cpu with gpr := fun i => if i.val = 0 then s.cpu.gpr i else gpr i, pc := pc, fpr := fpr } := .same rfl rfl
    exact hregs.trans (refilled_restoreCsrs _ _)

theorem step_refilled (s : FullSystemCpu) (e : MachinaMachine.Event) :
    Refilled (refill s e) s.cpu (MachinaMachine.step s e).cpu :=
  did_refilled (step_did s e)

/-- A tagged entry of RAM leads to its page. -/
def HostOk (c : RiscvCpu) (e : TlbEntry) : Prop :=
  e.addend ≠ tlbMmioAddend → ∀ gva, e.addrWrite = gva &&& pageMask →
    hostPhys c gva e.addend = e.phys gva ∧ e.phys gva >>> 12 = e.physPage

def Coherent (c : RiscvCpu) : Prop := ∀ i, HostOk c (c.mmu.tlb i)

theorem coherent_of_empty (h : Empty c.mmu) : Coherent c := by
  intro i _ gva htag
  exact False.elim (invalidTag_ne _ ((h i .write).symm.trans htag))

theorem join_shift (pa gva : BitVec 64) : (((pa >>> 12) <<< 12) ||| (gva &&& ~~~pageMask)) >>> 12 = pa >>> 12 := by
  apply BitVec.eq_of_getLsbD_eq
  intro i hi
  rw [page_shift, BitVec.getLsbD_ushiftRight, BitVec.getLsbD_or, BitVec.getLsbD_and, BitVec.getLsbD_and,
    BitVec.getLsbD_not, getLsbD_pageMask, BitVec.getLsbD_ushiftRight]
  by_cases h64 : 12 + i < 64
  · simp [h64]
  · simp [h64, BitVec.getLsbD_of_ge _ _ (show 64 ≤ 12 + i by omega)]

/-- The addend of the refill leads to its page. -/
def Refill.Leads (r : Refill) (c : RiscvCpu) : Prop :=
  r.addend ≠ tlbMmioAddend → ∀ gva, SamePage r.gva gva →
    hostPhys c gva r.addend = (r.page <<< 12) ||| (gva &&& ~~~pageMask) ∧
      ((r.page <<< 12) ||| (gva &&& ~~~pageMask)) >>> 12 = r.page

theorem pagedRefill_leads {priv : PrivLevel}
    {r : Refill} (h : pagedRefill s gva access priv size = some r) : r.Leads s.cpu := by
  unfold pagedRefill at h
  split at h
  · cases h
    intro haddend gva' hsame
    exact ⟨hostPhys_hostAddend hsame haddend, join_shift _ _⟩
  · cases h

theorem dataRefill_leads {r : Refill} (h : dataRefill s gva access size = some r) : r.Leads s.cpu := by
  unfold dataRefill at h
  dsimp only at h
  split at h
  · split at h
    · cases h
      intro haddend gva' hsame
      have hram : inRam s.cpu gva := by
        by_contra hout
        exact haddend (if_neg hout)
      refine ⟨?_, join_shift _ _⟩
      rw [if_pos hram, hsame.join]
      exact BitVec.add_sub_cancel gva' s.cpu.guestBase
    · cases h
  · exact pagedRefill_leads h

theorem refill_leads {r : Refill} (h : refill s e = some r) : r.Leads s.cpu := by
  unfold refill at h
  split at h
  · cases h
  · unfold fetchRefill at h
    split at h
    · cases h
    · exact pagedRefill_leads h
  · exact dataRefill_leads h

theorem hostPhys_layout (h : ramLayout c' = ramLayout c) (gva addend : BitVec 64) :
    hostPhys c' gva addend = hostPhys c gva addend := by
  have hbase : c'.guestBase = c.guestBase := congrArg Prod.fst h
  rw [hostPhys, hostPhys, hbase]

theorem coherent_step (h : Coherent s.cpu) (e : MachinaMachine.Event) : Coherent (MachinaMachine.step s e).cpu := by
  obtain ⟨hlayout, hentry⟩ := step_refilled s e
  intro i haddend gva htag
  rw [hostPhys_layout hlayout]
  rcases hentry i with hkept | ⟨r, hr, rfl, hfilled⟩
  · rcases hkept.tag with ht | ht
    · rw [hkept.addend] at haddend ⊢
      rw [TlbEntry.phys, hkept.page]
      exact h i haddend gva (ht.symm.trans htag)
    · exact False.elim (invalidTag_ne _ (ht.symm.trans htag))
  · rcases hfilled.tag with ht | ht
    · rw [hfilled.addend] at haddend ⊢
      rw [TlbEntry.phys, hfilled.page]
      exact refill_leads hr haddend gva (htag.symm.trans ht)
    · exact False.elim (invalidTag_ne _ (ht.symm.trans htag))

theorem adStores_entry {priv : PrivLevel} (h : w ∈ adStores s gva access priv) : w.entry = none := by
  unfold adStores at h
  split at h
  · cases h
  split at h
  · cases h
  · split at h
    · cases h
    · split at h
      · cases h
      · rw [List.mem_singleton.mp h]
        rfl

theorem helperStores_entry {own : FullSystemCpu → BitVec 64 → Bool} (h : w ∈ helperStores s gva access size own) :
    w.entry = none := by
  have hwalk (hw : w ∈ (if translationMode s.cpu (effectiveDataPriv s.cpu.priv s.cpu.csr.mstatus) = satpModeBare
      then [] else adStores s gva access (effectiveDataPriv s.cpu.priv s.cpu.csr.mstatus))) : w.entry = none := by
    split at hw
    · cases hw
    · exact adStores_entry hw
  unfold helperStores at h
  split at h
  · split at h
    · rcases List.mem_append.mp h with hw | hw
      · exact hwalk hw
      · rw [List.mem_singleton.mp hw]
        rfl
    · exact hwalk h
  · exact hwalk h

theorem fetchStores_entry {vpc : BitVec 64} (h : w ∈ fetchStores s vpc) : w.entry = none := by
  unfold fetchStores at h
  split at h
  · cases h
  · exact adStores_entry h

/-- A store that went through an entry is the inline one of a store instruction. -/
theorem inline_of_entry {i : Fin 256} (h : w ∈ stores s e)
    (hi : w.entry = some i) : ∃ gva val size addend, e = .store gva val size ∧
      s.inlineHit .write gva size = some addend ∧
      w = ⟨hostPhys s.cpu gva addend, accessBytes size, some (tlbIndex gva)⟩ := by
  have hnot {P : Prop} (hnone : w.entry = none) : P := by
    rw [hnone] at hi
    cases hi
  cases e with
  | store gva val size =>
    simp only [stores] at h
    split at h
    · rename_i addend hhit
      exact ⟨gva, val, size, addend, rfl, hhit, List.mem_singleton.mp h⟩
    · exact hnot (helperStores_entry h)
  | load gva size | amo gva val size op =>
    simp only [stores] at h
    split at h
    · exact hnot (helperStores_entry h)
    · cases h
  | loadReserved gva size | storeConditional gva val size => exact hnot (helperStores_entry h)
  | fetch vpc | csrExit time => exact hnot (fetchStores_entry h)
  | _ => cases h

/-- The flag of an entry stands for the page. -/
def Flagged (m : Mmu) (page : BitVec 64) : Prop :=
  page ≠ 0#64 ∧ ∃ i, (m.tlb i).dirty ≠ 0#8 ∧ (m.tlb i).physPage = page ∧ (m.tlb i).addend ≠ tlbMmioAddend

/-- The page is on the list or stands behind a flag. -/
def Pending (t : Tracked) (page : BitVec 64) : Prop := page ∈ t.dirtyPages ∨ Flagged t.sys.cpu.mmu page

section

variable {α β : Type} {push : List β → α → List β} {b : β}

theorem mem_foldl_of_mem (hkeep : ∀ buf a, b ∈ buf → b ∈ push buf a) (as : List α) {buf : List β} (h : b ∈ buf) :
    b ∈ as.foldl push buf := by
  induction as generalizing buf with
  | nil => exact h
  | cons a as ih => exact ih (hkeep buf a h)

theorem mem_foldl_of_push (hkeep : ∀ buf a, b ∈ buf → b ∈ push buf a) {as : List α} {a : α} (ha : a ∈ as)
    (hpush : ∀ buf, b ∈ push buf a) (buf : List β) : b ∈ as.foldl push buf := by
  induction as generalizing buf with
  | nil => cases ha
  | cons a' as ih =>
    rcases List.mem_cons.mp ha with rfl | ha
    · exact mem_foldl_of_mem hkeep as (hpush buf)
    · exact ih ha _

end

theorem mem_recordStore {blocks : TbStore} (dirty : List (BitVec 64)) (w : Store)
    (h : page ∈ dirty) : page ∈ recordStore c blocks dirty w := by
  unfold recordStore
  dsimp only
  split
  · exact List.mem_append_left _ h
  · exact h

theorem recordStore_self {blocks : TbStore} (hentry : w.entry = none) (hram : inRam c w.pa)
    (hcode : blocks.isCodePage (w.pa >>> 12).toNat = true) (dirty : List (BitVec 64)) :
    w.pa >>> 12 ∈ recordStore c blocks dirty w := by
  unfold recordStore
  by_cases hin : w.pa >>> 12 ∈ dirty
  · rw [if_neg fun h => h.2.2.2 hin]
    exact hin
  · rw [if_pos ⟨hentry, hram, hcode, hin⟩]
    exact List.mem_append_right _ List.mem_cons_self

theorem mem_pushEntry (buf : List (BitVec 64)) (e : TlbEntry) (h : page ∈ buf) : page ∈ pushEntry buf e := by
  unfold pushEntry
  split
  · exact List.mem_append_left _ h
  · exact h

theorem pushEntry_self {e : TlbEntry} (hdirty : e.dirty ≠ 0#8) (hpage : e.physPage ≠ 0#64)
    (haddend : e.addend ≠ tlbMmioAddend) (buf : List (BitVec 64)) : e.physPage ∈ pushEntry buf e := by
  unfold pushEntry
  by_cases hin : e.physPage ∈ buf
  · rw [if_neg fun h => h.2.2.2 hin]
    exact hin
  · rw [if_pos ⟨hdirty, hpage, haddend, hin⟩]
    exact List.mem_append_right _ List.mem_cons_self

theorem mem_takeDirtyTlbPages {m : Mmu} (h : Flagged m page) : page ∈ (takeDirtyTlbPages m).1 := by
  obtain ⟨hpage, i, hdirty, rfl, haddend⟩ := h
  unfold takeDirtyTlbPages
  have hkeep (buf : List (BitVec 64)) (j : Fin 256) (hin : (m.tlb i).physPage ∈ buf) :
      (m.tlb i).physPage ∈ pushEntry buf (m.tlb j) := mem_pushEntry buf _ hin
  generalize hall : List.finRange 256 = all
  have hi : i ∈ all := hall ▸ List.mem_finRange i
  exact mem_foldl_of_push hkeep hi (pushEntry_self hdirty hpage haddend) []

theorem mem_takeDirtyPages (h : Pending t page) : page ∈ (takeDirtyPages t).1 := by
  have hkeep (pages : List (BitVec 64)) (p : BitVec 64) (hin : page ∈ pages) :
      page ∈ if p ∈ pages then pages else pages ++ [p] := by
    split
    · exact hin
    · exact List.mem_append_left _ hin
  unfold takeDirtyPages
  rcases h with hlist | hflag
  · exact mem_foldl_of_mem hkeep _ hlist
  refine mem_foldl_of_push hkeep (mem_takeDirtyTlbPages hflag) (fun pages => ?_) _
  split
  · assumption
  · exact List.mem_append_right _ List.mem_cons_self

/-- An address and the bytes after it, up to the end of the page. -/
theorem add_shift {x : BitVec 64} {size k : Nat} (hlow : x &&& ~~~pageMask = gva &&& ~~~pageMask)
    (hin : (gva &&& ~~~pageMask).toNat + size ≤ 4096) (hk : k < size) : (x + BitVec.ofNat 64 k) >>> 12 = x >>> 12 := by
  have hmask : ~~~pageMask = (1#64 <<< 12) - 1#64 := by decide
  have hoff : x.toNat % 4096 + size ≤ 4096 := by
    rw [← hlow, hmask, toNat_and_low x (by decide)] at hin
    exact hin
  exact (samePage_add (by omega)).agreeFrom.ushiftRight (Nat.le_refl 12)

theorem phys_low (e : TlbEntry) (gva : BitVec 64) : e.phys gva &&& ~~~pageMask = gva &&& ~~~pageMask := by
  apply BitVec.eq_of_getLsbD_eq
  intro i hi
  rw [TlbEntry.phys, BitVec.getLsbD_and, BitVec.getLsbD_or, BitVec.getLsbD_shiftLeft, BitVec.getLsbD_and,
    BitVec.getLsbD_not, getLsbD_pageMask]
  by_cases hlow : i < 12
  · simp [hlow, hi]
  · simp [hlow, hi, show 12 ≤ i by omega]

theorem accessBytes_le (size : BitVec 64) : accessBytes size ≤ size.toNat := by
  unfold accessBytes
  split
  · exact Nat.le_refl _
  · exact Nat.zero_le _

/-- The page that an inline store touches is that of its entry, which it flags. -/
theorem inline_flagged (hcoh : Coherent s.cpu) {val addend : BitVec 64}
    (hhit : s.inlineHit .write gva size = some addend) (hpage : page ≠ 0#64)
    (htouch : (⟨hostPhys s.cpu gva addend, accessBytes size, some (tlbIndex gva)⟩ : Store).touches s.cpu page) :
    Flagged (MachinaMachine.step s (.store gva val size)).cpu.mmu page := by
  have hstep : (MachinaMachine.step s (.store gva val size)).cpu.mmu = markDirty s.cpu.mmu gva := by
    simp only [MachinaMachine.step, FullSystemCpu.guestStore, hhit]
    rfl
  unfold FullSystemCpu.inlineHit at hhit
  split at hhit
  · rename_i hin
    simp only [Mmu.tlbLookup, Option.ite_none_right_eq_some, Option.some.injEq] at hhit
    obtain ⟨⟨htag, haddend⟩, rfl⟩ := hhit
    obtain ⟨hhost, hshift⟩ := hcoh (tlbIndex gva) haddend gva htag
    obtain ⟨-, k, hk, rfl⟩ := htouch
    have hbytes : k < size.toNat := Nat.lt_of_lt_of_le hk (accessBytes_le size)
    rw [hhost, add_shift (phys_low _ gva) hin hbytes, hshift] at hpage ⊢
    refine ⟨hpage, tlbIndex gva, ?_⟩
    rw [hstep]
    simp only [markDirty, Mmu.setEntry, Function.update_self]
    exact ⟨by decide, trivial, haddend⟩
  · cases hhit

/-- The store is recorded under the page: an inline one is not to page zero, and that of a helper starts in the page,
which the block store counts as a code page. -/
def Recorded (t : Tracked) (w : Store) (page : BitVec 64) : Prop :=
  match w.entry with
  | some _ => page ≠ 0#64
  | none => page = w.pa >>> 12 ∧ t.engine.store.isCodePage page.toNat = true

theorem pending_of_store (hcoh : Coherent t.sys.cpu)
    (hw : w ∈ stores t.sys e) (htouch : w.touches t.sys.cpu page) (hrec : Recorded t w page) :
    Pending (afterMachine t e) page := by
  unfold Recorded at hrec
  cases hentry : w.entry with
  | some i =>
    rw [hentry] at hrec
    obtain ⟨gva, val, size, addend, rfl, hhit, rfl⟩ := inline_of_entry hw hentry
    exact Or.inr (inline_flagged hcoh hhit hrec htouch)
  | none =>
    rw [hentry] at hrec
    obtain ⟨rfl, hcode⟩ := hrec
    exact Or.inl (mem_foldl_of_push mem_recordStore hw (recordStore_self hentry htouch.1 hcode) _)

/-- No refill moves a dirty entry of the page to another page or to a device, and `take_dirty_pages` is not called. -/
def keepsPage (page : BitVec 64) (t : Tracked) : Event → Prop
  | .machine e => ∀ r, refill t.sys e = some r → (t.sys.cpu.mmu.tlb (tlbIndex r.gva)).dirty ≠ 0#8 →
      (t.sys.cpu.mmu.tlb (tlbIndex r.gva)).physPage = page → r.page = page ∧ r.addend ≠ tlbMmioAddend
  | .engine _ => True
  | .takeDirty => False

theorem flagged_step (hok : keepsPage page t (.machine e))
    (h : Flagged t.sys.cpu.mmu page) : Flagged (MachinaMachine.step t.sys e).cpu.mmu page := by
  obtain ⟨hpage, i, hdirty, hphys, haddend⟩ := h
  refine ⟨hpage, i, ?_⟩
  rcases (step_refilled t.sys e).entry i with hkept | ⟨r, hr, rfl, hfilled⟩
  · rw [hkept.page, hkept.addend]
    exact ⟨hkept.dirty hdirty, hphys, haddend⟩
  · rw [hfilled.page, hfilled.addend]
    exact ⟨hfilled.dirty hdirty, hok r hr hdirty hphys⟩

theorem pending_step {t' : Tracked} {ev : Event} (hok : keepsPage page t ev)
    (hstep : step t ev = some t') (h : Pending t page) : Pending t' page := by
  cases ev with
  | machine e =>
    cases hstep
    exact h.imp (mem_foldl_of_mem mem_recordStore _) (flagged_step hok)
  | engine e =>
    obtain ⟨engine, -, rfl⟩ := Option.map_eq_some_iff.mp hstep
    exact h
  | takeDirty => exact hok.elim

theorem coherent_tracked {t' : Tracked} {ev : Event} (hstep : step t ev = some t') (h : Coherent t.sys.cpu) :
    Coherent t'.sys.cpu := by
  cases ev with
  | machine e =>
    cases hstep
    exact coherent_step h e
  | engine e =>
    obtain ⟨engine, -, rfl⟩ := Option.map_eq_some_iff.mp hstep
    exact h
  | takeDirty =>
    cases hstep
    intro i
    have hi := h i
    simp only [takeDirtyPages, takeDirtyTlbPages, onCpu]
    split
    · exact hi
    · exact hi

/-- After every run from a reset TLB: if a store to RAM is recorded under the pages with code that it touches, and no
step from there on moves a dirty entry of such a page, then the next `take_dirty_pages` returns the page. -/
theorem stored_page_is_taken {t₀ t u : Tracked} {es es' : List Event} {e : MachinaMachine.Event} {w : Store}
    {page : BitVec 64} (hempty : Empty t₀.sys.cpu.mmu) (hrun : Run (ofOption step) t₀ es t) (hw : w ∈ stores t.sys e)
    (hrec : ∀ page, w.touches t.sys.cpu page → HoldsCode t page → Recorded t w page)
    (htouch : w.touches t.sys.cpu page) (hcode : HoldsCode t page)
    (hrest : Run (guarded (keepsPage page) (ofOption step)) (afterMachine t e) es' u) :
    page ∈ (takeDirtyPages u).1 := by
  have hcoh : Coherent t.sys.cpu :=
    hrun.invariant (I := fun t => Coherent t.sys.cpu) (fun _ _ _ => coherent_tracked) (coherent_of_empty hempty)
  have hpending : Pending (afterMachine t e) page := pending_of_store hcoh hw htouch (hrec page htouch hcode)
  exact mem_takeDirtyPages
    (hrest.invariant (I := fun t => Pending t page) (fun _ _ _ h => pending_step h.1 h.2) hpending)

/-- A system at reset, without blocks. -/
def idle : Tracked := ⟨ramSystem fun _ => 0#8, MachinaTbPages.start, []⟩

/-- A store fills the TLB entry of a page, and then a block is translated from the page. -/
def patchedPage : List Event :=
  [.machine (.store 0x80001000#64 0#64 8#64), .engine (findAt 0x80001000#64 0x80001000#64 [0x80001#64])]

/-- The store of a new instruction into that page. -/
def patch : MachinaMachine.Event := .store 0x80001000#64 0x13#64 4#64

def patchStore : Store := ⟨0x80001000#64, 4, some 1⟩

theorem patchedPage_run : ∃ t, Run (ofOption step) idle patchedPage t ∧ patchStore ∈ stores t.sys patch ∧
    patchStore.touches t.sys.cpu 0x80001#64 ∧ HoldsCode t 0x80001#64 ∧
    0x80001#64 ∉ (takeDirtyPages (afterMachine (afterMachine t patch) (.load 0x80100000#64 8#64))).1 := by
  refine ⟨_, .cons rfl (.cons rfl (.nil _)), ?_, ?_, ?_, ?_⟩
  · decide +kernel
  · decide +kernel
  · exact ⟨0, by decide, by decide, 0x80001#64, by decide, by decide⟩
  · decide +kernel

theorem stored_page_is_taken_flush : ∃ t, Run (ofOption step) idle patchedPage t ∧
    0x80001#64 ∈ (takeDirtyPages (afterMachine (afterMachine t patch) .sfenceVma)).1 := by
  obtain ⟨t, hrun, hw, htouch, hcode, -⟩ := patchedPage_run
  have hpage : ∀ k < 4, (0x80001000#64 + BitVec.ofNat 64 k) >>> 12 ≠ 0#64 := by decide
  have hrest : Run (guarded (keepsPage 0x80001#64) (ofOption step)) (afterMachine t patch) [.machine .sfenceVma]
      (afterMachine (afterMachine t patch) .sfenceVma) := .cons ⟨(fun r hr => nomatch hr), rfl⟩ (.nil _)
  refine ⟨t, hrun, stored_page_is_taken (empty_ramSystem _) hrun hw ?_ htouch hcode hrest⟩
  rintro page ⟨-, k, hk, rfl⟩ -
  exact hpage k hk

/-- The load of a page that shares the TLB entry gives the flag of the store to its own page. -/
theorem evicted_page_is_not_taken : ∃ t u, Run (ofOption step) idle patchedPage t ∧ patchStore ∈ stores t.sys patch ∧
    patchStore.touches t.sys.cpu 0x80001#64 ∧ HoldsCode t 0x80001#64 ∧
    Run (ofOption step) (afterMachine t patch) [.machine (.load 0x80100000#64 8#64)] u ∧
    0x80001#64 ∉ (takeDirtyPages u).1 := by
  obtain ⟨t, hrun, hw, htouch, hcode, hlost⟩ := patchedPage_run
  exact ⟨t, _, hrun, hw, htouch, hcode, .cons rfl (.nil _), hlost⟩

end MachinaDirtyRun
