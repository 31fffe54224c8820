import Machina.LoongPage
import Machina.Runs

/-!
# The LoongArch fast TLB

The fast TLB keeps finished translations for generated code: three tags, one per kind of access, that share one addend.
An entry is right as long as the full translation would give the same answer. Every operation either empties the fast
TLB, leaves all that translation reads alone, or adds a translation just made; the few that do neither are named by the
condition on the steps of a run.
-/

namespace MachinaLoongFast

open MachinaBits MachinaLoongMmu MachinaLoongCpu MachinaLoongTlb MachinaLoongPage

variable {c d : LoongArchCpu} {num : Nat}

/-- The fast-TLB entry that generated code consults for an address. -/
def fastEntry (c : LoongArchCpu) (va : BitVec 64) : FastTlbEntry := (activeTlbMmu c).fastTlb (fastTlbIndex va)

/-- A tag that matches stands for a translation that hits, at the page that the addend denotes. -/
def FastOk (c : LoongArchCpu) : Prop :=
  ∀ va access, (fastEntry c va).tag access = page va →
    ∃ pa mat, c.translateAddress va access = .hit pa mat ∧ page pa = page va + (fastEntry c va).addend - c.guestBase

def NoTags (c : LoongArchCpu) : Prop := ∀ va access, (fastEntry c va).tag access ≠ page va

theorem NoTags.fastOk (h : NoTags c) : FastOk c := fun va access htag => absurd htag (h va access)

/-! ## Filling an entry -/

theorem fill_addend (e : FastTlbEntry) (va : BitVec 64) (access : AccessType) (pa addend : BitVec 64) :
    (e.fill va access pa addend).addend = addend := rfl

theorem tag_setTag (e : FastTlbEntry) (access access' : AccessType) (tag : BitVec 64) :
    (e.setTag access tag).tag access' = if access' = access then tag else e.tag access' := by
  cases access <;> cases access' <;> rfl

/-- After a fill, the tag of the filled kind is the page or invalid; another tag that matches any page was there
before, for the same page. -/
theorem tag_fill {e : FastTlbEntry} {gva pa addend va : BitVec 64} {access access' : AccessType}
    (h : (e.fill gva access pa addend).tag access' = page va) :
    page va = page gva ∧ (access' ≠ access → e.tag access' = page va) := by
  have htag : ∀ e' : FastTlbEntry, FastTlbEntry.tag { e' with addend := addend, dirty := 0, physPage := pa >>> 12 }
    access'
      = e'.tag access' := by
    intro e'
    cases access' <;> rfl
  simp only [FastTlbEntry.fill, htag, tag_setTag] at h
  by_cases heq : access' = access
  · refine ⟨?_, fun hne => absurd heq hne⟩
    rw [if_pos heq] at h
    split at h
    · exact absurd h.symm (page_ne_invalidTag va)
    · exact h.symm
  · rw [if_neg heq] at h
    split at h
    · rename_i hsame
      refine ⟨?_, fun _ => h⟩
      have hcase : e.tag access' = fastTlbInvalidTag ∨ e.tag access' = page gva := by
        simp only [List.all_cons, List.all_nil, Bool.and_true, Bool.and_eq_true, Bool.or_eq_true, beq_iff_eq] at hsame
        cases access'
        · exact hsame.1
        · exact hsame.2.1
        · exact hsame.2.2
      obtain hinv | hpage := hcase
      · exact absurd (h.symm.trans hinv) (page_ne_invalidTag va)
      · exact h.symm.trans hpage
    · -- the entry was emptied first
      have hempty : FastTlbEntry.tag {} access' = fastTlbInvalidTag := by cases access' <;> rfl
      exact absurd (h.symm.trans hempty) (page_ne_invalidTag va)

/-! ## What translation reads -/

def viewMask : BitVec 64 := crmdPlvMask ||| crmdDa ||| crmdPg

/-- The part of CRMD that translation reads: PLV, DA and PG. -/
def view (crmd : BitVec 64) : BitVec 64 := crmd &&& viewMask

/-- The states agree in everything that translation reads. The fast TLBs are not among it. -/
structure SameRegs (c d : LoongArchCpu) : Prop where
  mode : d.inGuestMode = c.inGuestMode
  gid : d.targetGid = c.targetGid
  crmd : view (d.csr csrCrmd) = view (c.csr csrCrmd)
  dmw : dmwOf d.csr = dmwOf c.csr
  asid : asidOf (d.csr csrAsid) = asidOf (c.csr csrAsid)
  stlbps : stlbPsOf (d.csr csrStlbps) = stlbPsOf (c.csr csrStlbps)
  gcrmd : view (d.gcsr csrCrmd) = view (c.gcsr csrCrmd)
  gdmw : dmwOf d.gcsr = dmwOf c.gcsr
  gasid : asidOf (d.gcsr csrAsid) = asidOf (c.gcsr csrAsid)
  gstlbps : stlbPsOf (d.gcsr csrStlbps) = stlbPsOf (c.gcsr csrStlbps)
  mtlb : d.mmu.mtlb = c.mmu.mtlb
  stlb : d.mmu.stlb = c.mmu.stlb
  gmtlb : d.guestMmu.mtlb = c.guestMmu.mtlb
  gstlb : d.guestMmu.stlb = c.guestMmu.stlb

theorem and_of_view {x y k : BitVec 64} (h : view x = view y) (hk : k &&& viewMask = k) : x &&& k = y &&& k := by
  rw [← hk, BitVec.and_comm k, ← BitVec.and_assoc, ← BitVec.and_assoc]
  exact congrArg (· &&& k) h

theorem tlbLookup_congr {m m' : LoongArchMmu} (hmtlb : m'.mtlb = m.mtlb) (hstlb : m'.stlb = m.stlb) (va : BitVec 64)
    (asid : BitVec 16) (gid : BitVec 8) (stlbPs : Nat) (access : AccessType) (plv : BitVec 8) :
    m'.tlbLookup va asid gid stlbPs access plv = m.tlbLookup va asid gid stlbPs access plv := by
  simp [tlbLookup_eq, lookupEntry, LoongArchMmu.mtlbEntries, LoongArchMmu.stlbEntries, hmtlb, hstlb]

theorem lookupAddressWith_congr {m m' : LoongArchMmu} (hmtlb : m'.mtlb = m.mtlb) (hstlb : m'.stlb = m.stlb)
    {crmd crmd' : BitVec 64} (h : view crmd' = view crmd) (va : BitVec 64) (access : AccessType)
    (dmw : List (BitVec 64))
    (asid : BitVec 16) (gid : BitVec 8) (stlbPs : Nat) :
    lookupAddressWith va access crmd' dmw m' asid gid stlbPs (plvOf crmd')
      = lookupAddressWith va access crmd dmw m asid gid stlbPs (plvOf crmd) := by
  have hplv : crmd' &&& crmdPlvMask = crmd &&& crmdPlvMask := and_of_view h (by decide)
  have hda : crmd' &&& crmdDa = crmd &&& crmdDa := and_of_view h (by decide)
  have hpg : crmd' &&& crmdPg = crmd &&& crmdPg := and_of_view h (by decide)
  have hdirect : directMapAddressWith crmd' dmw va = directMapAddressWith crmd dmw va := by
    rw [directMapAddressWith, directMapAddressWith, dmwMatchWith, dmwMatchWith, has, has, has, has, hplv, hda, hpg]
  rw [lookupAddressWith, lookupAddressWith, hdirect, has, has, hpg, plvOf, plvOf, hplv, tlbLookup_congr hmtlb hstlb]

namespace SameRegs

variable {c d e : LoongArchCpu}

theorem refl (c : LoongArchCpu) : SameRegs c c := by constructor <;> rfl

theorem trans (h : SameRegs c d) (h' : SameRegs d e) : SameRegs c e := by
  constructor
  · exact h'.mode.trans h.mode
  · exact h'.gid.trans h.gid
  · exact h'.crmd.trans h.crmd
  · exact h'.dmw.trans h.dmw
  · exact h'.asid.trans h.asid
  · exact h'.stlbps.trans h.stlbps
  · exact h'.gcrmd.trans h.gcrmd
  · exact h'.gdmw.trans h.gdmw
  · exact h'.gasid.trans h.gasid
  · exact h'.gstlbps.trans h.gstlbps
  · exact h'.mtlb.trans h.mtlb
  · exact h'.stlb.trans h.stlb
  · exact h'.gmtlb.trans h.gmtlb
  · exact h'.gstlb.trans h.gstlb

theorem of_eq (hcsr : d.csr = c.csr) (hgcsr : d.gcsr = c.gcsr) (hlvz : d.hasLvz = c.hasLvz)
    (hmtlb : d.mmu.mtlb = c.mmu.mtlb) (hstlb : d.mmu.stlb = c.mmu.stlb) (hgmtlb : d.guestMmu.mtlb = c.guestMmu.mtlb)
    (hgstlb : d.guestMmu.stlb = c.guestMmu.stlb) : SameRegs c d := by
  have hgid : d.targetGid = c.targetGid := by
    rw [LoongArchCpu.targetGid, LoongArchCpu.targetGid, LoongArchCpu.willReturnToGuest, LoongArchCpu.willReturnToGuest,
      LoongArchCpu.guestGid, LoongArchCpu.guestGid, LoongArchCpu.inGuestMode, LoongArchCpu.inGuestMode, hcsr, hlvz]
  constructor <;> first | assumption | simp [LoongArchCpu.inGuestMode, hcsr, hgcsr]

theorem translateAddress (h : SameRegs c d) (va : BitVec 64) (access : AccessType) :
    d.translateAddress va access = c.translateAddress va access := by
  have hhost : d.translateHostAddress va access = c.translateHostAddress va access := by
    rw [LoongArchCpu.translateHostAddress, LoongArchCpu.translateHostAddress, h.dmw, h.asid, h.gid, h.stlbps]
    exact lookupAddressWith_congr h.mtlb h.stlb h.crmd ..
  have hfirst : d.translateGuestFirstStage va access = c.translateGuestFirstStage va access := by
    rw [LoongArchCpu.translateGuestFirstStage, LoongArchCpu.translateGuestFirstStage, h.gdmw, h.gasid,
      h.gid, h.gstlbps]
    exact lookupAddressWith_congr h.gmtlb h.gstlb h.gcrmd ..
  have hsecond : ∀ gpa, d.translateGuestHostStage gpa access = c.translateGuestHostStage gpa access := by
    intro gpa
    rw [LoongArchCpu.translateGuestHostStage, LoongArchCpu.translateGuestHostStage, h.asid, h.gid, h.stlbps]
    exact tlbLookup_congr h.mtlb h.stlb ..
  simp [translateAddress_eq, h.mode, hhost, hfirst, hsecond]

theorem sized (h : SameRegs c d) (hc : Sized c) : Sized d where
  mmu := ⟨h.mtlb ▸ hc.mmu.mtlb, h.stlb ▸ hc.mmu.stlb⟩
  guestMmu := ⟨h.gmtlb ▸ hc.guestMmu.mtlb, h.gstlb ▸ hc.guestMmu.stlb⟩
  stlbps := h.stlbps ▸ hc.stlbps
  gstlbps := h.gstlbps ▸ hc.gstlbps

end SameRegs

section

variable (c : LoongArchCpu) (gva : BitVec 64) (access : AccessType) (pa addend : BitVec 64)

theorem sameRegs_fill : SameRegs c (fillFastTlbForTranslation c gva access pa addend) := by
  cases hmode : c.inGuestMode <;>
    apply SameRegs.of_eq <;>
    simp [fillFastTlbForTranslation, setActiveTlbMmu, activeTlbMmu, LoongArchMmu.fillFastTlb, hmode]

theorem fastEntry_fill (va : BitVec 64) : fastEntry (fillFastTlbForTranslation c gva access pa addend) va =
    if fastTlbIndex va = fastTlbIndex gva then (fastEntry c gva).fill gva access pa addend
    else fastEntry c va := by
  simp only [fastEntry, fillFastTlbForTranslation, activeTlbMmu_setActiveTlbMmu, LoongArchMmu.fillFastTlb]
  by_cases h : fastTlbIndex va = fastTlbIndex gva
  · simp [h]
  · simp [h]

theorem page_ramAddend {c : LoongArchCpu} {va gva pa : BitVec 64} (h : page va = page gva) :
    page va + ramAddend c gva pa - c.guestBase = page pa := by
  rw [h]
  simp [ramAddend, page]

/-- A fill with the addend of the page, or one as a device over an entry that has no other tag for the page, keeps
every entry right. -/
theorem fastOk_fill {c : LoongArchCpu} {gva pa addend : BitVec 64} {access : AccessType} {mat : BitVec 8}
    (hc : Sized c)
    (hok : FastOk c) (hhit : c.translateAddress gva access = .hit pa mat) (haddend : addend = ramAddend c gva pa ∨
      (addend = fastTlbMmioAddend ∧ ∀ access', access' ≠ access → (fastEntry c gva).tag access' ≠ page gva)) :
    FastOk (fillFastTlbForTranslation c gva access pa addend) := by
  intro va access' htag
  have hbase : (fillFastTlbForTranslation c gva access pa addend).guestBase = c.guestBase := by
    simp [fillFastTlbForTranslation]
  rw [(sameRegs_fill c gva access pa addend).translateAddress, hbase]
  rw [fastEntry_fill] at htag ⊢
  by_cases hindex : fastTlbIndex va = fastTlbIndex gva
  · rw [if_pos hindex] at htag ⊢
    rw [fill_addend]
    obtain ⟨hpage, hold⟩ := tag_fill htag
    have hentry : fastEntry c va = fastEntry c gva := by rw [fastEntry, hindex, fastEntry]
    obtain ⟨pa', mat', hhit', hpa'⟩ : ∃ pa' mat', c.translateAddress va access = .hit pa' mat' ∧
      page pa' = page pa := by
      have hpages := translateAddress_onPage hc hpage access
      rw [hhit] at hpages
      cases hr : c.translateAddress va access <;>
        simp only [hr, onPage, reduceCtorEq, TlbLookupResult.hit.injEq] at hpages
      exact ⟨_, _, rfl, hpages.1⟩
    by_cases hkind : access' = access
    · obtain rfl | ⟨rfl, -⟩ := haddend
      · exact ⟨pa', mat', hkind ▸ hhit', by rw [page_ramAddend hpage, hpa']⟩
      · -- a device fill leaves no tag of its own kind
        exfalso
        revert htag
        simp only [FastTlbEntry.fill, hkind]
        cases access <;> exact fun h => page_ne_invalidTag va h.symm
    · have htag' := hold hkind
      obtain rfl | ⟨-, hnone⟩ := haddend
      · obtain ⟨pa2, mat2, hhit2, -⟩ := hok va access' (hentry ▸ htag')
        have heq := translateAddress_sameHit c va access access' _ _ _ _ hhit' hhit2
        exact ⟨pa2, mat2, hhit2, by rw [page_ramAddend hpage, ← heq, hpa']⟩
      · exact absurd (hpage ▸ htag') (hnone access' hkind)
  · rw [if_neg hindex] at htag ⊢
    exact hok va access' htag

end

/-! ## Operations that keep the fast TLB right -/

/-- The states agree in what translation reads, and hold the same fast TLBs. -/
structure SameView (c d : LoongArchCpu) : Prop extends SameRegs c d where
  fast : d.mmu.fastTlb = c.mmu.fastTlb
  gfast : d.guestMmu.fastTlb = c.guestMmu.fastTlb
  guestBase : d.guestBase = c.guestBase

namespace SameView

variable {c d e : LoongArchCpu}

theorem refl (c : LoongArchCpu) : SameView c c := ⟨.refl c, rfl, rfl, rfl⟩

theorem trans (h : SameView c d) (h' : SameView d e) : SameView c e :=
  ⟨h.toSameRegs.trans h'.toSameRegs, h'.fast.trans h.fast, h'.gfast.trans h.gfast, h'.guestBase.trans h.guestBase⟩

/-- States that differ at most in fields that neither translation nor the fast TLB reads. -/
theorem of_eq (hcsr : d.csr = c.csr) (hgcsr : d.gcsr = c.gcsr) (hlvz : d.hasLvz = c.hasLvz) (hmmu : d.mmu = c.mmu)
    (hgmmu : d.guestMmu = c.guestMmu) (hbase : d.guestBase = c.guestBase) : SameView c d :=
  ⟨.of_eq hcsr hgcsr hlvz (by rw [hmmu]) (by rw [hmmu]) (by rw [hgmmu]) (by rw [hgmmu]), by rw [hmmu], by rw [hgmmu],
    hbase⟩

end SameView

theorem fastEntry_congr (hmode : d.inGuestMode = c.inGuestMode)
    (hfast : d.mmu.fastTlb = c.mmu.fastTlb) (hgfast : d.guestMmu.fastTlb = c.guestMmu.fastTlb) (va : BitVec 64) :
    fastEntry d va = fastEntry c va := by
  simp only [fastEntry, activeTlbMmu, hmode]
  cases c.inGuestMode
  · exact congrFun hfast _
  · exact congrFun hgfast _

theorem NoTags.congr (h : NoTags c) (hmode : d.inGuestMode = c.inGuestMode)
    (hfast : d.mmu.fastTlb = c.mmu.fastTlb) (hgfast : d.guestMmu.fastTlb = c.guestMmu.fastTlb) : NoTags d := by
  intro va access
  rw [fastEntry_congr hmode hfast hgfast]
  exact h va access

/-- The operation empties the active fast TLB or leaves alone what its entries stand for. -/
structure Keeps (c d : LoongArchCpu) : Prop where
  fast : NoTags d ∨ SameView c d
  sized : Sized c → Sized d

/-- What holds in every state of a run. -/
structure Good (c : LoongArchCpu) : Prop where
  sized : Sized c
  fast : FastOk c

theorem SameView.keeps (h : SameView c d) : Keeps c d := ⟨.inr h, h.toSameRegs.sized⟩

theorem Keeps.refl (c : LoongArchCpu) : Keeps c c := (SameView.refl c).keeps

theorem Keeps.trans {e : LoongArchCpu} (h : Keeps c d) (h' : Keeps d e) : Keeps c e := by
  refine ⟨?_, fun hc => h'.sized (h.sized hc)⟩
  obtain hnone | hview' := h'.fast
  · exact .inl hnone
  obtain hnone | hview := h.fast
  · exact .inl (hnone.congr hview'.mode hview'.fast hview'.gfast)
  · exact .inr (hview.trans hview')

theorem Keeps.ite {a b : LoongArchCpu} {p : Prop} [Decidable p] (ha : p → Keeps c a) (hb : ¬ p → Keeps c b) :
    Keeps c (if p then a else b) := by
  split
  · exact ha ‹_›
  · exact hb ‹_›

theorem Keeps.good (h : Keeps c d) (hc : Good c) : Good d := by
  refine ⟨h.sized hc.sized, ?_⟩
  obtain hnone | hview := h.fast
  · exact hnone.fastOk
  intro va access htag
  rw [fastEntry_congr hview.mode hview.fast hview.gfast] at htag ⊢
  rw [hview.toSameRegs.translateAddress, hview.guestBase]
  exact hc.fast va access htag

theorem noTags_of_empty (h : ∀ va, fastEntry c va = {}) : NoTags c := by
  intro va access htag
  rw [h] at htag
  exact page_ne_invalidTag va (htag.symm.trans (by cases access <;> rfl))

theorem noTags_flushFastTlb (c : LoongArchCpu) : NoTags c.flushFastTlb := by
  refine noTags_of_empty fun va => ?_
  simp only [fastEntry, activeTlbMmu]
  split <;> rfl

theorem noTags_invalidate (c : LoongArchCpu) : NoTags c.invalidateTlbTranslations :=
  (noTags_flushFastTlb c).congr rfl rfl rfl

theorem sized_flushFastTlb (hc : Sized c) : Sized c.flushFastTlb :=
  (SameRegs.of_eq rfl rfl rfl rfl rfl rfl rfl : SameRegs c c.flushFastTlb).sized hc

theorem sized_invalidate (hc : Sized c) : Sized c.invalidateTlbTranslations :=
  (SameRegs.of_eq rfl rfl rfl rfl rfl rfl rfl : SameRegs c c.invalidateTlbTranslations).sized hc

theorem sameView_wake (c : LoongArchCpu) : SameView c c.wakeForInterruptRequest := .of_eq rfl rfl rfl rfl rfl rfl

theorem sameView_wakeIfNew (c : LoongArchCpu) (wasPending : Bool) :
    SameView c (c.wakeIfNewEnabledInterrupt wasPending) := by
  rw [LoongArchCpu.wakeIfNewEnabledInterrupt]
  split
  · exact sameView_wake c
  · exact .refl c

/-! ## Writes of single registers -/

def translationCsrs : List Nat :=
  [csrCrmd, csrGtlbc, csrAsid, csrStlbps, csrGstat, csrDmw0, csrDmw1, csrDmw2, csrDmw3]

/-- The guest registers that translation reads. -/
def translationGcsrs : List Nat := [csrCrmd, csrAsid, csrStlbps, csrDmw0, csrDmw1, csrDmw2, csrDmw3]

theorem update_other (regs : Nat → BitVec 64) {l : List Nat} (h : num ∉ l) (val : BitVec 64) {k : Nat}
    (hk : k ∈ l) : Function.update regs num val k = regs k :=
  Function.update_of_ne (ne_of_mem_of_not_mem hk h) _ _

theorem sameView_setCsr (h : num ∉ translationCsrs) (c : LoongArchCpu) (val : BitVec 64) :
    SameView c (c.setCsr num val) := by
  have hother : ∀ k ∈ translationCsrs, (c.setCsr num val).csr k = c.csr k := fun k hk => update_other c.csr h val hk
  have hgstat := hother csrGstat (by decide)
  have hmode : (c.setCsr num val).inGuestMode = c.inGuestMode := by
    rw [LoongArchCpu.inGuestMode, hgstat, LoongArchCpu.inGuestMode]
  refine ⟨⟨hmode, ?_, ?_, ?_, ?_, ?_, rfl, rfl, rfl, rfl, rfl, rfl, rfl, rfl⟩, rfl, rfl, rfl⟩
  · rw [LoongArchCpu.targetGid, LoongArchCpu.targetGid, LoongArchCpu.willReturnToGuest, LoongArchCpu.willReturnToGuest,
      LoongArchCpu.guestGid, LoongArchCpu.guestGid, hmode, hgstat, hother csrGtlbc (by decide)]
    rfl
  · rw [hother csrCrmd (by decide)]
  · rw [dmwOf, dmwOf, hother csrDmw0 (by decide), hother csrDmw1 (by decide), hother csrDmw2 (by decide),
      hother csrDmw3 (by decide)]
  · rw [hother csrAsid (by decide)]
  · rw [hother csrStlbps (by decide)]

theorem sameView_setGcsr (h : num ∉ translationGcsrs) (c : LoongArchCpu) (val : BitVec 64) :
    SameView c (c.setGcsr num val) := by
  have hother : ∀ k ∈ translationGcsrs, (c.setGcsr num val).gcsr k = c.gcsr k :=
    fun k hk => update_other c.gcsr h val hk
  refine ⟨⟨rfl, rfl, rfl, rfl, rfl, rfl, ?_, ?_, ?_, ?_, rfl, rfl, rfl, rfl⟩, rfl, rfl, rfl⟩
  · rw [hother csrCrmd (by decide)]
  · rw [dmwOf, dmwOf, hother csrDmw0 (by decide), hother csrDmw1 (by decide), hother csrDmw2 (by decide),
      hother csrDmw3 (by decide)]
  · rw [hother csrAsid (by decide)]
  · rw [hother csrStlbps (by decide)]

/-- A register of the running mode that translation reads in neither mode. -/
theorem sameView_setActive (h : num ∉ translationCsrs) (hg : num ∉ translationGcsrs) (c : LoongArchCpu)
    (val : BitVec 64) : SameView c (setActive c num val) := by
  rw [setActive]
  split
  · exact sameView_setGcsr hg c val
  · exact sameView_setCsr h c val

/-- Words with equal bits under a mask. -/
theorem and_eq_of_xor {x y m : BitVec 64} (h : (x ^^^ y) &&& m = 0) : y &&& m = x &&& m := by
  ext i hi
  have hbit := congrArg (fun z : BitVec 64 => z.getLsbD i) h
  simp only [BitVec.getLsbD_and, BitVec.getLsbD_xor, BitVec.ofNat_eq_ofNat, BitVec.getLsbD_zero] at hbit
  simp only [← BitVec.getLsbD_eq_getElem, BitVec.getLsbD_and]
  cases hx : x.getLsbD i <;> cases hy : y.getLsbD i <;> cases hm : m.getLsbD i <;> simp_all

theorem sameView_setCrmdView {val : BitVec 64} (h : view val = view (c.csr csrCrmd)) :
    SameView c (c.setCsr csrCrmd val) :=
  ⟨⟨rfl, rfl, h, rfl, rfl, rfl, rfl, rfl, rfl, rfl, rfl, rfl, rfl, rfl⟩, rfl, rfl, rfl⟩

theorem keeps_setCrmd (c : LoongArchCpu) (val : BitVec 64) : Keeps c (c.setCrmd val) := by
  simp only [LoongArchCpu.setCrmd]
  refine Keeps.trans ?_ (sameView_wakeIfNew _ _).keeps
  split
  · refine ⟨.inl (noTags_flushFastTlb _), fun hc => sized_flushFastTlb ?_⟩
    exact ⟨hc.mmu, hc.guestMmu, hc.stlbps, hc.gstlbps⟩
  · rename_i hsame
    exact (sameView_setCrmdView (and_eq_of_xor (not_not.mp hsame))).keeps

end MachinaLoongFast
