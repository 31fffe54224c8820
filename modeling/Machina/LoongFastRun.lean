import Machina.LoongFast

/-!
# Runs of the LoongArch CPU and its fast TLB

Every operation of the CPU, as a step, and the condition under which each keeps the fast TLB right. Without it a tag
can outlive the translation it was made from: an exception taken by a guest changes the guest's CRMD, a TLB read in
guest mode its ASID, and a write to GSTAT the selected guest, all three without a flush; pages below 4 KiB are cached
as whole pages; and a device access to a page overwrites the addend that the tags of other kinds still use.
-/

namespace MachinaLoongFastRun

open MachinaBits MachinaRuns MachinaLoongMmu MachinaLoongCpu MachinaLoongCsr MachinaLoongTlb MachinaLoongPage
  MachinaLoongFast

variable {access : AccessType} {ecode mask va val : BitVec 64} {c : LoongArchCpu} {m : LoongArchMmu} {idx num : Nat}
    {e : TlbEntry}

/-! ## Control registers -/

theorem keeps_setCsr_invalidate
    (h : num = csrStlbps → StlbOk (stlbPsOf val)) : Keeps c (c.setCsr num val).invalidateTlbTranslations := by
  refine ⟨.inl (noTags_invalidate _), fun hc => sized_invalidate ⟨hc.mmu, hc.guestMmu, ?_, hc.gstlbps⟩⟩
  by_cases hnum : num = csrStlbps
  · subst hnum
    rw [setCsr_self]
    exact h rfl
  · rw [setCsr_other _ _ (Ne.symm hnum)]
    exact hc.stlbps

theorem keeps_setGcsr_invalidate
    (h : num = csrStlbps → StlbOk (stlbPsOf val)) : Keeps c (c.setGcsr num val).invalidateTlbTranslations := by
  refine ⟨.inl (noTags_invalidate _), fun hc => sized_invalidate ⟨hc.mmu, hc.guestMmu, hc.stlbps, ?_⟩⟩
  by_cases hnum : num = csrStlbps
  · subst hnum
    rw [setGcsr_self]
    exact h rfl
  · rw [setGcsr_other _ _ (Ne.symm hnum)]
    exact hc.gstlbps

theorem asidOf_congr {x y : BitVec 64} (h : (x ^^^ y) &&& asidWriteMask = 0) : asidOf y = asidOf x := by
  rw [asidOf, asidOf]
  exact congrArg _ (and_eq_of_xor h)

theorem sameView_setAsid (h : asidOf val = asidOf (c.csr csrAsid)) : SameView c (c.setCsr csrAsid val) :=
  ⟨⟨rfl, rfl, rfl, rfl, h, rfl, rfl, rfl, rfl, rfl, rfl, rfl, rfl, rfl⟩, rfl, rfl, rfl⟩

theorem keeps_setAsidLow (c : LoongArchCpu) (val : BitVec 64) : Keeps c (setAsidLow c val) := by
  simp only [setAsidLow]
  split
  · exact keeps_setCsr_invalidate fun hnum => absurd hnum (by decide)
  · rename_i hsame
    exact (sameView_setAsid (asidOf_congr (not_not.mp hsame))).keeps

theorem keeps_writeInvalidating
    (h : num = csrStlbps → StlbOk (stlbPsOf val)) : Keeps c (writeInvalidating c num val) := by
  simp only [writeInvalidating]
  split
  · exact keeps_setCsr_invalidate h
  rename_i hsame
  rw [← not_not.mp hsame, LoongArchCpu.setCsr, Function.update_eq_self]
  exact .refl c

/-- A write to GSTAT in host mode leaves the selected guest alone: GTLBC selects, there is no virtualization, the
pending return stays as it is, or it is to guest 0. -/
def GstatOk (c : LoongArchCpu) (val : BitVec 64) : Prop :=
  NoTags c ∨ has (c.csr csrGtlbc) gtlbcUsetgid = true ∨ c.hasLvz = false ∨
    has val gstatPvm = has (c.csr csrGstat) gstatPvm ∨ c.guestGid = 0

/-- GSTAT after a write: VM stays, PVM and GID come from the value. -/
def gstatAfter (old val : BitVec 64) : BitVec 64 := (old &&& gstatVm) ||| (val &&& gstatWriteMask)

theorem has_gstatAfter_vm (old val : BitVec 64) : has (gstatAfter old val) gstatVm = has old gstatVm := by
  rw [gstatVm, has_bit _ (by decide), has_bit _ (by decide), gstatAfter, BitVec.getLsbD_or, BitVec.getLsbD_and,
    BitVec.getLsbD_and, show gstatVm.getLsbD 0 = true by decide, show gstatWriteMask.getLsbD 0 = false by decide,
    Bool.and_true, Bool.and_false, Bool.or_false]

theorem has_gstatAfter_pvm (old val : BitVec 64) : has (gstatAfter old val) gstatPvm = has val gstatPvm := by
  rw [gstatPvm, has_bit _ (by decide), has_bit _ (by decide), gstatAfter, BitVec.getLsbD_or, BitVec.getLsbD_and,
    BitVec.getLsbD_and, show gstatVm.getLsbD 1 = false by decide, show gstatWriteMask.getLsbD 1 = true by decide,
    Bool.and_true, Bool.and_false, Bool.false_or]

theorem inGuestMode_setGstat (c : LoongArchCpu) (val : BitVec 64) :
    (c.setCsr csrGstat (gstatAfter (c.csr csrGstat) val)).inGuestMode = c.inGuestMode := by
  rw [LoongArchCpu.inGuestMode, setCsr_self, has_gstatAfter_vm, LoongArchCpu.inGuestMode]

theorem keeps_setGstat (hmode : c.inGuestMode = false) (h : GstatOk c val)
    (hgid : c.csr csrGstat &&& gstatGid = gstatAfter (c.csr csrGstat) val &&& gstatGid) :
    Keeps c (c.setCsr csrGstat (gstatAfter (c.csr csrGstat) val)) := by
  have hsized : Sized c → Sized (c.setCsr csrGstat (gstatAfter (c.csr csrGstat) val)) :=
    fun hc => ⟨hc.mmu, hc.guestMmu, hc.stlbps, hc.gstlbps⟩
  have hmode' := inGuestMode_setGstat c val
  obtain hnone | hrest := h
  · exact ⟨.inl (hnone.congr hmode' rfl rfl), hsized⟩
  refine ⟨.inr ⟨⟨hmode', ?_, rfl, rfl, rfl, rfl, rfl, rfl, rfl, rfl, rfl, rfl, rfl, rfl⟩, rfl, rfl, rfl⟩, hsized⟩
  have hguest : (c.setCsr csrGstat (gstatAfter (c.csr csrGstat) val)).guestGid = c.guestGid := by
    rw [LoongArchCpu.guestGid, setCsr_self, ← hgid, LoongArchCpu.guestGid]
  have hgtlbc : (c.setCsr csrGstat (gstatAfter (c.csr csrGstat) val)).csr csrGtlbc = c.csr csrGtlbc := rfl
  have hpvm : has ((c.setCsr csrGstat (gstatAfter (c.csr csrGstat) val)).csr csrGstat) gstatPvm =
    has val gstatPvm := by
    rw [setCsr_self, has_gstatAfter_pvm]
  have hlvz : (c.setCsr csrGstat (gstatAfter (c.csr csrGstat) val)).hasLvz = c.hasLvz := rfl
  simp only [LoongArchCpu.targetGid, LoongArchCpu.willReturnToGuest, hmode', hmode, hguest, hgtlbc, hpvm, hlvz]
  obtain huse | hlvz' | hsame | hzero := hrest
  · simp [huse]
  · simp [hlvz']
  · simp [hsame]
  · simp [hzero]

/-- The condition on what reaches a host register. -/
structure CsrOk (c : LoongArchCpu) (num : Nat) (val : BitVec 64) : Prop where
  gstat : num = csrGstat → GstatOk c val
  stlbps : num = csrStlbps → StlbOk (stlbPsOf val)

theorem sameView_setInterruptBit (c : LoongArchCpu) (k : Nat) (pending : Bool) :
    SameView c (c.setInterruptBitPending k pending) := by
  simp only [LoongArchCpu.setInterruptBitPending]
  split
  · exact (sameView_setCsr (by decide) c _).trans (sameView_wake _)
  · exact sameView_setCsr (by decide) c _

theorem sameView_setGuestInterruptBit (c : LoongArchCpu) (k : Nat) (pending : Bool) :
    SameView c (c.setGuestInterruptBitPending k pending) := by
  simp only [LoongArchCpu.setGuestInterruptBitPending]
  split
  · exact (sameView_setGcsr (by decide) c _).trans (sameView_wake _)
  · exact sameView_setGcsr (by decide) c _

/-- GTLBC only matters through USETGID and TGID. -/
theorem sameView_setGtlbc (h : c.csr csrGtlbc &&& (gtlbcUsetgid ||| gtlbcTgid) = val &&&
    (gtlbcUsetgid ||| gtlbcTgid)) :
    SameView c (c.setCsr csrGtlbc val) := by
  have hfield : ∀ k : BitVec 64, k &&& (gtlbcUsetgid ||| gtlbcTgid) = k → val &&& k = c.csr csrGtlbc &&& k := by
    intro k hk
    rw [← hk, BitVec.and_comm k, ← BitVec.and_assoc, ← BitVec.and_assoc, h]
  have huse : has val gtlbcUsetgid = has (c.csr csrGtlbc) gtlbcUsetgid := by
    rw [has, has, hfield gtlbcUsetgid (by decide)]
  have hmode : (c.setCsr csrGtlbc val).inGuestMode = c.inGuestMode := rfl
  have hgid : (c.setCsr csrGtlbc val).guestGid = c.guestGid := rfl
  have hreturn : (c.setCsr csrGtlbc val).willReturnToGuest = c.willReturnToGuest := rfl
  have hgtlbc : (c.setCsr csrGtlbc val).csr csrGtlbc = val := setCsr_self ..
  refine ⟨⟨rfl, ?_, rfl, rfl, rfl, rfl, rfl, rfl, rfl, rfl, rfl, rfl, rfl, rfl⟩, rfl, rfl, rfl⟩
  rw [LoongArchCpu.targetGid, LoongArchCpu.targetGid, hmode, hgid, hreturn, hgtlbc, huse, hfield gtlbcTgid (by decide)]

theorem not_mem_translationCsrs (hcrmd : num ≠ csrCrmd) (hgtlbc : num ≠ csrGtlbc) (hasid : num ≠ csrAsid)
    (hwide : ¬ (num = csrStlbps ∨ num = csrDmw0 ∨ num = csrDmw1 ∨ num = csrDmw2 ∨ num = csrDmw3))
    (hgstat : num ≠ csrGstat) : num ∉ translationCsrs := by
  simp only [not_or] at hwide
  simp only [translationCsrs, List.mem_cons, List.not_mem_nil, or_false, not_or]
  exact ⟨hcrmd, hgtlbc, hasid, hwide.1, hgstat, hwide.2⟩

theorem keeps_csrWriteRaw (hmode : c.inGuestMode = false) (h : CsrOk c num val) : Keeps c (csrWriteRaw c num val) := by
  rw [csrWriteRaw]
  refine .ite (fun _ => keeps_setCrmd c val) fun hcrmd => ?_
  refine .ite (fun _ => ((sameView_setCsr (by decide) c val).trans (sameView_wakeIfNew _ _)).keeps) fun _ => ?_
  refine .ite (fun _ => ((sameView_setCsr (by decide) c _).trans (sameView_wakeIfNew _ _)).keeps) fun _ => ?_
  refine .ite (fun _ => ?_) fun hgtlbc => ?_
  · exact .ite (fun _ => keeps_setCsr_invalidate fun hnum => absurd hnum (by decide))
      fun hsame => (sameView_setGtlbc (not_not.mp hsame)).keeps
  refine .ite (fun _ => keeps_setAsidLow c val) fun hasid => ?_
  refine .ite (fun _ => keeps_writeInvalidating h.stlbps) fun hwide => ?_
  refine .ite (fun _ => ?_) fun _ => ?_
  · exact .ite (fun _ => ((sameView_setCsr (by decide) c _).trans (sameView_setCsr (by decide) _ _)).keeps)
      fun _ => (sameView_setCsr (by decide) c _).keeps
  refine .ite (fun _ => .ite (fun _ => (sameView_setInterruptBit c 11 false).keeps) fun _ => .refl c) fun _ => ?_
  refine .ite (fun hgstat => ?_) fun hgstat => ?_
  · exact .ite (fun _ => keeps_setCsr_invalidate fun hnum => absurd hnum (by decide))
      fun hsame => keeps_setGstat hmode (h.gstat hgstat) (not_not.mp hsame)
  refine .ite (fun _ => ((sameView_setCsr (by decide) c _).trans (sameView_setGcsr (by decide) _ _)).keeps) fun _ => ?_
  refine .ite (fun _ => .ite (fun _ => (sameView_setCsr (by decide) c _).keeps) fun _ => .refl c) fun _ => ?_
  refine .ite (fun _ => ?_) fun _ => .refl c
  · exact (sameView_setCsr (not_mem_translationCsrs hcrmd hgtlbc hasid hwide hgstat) c val).keeps

/-- Writing the guest's CRMD with the same PLV, DA and PG. -/
theorem sameView_setGcrmdView (h : view val = view (c.gcsr csrCrmd)) : SameView c (c.setGcsr csrCrmd val) :=
  ⟨⟨rfl, rfl, rfl, rfl, rfl, rfl, h, rfl, rfl, rfl, rfl, rfl, rfl, rfl⟩, rfl, rfl, rfl⟩

theorem sameView_setGasid (h : asidOf val = asidOf (c.gcsr csrAsid)) : SameView c (c.setGcsr csrAsid val) :=
  ⟨⟨rfl, rfl, rfl, rfl, rfl, rfl, rfl, rfl, h, rfl, rfl, rfl, rfl, rfl⟩, rfl, rfl, rfl⟩

theorem keeps_gcsrWriteRaw (h : num = csrStlbps → StlbOk (stlbPsOf val)) : Keeps c (gcsrWriteRaw c num val) := by
  rw [gcsrWriteRaw]
  refine .ite (fun _ => .refl c) fun _ => ?_
  refine .ite (fun _ => ?_) fun hcrmd => ?_
  · refine .ite (fun _ => ?_) fun hsame => (sameView_setGcrmdView (and_eq_of_xor (not_not.mp hsame))).keeps
    exact ⟨.inl (noTags_flushFastTlb _), fun hc => sized_flushFastTlb ⟨hc.mmu, hc.guestMmu, hc.stlbps, hc.gstlbps⟩⟩
  refine .ite (fun _ => ?_) fun _ => ?_
  · exact .ite (fun _ => ((sameView_setGcsr (by decide) c val).trans (sameView_wakeIfNew _ _)).keeps)
      fun _ => (sameView_setGcsr (by decide) c val).keeps
  refine .ite (fun _ => ?_) fun _ => ?_
  · exact .ite (fun _ => ((sameView_setGcsr (by decide) c _).trans (sameView_wakeIfNew _ _)).keeps)
      fun _ => (sameView_setGcsr (by decide) c _).keeps
  refine .ite (fun _ => ?_) fun _ => ?_
  · exact .ite (fun _ => ((sameView_setGcsr (by decide) c _).trans (sameView_setGcsr (by decide) _ _)).keeps)
      fun _ => (sameView_setGcsr (by decide) c _).keeps
  refine .ite (fun _ => .ite (fun _ => (sameView_setGuestInterruptBit c 11 false).keeps) fun _ => .refl c) fun _ => ?_
  refine .ite (fun _ => ?_) fun hasid => ?_
  · exact .ite (fun _ => keeps_setGcsr_invalidate fun hnum => absurd hnum (by decide))
      fun hsame => (sameView_setGasid (asidOf_congr (not_not.mp hsame))).keeps
  refine .ite (fun _ => ?_) fun hwide => ?_
  · refine .ite (fun _ => keeps_setGcsr_invalidate h) fun hsame => ?_
    have hself : c.setGcsr num val = c := by
      rw [← not_not.mp hsame, LoongArchCpu.setGcsr, Function.update_eq_self]
    rw [hself]
    exact .refl c
  · refine (sameView_setGcsr ?_ c val).keeps
    simp only [not_or] at hwide
    simp only [translationGcsrs, List.mem_cons, List.not_mem_nil, or_false, not_or]
    exact ⟨hcrmd, hasid, hwide⟩

/-! ## Exceptions -/

/-- An exception that a guest takes itself leaves its translation alone: it runs at PLV 0, and before a TLB refill
already with direct addresses and without paging. -/
def GuestExceptionOk (c : LoongArchCpu) (ecode : BitVec 64) : Prop :=
  NoTags c ∨ (c.gcsr csrCrmd &&& crmdPlvMask = 0 ∧
    (ecode = ecodeTlbr → has (c.gcsr csrCrmd) crmdPg = false ∧ has (c.gcsr csrCrmd) crmdDa = true))

/-- The exception leaves the guest, or the guest can take it. -/
def RaiseOk (c : LoongArchCpu) (ecode : BitVec 64) : Prop :=
  c.inGuestMode = true → exceptionExitsGuest ecode = false → GuestExceptionOk c ecode

/-- The view is a matter of the lowest five bits. -/
theorem view_of_low {x y : BitVec 64} (h : x.setWidth 5 &&& 0x1B#5 = y.setWidth 5 &&& 0x1B#5) : view x = view y := by
  have hlow (z : BitVec 64) : view z = (z.setWidth 5 &&& 0x1B#5).setWidth 64 := and_setWidth z 0x1B#5
  rw [hlow, hlow, h]

theorem view_clear_plv_ie {crmd : BitVec 64} (hplv : crmd &&& crmdPlvMask = 0) :
    view (crmd &&& (~~~crmdPlvMask &&& ~~~crmdIe)) = view crmd := by
  apply view_of_low
  replace hplv := congrArg (BitVec.setWidth 5) hplv
  rw [BitVec.setWidth_and] at hplv ⊢
  generalize crmd.setWidth 5 = x at *
  revert x
  decide

theorem view_enter_refill {crmd : BitVec 64} (hplv : crmd &&& crmdPlvMask = 0) (hpg : has crmd crmdPg = false)
    (hda : has crmd crmdDa = true) :
    view ((crmd &&& ~~~crmdPlvMask &&& ~~~crmdIe &&& ~~~crmdPg) ||| crmdDa) = view crmd := by
  apply view_of_low
  replace hplv := congrArg (BitVec.setWidth 5) hplv
  have hda' : (crmd.setWidth 5).getLsbD 3 = true := by simpa [crmdDa, has_bit] using hda
  have hpg' : (crmd.setWidth 5).getLsbD 4 = false := by simpa [crmdPg, has_bit] using hpg
  simp only [BitVec.setWidth_and, BitVec.setWidth_or] at hplv ⊢
  generalize crmd.setWidth 5 = x at *
  revert x
  decide

theorem sameView_badv (h : num ∉ translationCsrs) (c : LoongArchCpu) (badv : Option (BitVec 64)) :
    SameView c (badv.elim c (c.setCsr num)) := by
  cases badv with
  | none => exact .refl c
  | some va => exact sameView_setCsr h c va

theorem sameView_gbadv (h : num ∉ translationGcsrs) (c : LoongArchCpu) (badv : Option (BitVec 64)) :
    SameView c (badv.elim c (c.setGcsr num)) := by
  cases badv with
  | none => exact .refl c
  | some va => exact sameView_setGcsr h c va

theorem gbadv_crmd (h : num ≠ csrCrmd) (c : LoongArchCpu) (badv : Option (BitVec 64)) :
    (badv.elim c (c.setGcsr num)).gcsr csrCrmd = c.gcsr csrCrmd := by
  cases badv with
  | none => rfl
  | some va => exact setGcsr_other c va (Ne.symm h)

/-- A guest register that is written without a flush is harmless over an empty fast TLB. -/
theorem keeps_setGcsr_of_noTags (h : NoTags c) (hnum : num ≠ csrStlbps) (val : BitVec 64) :
    Keeps c (c.setGcsr num val) :=
  ⟨.inl (h.congr rfl rfl rfl), fun hc =>
    ⟨hc.mmu, hc.guestMmu, hc.stlbps, (setGcsr_other c val (Ne.symm hnum)).symm ▸ hc.gstlbps⟩⟩

/-- The guest's CRMD is replaced by one with the same view, or over an empty fast TLB. -/
theorem keeps_setGcrmd (h : NoTags c ∨ view val = view (c.gcsr csrCrmd)) : Keeps c (c.setGcsr csrCrmd val) := by
  obtain hnone | hview := h
  · exact keeps_setGcsr_of_noTags hnone (by decide) val
  · exact (sameView_setGcrmdView hview).keeps

theorem keeps_setGcrmd_after {c' : LoongArchCpu} (hview : SameView c c') (hcrmd : c'.gcsr csrCrmd = c.gcsr csrCrmd)
    (h : NoTags c ∨ view val = view (c.gcsr csrCrmd)) : Keeps c (c'.setGcsr csrCrmd val) :=
  hview.keeps.trans (keeps_setGcrmd (h.imp (·.congr hview.mode hview.fast hview.gfast) fun hv => hcrmd ▸ hv))

theorem keeps_enterGuestException (h : GuestExceptionOk c ecode)
    (esubcode : BitVec 64) (badv : Option (BitVec 64)) (pc : BitVec 64) :
    Keeps c (c.enterGuestException ecode esubcode badv pc).2 := by
  rw [LoongArchCpu.enterGuestException]
  split
  · rename_i htlbr
    set c1 := c.setGcsr csrTlbrera ((pc &&& ~~~0x3#64) ||| 1#64)
    set c2 := c1.setGcsr csrTlbrprmd (c1.gcsr csrCrmd &&& 0x7#64)
    set c3 := badv.elim c2 (c2.setGcsr csrTlbrbadv)
    have hview : SameView c c3 :=
      ((sameView_setGcsr (by decide) c _).trans (sameView_setGcsr (by decide) c1 _)).trans
      (sameView_gbadv (by decide) c2 badv)
    have hcrmd : c3.gcsr csrCrmd = c.gcsr csrCrmd := gbadv_crmd (by decide) c2 badv
    refine keeps_setGcrmd_after hview hcrmd (h.imp_right fun ⟨hplv, hrefill⟩ => ?_)
    rw [hcrmd]
    exact view_enter_refill hplv (hrefill htlbr).1 (hrefill htlbr).2
  · set c1 := c.setGcsr csrEra pc
    set c2 := c1.setGcsr csrPrmd (c1.gcsr csrCrmd &&& 0x7#64)
    set c3 := badv.elim c2 (c2.setGcsr csrBadv)
    have hview : SameView c c3 :=
      ((sameView_setGcsr (by decide) c _).trans (sameView_setGcsr (by decide) c1 _)).trans
      (sameView_gbadv (by decide) c2 badv)
    have hcrmd : c3.gcsr csrCrmd = c.gcsr csrCrmd := gbadv_crmd (by decide) c2 badv
    refine (keeps_setGcrmd_after hview hcrmd (h.imp_right fun h' => ?_)).trans
      (sameView_setGcsr (by decide) _ _).keeps
    rw [hcrmd]
    exact view_clear_plv_ie h'.1

theorem sized_setGstat (hc : Sized c) : Sized (c.setCsr csrGstat val) :=
  ⟨hc.mmu, hc.guestMmu, hc.stlbps, hc.gstlbps⟩

theorem keeps_enterGuestMode (c : LoongArchCpu) : Keeps c c.enterGuestMode :=
  ⟨.inl (noTags_flushFastTlb _), fun hc => sized_flushFastTlb (sized_setGstat hc)⟩

theorem keeps_leaveGuestMode (c : LoongArchCpu) : Keeps c c.leaveGuestModeForException := by
  rw [LoongArchCpu.leaveGuestModeForException]
  exact .ite (fun _ => ⟨.inl (noTags_flushFastTlb _), fun hc => sized_flushFastTlb (sized_setGstat hc)⟩)
    fun _ => .refl c

theorem keeps_enterException (h : RaiseOk c ecode) (esubcode : BitVec 64)
    (badv : Option (BitVec 64)) : Keeps c (c.enterException ecode esubcode badv).2 := by
  rw [LoongArchCpu.enterException]
  split
  · rename_i hguest
    simp only [Bool.and_eq_true, Bool.not_eq_true'] at hguest
    exact keeps_enterGuestException (h hguest.1 hguest.2) esubcode badv c.pc
  refine (keeps_leaveGuestMode c).trans ?_
  set c0 := c.leaveGuestModeForException
  split
  · set c1 := c0.setCsr csrTlbrera ((c.pc &&& ~~~0x3#64) ||| 1#64)
    set c2 := c1.setCsr csrTlbrprmd (c1.csr csrCrmd &&& 0x7#64)
    have hview : SameView c0 c2 := (sameView_setCsr (by decide) c0 _).trans (sameView_setCsr (by decide) c1 _)
    exact (hview.trans (sameView_badv (by decide) c2 badv)).keeps.trans (keeps_setCrmd _ _)
  · set c1 := c0.setCsr csrEra c.pc
    set c2 := c1.setCsr csrPrmd (c1.csr csrCrmd &&& 0x7#64)
    have hview : SameView c0 c2 := (sameView_setCsr (by decide) c0 _).trans (sameView_setCsr (by decide) c1 _)
    have hbadv : SameView c2 (badv.elim c2 (c2.setCsr csrBadv)) := sameView_badv (by decide) c2 badv
    refine (hview.trans hbadv).keeps.trans ?_
    exact (keeps_setCrmd _ _).trans (sameView_setCsr (show csrEstat ∉ translationCsrs by decide) _ _).keeps

/-! ## TLB instructions -/

theorem keeps_tlbSearchAndUpdate (c : LoongArchCpu) : Keeps c (tlbSearchAndUpdate c) := by
  rw [tlbSearchAndUpdate]
  split <;> exact (sameView_setActive (by decide) (by decide) c _).keeps

/-- The ASID that a TLB read stores: that of the entry shown, or 0. -/
def readAsid (c : LoongArchCpu) (idx : Nat) : BitVec 64 := (readableEntry c idx).elim 0 fun e => e.asid.setWidth 64

/-- A TLB read in guest mode shows an entry with the guest's ASID. -/
def ReadOk (c : LoongArchCpu) (idx : Nat) : Prop :=
  c.inGuestMode = true → NoTags c ∨ readAsid c idx &&& asidWriteMask = c.gcsr csrAsid &&& asidWriteMask

theorem keeps_setActiveAsidLow {asid : BitVec 64}
    (h : c.inGuestMode = true → NoTags c ∨ asid &&& asidWriteMask = c.gcsr csrAsid &&& asidWriteMask) :
    Keeps c (setActiveAsidLow c asid) := by
  rw [setActiveAsidLow]
  refine .ite (fun hmode => ?_) fun _ => keeps_setAsidLow c asid
  obtain hnone | hsame := h hmode
  · exact keeps_setGcsr_of_noTags hnone (by decide) _
  refine (sameView_setGasid ?_).keeps
  have hput : put (c.gcsr csrAsid) asidWriteMask (asid &&& asidWriteMask) &&& asidWriteMask = asid &&& asidWriteMask :=
    put_and_mask _ _ _ (by rw [BitVec.and_assoc, BitVec.and_self])
  rw [asidOf, asidOf]
  exact congrArg _ (hput.trans hsame)

theorem setActive_asid (h : num ≠ csrAsid) (c : LoongArchCpu) (val : BitVec 64) :
    (setActive c num val).gcsr csrAsid = c.gcsr csrAsid := by
  rw [setActive]
  split
  · exact setGcsr_other c val (Ne.symm h)
  · rfl

/-- The four registers that a TLB read fills before the ASID. -/
theorem keeps_read {asid : BitVec 64} (tlbidx tlbehi elo0 elo1 : BitVec 64)
    (h : c.inGuestMode = true → NoTags c ∨ asid &&& asidWriteMask = c.gcsr csrAsid &&& asidWriteMask) :
    Keeps c (setActiveAsidLow (setActive (setActive (setActive (setActive c csrTlbidx tlbidx) csrTlbehi tlbehi)
      csrTlbelo0 elo0) csrTlbelo1 elo1) asid) := by
  set c1 := setActive c csrTlbidx tlbidx
  set c2 := setActive c1 csrTlbehi tlbehi
  set c3 := setActive c2 csrTlbelo0 elo0
  set c4 := setActive c3 csrTlbelo1 elo1
  have hview : SameView c c4 :=
    ((sameView_setActive (by decide) (by decide) c _).trans (sameView_setActive (by decide) (by decide) c1 _)).trans
      ((sameView_setActive (by decide) (by decide) c2 _).trans (sameView_setActive (by decide) (by decide) c3 _))
  have hasid : c4.gcsr csrAsid = c.gcsr csrAsid :=
    (setActive_asid (by decide) c3 _).trans ((setActive_asid (by decide) c2 _).trans
      ((setActive_asid (by decide) c1 _).trans (setActive_asid (by decide) c _)))
  refine hview.keeps.trans (keeps_setActiveAsidLow fun hmode => ?_)
  rw [hasid]
  exact (h (hview.mode ▸ hmode)).imp_left fun hnone => hnone.congr hview.mode hview.fast hview.gfast

theorem keeps_tlbRead (h : ReadOk c idx) : Keeps c (tlbRead c idx) := by
  rw [tlbRead]
  cases hentry : readableEntry c idx with
  | none | some e =>
    refine keeps_read _ _ _ _ fun hmode => ?_
    simpa [readAsid, hentry] using h hmode

/-- Replacing the active TLB by one with pages of at least 4 KiB, and invalidating. -/
theorem keeps_setMmu_invalidate
    (h : MmuOk (activeTlbMmu c) → MmuOk m) : Keeps c (setActiveTlbMmu c m).invalidateTlbTranslations := by
  refine ⟨.inl (noTags_invalidate _), fun hc => sized_invalidate ?_⟩
  cases hmode : c.inGuestMode with
  | false =>
    have hm : MmuOk m := h (by simpa [activeTlbMmu, hmode] using hc.mmu)
    simp only [setActiveTlbMmu, hmode]
    exact ⟨hm, hc.guestMmu, hc.stlbps, hc.gstlbps⟩
  | true =>
    have hm : MmuOk m := h (by simpa [activeTlbMmu, hmode] using hc.guestMmu)
    simp only [setActiveTlbMmu, hmode]
    exact ⟨hc.mmu, hm, hc.stlbps, hc.gstlbps⟩

theorem mmuOk_writeEntry {m' : LoongArchMmu} (h : m.writeEntry idx e = some m')
    (he : EntryOk e) (hm : MmuOk m) : MmuOk m' := by
  obtain ⟨slot, -, hslot⟩ := Option.map_eq_some_iff.mp h
  cases slot with
  | stlb set way =>
    subst hslot
    refine ⟨hm.mtlb, fun set' way' => ?_⟩
    by_cases hset : set' = set
    · subst hset
      by_cases hway : way' = way
      · subst hway
        simpa using he
      · simpa [hway] using hm.stlb set' way'
    · simpa [hset] using hm.stlb set' way'
  | mtlb i =>
    subst hslot
    refine ⟨fun i' => ?_, hm.stlb⟩
    by_cases hi : i' = i
    · subst hi
      simpa using he
    · simpa [hi] using hm.mtlb i'

theorem keeps_writeAndInvalidate (he : EntryOk e) : Keeps c (writeAndInvalidate c idx e) := by
  rw [writeAndInvalidate]
  cases hwrite : (activeTlbMmu c).writeEntry idx e with
  | none => exact .refl c
  | some m => exact keeps_setMmu_invalidate (mmuOk_writeEntry hwrite he)

/-- The page size that a TLB write installs is at least 4 KiB. -/
def SourceOk (c : LoongArchCpu) : Prop := 12 ≤ (tlbEntrySourceCsrs c).2.2.2

theorem SourceOk.entryOk (h : SourceOk c) : EntryOk (sourceEntry c) := fun _ => h

/-- A TLB write installs an invalid entry or a page of at least 4 KiB. -/
def WriteOk (c : LoongArchCpu) : Prop := has (active c csrTlbidx) (bit 31) = true ∨ SourceOk c

theorem keeps_tlbWrite (h : WriteOk c) (idx : Nat) : Keeps c (tlbWrite c idx) := by
  rw [tlbWrite]
  refine .ite (fun _ => keeps_writeAndInvalidate (by simp [EntryOk])) fun hne => ?_
  exact keeps_writeAndInvalidate (h.resolve_left hne).entryOk

theorem keeps_tlbFill (h : SourceOk c) : Keeps c (tlbFill c) := by
  simp only [tlbFill]
  generalize (if (tlbEntrySourceCsrs c).2.2.2 = activeTranslationStlbps c then _ else _ : Option Nat) = idx
  cases idx with
  | none => exact .refl c
  | some idx => exact keeps_writeAndInvalidate h.entryOk

theorem entryOk_clearIf {p : TlbEntry → Bool} (he : EntryOk e) : EntryOk (clearIf p e) := by
  rw [clearIf]
  split
  · simp [EntryOk]
  · exact he

variable (p : TlbEntry → Bool)

theorem mmuOk_clearTlb (hm : MmuOk m) : MmuOk (clearTlb p m) :=
  ⟨fun i => entryOk_clearIf (hm.mtlb i), fun set way => entryOk_clearIf (hm.stlb set way)⟩

theorem mmuOk_clearMtlb (hm : MmuOk m) : MmuOk (clearMtlb p m) :=
  ⟨fun i => entryOk_clearIf (hm.mtlb i), hm.stlb⟩

theorem mmuOk_clearStlbSet (set : Nat) (hm : MmuOk m) : MmuOk (clearStlbSet p set m) := by
  refine ⟨hm.mtlb, fun set' way => ?_⟩
  by_cases hset : set' = set
  · subst hset
    simpa [clearStlbSet] using entryOk_clearIf (hm.stlb set' way)
  · simpa [clearStlbSet, hset] using hm.stlb set' way

theorem keeps_clearAtIndex (c : LoongArchCpu) : Keeps c (clearAtIndex p c) := by
  simp only [clearAtIndex]
  split
  · exact keeps_setMmu_invalidate (mmuOk_clearStlbSet p _)
  split
  · exact keeps_setMmu_invalidate (mmuOk_clearMtlb p)
  · exact ⟨.inl (noTags_invalidate c), sized_invalidate⟩

theorem keeps_invtlb (c : LoongArchCpu) (op : Nat) (asid : BitVec 16) (va : BitVec 64) :
    Keeps c (invtlb c op asid va) := by
  rw [invtlb]
  refine .ite (fun _ => keeps_setMmu_invalidate (mmuOk_clearTlb _)) fun _ => .ite (fun _ => ?_) fun _ => .refl c
  refine ⟨.inl (noTags_invalidate _), fun hc => sized_invalidate ?_⟩
  exact ⟨mmuOk_clearTlb _ hc.mmu, mmuOk_clearTlb _ hc.guestMmu, hc.stlbps, hc.gstlbps⟩

theorem keeps_storePte (c : LoongArchCpu) (odd pte ps : BitVec 64) : Keeps c (storePte c odd pte ps) := by
  simp only [storePte]
  refine Keeps.trans ?_ (sameView_setActive (by decide) (by decide) _ _).keeps
  split <;> exact (sameView_setActive (by decide) (by decide) c _).keeps

theorem keeps_ldpte (c : LoongArchCpu) (ram : BitVec 64 → BitVec 64) (base odd : BitVec 64) :
    Keeps c (ldpte c ram base odd) := by
  rw [ldpte]
  refine .ite (fun _ => keeps_storePte c _ _ _) fun _ => ?_
  exact .ite (fun _ => .refl c) fun _ => keeps_storePte c _ _ _

/-! ## Return from exceptions and faults -/

theorem keeps_gcsrWrite
    (h : num = csrStlbps → StlbOk (stlbPsOf (put (gcsrRead c num) (gcsrWriteMask num) (val &&& gcsrWriteMask num)))) :
    Keeps c (gcsrWrite c num val) := by
  rw [gcsrWrite]
  exact .ite (fun _ => .refl c) fun _ => keeps_gcsrWriteRaw h

theorem sameView_clearLlSc (c : LoongArchCpu) : SameView c (clearLlScReservation c) :=
  (sameView_setCsr (show csrLlbctl ∉ translationCsrs by decide) c 0).trans (.of_eq rfl rfl rfl rfl rfl rfl)

theorem keeps_ertn (c : LoongArchCpu) : Keeps c (helperErtn c).2 := by
  have hgcsr : ∀ (d : LoongArchCpu) (num : Nat) (val : BitVec 64), num ≠ csrStlbps → Keeps d (gcsrWrite d num val) :=
    fun d num val hnum => keeps_gcsrWrite fun he => absurd he hnum
  simp only [helperErtn]
  split
  · split
    · exact ((hgcsr _ _ _ (by decide)).trans (hgcsr _ _ _ (by decide))).trans (sameView_clearLlSc _).keeps
    · exact (hgcsr _ _ _ (by decide)).trans (sameView_clearLlSc _).keeps
  split
  · have htlbrera : ∀ (d : LoongArchCpu) (val : BitVec 64), SameView d (d.setCsr csrTlbrera val) :=
      fun d val => sameView_setCsr (by decide) d val
    exact ((keeps_setCrmd c _).trans (htlbrera _ _).keeps).trans (sameView_clearLlSc _).keeps
  · have hguest : ∀ d : LoongArchCpu, Keeps d (if has (d.csr csrGstat) gstatPvm then d.enterGuestMode else d) :=
      fun d => .ite (fun _ => keeps_enterGuestMode d) fun _ => .refl d
    exact ((keeps_setCrmd c _).trans (hguest _)).trans (sameView_clearLlSc _).keeps

theorem RaiseOk.congr {d : LoongArchCpu} (h : RaiseOk c ecode) (hview : SameView c d)
    (hcrmd : d.gcsr csrCrmd = c.gcsr csrCrmd) : RaiseOk d ecode := by
  intro hmode hstay
  obtain hnone | hrest := h (hview.mode ▸ hmode) hstay
  · exact .inl (hnone.congr hview.mode hview.fast hview.gfast)
  · exact .inr (hcrmd ▸ hrest)

/-- The host stage of a guest's translation faults into the host. -/
theorem raiseOk_gcm (c : LoongArchCpu) : RaiseOk c ecodeGcm := fun _ hstay => absurd hstay (by decide)

theorem sameView_setFaultPage (c : LoongArchCpu) (va : BitVec 64) (fault : TlbLookupResult) :
    SameView c (setFaultPage c va fault) := by
  rw [setFaultPage]
  split <;> exact sameView_setActive (by decide) (by decide) c _

theorem setFaultPage_crmd (c : LoongArchCpu) (va : BitVec 64) (fault : TlbLookupResult) :
    (setFaultPage c va fault).gcsr csrCrmd = c.gcsr csrCrmd := by
  simp only [setFaultPage, setActive]
  split_ifs
  · exact setGcsr_other c _ (by decide)
  · rfl
  · exact setGcsr_other c _ (by decide)
  · rfl

/-- A fault of the guest's own stage is an exception that it can take. -/
def FaultOk (c : LoongArchCpu) (va : BitVec 64) (access : AccessType) : Prop :=
  ∀ f, c.translateAddressDetail va access = .fault f → f.hostStage = false → RaiseOk c (faultEcode f.fault access)

theorem keeps_fault {f : TranslationFault}
    (hfault : c.translateAddressDetail va access = .fault f) (h : FaultOk c va access) (faultPc : BitVec 64) :
    Keeps c (enterAddressTranslationExceptionForStage c f.addr access f.fault faultPc f.hostStage).2 := by
  have hpc : SameView c { c with pc := faultPc } := .of_eq rfl rfl rfl rfl rfl rfl
  simp only [enterAddressTranslationExceptionForStage]
  refine hpc.keeps.trans ?_
  split
  · exact keeps_enterException (raiseOk_gcm _) _ _
  rename_i hstage
  have hview := sameView_setFaultPage { c with pc := faultPc } f.addr f.fault
  refine hview.keeps.trans (keeps_enterException ?_ 0 (some f.addr))
  intro hmode hstay
  have hguest : c.inGuestMode = true := (hpc.trans hview).mode ▸ hmode
  have hhost : f.hostStage = false := by
    cases hs : f.hostStage with
    | false => rfl
    | true => exact absurd ((Bool.and_eq_true _ _).mpr ⟨hs, hguest⟩) hstage
  exact (h f hfault hhost).congr (hpc.trans hview) (setFaultPage_crmd _ f.addr f.fault) hmode hstay

theorem keeps_translateAddressOrException
    (h : FaultOk c va access) (faultPc : BitVec 64) : Keeps c (translateAddressOrException c va access faultPc).2 := by
  rw [translateAddressOrException]
  cases hdetail : c.translateAddressDetail va access with
  | hit pa mat => exact .refl c
  | fault f => exact keeps_fault hdetail h faultPc

/-! ## Accesses -/

/-- The access lies in RAM and in no device region, so that it is cached with the addend of its page. -/
def isRamAccess (c : LoongArchCpu) (mapped : BitVec 64 → Nat → Bool) (pa : BitVec 64) (size : Nat) : Prop :=
  mapped pa size = false ∧ c.ramBase ≤ pa ∧ pa.toNat + size < 2 ^ 64 ∧ pa.toNat + size ≤ c.ramEnd.toNat

/-- No other kind of access has a tag for the page. -/
def OnlyTag (c : LoongArchCpu) (va : BitVec 64) (access : AccessType) : Prop :=
  ∀ access', access' ≠ access → (fastEntry c va).tag access' ≠ page va

/-- An access outside RAM is to a page that no other kind of access has cached. -/
def AccessOk (c : LoongArchCpu) (mapped : BitVec 64 → Nat → Bool) (gva : BitVec 64) (access : AccessType)
    (size : Nat) :
    Prop :=
  FaultOk c gva access ∧
    ∀ pa mat, c.translateAddress gva access = .hit pa mat → isRamAccess c mapped pa size ∨ OnlyTag c gva access

/-- The same, for the translation that looks only at the physical address. -/
def CachedOk (c : LoongArchCpu) (va : BitVec 64) (access : AccessType) : Prop :=
  ∀ pa mat, c.translateAddress va access = .hit pa mat → (c.ramBase ≤ pa ∧ pa < c.ramEnd) ∨ OnlyTag c va access

theorem translateAddress_of_detail {pa : BitVec 64} {mat : BitVec 8}
    (h : c.translateAddressDetail va access = .hit pa mat) : c.translateAddress va access = .hit pa mat := by
  rw [LoongArchCpu.translateAddress, h]

theorem good_fill {gva pa addend : BitVec 64} {mat : BitVec 8} (hc : Good c)
    (hhit : c.translateAddress gva access = .hit pa mat)
    (haddend : addend = ramAddend c gva pa ∨ (addend = fastTlbMmioAddend ∧ OnlyTag c gva access)) :
    Good (fillFastTlbForTranslation c gva access pa addend) :=
  ⟨(sameRegs_fill c gva access pa addend).sized hc.sized, fastOk_fill hc.sized hc.fast hhit haddend⟩

theorem good_translateForHelper {mapped : BitVec 64 → Nat → Bool} {gva : BitVec 64}
    {size : Nat} (h : AccessOk c mapped gva access size) (hc : Good c) :
    Good (translateForHelper c mapped gva access size).2 := by
  simp only [translateForHelper, translateAddressOrException]
  cases hdetail : c.translateAddressDetail gva access with
  | fault f =>
    have hpc : ∀ (d : LoongArchCpu) (vector pc : BitVec 64),
        SameView d { d with pc := vector, memFaultCause := 1, faultPc := pc } :=
      fun _ _ _ => .of_eq rfl rfl rfl rfl rfl rfl
    exact ((keeps_fault hdetail h.1 c.faultPc).trans (hpc _ _ _).keeps).good hc
  | hit pa mat =>
    have hhit := translateAddress_of_detail hdetail
    refine good_fill hc hhit ?_
    simp only [helperFastTlbAddend]
    cases hmapped : mapped pa size with
    | true =>
      refine .inr ⟨by simp, (h.2 pa mat hhit).resolve_left fun hram => ?_⟩
      simp [hram.1] at hmapped
    | false =>
      by_cases hram : c.ramBase ≤ pa ∧ pa.toNat + size < 2 ^ 64 ∧ pa.toNat + size ≤ c.ramEnd.toNat
      · exact .inl (if_pos hram)
      · exact .inr ⟨if_neg hram, (h.2 pa mat hhit).resolve_left fun hram' => hram hram'.2⟩

theorem good_translateAddressAndCache
    (h : CachedOk c va access) (hc : Good c) : Good (translateAddressAndCache c va access).2 := by
  rw [translateAddressAndCache]
  cases hdetail : c.translateAddressDetail va access with
  | fault f => exact hc
  | hit pa mat =>
    have hhit := translateAddress_of_detail hdetail
    refine good_fill hc hhit ?_
    rw [fastTlbAddend]
    by_cases hram : c.ramBase ≤ pa ∧ pa < c.ramEnd
    · exact .inl (if_pos hram)
    · exact .inr ⟨if_neg hram, (h pa mat hhit).resolve_left hram⟩

/-! ## Runs -/

/-- What can happen to the CPU. -/
inductive Event where
  | csrwr (num : Nat) (val : BitVec 64)
  | csrxchg (num : Nat) (val mask : BitVec 64)
  | gcsrwr (num : Nat) (val : BitVec 64)
  | gcsrxchg (num : Nat) (val mask : BitVec 64)
  | raise (ecode esubcode : BitVec 64) (badv : Option (BitVec 64))
  | ertn
  | enterGuest
  | leaveGuest
  | tlbsrch
  | tlbrd
  | tlbwr
  | tlbfill
  | tlbclr
  | tlbflush
  | invtlb (op : Nat) (asid : BitVec 16) (va : BitVec 64)
  | ldpte (ram : BitVec 64 → BitVec 64) (base odd : BitVec 64)
  | access (mapped : BitVec 64 → Nat → Bool) (gva : BitVec 64) (kind : AccessType) (size : Nat)
  | cached (va : BitVec 64) (kind : AccessType)
  | translate (va : BitVec 64) (kind : AccessType) (faultPc : BitVec 64)

/-- Continue at the address that an operation returned. -/
def jumpTo (r : BitVec 64 × LoongArchCpu) : LoongArchCpu := { r.2 with pc := r.1 }

def step (c : LoongArchCpu) : Event → LoongArchCpu
  | .csrwr num val => (helperCsrwr c num val).2
  | .csrxchg num val mask => (helperCsrxchg c num val mask).2
  | .gcsrwr num val => (helperGcsrwr c num val).2
  | .gcsrxchg num val mask => (gcsrXchg c num val mask).2
  | .raise ecode esubcode badv => jumpTo (c.enterException ecode esubcode badv)
  | .ertn => jumpTo (helperErtn c)
  | .enterGuest => c.enterGuestMode
  | .leaveGuest => c.leaveGuestModeForException
  | .tlbsrch => tlbSearchAndUpdate c
  | .tlbrd => helperTlbrd c
  | .tlbwr => helperTlbwr c
  | .tlbfill => tlbFill c
  | .tlbclr => tlbClearByIndex c
  | .tlbflush => tlbFlushByIndex c
  | .invtlb op asid va => (helperInvtlb c op asid va).2
  | .ldpte ram base odd => ldpte c ram base odd
  | .access mapped gva kind size => (translateForHelper c mapped gva kind size).2
  | .cached va kind => (translateAddressAndCache c va kind).2
  | .translate va kind faultPc => (translateAddressOrException c va kind faultPc).2

def written (old mask val : BitVec 64) : BitVec 64 := put old mask (val &&& mask)

/-- A write to the guest's STLBPS keeps the STLB indexed by pages. -/
def GcsrOk (num : Nat) (val : BitVec 64) : Prop := num = csrStlbps → StlbOk (stlbPsOf val)

/-- A CSR instruction, on the registers of the running mode, with the writable bits narrowed by `mask`. -/
def CsrInsnOk (c : LoongArchCpu) (num : Nat) (val mask : BitVec 64) : Prop :=
  if c.inGuestMode then GcsrOk num (written (gcsrRead c num) (gcsrWriteMask num &&& mask) val)
  else CsrOk c num (written (csrRead c num) (csrWriteMask num &&& mask) val)

def Ok (c : LoongArchCpu) : Event → Prop
  | .csrwr num val => CsrInsnOk c num val (BitVec.allOnes 64)
  | .csrxchg num val mask => CsrInsnOk c num val mask
  | .gcsrwr num val => GcsrOk num (written (gcsrRead c num) (gcsrWriteMask num) val)
  | .gcsrxchg num val mask => GcsrOk num (written (gcsrRead c num) (gcsrWriteMask num &&& mask) val)
  | .raise ecode _ _ => RaiseOk c ecode
  | .tlbrd => ReadOk c (c.csr csrTlbidx &&& 0xFFF#64).toNat
  | .tlbwr => WriteOk c
  | .tlbfill => SourceOk c
  | .invtlb op _ _ => 6 < op → (c.hasLvz && isLvzOp op) = false → RaiseOk c ecodeIne
  | .access mapped gva kind size => AccessOk c mapped gva kind size
  | .cached va kind => CachedOk c va kind
  | .translate va kind _ => FaultOk c va kind
  | _ => True

theorem keeps_gcsrXchg (h : GcsrOk num (written (gcsrRead c num) (gcsrWriteMask num &&& mask) val)) :
    Keeps c (gcsrXchg c num val mask).2 :=
  .ite (fun _ => keeps_gcsrWriteRaw h) fun _ => .refl c

theorem keeps_csrXchg (hmode : c.inGuestMode = false)
    (h : CsrOk c num (written (csrRead c num) (csrWriteMask num &&& mask) val)) : Keeps c (csrXchg c num val mask).2 :=
  .ite (fun _ => keeps_csrWriteRaw hmode h) fun _ => .refl c

theorem keeps_helperCsrxchg (h : CsrInsnOk c num val mask) : Keeps c (helperCsrxchg c num val mask).2 := by
  rw [helperCsrxchg]
  cases hmode : c.inGuestMode with
  | true => exact keeps_gcsrXchg (by simpa [CsrInsnOk, hmode] using h)
  | false => exact keeps_csrXchg hmode (by simpa [CsrInsnOk, hmode] using h)

theorem keeps_helperCsrwr (h : CsrInsnOk c num val (BitVec.allOnes 64)) : Keeps c (helperCsrwr c num val).2 := by
  simp only [CsrInsnOk, BitVec.and_allOnes] at h
  rw [helperCsrwr]
  cases hmode : c.inGuestMode with
  | true => exact keeps_gcsrWrite (by simpa [hmode, GcsrOk, written] using h)
  | false =>
    have hraw : CsrOk c num (written (csrRead c num) (csrWriteMask num) val) := by simpa [hmode] using h
    exact .ite (fun _ => .refl c) fun _ => keeps_csrWriteRaw hmode hraw

theorem keeps_jumpTo {r : BitVec 64 × LoongArchCpu} (h : Keeps c r.2) : Keeps c (jumpTo r) := by
  have hpc : SameView r.2 (jumpTo r) := .of_eq rfl rfl rfl rfl rfl rfl
  exact h.trans hpc.keeps

theorem keeps_helperInvtlb {op : Nat} {asid : BitVec 16}
    (h : 6 < op → (c.hasLvz && isLvzOp op) = false → RaiseOk c ecodeIne) : Keeps c (helperInvtlb c op asid va).2 := by
  rw [helperInvtlb]
  split
  · rename_i hop
    exact keeps_enterException (h hop.1 hop.2) 0 none
  · exact keeps_invtlb c op asid va

theorem good_step {e : Event} (h : Ok c e) (hc : Good c) : Good (step c e) := by
  cases e with
  | csrwr num val => exact (keeps_helperCsrwr h).good hc
  | csrxchg num val mask => exact (keeps_helperCsrxchg h).good hc
  | gcsrwr num val => exact (keeps_gcsrWrite h).good hc
  | gcsrxchg num val mask => exact (keeps_gcsrXchg h).good hc
  | raise ecode esubcode badv => exact (keeps_jumpTo (keeps_enterException h esubcode badv)).good hc
  | ertn => exact (keeps_jumpTo (keeps_ertn c)).good hc
  | enterGuest => exact (keeps_enterGuestMode c).good hc
  | leaveGuest => exact (keeps_leaveGuestMode c).good hc
  | tlbsrch => exact (keeps_tlbSearchAndUpdate c).good hc
  | tlbrd => exact (keeps_tlbRead h).good hc
  | tlbwr => exact (keeps_tlbWrite h _).good hc
  | tlbfill => exact (keeps_tlbFill h).good hc
  | tlbclr | tlbflush => exact (keeps_clearAtIndex _ c).good hc
  | invtlb op asid va => exact (keeps_helperInvtlb h).good hc
  | ldpte ram base odd => exact (keeps_ldpte c ram base odd).good hc
  | access mapped gva kind size => exact good_translateForHelper h hc
  | cached va kind => exact good_translateAddressAndCache h hc
  | translate va kind faultPc => exact (keeps_translateAddressOrException h faultPc).good hc

/-- The CPU after reset, with a memory configuration. -/
def reset (hasLvz : Bool) (guestBase ramBase ramEnd : BitVec 64) : LoongArchCpu :=
  let configured := fun num =>
    if num = csrCrmd then 0x8#64 else if num = csrPrcfg1 then 0x72F8#64 else if num = csrPrcfg2 then 0x40205000#64
    else if num = csrPrcfg3 then 0x008073F2#64 else 0#64
  { csr := configured, gcsr := configured, hasLvz, guestBase, ramBase, ramEnd }

theorem good_reset (hasLvz : Bool) (guestBase ramBase ramEnd : BitVec 64) :
    Good (reset hasLvz guestBase ramBase ramEnd) := by
  refine ⟨⟨⟨fun _ => ?_, fun _ _ => ?_⟩, ⟨fun _ => ?_, fun _ _ => ?_⟩, .inl rfl, .inl rfl⟩, NoTags.fastOk ?_⟩
  iterate 4 exact fun hvalid => absurd hvalid Bool.false_ne_true
  refine noTags_of_empty fun va => ?_
  simp only [fastEntry, activeTlbMmu]
  split <;> rfl

/-- In every state reached from reset by steps that meet the condition, a fast-TLB tag that matches stands for a
translation that hits the page its addend denotes. -/
theorem fast_tlb_agrees_with_translation (hasLvz : Bool) (guestBase ramBase ramEnd : BitVec 64) {es : List Event}
    {c : LoongArchCpu} (hrun : Run (guarded Ok (ofStep step)) (reset hasLvz guestBase ramBase ramEnd) es c) :
    FastOk c := by
  refine (Run.invariant (I := Good) ?_ hrun (good_reset ..)).fast
  rintro s e t ⟨hok, rfl⟩ hs
  exact good_step hok hs

/-- One page of RAM at address 0, and no devices. -/
def onePage : LoongArchCpu := reset true 0x10000 0 0x1000

def noDevice : BitVec 64 → Nat → Bool := fun _ _ => false

theorem fast_tlb_agrees_with_translation_onePage : FastOk (step onePage (.access noDevice 0 .load 8)) := by
  have hhit : onePage.translateAddressDetail 0 .load = .hit 0 0 := by decide
  have hok : Ok onePage (.access noDevice 0 .load 8) := by
    refine ⟨fun f hf => absurd (hhit.symm.trans hf) (by simp), fun pa mat h => .inl ?_⟩
    obtain ⟨rfl, rfl⟩ := TlbLookupResult.hit.inj ((translateAddress_of_detail hhit).symm.trans h)
    exact ⟨rfl, by decide, by decide, by decide⟩
  exact fast_tlb_agrees_with_translation true 0x10000 0 0x1000 (.cons ⟨hok, rfl⟩ (.nil _))

/-- A load caches the page. A store that runs over the end of RAM is then treated as a device access, and replaces the
addend under the load's tag. -/
def afterOverrun : LoongArchCpu :=
  step (step onePage (.access noDevice 0 .load 8)) (.access noDevice 0xFFC .store 8)

theorem device_fill_spoils_load_tag :
    Run (ofStep step) onePage [.access noDevice 0 .load 8, .access noDevice 0xFFC .store 8] afterOverrun ∧
      ¬ FastOk afterOverrun := by
  refine ⟨.cons rfl (.cons rfl (.nil _)), fun h => ?_⟩
  have htag : (fastEntry afterOverrun 0).tag .load = page 0 := by decide
  have hhit : afterOverrun.translateAddress 0 .load = .hit 0 0 := by decide
  obtain ⟨pa, mat, hpa, hpage⟩ := h 0 .load htag
  obtain ⟨rfl, -⟩ := TlbLookupResult.hit.inj (hhit.symm.trans hpa)
  revert hpage
  decide

end MachinaLoongFastRun
