import Machina.LoongTlb

/-!
# Translation by pages

When no TLB entry maps less than 4 KiB and the STLB is not indexed within a page, the translation of an address
decides that of its whole 4 KiB page, and two kinds of access that both succeed reach the same physical page.
-/

namespace MachinaLoongPage

open MachinaBits MachinaLoongMmu MachinaLoongCpu

variable {va va' : BitVec 64} {m : LoongArchMmu} {stlbPs : Nat} {e : TlbEntry}

/-- The 4 KiB page of an address, as fast-TLB tags hold it. -/
def page (va : BitVec 64) : BitVec 64 := va &&& fastTlbPageMask

theorem fastTlbPageMask_eq : fastTlbPageMask = ~~~((1#64 <<< 12) - 1#64) := by decide

theorem page_eq_iff (x y : BitVec 64) : page x = page y ↔ AgreeFrom 12 x y := by
  rw [page, page, fastTlbPageMask_eq, agreeFrom_iff (by decide)]

theorem page_ne_invalidTag (va : BitVec 64) : page va ≠ fastTlbInvalidTag := by
  intro h
  have hbit := congrArg (fun x => x.getLsbD 0) h
  have hmask : fastTlbPageMask.getLsbD 0 = false := by decide
  have htag : fastTlbInvalidTag.getLsbD 0 = true := by decide
  simp only [page, BitVec.getLsbD_and, hmask, htag, Bool.and_false] at hbit
  exact Bool.false_ne_true hbit

/-! ## The entry that answers -/

/-- What an entry answers for an address it matches. -/
def answer (e : TlbEntry) (va : BitVec 64) (access : AccessType) (plv : BitVec 8) : TlbLookupResult :=
  checkPage (if ((va >>> e.pageSize) &&& 1#64) ≠ 0 then e.lo1 else e.lo0) e.pageSize va access plv

def findEntry (entries : List TlbEntry) (va : BitVec 64) (asid : BitVec 16) (gid : BitVec 8) : Option TlbEntry :=
  entries.find? fun e => e.valid && e.matches va asid gid

/-- The entry that a lookup finds does not depend on the kind of access. -/
def lookupEntry (m : LoongArchMmu) (va : BitVec 64) (asid : BitVec 16) (gid : BitVec 8) (stlbPs : Nat) :
    Option TlbEntry :=
  (findEntry m.mtlbEntries va asid gid).or
    ((stlbSetIndex va stlbPs).bind fun set => findEntry (m.stlbEntries set) va asid gid)

theorem searchEntries_eq (entries : List TlbEntry) (va : BitVec 64) (asid : BitVec 16) (gid : BitVec 8)
    (access : AccessType) (plv : BitVec 8) : searchEntries entries va asid gid access plv
      = (findEntry entries va asid gid).map fun e => answer e va access plv := by
  induction entries with
  | nil => rfl
  | cons e entries ih =>
    simp only [searchEntries, findEntry, List.findSome?_cons, List.find?_cons, checkEntry] at ih ⊢
    cases hvalid : e.valid <;> cases hmatch : e.matches va asid gid <;> simp_all [answer]

theorem tlbLookup_eq (m : LoongArchMmu) (va : BitVec 64) (asid : BitVec 16) (gid : BitVec 8) (stlbPs : Nat)
    (access : AccessType) (plv : BitVec 8) : m.tlbLookup va asid gid stlbPs access plv
      = (lookupEntry m va asid gid stlbPs).elim .miss fun e => answer e va access plv := by
  simp only [LoongArchMmu.tlbLookup, LoongArchMmu.searchMtlb, LoongArchMmu.searchStlb, searchEntries_eq, lookupEntry]
  cases findEntry m.mtlbEntries va asid gid with
  | some e => rfl
  | none =>
    by_cases hps : stlbPs = 0
    · simp [hps, stlbSetIndex]
    cases stlbSetIndex va stlbPs with
    | none => simp
    | some set => cases hf : findEntry (m.stlbEntries set) va asid gid <;> simp [hps, hf]

/-! ## Pages of at least 4 KiB -/

/-- Valid entries map at least 4 KiB. -/
def EntryOk (e : TlbEntry) : Prop := e.valid = true → 12 ≤ e.pageSize

structure MmuOk (m : LoongArchMmu) : Prop where
  mtlb : ∀ i, EntryOk (m.mtlb i)
  stlb : ∀ set way, EntryOk (m.stlb set way)

/-- The STLB is off, or its sets are chosen by bits above the page offset. -/
def StlbOk (stlbPs : Nat) : Prop := stlbPs = 0 ∨ 11 ≤ stlbPs

instance (stlbPs : Nat) : Decidable (StlbOk stlbPs) := inferInstanceAs (Decidable (_ ∨ _))

section

variable {va va' : BitVec 64} (h : AgreeFrom 12 va va')

include h

theorem matches_congr (hps : 12 ≤ e.pageSize) (asid : BitVec 16) (gid : BitVec 8) :
    e.matches va asid gid = e.matches va' asid gid := by
  by_cases hlt : e.pageSize < 63
  · simp [TlbEntry.matches, h.and_clear_low (show 12 ≤ e.pageSize + 1 by omega) (by omega)]
  · simp [TlbEntry.matches, hlt]

theorem findEntry_congr {entries : List TlbEntry} (hok : ∀ e ∈ entries, EntryOk e) (asid : BitVec 16)
    (gid : BitVec 8) :
    findEntry entries va asid gid = findEntry entries va' asid gid := by
  refine List.find?_congr fun e he => ?_
  cases hvalid : e.valid with
  | false => rfl
  | true => simp [matches_congr h (hok e he hvalid)]

theorem stlbSetIndex_congr (hps : StlbOk stlbPs) : stlbSetIndex va stlbPs = stlbSetIndex va' stlbPs := by
  obtain rfl | hps := hps
  · rfl
  · simp [stlbSetIndex, (h.and targetVirtMask).ushiftRight (show 12 ≤ stlbPs + 1 by omega)]

theorem lookupEntry_congr (hm : MmuOk m) (hps : StlbOk stlbPs) (asid : BitVec 16)
    (gid : BitVec 8) : lookupEntry m va asid gid stlbPs = lookupEntry m va' asid gid stlbPs := by
  have hmtlb : ∀ e ∈ m.mtlbEntries, EntryOk e := by
    intro e he
    obtain ⟨i, -, rfl⟩ := List.mem_map.mp he
    exact hm.mtlb i
  have hstlb : ∀ set, ∀ e ∈ m.stlbEntries set, EntryOk e := by
    intro set e he
    obtain ⟨way, -, rfl⟩ := List.mem_map.mp he
    exact hm.stlb set way
  simp [lookupEntry, findEntry_congr h hmtlb, stlbSetIndex_congr h hps, findEntry_congr h (hstlb _)]

end

/-- The entry a lookup finds is a valid one of the MMU. -/
theorem lookupEntry_ok (hm : MmuOk m) {asid : BitVec 16} {gid : BitVec 8}
    (h : lookupEntry m va asid gid stlbPs = some e) : 12 ≤ e.pageSize := by
  have hfound : ∀ entries, findEntry entries va asid gid = some e → e ∈ entries ∧ e.valid = true := by
    intro entries he
    have hp := List.find?_some he
    simp only [Bool.and_eq_true] at hp
    exact ⟨List.mem_of_find?_eq_some he, hp.1⟩
  rw [lookupEntry, Option.or_eq_some_iff] at h
  obtain h | ⟨-, h⟩ := h
  · obtain ⟨hmem, hvalid⟩ := hfound _ h
    obtain ⟨i, -, rfl⟩ := List.mem_map.mp hmem
    exact hm.mtlb i hvalid
  obtain ⟨set, -, h⟩ := Option.bind_eq_some_iff.mp h
  obtain ⟨hmem, hvalid⟩ := hfound _ h
  obtain ⟨way, -, rfl⟩ := List.mem_map.mp hmem
  exact hm.stlb set way hvalid

/-! ## Results up to the page -/

/-- A result with the offset in the page forgotten. -/
def onPage : TlbLookupResult → TlbLookupResult
  | .hit pa mat => .hit (page pa) mat
  | r => r

theorem checkPage_onPage (p : TlbPage) (ps : Nat) (h : AgreeFrom 12 va va') (access : AccessType)
    (plv : BitVec 8) : onPage (checkPage p ps va access plv) = onPage (checkPage p ps va' access plv) := by
  have hpa : ∀ z m : BitVec 64, page (z ||| (va &&& m)) = page (z ||| (va' &&& m)) :=
    fun z m => (page_eq_iff _ _).mpr ((h.and m).or z)
  simp only [checkPage]
  split_ifs <;> simp [onPage, hpa]

theorem answer_onPage (hps : 12 ≤ e.pageSize) (h : AgreeFrom 12 va va')
    (access : AccessType) (plv : BitVec 8) : onPage (answer e va access plv) = onPage (answer e va' access plv) := by
  simp only [answer, h.ushiftRight hps]
  exact checkPage_onPage _ _ h access plv

theorem tlbLookup_onPage (hm : MmuOk m) (hps : StlbOk stlbPs)
    (h : AgreeFrom 12 va va') (asid : BitVec 16) (gid : BitVec 8) (access : AccessType) (plv : BitVec 8) :
    onPage (m.tlbLookup va asid gid stlbPs access plv) = onPage (m.tlbLookup va' asid gid stlbPs access plv) := by
  rw [tlbLookup_eq, tlbLookup_eq, ← lookupEntry_congr h hm hps]
  cases hfound : lookupEntry m va asid gid stlbPs with
  | none => rfl
  | some e => exact answer_onPage (lookupEntry_ok hm hfound) h access plv

theorem directMap_onPage (crmd : BitVec 64) (dmw : List (BitVec 64)) (h : AgreeFrom 12 va va') :
    (directMapAddressWith crmd dmw va).map page = (directMapAddressWith crmd dmw va').map page := by
  have hva : page (va &&& targetVirtMask) = page (va' &&& targetVirtMask) := (page_eq_iff _ _).mpr (h.and _)
  have hseg : va >>> 60 = va' >>> 60 := h.ushiftRight (by decide)
  have hdmw : (dmwMatchWith crmd dmw va).map page = (dmwMatchWith crmd dmw va').map page := by
    simp only [dmwMatchWith, hseg]
    induction dmw with
    | nil => rfl
    | cons window dmw ih =>
      simp only [List.findSome?_cons]
      split_ifs <;> simp_all
  simp only [directMapAddressWith]
  split
  · simp [hva]
  · exact hdmw

theorem lookupAddressWith_onPage (hm : MmuOk m) (hps : StlbOk stlbPs)
    (h : AgreeFrom 12 va va') (crmd : BitVec 64) (dmw : List (BitVec 64)) (asid : BitVec 16)
    (gid : BitVec 8) (access : AccessType) (plv : BitVec 8) :
    onPage (lookupAddressWith va access crmd dmw m asid gid stlbPs plv)
      = onPage (lookupAddressWith va' access crmd dmw m asid gid stlbPs plv) := by
  have hdirect := directMap_onPage crmd dmw h
  simp only [lookupAddressWith]
  cases hd : directMapAddressWith crmd dmw va <;> cases hd' : directMapAddressWith crmd dmw va' <;>
    simp only [hd, hd', Option.map_none, Option.map_some, reduceCtorEq, Option.some.injEq] at hdirect
  · cases has crmd crmdPg with
    | false => rfl
    | true => exact tlbLookup_onPage hm hps h asid gid access plv
  · simp [onPage, hdirect]

/-! ## Results of two kinds of access -/

/-- If both results are hits, they are at one address. -/
def SameHit (r r' : TlbLookupResult) : Prop := ∀ pa mat pa' mat', r = .hit pa mat → r' = .hit pa' mat' → pa = pa'

theorem checkPage_hit {p : TlbPage} {ps : Nat} {access : AccessType} {plv : BitVec 8} {pa : BitVec 64}
    {mat : BitVec 8} (h : checkPage p ps va access plv = .hit pa mat) :
    pa = ((if 12 < ps then p.ppn &&& ~~~((1#64 <<< (ps - 12)) - 1#64) else p.ppn) <<< 12)
      ||| (va &&& ((1#64 <<< ps) - 1#64)) := by
  simp only [checkPage] at h
  split_ifs at h with _ _ _ _ _ hps
  · rw [if_pos hps]
    exact (TlbLookupResult.hit.inj h).1.symm
  · rw [if_neg hps]
    exact (TlbLookupResult.hit.inj h).1.symm

theorem tlbLookup_sameHit (m : LoongArchMmu) (va : BitVec 64) (asid : BitVec 16) (gid : BitVec 8) (stlbPs : Nat)
    (access access' : AccessType) (plv : BitVec 8) :
    SameHit (m.tlbLookup va asid gid stlbPs access plv) (m.tlbLookup va asid gid stlbPs access' plv) := by
  intro pa mat pa' mat' h h'
  rw [tlbLookup_eq] at h h'
  cases hfound : lookupEntry m va asid gid stlbPs with
  | none => simp [hfound] at h
  | some e =>
    simp only [hfound, Option.elim_some, answer] at h h'
    rw [checkPage_hit h, checkPage_hit h']

theorem lookupAddressWith_sameHit (m : LoongArchMmu) (va : BitVec 64) (crmd : BitVec 64) (dmw : List (BitVec 64))
    (asid : BitVec 16) (gid : BitVec 8) (stlbPs : Nat) (access access' : AccessType) (plv : BitVec 8) :
    SameHit (lookupAddressWith va access crmd dmw m asid gid stlbPs plv)
      (lookupAddressWith va access' crmd dmw m asid gid stlbPs plv) := by
  intro pa mat pa' mat' h h'
  simp only [lookupAddressWith] at h h'
  cases hd : directMapAddressWith crmd dmw va with
  | some x => simp_all
  | none =>
    simp only [hd] at h h'
    split_ifs at h h'
    exact tlbLookup_sameHit m va asid gid stlbPs access access' plv _ _ _ _ h h'

/-! ## The whole translation -/

theorem translateAddress_eq (c : LoongArchCpu) (va : BitVec 64) (access : AccessType) : c.translateAddress va access
      = if c.inGuestMode then
          match c.translateGuestFirstStage va access with
          | .hit gpa _ => c.translateGuestHostStage gpa access
          | fault => fault
        else c.translateHostAddress va access := by
  simp only [LoongArchCpu.translateAddress, LoongArchCpu.translateAddressDetail]
  cases c.inGuestMode with
  | false => cases c.translateHostAddress va access <;> simp
  | true =>
    cases hr : c.translateGuestFirstStage va access with
    | hit gpa mat => cases hr' : c.translateGuestHostStage gpa access <;> simp [hr']
    | _ => simp

/-- Both TLBs and both STLB page sizes keep translation uniform on 4 KiB pages. -/
structure Sized (c : LoongArchCpu) : Prop where
  mmu : MmuOk c.mmu
  guestMmu : MmuOk c.guestMmu
  stlbps : StlbOk (stlbPsOf (c.csr csrStlbps))
  gstlbps : StlbOk (stlbPsOf (c.gcsr csrStlbps))

theorem translateAddress_onPage {c : LoongArchCpu} (hc : Sized c) (h : page va = page va')
    (access : AccessType) : onPage (c.translateAddress va access) = onPage (c.translateAddress va' access) := by
  have hagree := (page_eq_iff va va').mp h
  rw [translateAddress_eq, translateAddress_eq]
  cases c.inGuestMode with
  | false =>
    exact lookupAddressWith_onPage hc.mmu hc.stlbps hagree ..
  | true =>
    have hfirst : onPage (c.translateGuestFirstStage va access) = onPage (c.translateGuestFirstStage va' access) :=
      lookupAddressWith_onPage hc.guestMmu hc.gstlbps hagree ..
    simp only [if_true]
    cases hr : c.translateGuestFirstStage va access <;> cases hr' : c.translateGuestFirstStage va' access <;>
      simp only [hr, hr', onPage, reduceCtorEq, TlbLookupResult.hit.injEq] at hfirst ⊢
    exact tlbLookup_onPage hc.mmu hc.stlbps ((page_eq_iff _ _).mp hfirst.1) ..

theorem translateAddress_sameHit (c : LoongArchCpu) (va : BitVec 64) (access access' : AccessType) :
    SameHit (c.translateAddress va access) (c.translateAddress va access') := by
  intro pa mat pa' mat' h h'
  rw [translateAddress_eq] at h h'
  cases hmode : c.inGuestMode with
  | false =>
    rw [hmode] at h h'
    exact lookupAddressWith_sameHit _ _ _ _ _ _ _ access access' _ _ _ _ _ h h'
  | true =>
    rw [hmode] at h h'
    simp only [if_true] at h h'
    cases hr : c.translateGuestFirstStage va access <;> cases hr' : c.translateGuestFirstStage va access' <;>
      simp only [hr, hr', reduceCtorEq] at h h'
    rename_i gpa _ gpa' _
    obtain rfl : gpa = gpa' := lookupAddressWith_sameHit _ _ _ _ _ _ _ access access' _ _ _ _ _ hr hr'
    exact tlbLookup_sameHit _ _ _ _ _ access access' _ _ _ _ _ h h'

end MachinaLoongPage
