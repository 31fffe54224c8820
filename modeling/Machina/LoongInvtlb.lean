import Machina.LoongPage

/-!
# TLB invalidation on LoongArch

`invtlb` works on the TLB of the running mode. Lookups compare all bits of an address with those of an entry, while
`invtlb` leaves out what lies above the 48 bits of the virtual address space.
-/

namespace MachinaLoongInvtlb

open MachinaLoongMmu MachinaLoongCpu MachinaLoongTlb MachinaLoongPage

/-- The entry maps the pair of pages of the address, within the 48 bits of virtual addresses. -/
def OnPair (va : BitVec 64) (e : TlbEntry) : Prop :=
  (va &&& targetVirtMask) >>> (e.pageSize + 1) = ((e.vppn <<< 13) &&& targetVirtMask) >>> (e.pageSize + 1)

/-- The entries that an operation selects: from 2 on, those of one guest. -/
def Selects (gid : BitVec 8) (asid : BitVec 16) (va : BitVec 64) (e : TlbEntry) : Fin 7 → Prop
  | 0 | 1 => True
  | 2 => e.gid = gid ∧ e.g = true
  | 3 => e.gid = gid ∧ e.g = false
  | 4 => e.gid = gid ∧ e.g = false ∧ e.asid = asid
  | 5 => e.gid = gid ∧ e.g = false ∧ e.asid = asid ∧ OnPair va e
  | 6 => e.gid = gid ∧ (e.g = true ∨ e.asid = asid) ∧ OnPair va e

/-- The TLB of the mode that is not running. -/
def inactiveTlbMmu (c : LoongArchCpu) : LoongArchMmu := if c.inGuestMode then c.mmu else c.guestMmu

/-- The fast TLBs are empty, and no translation of the running mode finds an entry of the class. A lookup that another
entry decided still gives the same, and so does every lookup of the other mode. -/
structure Invalidated (selected : TlbEntry → Prop) (c c' : LoongArchCpu) : Prop where
  fast : ∀ va access, c'.mmu.fastTlbLookupAddend va access = none ∧ c'.guestMmu.fastTlbLookupAddend va access = none
  gone : ∀ va asid gid stlbPs e, lookupEntry (activeTlbMmu c') va asid gid stlbPs = some e → ¬selected e
  kept : ∀ va asid gid stlbPs e, lookupEntry (activeTlbMmu c) va asid gid stlbPs = some e → ¬selected e →
    ∀ access plv, (activeTlbMmu c').tlbLookup va asid gid stlbPs access plv =
      (activeTlbMmu c).tlbLookup va asid gid stlbPs access plv
  other : ∀ va asid gid stlbPs access plv, (inactiveTlbMmu c').tlbLookup va asid gid stlbPs access plv =
    (inactiveTlbMmu c).tlbLookup va asid gid stlbPs access plv

section

variable {p : TlbEntry → Bool} {m : LoongArchMmu} {va : BitVec 64} {asid : BitVec 16} {gid : BitVec 8} {stlbPs : Nat}
  {e : TlbEntry}

theorem findEntry_clear (entries : List TlbEntry) : findEntry (entries.map (clearIf p)) va asid gid =
    entries.find? fun e => (e.valid && e.matches va asid gid) && !p e := by
  rw [findEntry]
  induction entries with
  | nil => rfl
  | cons x entries ih =>
    rw [List.map_cons, List.find?_cons, List.find?_cons, ih]
    cases hp : p x <;> simp [clearIf, hp]

theorem findEntry_clear_of_none {entries : List TlbEntry} (h : findEntry entries va asid gid = none) :
    findEntry (entries.map (clearIf p)) va asid gid = none := by
  rw [findEntry_clear]
  simp_all [findEntry]

theorem findEntry_clear_of_some {entries : List TlbEntry} (h : findEntry entries va asid gid = some e)
    (hp : p e = false) : findEntry (entries.map (clearIf p)) va asid gid = some e := by
  rw [findEntry_clear]
  rw [findEntry, List.find?_eq_some_iff_append] at h
  obtain ⟨hfound, before, after, rfl, hbefore⟩ := h
  refine List.find?_eq_some_iff_append.mpr ⟨by rw [hfound, hp]; rfl, before, after, rfl, fun x hx => ?_⟩
  have hmiss := hbefore x hx
  simp_all

theorem lookupEntry_clear : lookupEntry (clearTlb p m) va asid gid stlbPs =
    (findEntry (m.mtlbEntries.map (clearIf p)) va asid gid).or
      ((stlbSetIndex va stlbPs).bind fun set => findEntry ((m.stlbEntries set).map (clearIf p)) va asid gid) := by
  simp [lookupEntry, LoongArchMmu.mtlbEntries, LoongArchMmu.stlbEntries, clearTlb, Function.comp_def]

/-- A lookup that an entry decides which is not cleared finds this entry afterwards. -/
theorem lookupEntry_clear_of_some (h : lookupEntry m va asid gid stlbPs = some e) (hp : p e = false) :
    lookupEntry (clearTlb p m) va asid gid stlbPs = some e := by
  rw [lookupEntry_clear]
  rw [lookupEntry, Option.or_eq_some_iff] at h
  obtain h | ⟨hnone, h⟩ := h
  · rw [findEntry_clear_of_some h hp]
    rfl
  · obtain ⟨set, hset, h⟩ := Option.bind_eq_some_iff.mp h
    rw [findEntry_clear_of_none hnone, hset]
    exact findEntry_clear_of_some h hp

/-- What is found afterwards was not cleared. -/
theorem of_lookupEntry_clear (h : lookupEntry (clearTlb p m) va asid gid stlbPs = some e) :
    p e = false ∧ e.valid = true ∧ e.pageSize < 63 := by
  have hfound (entries : List TlbEntry) (h : findEntry (entries.map (clearIf p)) va asid gid = some e) :
      p e = false ∧ e.valid = true ∧ e.pageSize < 63 := by
    rw [findEntry_clear] at h
    have hcond := List.find?_some h
    simp only [TlbEntry.matches, Bool.and_eq_true, Bool.not_eq_true', decide_eq_true_eq, beq_iff_eq] at hcond
    exact ⟨hcond.2, hcond.1.1, hcond.1.2.1.1.1⟩
  rw [lookupEntry_clear, Option.or_eq_some_iff] at h
  obtain h | ⟨-, h⟩ := h
  · exact hfound _ h
  · obtain ⟨set, -, h⟩ := Option.bind_eq_some_iff.mp h
    exact hfound _ h

end

variable (asid : BitVec 16) (va : BitVec 64) (e : TlbEntry)

theorem onPair_iff (hps : e.pageSize < 63) : OnPair va e ↔
    va &&& targetVirtMask &&& ~~~((1#64 <<< (e.pageSize + 1)) - 1#64) =
      (e.vppn <<< 13) &&& targetVirtMask &&& ~~~((1#64 <<< (e.pageSize + 1)) - 1#64) := by
  rw [← MachinaBits.agreeFrom_iff (by omega)]
  refine ⟨fun h i hi => ?_, fun h => h.ushiftRight le_rfl⟩
  have hbit := congrArg (fun x => x.getLsbD (i - (e.pageSize + 1))) h
  simpa only [BitVec.getLsbD_ushiftRight, Nat.add_sub_cancel' hi] using hbit

/-- Of the entries that a lookup can find `invtlb` drops the class. -/
theorem invtlbDrops_iff (op : Fin 7) (gid : BitVec 8) (hvalid : e.valid = true) (hps : e.pageSize < 63) :
    invtlbDrops op gid asid va e = true ↔ Selects gid asid va e op := by
  have hpair := onPair_iff va e hps
  cases hg : e.g <;> fin_cases op <;>
    simp [invtlbDrops, Selects, tlbEntryMatchesVa, ← hpair, hvalid, hps, hg, and_assoc]

theorem invtlb_eq (c : LoongArchCpu) (op : Fin 7) : invtlb c op asid va =
    (setActiveTlbMmu c (clearTlb (invtlbDrops op c.targetGid asid va) (activeTlbMmu c))).invalidateTlbTranslations :=
  if_pos (Nat.le_of_lt_succ op.isLt)

theorem inactiveTlbMmu_setActiveTlbMmu (c : LoongArchCpu) (m : LoongArchMmu) :
    inactiveTlbMmu (setActiveTlbMmu c m).invalidateTlbTranslations = (inactiveTlbMmu c).flushFastTlb := by
  unfold setActiveTlbMmu inactiveTlbMmu
  cases hmode : c.inGuestMode <;> simp only [if_true, if_false, Bool.false_eq_true]
  · exact if_neg (Bool.eq_false_iff.mp hmode)
  · exact if_pos hmode

theorem activeTlbMmu_invalidate (c : LoongArchCpu) :
    activeTlbMmu c.invalidateTlbTranslations = (activeTlbMmu c).flushFastTlb := by
  change (if c.inGuestMode then c.guestMmu.flushFastTlb else c.mmu.flushFastTlb) = _
  rw [activeTlbMmu]
  split <;> rfl

theorem fastTlbLookupAddend_flush (m : LoongArchMmu) (va : BitVec 64) (access : AccessType) :
    m.flushFastTlb.fastTlbLookupAddend va access = none := by
  have hne := page_ne_invalidTag va
  cases access <;> exact if_neg fun h => hne h.1.symm

end MachinaLoongInvtlb
