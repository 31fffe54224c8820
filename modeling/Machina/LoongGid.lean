import Machina.LoongCpu

/-!
# Guest identifiers in address translation

Every TLB entry carries the identifier of the guest it was installed for, and 0 for the host. Two TLBs that hold the
same entries of one party translate alike for it. `target_gid` chooses the party, for TLB instructions and for address
translation both, so the host translates through its own entries only while the selector stays at 0.
-/

namespace MachinaLoongGid

open MachinaBits MachinaLoongMmu MachinaLoongCpu

/-- What a party sees of an entry: nothing, unless it is a valid entry of its own. -/
def visible (gid : BitVec 8) (e : TlbEntry) : Option TlbEntry := if e.valid = true ∧ e.gid = gid then some e else none

/-- The two MMUs differ at most in entries of other parties. -/
structure SameFor (gid : BitVec 8) (m m' : LoongArchMmu) : Prop where
  mtlb : ∀ i, i < mtlbSize → visible gid (m.mtlb i) = visible gid (m'.mtlb i)
  stlb : ∀ set way, set < stlbSets → way < stlbWays → visible gid (m.stlb set way) = visible gid (m'.stlb set way)

theorem SameFor.refl (gid : BitVec 8) (m : LoongArchMmu) : SameFor gid m m := ⟨fun _ _ => rfl, fun _ _ _ _ => rfl⟩

section

variable (va : BitVec 64) (asid : BitVec 16) (gid : BitVec 8) (access : AccessType) (plv : BitVec 8)

/-- An entry answers through what the party sees of it. -/
theorem answer_eq_visible (e : TlbEntry) : (if e.valid then checkEntry e va asid gid access plv else none)
      = (visible gid e).bind fun e => checkEntry e va asid gid access plv := by
  cases hvalid : e.valid with
  | false => simp [visible, hvalid]
  | true =>
    by_cases hgid : e.gid = gid
    · simp [visible, hvalid, hgid]
    · simp [visible, hvalid, hgid, checkEntry, TlbEntry.matches]

theorem searchEntries_congr (n : Nat) (f f' : Nat → TlbEntry)
    (h : ∀ i, i < n → visible gid (f i) = visible gid (f' i)) :
    searchEntries ((List.range n).map f) va asid gid access plv
      = searchEntries ((List.range n).map f') va asid gid access plv := by
  simp only [searchEntries, List.findSome?_map, Function.comp_def, answer_eq_visible]
  induction n with
  | zero => rfl
  | succ n ih =>
    rw [List.range_succ, List.findSome?_append, List.findSome?_append, ih fun i hi => h i (by omega)]
    simp [h n (by omega)]

theorem stlbSetIndex_lt {pageSize set : Nat} (h : stlbSetIndex va pageSize = some set) : set < stlbSets := by
  simp only [stlbSetIndex] at h
  split at h
  · exact absurd h (by simp)
  · obtain rfl := Option.some.inj h
    exact Nat.mod_lt _ (by decide)

variable {gid}

theorem SameFor.tlbLookup {m m' : LoongArchMmu} (h : SameFor gid m m') (stlbPs : Nat) :
    m.tlbLookup va asid gid stlbPs access plv = m'.tlbLookup va asid gid stlbPs access plv := by
  have hmtlb : m.searchMtlb va asid gid access plv = m'.searchMtlb va asid gid access plv :=
    searchEntries_congr va asid gid access plv mtlbSize m.mtlb m'.mtlb h.mtlb
  have hstlb : m.searchStlb va asid gid stlbPs access plv = m'.searchStlb va asid gid stlbPs access plv := by
    simp only [LoongArchMmu.searchStlb]
    cases hset : stlbSetIndex va stlbPs with
    | none => rfl
    | some set =>
      have hlt := stlbSetIndex_lt va hset
      simp [LoongArchMmu.stlbEntries, searchEntries_congr va asid gid access plv stlbWays (m.stlb set) (m'.stlb set)
        (h.stlb set · hlt)]
  simp [LoongArchMmu.tlbLookup, hmtlb, hstlb]

theorem SameFor.lookupAddressWith {m m' : LoongArchMmu} (h : SameFor gid m m') (crmd : BitVec 64)
    (dmw : List (BitVec 64)) (stlbPs : Nat) : lookupAddressWith va access crmd dmw m asid gid stlbPs plv
      = MachinaLoongCpu.lookupAddressWith va access crmd dmw m' asid gid stlbPs plv := by
  simp [MachinaLoongCpu.lookupAddressWith, h.tlbLookup]

end

/-! ## The two modes -/

variable (c : LoongArchCpu)

def withMmus (m g : LoongArchMmu) : LoongArchCpu := { c with mmu := m, guestMmu := g }

variable (va : BitVec 64)

/-- The host translates through entries with GID 0 only. -/
def HostIsolated (access : AccessType) : Prop :=
  ∀ m m' g g', SameFor 0 m m' → SameFor 0 g g' →
    (withMmus c m g).translateAddressDetail va access = (withMmus c m' g').translateAddressDetail va access

/-- Both stages of the guest's translation go through entries with its own GID only. -/
def GuestIsolated (access : AccessType) : Prop :=
  ∀ m m' g g', SameFor c.guestGid m m' → SameFor c.guestGid g g' →
    (withMmus c m g).translateGuestFirstStage va access = (withMmus c m' g').translateGuestFirstStage va access ∧
    (∀ gpa, (withMmus c m g).translateGuestHostStage gpa access =
      (withMmus c m' g').translateGuestHostStage gpa access) ∧
    (withMmus c m g).translateAddressDetail va access = (withMmus c m' g').translateAddressDetail va access

def Isolated (access : AccessType) : Prop :=
  if c.inGuestMode then GuestIsolated c va access else HostIsolated c va access

/-- The registers select no guest: GTLBC names none and no return to one is pending, or the named one is 0. -/
def selectsHost : Bool :=
  if has (c.csr csrGtlbc) gtlbcUsetgid then (((c.csr csrGtlbc &&& gtlbcTgid) >>> 16).setWidth 8 : BitVec 8) == 0
  else !(c.hasLvz && has (c.csr csrGstat) gstatPvm) || c.guestGid == 0

/-- The translation reaches the TLB: paging is on and no direct mapping applies. -/
def looksUp : Bool :=
  has (c.csr csrCrmd) crmdPg && (directMapAddressWith (c.csr csrCrmd) (dmwOf c.csr) va).isNone

theorem targetGid_guest {c : LoongArchCpu} (hmode : c.inGuestMode = true) : c.targetGid = c.guestGid := by
  simp [LoongArchCpu.targetGid, hmode]

theorem targetGid_eq_zero_iff {c : LoongArchCpu} (hmode : c.inGuestMode = false) :
    c.targetGid = 0 ↔ selectsHost c = true := by
  simp only [LoongArchCpu.targetGid, selectsHost, LoongArchCpu.willReturnToGuest, hmode]
  cases has (c.csr csrGtlbc) gtlbcUsetgid <;> cases c.hasLvz <;> cases has (c.csr csrGstat) gstatPvm <;> simp

theorem guestIsolated {c : LoongArchCpu} (hmode : c.inGuestMode = true) (va : BitVec 64) (access : AccessType) :
    GuestIsolated c va access := by
  intro m m' g g' hm hg
  have hgid : ∀ m g, (withMmus c m g).targetGid = c.guestGid := fun _ _ => targetGid_guest hmode
  have hmode' : ∀ m g, (withMmus c m g).inGuestMode = true := fun _ _ => hmode
  have hfirst : (withMmus c m g).translateGuestFirstStage va access
      = (withMmus c m' g').translateGuestFirstStage va access := by
    simp only [LoongArchCpu.translateGuestFirstStage, hgid]
    exact hg.lookupAddressWith ..
  have hhost : ∀ gpa, (withMmus c m g).translateGuestHostStage gpa access
      = (withMmus c m' g').translateGuestHostStage gpa access := by
    intro gpa
    simp only [LoongArchCpu.translateGuestHostStage, hgid]
    exact hm.tlbLookup ..
  refine ⟨hfirst, hhost, ?_⟩
  simp [LoongArchCpu.translateAddressDetail, hmode', hfirst, hhost]

/-- In host mode the outcome of a translation is a function of the lookup with the selected GID. -/
theorem translateAddressDetail_host {c : LoongArchCpu} (hmode : c.inGuestMode = false) (va : BitVec 64)
    (access : AccessType) : c.translateAddressDetail va access = match c.translateHostAddress va access with
        | .hit pa mat => .hit pa mat
        | fault => .fault ⟨va, fault, false⟩ := by
  rw [LoongArchCpu.translateAddressDetail, hmode]
  rfl

/-! ## An entry that the selected guest sees and the host does not -/

theorem checkPage_ne_miss (p : TlbPage) (ps : Nat) (va : BitVec 64) (access : AccessType) (plv : BitVec 8) :
    checkPage p ps va access plv ≠ .miss := by
  simp only [checkPage]
  split_ifs <;> simp

theorem searchEntries_ne_miss {entries : List TlbEntry} {va : BitVec 64} {asid : BitVec 16} {gid : BitVec 8}
    {access : AccessType} {plv : BitVec 8} : searchEntries entries va asid gid access plv ≠ some .miss := by
  intro h
  obtain ⟨e, -, he⟩ := List.exists_of_findSome?_eq_some h
  obtain ⟨-, hcheck⟩ := Option.ite_none_right_eq_some.mp he
  obtain ⟨-, hpage⟩ := Option.ite_none_right_eq_some.mp hcheck
  exact checkPage_ne_miss _ _ _ _ _ (Option.some.inj hpage)

/-- A global entry for the page pair of an address. -/
def entryFor (gid : BitVec 8) (va : BitVec 64) : TlbEntry :=
  { vppn := va >>> 13, pageSize := 12, gid := gid, g := true, valid := true }

def mmuWith (e : TlbEntry) : LoongArchMmu := { mtlb := fun i => if i = 0 then e else {} }

theorem entryFor_matches (gid : BitVec 8) (va : BitVec 64) (asid : BitVec 16) :
    (entryFor gid va).matches va asid gid = true := by
  have hpair : ∀ y : BitVec 64, va &&& y <<< 13 = va >>> 13 <<< 13 &&& y <<< 13 := by
    intro y
    ext k hk
    by_cases h : k < 13
    · simp [h]
    · simp [h, show 13 + (k - 13) = k by omega, BitVec.getLsbD_eq_getElem hk]
  have hmask : ~~~((1#64 <<< (12 + 1)) - 1#64) = BitVec.allOnes 64 <<< 13 := by decide
  have hvppn : (va &&& ~~~((1#64 <<< (12 + 1)) - 1#64)) = (va >>> 13 <<< 13) &&& ~~~((1#64 <<< (12 + 1)) - 1#64) := by
    rw [hmask]
    exact hpair _
  simp only [TlbEntry.matches, entryFor, hvppn, Bool.true_or, Bool.and_true, beq_self_eq_true]
  exact decide_eq_true (by omega)

theorem tlbLookup_mmuWith_entryFor (gid : BitVec 8) (va : BitVec 64) (asid : BitVec 16) (stlbPs : Nat)
    (access : AccessType) (plv : BitVec 8) :
    (mmuWith (entryFor gid va)).tlbLookup va asid gid stlbPs access plv ≠ .miss := by
  have hmem : entryFor gid va ∈ (mmuWith (entryFor gid va)).mtlbEntries :=
    List.mem_map.mpr ⟨0, by decide, by simp [mmuWith]⟩
  have hfound : ((mmuWith (entryFor gid va)).searchMtlb va asid gid access plv).isSome = true := by
    refine List.findSome?_isSome_iff.mpr ⟨_, hmem, ?_⟩
    simp [entryFor_matches, checkEntry, show (entryFor gid va).valid = true from rfl]
  obtain ⟨r, hr⟩ := Option.isSome_iff_exists.mp hfound
  rw [LoongArchMmu.tlbLookup, hr]
  rintro rfl
  exact searchEntries_ne_miss hr

theorem tlbLookup_empty (gid : BitVec 8) (va : BitVec 64) (asid : BitVec 16) (stlbPs : Nat) (access : AccessType)
    (plv : BitVec 8) : LoongArchMmu.tlbLookup {} va asid gid stlbPs access plv = .miss := by
  have hnone : ∀ n, searchEntries ((List.range n).map fun _ => {}) va asid gid access plv = none := by
    intro n
    simp [searchEntries]
  have hmtlb : LoongArchMmu.searchMtlb {} va asid gid access plv = none := hnone mtlbSize
  have hstlb : LoongArchMmu.searchStlb {} va asid gid stlbPs access plv = .miss := by
    have hway : ∀ set, searchEntries (LoongArchMmu.stlbEntries {} set) va asid gid access plv = none :=
      fun _ => hnone stlbWays
    simp only [LoongArchMmu.searchStlb]
    cases stlbSetIndex va stlbPs with
    | none => simp
    | some set => simp only [hway, Option.getD_none, ite_self]
  simp only [LoongArchMmu.tlbLookup, hmtlb, hstlb]

/-- The host does not see the entry of a guest. -/
theorem sameFor_zero_mmuWith {gid : BitVec 8} (hgid : gid ≠ 0) (va : BitVec 64) :
    SameFor 0 {} (mmuWith (entryFor gid va)) where
  mtlb i _ := by
    by_cases hi : i = 0
    · simpa [visible, mmuWith, entryFor, hi] using hgid
    · simp [visible, mmuWith, hi]
  stlb _ _ _ _ := rfl

theorem translateHostAddress_withMmus (m g : LoongArchMmu) (va : BitVec 64) (access : AccessType) :
    (withMmus c m g).translateHostAddress va access
      = lookupAddressWith va access (c.csr csrCrmd) (dmwOf c.csr) m (asidOf (c.csr csrAsid)) c.targetGid
          (stlbPsOf (c.csr csrStlbps)) (plvOf (c.csr csrCrmd)) := rfl

theorem hostIsolated_iff {c : LoongArchCpu} (hmode : c.inGuestMode = false) (va : BitVec 64) (access : AccessType) :
    HostIsolated c va access ↔ (looksUp c va = true → selectsHost c = true) := by
  have hmode' : ∀ m g, (withMmus c m g).inGuestMode = false := fun _ _ => hmode
  constructor
  · intro hiso hlook
    rw [← targetGid_eq_zero_iff hmode]
    by_contra hgid
    -- the entry of the selected guest changes a miss into something else
    have heq := hiso {} (mmuWith (entryFor c.targetGid va)) {} {} (sameFor_zero_mmuWith hgid va) (.refl 0 {})
    simp only [looksUp, Bool.and_eq_true, Option.isNone_iff_eq_none] at hlook
    rw [translateAddressDetail_host (hmode' _ _), translateAddressDetail_host (hmode' _ _),
      translateHostAddress_withMmus, translateHostAddress_withMmus] at heq
    simp only [lookupAddressWith, hlook.1, hlook.2, Bool.not_true, Bool.false_eq_true, if_false,
      tlbLookup_empty] at heq
    have hne := tlbLookup_mmuWith_entryFor c.targetGid va (asidOf (c.csr csrAsid)) (stlbPsOf (c.csr csrStlbps)) access
      (plvOf (c.csr csrCrmd))
    revert heq hne
    generalize (mmuWith (entryFor c.targetGid va)).tlbLookup va _ _ _ access _ = r
    cases r <;> simp
  · intro hsel m m' g g' hm _
    rw [translateAddressDetail_host (hmode' _ _), translateAddressDetail_host (hmode' _ _),
      translateHostAddress_withMmus, translateHostAddress_withMmus]
    cases hlook : looksUp c va with
    | true =>
      rw [(targetGid_eq_zero_iff hmode).mpr (hsel hlook), hm.lookupAddressWith]
    | false =>
      simp only [looksUp, Bool.and_eq_false_iff, Option.isNone_eq_false_iff] at hlook
      obtain hpg | hdirect := hlook
      · simp [lookupAddressWith, hpg]
      · obtain ⟨pa, hpa⟩ := Option.isSome_iff_exists.mp hdirect
        simp [lookupAddressWith, hpa]

/-- Translation keeps the parties apart in guest mode, and in host mode exactly when it does not reach the TLB or the
registers select no guest. -/
theorem isolated_iff (c : LoongArchCpu) (va : BitVec 64) (access : AccessType) :
    Isolated c va access ↔ (c.inGuestMode = false → looksUp c va = true → selectsHost c = true) := by
  cases hmode : c.inGuestMode with
  | true => simpa [Isolated, hmode] using guestIsolated hmode va access
  | false => simpa [Isolated, hmode] using hostIsolated_iff hmode va access

/-- The host with paging on, about to return to guest 1. -/
def returningHost : LoongArchCpu :=
  { csr := Function.update (Function.update (fun _ => 0) csrCrmd crmdPg) csrGstat (gstatPvm ||| 1#64 <<< 16) }

/-- An entry of guest 1 that maps page 0 to page 5. -/
def guestEntry : TlbEntry :=
  { pageSize := 12, gid := 1, g := true, valid := true, lo0 := { ppn := 5, v := true, d := true } }

/-- The guest's entry translates an address of the host. -/
theorem guest_entry_translates_host_address : ¬ Isolated returningHost 0 .load := by
  intro h
  have hsame : SameFor 0 {} (mmuWith guestEntry) := by
    refine ⟨fun i _ => ?_, fun _ _ _ _ => rfl⟩
    by_cases hi : i = 0
    · simp [visible, mmuWith, guestEntry, hi]
    · simp [visible, mmuWith, hi]
  have hhost : returningHost.inGuestMode = false := by decide
  rw [Isolated, hhost] at h
  have heq := h {} (mmuWith guestEntry) {} {} hsame (.refl 0 {})
  have hhit : (withMmus returningHost (mmuWith guestEntry) {}).translateAddressDetail 0 .load = .hit 0x5000 0 := by
    decide
  have hhost' : (withMmus returningHost {} {}).inGuestMode = false := hhost
  rw [hhit, translateAddressDetail_host hhost', translateHostAddress_withMmus, lookupAddressWith,
    tlbLookup_empty] at heq
  revert heq
  decide

end MachinaLoongGid
