import Machina.Walk
import Machina.Shadow

/-!
# Soundness of the TLB

A matching tag lets an access skip the walk and all checks. The entry is sound when
the same access, translated with an empty TLB, would succeed with the address the
entry yields. A refill is made for one access but sets the tags of all kinds the
page permits, so soundness needs conditions on the refills of a run.
-/

namespace MachinaTlb

open MachinaBits MachinaRiscv MachinaCsr MachinaPmp MachinaMmu MachinaByteMem MachinaCpu MachinaFullSystem
open MachinaMachine MachinaPrivilege MachinaShadow MachinaRuns MachinaWalk

variable {access kind : AccessType} {gva size : BitVec 64} {s : FullSystemCpu} {l : Leaf} {mem mem' : Mem}
    {slow : Option (AccessType × BitVec 64 × BitVec 64)} {priv : PrivLevel} {c c' c₁ : RiscvCpu} {e : TlbEntry}

/-- The privilege an access is checked with: MPRV only concerns data. -/
def accessPriv (c : RiscvCpu) : AccessType → PrivLevel
  | .execute => c.priv
  | _ => effectiveDataPriv c.priv c.csr.mstatus

/-- The MMU with the register's satp and an empty TLB. -/
def freshMmu (c : RiscvCpu) : Mmu := { c.mmu with satp := c.csr.satp, tlb := fun _ => .default }

/-- The PMP unit the registers describe. -/
def freshPmp (c : RiscvCpu) : Pmp := syncFromCsr c.csr.pmpcfg c.csr.pmpaddr

def Bare (c : RiscvCpu) (access : AccessType) : Prop :=
  accessPriv c access = .machine ∨ (freshMmu c).satpMode = satpModeBare

instance (c : RiscvCpu) (access : AccessType) : Decidable (Bare c access) := inferInstanceAs (Decidable (_ ∨ _))

/-- Translate an access from the registers and memory alone. -/
def fresh (c : RiscvCpu) (mem : Mem) (access : AccessType) (gva size : BitVec 64) : Except Exception (BitVec 64) :=
  if Bare c access then (checkAccess (freshPmp c) gva size access (accessPriv c access)).map fun _ => gva
  else
    ((freshMmu c).translateMiss mem gva access (accessPriv c access) c.csr.mstatus size (some (freshPmp c))).2.2

/-- Everything a fresh translation depends on, apart from PMP and the page table. -/
structure Outlook where
  priv : PrivLevel
  mprv : Bool
  mpp : PrivLevel
  mxr : Bool
  sum : Bool
  mmu : Mmu
  ramBase : BitVec 64
  ramEnd : BitVec 64
  guestBase : BitVec 64

def outlook (c : RiscvCpu) : Outlook :=
  ⟨c.priv, has c.csr.mstatus mstatusMprv, mpp c.csr.mstatus, has c.csr.mstatus mstatusMxr,
    has c.csr.mstatus mstatusSum, freshMmu c, c.ramBase, c.ramEnd, c.guestBase⟩

theorem accessPriv_congr (h : outlook c' = outlook c) (access : AccessType) :
    accessPriv c' access = accessPriv c access := by
  have hpriv : c'.priv = c.priv := congrArg Outlook.priv h
  have hmprv : has c'.csr.mstatus mstatusMprv = has c.csr.mstatus mstatusMprv := congrArg Outlook.mprv h
  have hmpp : mpp c'.csr.mstatus = mpp c.csr.mstatus := congrArg Outlook.mpp h
  cases access <;> simp [accessPriv, effectiveDataPriv, hpriv, hmprv, hmpp]

theorem Bare.congr (h : outlook c' = outlook c) (access : AccessType) : Bare c' access ↔ Bare c access := by
  have hmmu : freshMmu c' = freshMmu c := congrArg Outlook.mmu h
  rw [Bare, Bare, accessPriv_congr h, hmmu]

theorem permitsKind_congr {m m' : BitVec 64} (h : has m' mstatusMxr = has m mstatusMxr) (perm : BitVec 8)
    (access : AccessType) : permitsKind perm access m' = permitsKind perm access m := by
  cases access <;> simp [permitsKind, h]

theorem permitsPriv_congr {m m' : BitVec 64} (h : has m' mstatusSum = has m mstatusSum) (perm : BitVec 8)
    (access : AccessType) (priv : PrivLevel) : permitsPriv perm access priv m' = permitsPriv perm access priv m := by
  cases priv <;> simp [permitsPriv, h]

theorem permitsKind_ext {l' : Leaf} (h : LeafExt l l') (access : AccessType) (mstatus : BitVec 64) :
    permitsKind l'.perm access mstatus = permitsKind l.perm access mstatus := by
  have hbit (k : Nat) (hk : k < 6) : has l'.perm (bit k) = has l.perm (bit k) := by
    rw [h.perm, h.perm']
    exact h.pte.has_permOf hk
  cases access <;> simp [permitsKind, pteR, pteX, hbit 1 (by decide), hbit 3 (by decide), pteW, hbit 2 (by decide)]

theorem permitsPriv_ext {l' : Leaf} (h : LeafExt l l') (access : AccessType) (priv : PrivLevel)
    (mstatus : BitVec 64) : permitsPriv l'.perm access priv mstatus = permitsPriv l.perm access priv mstatus := by
  have hbit : has l'.perm pteU = has l.perm pteU := by
    rw [h.perm, h.perm']
    exact h.pte.has_permOf (show 4 < 6 by decide)
  cases priv <;> simp [permitsPriv, hbit]

/-- Adding A and D bits to the page table does not spoil a translation. -/
theorem fresh_ext {pa : BitVec 64}
    (hout : outlook c' = outlook c) (hpmp : freshPmp c' = freshPmp c) (htable : TableExt (freshMmu c) mem mem')
    (h : fresh c mem access gva size = .ok pa) : fresh c' mem' access gva size = .ok pa := by
  have hmmu : freshMmu c' = freshMmu c := congrArg Outlook.mmu hout
  have hpriv := accessPriv_congr hout access
  unfold fresh at h ⊢
  by_cases hbare : Bare c access
  · rw [if_pos hbare] at h
    rw [if_pos ((Bare.congr hout access).mpr hbare), hpmp, hpriv]
    exact h
  rw [if_neg hbare, translateMiss_ok_iff] at h
  rw [if_neg (fun hb => hbare ((Bare.congr hout access).mp hb)), translateMiss_ok_iff, hmmu, hpmp, hpriv]
  obtain ⟨l, hl, rfl⟩ := h
  have hmode : (freshMmu c).satpMode ≠ satpModeBare := fun hm => hbare (Or.inr hm)
  obtain ⟨l', hwalk, hext⟩ : ∃ l', (freshMmu c).walkPageTable mem' gva access (some (freshPmp c))
      (accessPriv c access) = .ok l' ∧ LeafExt l l' :=
    walkPageTable_ext (show SamePage gva gva from rfl) hmode htable hl.walk
  have hphys : l'.phys gva = l.phys gva := by rw [Leaf.phys, Leaf.phys, hext.ppn, hext.pgSize]
  refine ⟨l', ⟨hwalk, ?_, ?_, hl.ad.ext hext, ?_⟩, hphys.symm⟩
  · rw [permitsKind_congr (congrArg Outlook.mxr hout), permitsKind_ext hext]
    exact hl.kind
  · rw [permitsPriv_congr (congrArg Outlook.sum hout), permitsPriv_ext hext]
    exact hl.user
  · rw [hphys]
    exact hl.pmp

/-- Accesses of generated code that stay within a page. -/
def InPage (gva size : BitVec 64) : Prop :=
  (size = 1#64 ∨ size = 2#64 ∨ size = 4#64 ∨ size = 8#64) ∧ (gva &&& ~~~pageMask).toNat + size.toNat ≤ 4096

/-- An entry is sound for the state: what its tags let through passes all checks and is
translated alike, and the host address of a RAM entry is that of the same byte. -/
structure EntrySound (c : RiscvCpu) (mem : Mem) (e : TlbEntry) (gva : BitVec 64) : Prop where
  checks : ∀ access size, InPage gva size → e.tag access = gva &&& pageMask →
    fresh c mem access gva size = .ok (e.phys gva)
  host : ∀ access, e.tag access = gva &&& pageMask → e.addend ≠ tlbMmioAddend →
    hostPhys c gva e.addend = e.phys gva

/-- Every entry is sound for every address it may be used for. -/
def Sound (c : RiscvCpu) (mem : Mem) : Prop := ∀ gva, EntrySound c mem (c.mmu.tlb (tlbIndex gva)) gva

/-- PMP lets all accesses of a kind to the page of `gva` through. -/
def PageGranted (c : RiscvCpu) (kind : AccessType) (gva : BitVec 64) (phys : BitVec 64 → BitVec 64) : Prop :=
  ∀ gva' size, SamePage gva gva' → InPage gva' size →
    checkAccess (freshPmp c) (phys gva') size kind (accessPriv c kind) = .ok ()

def inRam (c : RiscvCpu) (pa : BitVec 64) : Prop := c.ramBase ≤ pa ∧ pa < c.ramEnd

instance (c : RiscvCpu) (pa : BitVec 64) : Decidable (inRam c pa) := inferInstanceAs (Decidable (_ ∧ _))

/-- The condition on the refill of an untranslated page: PMP treats its RAM uniformly. -/
def BareRefillOk (c : RiscvCpu) (gva : BitVec 64) : Prop := inRam c gva → ∀ kind, PageGranted c kind gva id

/-- The condition on the refill of a translated page, which only concerns accesses that the
page permits. A data access to an executable page is not made by machine mode for another
level, and not by supervisor mode to a user page; and PMP grants every kind that gets a tag. -/
def PagedRefillOk (c : RiscvCpu) (mem : Mem) (access : AccessType) (gva : BitVec 64) : Prop :=
  ∀ l, (freshMmu c).walkPageTable mem gva access (some (freshPmp c)) (accessPriv c access) = .ok l →
    checkPerm l.perm access (accessPriv c access) c.csr.mstatus = .ok () →
      (access ≠ .execute → has l.perm pteX = true →
        c.priv ≠ .machine ∧ (c.priv = .supervisor → has l.perm pteU = false)) ∧
      ∀ kind, tagged (touchPte l.pte access) c.csr.mstatus kind = true → PageGranted c kind gva l.phys

/-- The entry a translation fills in. -/
inductive Fill (c : RiscvCpu) (mem : Mem) (access : AccessType) (gva size : BitVec 64) (e : TlbEntry) : Prop where
  | identity (hdata : access ≠ .execute) (hbare : Bare c access)
    (haddend : e.addend = if inRam c gva then c.guestBase else tlbMmioAddend)
    (htag : ∀ kind, e.tag kind = if e.addend = tlbMmioAddend then tlbInvalidTag else gva &&& pageMask)
    (hpage : e.physPage = gva >>> 12) : Fill c mem access gva size e
  | paged {l : Leaf} (hpaged : ¬ Bare c access)
    (hpass : Passes (freshMmu c) mem gva access (accessPriv c access) c.csr.mstatus size (some (freshPmp c)) l)
    (haddend : e.addend = hostAddend c gva (l.phys gva))
    (htag : ∀ kind, e.tag kind =
      if tagged (touchPte l.pte access) c.csr.mstatus kind then gva &&& pageMask else tlbInvalidTag)
    (hpage : e.physPage = l.phys gva >>> 12) : Fill c mem access gva size e

def RefillOk (c : RiscvCpu) (mem : Mem) (access : AccessType) (gva : BitVec 64) : Prop :=
  if Bare c access then access ≠ .execute → BareRefillOk c gva else PagedRefillOk c mem access gva

theorem invalidTag_ne (gva : BitVec 64) : tlbInvalidTag ≠ gva &&& pageMask := by
  intro h
  have hbit : tlbInvalidTag.getLsbD 0 = (gva &&& pageMask).getLsbD 0 := by rw [h]
  rw [BitVec.getLsbD_and, getLsbD_pageMask] at hbit
  revert hbit
  simp [tlbInvalidTag]

theorem effectiveDataPriv_machine {mstatus : BitVec 64}
    (h : effectiveDataPriv priv mstatus = .machine) : priv = .machine := by
  unfold effectiveDataPriv at h
  split at h
  · rename_i hm
    exact hm.1
  · exact h

theorem effectiveDataPriv_of_ne (mstatus : BitVec 64) (h : priv ≠ .machine) :
    effectiveDataPriv priv mstatus = priv := by
  rw [effectiveDataPriv, if_neg (fun hm => h hm.1)]

/-- If data is not translated, nothing is. -/
theorem Bare.all (hdata : access ≠ .execute) (h : Bare c access) (kind : AccessType) : Bare c kind := by
  rcases h with h | h
  · have hmachine : effectiveDataPriv c.priv c.csr.mstatus = .machine := by
      cases access with
      | execute => exact False.elim (hdata rfl)
      | read | write => exact h
    left
    cases kind with
    | execute => exact effectiveDataPriv_machine hmachine
    | read | write => exact hmachine
  · exact Or.inr h

/-- An identity entry is sound if PMP treats the page uniformly. -/
theorem entrySound_identity (hdata : access ≠ .execute) (hbare : Bare c access)
    (haddend : e.addend = if inRam c gva then c.guestBase else tlbMmioAddend)
    (htag : ∀ kind, e.tag kind = if e.addend = tlbMmioAddend then tlbInvalidTag else gva &&& pageMask)
    (hpage : e.physPage = gva >>> 12) (hok : BareRefillOk c gva) (gva' : BitVec 64) : EntrySound c mem e gva' := by
  have hmatch (kind : AccessType) (h : e.tag kind = gva' &&& pageMask) : inRam c gva ∧ SamePage gva gva' := by
    rw [htag] at h
    by_cases hmmio : e.addend = tlbMmioAddend
    · rw [if_pos hmmio] at h
      exact False.elim (invalidTag_ne _ h)
    rw [if_neg hmmio] at h
    refine ⟨?_, h.symm⟩
    by_contra hram
    rw [haddend, if_neg hram] at hmmio
    exact hmmio rfl
  have hphys (hsame : SamePage gva gva') : e.phys gva' = gva' := by
    rw [TlbEntry.phys, hpage]
    exact hsame.join
  constructor
  · intro kind size hin h
    obtain ⟨hram, hsame⟩ := hmatch kind h
    have hgrant : checkAccess (freshPmp c) gva' size kind (accessPriv c kind) = .ok () :=
      hok hram kind gva' size hsame hin
    rw [hphys hsame, fresh, if_pos (hbare.all hdata kind), hgrant]
    rfl
  · intro kind h _
    obtain ⟨hram, hsame⟩ := hmatch kind h
    rw [hphys hsame, haddend, if_pos hram]
    exact BitVec.add_sub_cancel gva' c.guestBase

theorem levels_le (m : Mmu) : levels m ≤ 4 := by
  unfold levels
  split <;> decide

/-- The host address of a RAM page, at an offset. -/
theorem hostPhys_hostAddend {gva' pa : BitVec 64} (hpage : SamePage gva gva')
    (h : hostAddend c gva pa ≠ tlbMmioAddend) :
    hostPhys c gva' (hostAddend c gva pa) = ((pa >>> 12) <<< 12) ||| (gva' &&& ~~~pageMask) := by
  have haddend : hostAddend c gva pa = c.guestBase + (pa &&& pageMask) - (gva' &&& pageMask) := by
    unfold hostAddend at h ⊢
    split
    · rw [hpage]
    rename_i hram
    rw [if_neg hram] at h
    exact False.elim (h rfl)
  rw [page_shift, and_or_and_not, hostPhys, haddend]
  have hsum := and_add_and_not gva' pageMask
  calc gva' + (c.guestBase + (pa &&& pageMask) - (gva' &&& pageMask)) - c.guestBase
      = (gva' &&& pageMask) + (gva' &&& ~~~pageMask) +
          (c.guestBase + (pa &&& pageMask) - (gva' &&& pageMask)) - c.guestBase := by rw [hsum]
    _ = (pa &&& pageMask) + (gva' &&& ~~~pageMask) := by ring

/-- The kinds a refill tags are translated, at the privilege of the refill. -/
theorem priv_of_tagged (hpaged : ¬ Bare c access) (hexec : access ≠ .execute → kind = .execute → c.priv ≠ .machine) :
    ¬ Bare c kind ∧ accessPriv c kind = accessPriv c access := by
  obtain ⟨hpriv, hmode⟩ := not_or.mp hpaged
  have hsame : accessPriv c kind = accessPriv c access := by
    by_cases ha : access = .execute
    · subst ha
      have hne : c.priv ≠ .machine := hpriv
      cases kind <;> simp [accessPriv, effectiveDataPriv_of_ne _ hne]
    by_cases hk : kind = .execute
    · have hne := hexec ha hk
      subst hk
      cases access <;> simp [accessPriv, effectiveDataPriv_of_ne _ hne]
    · cases access <;> cases kind <;> first | rfl | exact False.elim (ha rfl) | exact False.elim (hk rfl)
  refine ⟨not_or.mpr ⟨?_, hmode⟩, hsame⟩
  rw [hsame]
  exact hpriv

/-- The U bit lets every tagged kind through that it let the refill through for. -/
theorem permitsPriv_of_refill {perm : BitVec 8} {mstatus : BitVec 64} (h : permitsPriv perm access priv mstatus = true)
    (hexec : access ≠ .execute → kind = .execute → priv = .supervisor → has perm pteU = false) :
    permitsPriv perm kind priv mstatus = true := by
  cases priv with
  | user => exact h
  | machine => rfl
  | supervisor =>
    simp only [permitsPriv, Bool.or_eq_true, Bool.and_eq_true, decide_eq_true_eq, Bool.not_eq_true'] at h ⊢
    rcases h with h | ⟨haccess, hsum⟩
    · exact Or.inl h
    by_cases hk : kind = .execute
    · exact Or.inl (hexec haccess hk rfl)
    · exact Or.inr ⟨hk, hsum⟩

/-- What passes for the refill passes for every tagged kind at every address of the page. -/
theorem passes_of_tagged {gva' size' : BitVec 64} (hpaged : ¬ Bare c access)
    (hpass : Passes (freshMmu c) mem gva access (accessPriv c access) c.csr.mstatus size (some (freshPmp c)) l)
    (hok : PagedRefillOk c mem access gva) (ht : tagged (touchPte l.pte access) c.csr.mstatus kind = true)
    (hsame : SamePage gva gva') (hin : InPage gva' size') : fresh c mem kind gva' size' = .ok (l.phys gva') := by
  have hmode : (freshMmu c).satpMode ≠ satpModeBare := fun hm => hpaged (Or.inr hm)
  obtain ⟨hexec, hgrant⟩ := hok l hpass.walk ((checkPerm_ok_iff _ _ _ _).mpr ⟨hpass.kind, hpass.user⟩)
  obtain ⟨l', hwalk, hext⟩ : ∃ l', (freshMmu c).walkPageTable mem gva' kind (some (freshPmp c))
      (accessPriv c access) = .ok l' ∧ LeafExt l l' :=
    walkPageTable_ext hsame hmode (fun w _ => AdExt.refl _) hpass.walk
  have hkind := permitsKind_of_tagged hext.perm ht
  have hx (hk : kind = .execute) : has l.perm pteX = true := by
    subst hk
    exact hkind
  obtain ⟨hnotBare, hpriv⟩ := priv_of_tagged hpaged fun ha hk => (hexec ha (hx hk)).1
  have huser : permitsPriv l.perm kind (accessPriv c kind) c.csr.mstatus = true := by
    rw [hpriv]
    refine permitsPriv_of_refill hpass.user fun ha hk hs => (hexec ha (hx hk)).2 ?_
    rw [← hpriv, hk] at hs
    exact hs
  have hleaf : l'.phys gva' = l.phys gva' := by rw [Leaf.phys, Leaf.phys, hext.ppn, hext.pgSize]
  rw [fresh, if_neg hnotBare, translateMiss_ok_iff]
  rw [← hpriv] at hwalk
  refine ⟨l', ⟨hwalk, ?_, ?_, ?_, ?_⟩, hleaf.symm⟩
  · rw [permitsKind_ext hext]
    exact hkind
  · rw [permitsPriv_ext hext]
    exact huser
  · rw [hpriv]
    exact (hpass.ad.of_tagged ht).ext hext
  · rw [hleaf]
    exact hgrant kind ht gva' size' hsame hin

/-- A filled entry is sound under the condition on its refill. -/
theorem Fill.entrySound (hfill : Fill c mem access gva size e) (hok : RefillOk c mem access gva) (gva' : BitVec 64) :
    EntrySound c mem e gva' := by
  cases hfill with
  | identity hdata hbare haddend htag hpage =>
    rw [RefillOk, if_pos hbare] at hok
    exact entrySound_identity hdata hbare haddend htag hpage (hok hdata) gva'
  | @paged l hpaged hpass haddend htag hpage =>
    rw [RefillOk, if_neg hpaged] at hok
    obtain ⟨level, hlevel, hsize⟩ := (walkPageTable_leafAt hpass.walk).size
    have hphys (hsame : SamePage gva gva') : e.phys gva' = l.phys gva' := by
      rw [TlbEntry.phys, hpage]
      exact (phys_samePage hsame (Nat.lt_of_lt_of_le hlevel (levels_le _)) hsize).symm
    have hmatch (kind : AccessType) (h : e.tag kind = gva' &&& pageMask) :
        tagged (touchPte l.pte access) c.csr.mstatus kind = true ∧ SamePage gva gva' := by
      rw [htag] at h
      split at h
      · rename_i ht
        exact ⟨ht, h.symm⟩
      · exact False.elim (invalidTag_ne _ h)
    constructor
    · intro kind size' hin h
      obtain ⟨ht, hsame⟩ := hmatch kind h
      rw [hphys hsame]
      exact passes_of_tagged hpaged hpass hok ht hsame hin
    · intro kind h hram
      obtain ⟨_, hsame⟩ := hmatch kind h
      rw [haddend] at hram
      rw [haddend, TlbEntry.phys, hpage]
      exact hostPhys_hostAddend hsame hram

/-- Two entries that differ at most in their bookkeeping. -/
structure EntryEq (e e' : TlbEntry) : Prop where
  tag : ∀ kind, e'.tag kind = e.tag kind
  addend : e'.addend = e.addend
  physPage : e'.physPage = e.physPage

theorem EntryEq.refl (e : TlbEntry) : EntryEq e e := ⟨fun _ => rfl, rfl, rfl⟩

theorem EntrySound.ext {e' : TlbEntry} (h : EntrySound c mem e gva) (heq : EntryEq e e')
    (hout : outlook c' = outlook c)
    (hpmp : freshPmp c' = freshPmp c) (htable : TableExt (freshMmu c) mem mem') : EntrySound c' mem' e' gva := by
  have hphys : e'.phys gva = e.phys gva := by rw [TlbEntry.phys, TlbEntry.phys, heq.physPage]
  have hbase : c'.guestBase = c.guestBase := congrArg Outlook.guestBase hout
  constructor
  · intro access size hin htag
    rw [heq.tag] at htag
    rw [hphys]
    exact fresh_ext hout hpmp htable (h.checks access size hin htag)
  · intro access htag haddend
    rw [heq.tag] at htag
    rw [heq.addend] at haddend ⊢
    rw [hphys, hostPhys, hbase]
    exact h.host access htag haddend

def Empty (m : Mmu) : Prop := ∀ i kind, (m.tlb i).tag kind = tlbInvalidTag

theorem empty_flush (m : Mmu) : Empty m.flush := by
  intro i kind
  cases kind <;> rfl

theorem sound_of_empty (mem : Mem) (h : Empty c.mmu) : Sound c mem := by
  intro gva
  constructor
  · intro access size _ htag
    rw [h] at htag
    exact False.elim (invalidTag_ne _ htag)
  · intro access htag _
    rw [h] at htag
    exact False.elim (invalidTag_ne _ htag)

/-- What an event can do to the TLB: flush it, leave it alone, or fill one entry for the
access it had to translate. -/
inductive Effect (c : RiscvCpu) (mem : Mem) (slow : Option (AccessType × BitVec 64 × BitVec 64))
    (c' : RiscvCpu) : Prop where
  | flushed (h : Empty c'.mmu) : Effect c mem slow c'
  | kept (hout : outlook c' = outlook c) (htlb : ∀ i, EntryEq (c.mmu.tlb i) (c'.mmu.tlb i)) : Effect c mem slow c'
  | filled {access : AccessType} {gva size : BitVec 64} {e : TlbEntry} (hslow : slow = some (access, gva, size))
    (hfill : Fill c mem access gva size e) (hout : outlook c' = outlook c)
    (htlb : c'.mmu.tlb = Function.update c.mmu.tlb (tlbIndex gva) e) : Effect c mem slow c'

/-- A later change that does not concern translation. -/
theorem Effect.of_kept {c2 : RiscvCpu}
    (h : Effect c mem slow c₁) (hout : outlook c2 = outlook c₁) (htlb : c2.mmu.tlb = c₁.mmu.tlb) :
    Effect c mem slow c2 := by
  cases h with
  | flushed hempty =>
    refine .flushed fun i kind => ?_
    rw [htlb]
    exact hempty i kind
  | kept hout1 htlb1 =>
    refine .kept (hout.trans hout1) fun i => ?_
    rw [htlb]
    exact htlb1 i
  | filled hslow hfill hout1 htlb1 => exact .filled hslow hfill (hout.trans hout1) (htlb.trans htlb1)

theorem Effect.same (hout : outlook c' = outlook c) (htlb : c'.mmu.tlb = c.mmu.tlb) : Effect c mem slow c' :=
  .of_kept (.kept rfl fun _ => EntryEq.refl _) hout htlb

theorem Effect.doTrap (c c0 : RiscvCpu) (mem : Mem) (slow : Option (AccessType × BitVec 64 × BitVec 64))
    (cause tval : BitVec 64) : Effect c mem slow (c0.doTrap cause tval) := by
  refine .flushed ?_
  unfold RiscvCpu.doTrap
  split <;> exact empty_flush _

/-- What an event preserves of soundness, if its refill meets the condition and the page
table and PMP stay the same. -/
theorem Effect.sound (h : Effect c mem slow c')
    (hok : ∀ access gva size, slow = some (access, gva, size) → RefillOk c mem access gva)
    (hpmp : freshPmp c' = freshPmp c) (htable : TableExt (freshMmu c) mem mem') (hs : Sound c mem) :
    Sound c' mem' := by
  cases h with
  | flushed hempty => exact sound_of_empty mem' hempty
  | kept hout htlb => exact fun gva => (hs gva).ext (htlb _) hout hpmp htable
  | @filled access gva size e hslow hfill hout htlb =>
    intro gva'
    rw [htlb]
    by_cases hi : tlbIndex gva' = tlbIndex gva
    · rw [hi, Function.update_self]
      exact (hfill.entrySound (hok _ _ _ hslow) gva').ext (EntryEq.refl e) hout hpmp htable
    · rw [Function.update_of_ne hi]
      exact (hs gva').ext (EntryEq.refl _) hout hpmp htable

theorem freshMmu_eq (hs : Synced c) : freshMmu c = { c.mmu with tlb := fun _ => .default } := by
  rw [freshMmu, ← hs.satp]

theorem bare_iff (hs : Synced c) (access : AccessType) :
    Bare c access ↔ translationMode c (accessPriv c access) = satpModeBare := by
  have hmode : (freshMmu c).satpMode = c.mmu.satpMode := by rw [freshMmu_eq hs]; rfl
  unfold Bare translationMode
  rw [hmode]
  by_cases hp : accessPriv c access = .machine
  · simp [hp]
  · simp [hp]

/-- The code's own translation passes the checks of a fresh one. -/
theorem passes_fresh (hs : Synced c) (h : Passes c.mmu mem gva access priv c.csr.mstatus size (some c.pmp) l) :
    Passes (freshMmu c) mem gva access priv c.csr.mstatus size (some (freshPmp c)) l := by
  have hpmp : freshPmp c = c.pmp := hs.pmp.symm
  rw [hpmp]
  refine ⟨?_, h.kind, h.user, h.ad, h.pmp⟩
  rw [freshMmu_eq hs, walkPageTable_tlb]
  exact h.walk

theorem translatePaged_effect (hs : Synced s.cpu)
    (hpaged : ¬ Bare s.cpu access) (gva size : BitVec 64) (fault : Exception → BitVec 64) :
    Effect s.cpu s.mem (some (access, gva, size))
      (s.translatePaged gva access (accessPriv s.cpu access) size fault).1.cpu := by
  unfold FullSystemCpu.translatePaged
  split <;> rename_i mmu mem _ heq
  · rename_i pa
    obtain ⟨l, hpass, rfl⟩ := (translateMiss_ok_iff _ _ _ _ _ _ _ _ _).mp (congrArg (fun r => r.2.2) heq)
    have hmmu : mmu = s.cpu.mmu.refill gva s.cpu.csr.mstatus (touchPte l.pte access) (l.phys gva) l.pgSize := by
      rw [← translateMiss_fst hpass, heq]
    have hentry := tag_refill s.cpu.mmu gva s.cpu.csr.mstatus (touchPte l.pte access) (l.phys gva) l.pgSize
    have hfill : Fill s.cpu s.mem access gva size
        { mmu.tlb (tlbIndex gva) with addend := hostAddend s.cpu gva (l.phys gva) } := by
      refine .paged hpaged (passes_fresh hs hpass) rfl (fun kind => ?_) ?_
      · rw [← hentry kind, hmmu]
        cases kind <;> rfl
      · rw [hmmu]
        simp [Mmu.refill, Mmu.setEntry]
    refine .filled rfl hfill ?_ ?_
    · rw [hmmu]
      rfl
    · rw [hmmu]
      simp [Mmu.fillAddend, Mmu.refill, Mmu.setEntry]
  · have hmmu := translateMiss_error (congrArg (fun r => r.2.2) heq)
    rw [heq] at hmmu
    dsimp only at hmmu
    rw [hmmu]
    exact .same rfl rfl

theorem translateForHelper_effect (hs : Synced s.cpu) (hdata : access ≠ .execute) (gva size : BitVec 64) :
    Effect s.cpu s.mem (some (access, gva, size)) (s.translateForHelper gva access size).1.cpu := by
  have hpriv : accessPriv s.cpu access = effectiveDataPriv s.cpu.priv s.cpu.csr.mstatus := by
    cases access with
    | execute => exact False.elim (hdata rfl)
    | read | write => rfl
  unfold FullSystemCpu.translateForHelper
  rw [← hpriv]
  by_cases hbare : Bare s.cpu access
  · rw [if_pos ((bare_iff hs access).mp hbare)]
    split
    · exact .same rfl rfl
    refine .filled rfl (.identity hdata hbare ?_ ?_ ?_) rfl rfl
    · rfl
    · intro kind
      cases kind <;> rfl
    · rfl
  · rw [if_neg (fun hm => hbare ((bare_iff hs access).mpr hm))]
    exact translatePaged_effect hs hbare gva size _

theorem translatePc_effect (hs : Synced s.cpu) (vpc : BitVec 64) :
    Effect s.cpu s.mem (some (.execute, vpc, 2#64)) (s.translatePc vpc).1.cpu := by
  have hmode := bare_iff hs .execute
  change _ ↔ translationMode s.cpu s.cpu.priv = satpModeBare at hmode
  unfold FullSystemCpu.translatePc
  by_cases hbare : Bare s.cpu .execute
  · rw [if_pos (hmode.mp hbare)]
    split <;> exact .same rfl rfl
  have hpaged := translatePaged_effect hs hbare vpc 2#64 fetchFaultCause
  change Effect _ _ _ (s.translatePaged vpc .execute s.cpu.priv 2#64 fetchFaultCause).1.cpu at hpaged
  rw [if_neg (fun hm => hbare (hmode.mpr hm))]
  split <;> rename_i heq <;> rw [heq] at hpaged <;> exact hpaged

/-- A CSR write flushes the TLB or does not concern translation, apart from PMP. -/
theorem syncRuntime_effect {addr : BitVec 16} {val : BitVec 64} {r : Except Nat Unit}
    (hwrite : csrWrite c addr val = (c₁, r)) (satp : BitVec 64) : Empty (syncRuntime c₁ addr satp).mmu ∨
      (outlook (syncRuntime c₁ addr satp) = outlook c ∧ (syncRuntime c₁ addr satp).mmu.tlb = c.mmu.tlb) := by
  have hc1 : c₁ = { c with csr := (c.csr.write addr val c.priv).1 } := by rw [← csrWrite_fst, hwrite]
  by_cases hsatp : addr = csrSatp
  · left
    simp only [syncRuntime, if_pos hsatp]
    exact empty_flush _
  by_cases hstatus : addr = csrMstatus ∨ addr = csrSstatus
  · left
    simp only [syncRuntime, if_neg hsatp, if_pos hstatus]
    exact empty_flush _
  · right
    have hkeepSatp := write_satp_of_ne c.csr val c.priv hsatp
    have hkeepStatus : (c.csr.write addr val c.priv).1.mstatus = c.csr.mstatus := by
      rcases write_mstatus_cases c.csr addr val c.priv with h | h
      · exact h
      · exact False.elim (hstatus (decode_eq_status h))
    subst hc1
    simp [syncRuntime, if_neg hsatp, if_neg hstatus, outlook, freshMmu, hkeepSatp, hkeepStatus]

theorem Effect.csr {c0 : RiscvCpu} {addr : BitVec 16} {val : BitVec 64} {r : Except Nat Unit}
    (h : Effect c mem slow c0)
    (hwrite : csrWrite c0 addr val = (c₁, r)) (satp : BitVec 64) : Effect c mem slow (syncRuntime c₁ addr satp) := by
  rcases syncRuntime_effect hwrite satp with hempty | ⟨hout, htlb⟩
  · exact .flushed hempty
  · exact h.of_kept hout htlb

/-- The events of the machine itself, without the debugger. -/
def guest : Event → Bool
  | .gdbWrite .. | .gdbWriteAll .. | .gdbRestore .. | .gdbPoke .. => false
  | _ => true

theorem mstatus_fs (m : BitVec 64) :
    has (m ||| mstatusFs) mstatusMprv = has m mstatusMprv ∧ mpp (m ||| mstatusFs) = mpp m ∧
      has (m ||| mstatusFs) mstatusMxr = has m mstatusMxr ∧ has (m ||| mstatusFs) mstatusSum = has m mstatusSum := by
  have hand (mask : BitVec 64) (h : mstatusFs &&& mask = 0#64) : (m ||| mstatusFs) &&& mask = m &&& mask := by
    rw [BitVec.and_or_distrib_right, h, BitVec.or_zero]
  refine ⟨?_, ?_, ?_, ?_⟩
  · rw [has, has, hand _ (by decide)]
  · rw [mpp, mpp, hand _ (by decide)]
  · rw [has, has, hand _ (by decide)]
  · rw [has, has, hand _ (by decide)]

theorem Effect.of_faultPc {v : BitVec 64} (h : Effect { c with faultPc := v } mem slow c') : Effect c mem slow c' := by
  cases h with
  | flushed h => exact .flushed h
  | kept hout htlb => exact .kept hout htlb
  | filled hslow hfill hout htlb =>
    refine .filled hslow ?_ hout htlb
    cases hfill with
    | identity hdata hbare haddend htag hpage => exact .identity hdata hbare haddend htag hpage
    | paged hpaged hpass haddend htag hpage => exact .paged hpaged hpass haddend htag hpage

theorem outlook_quiet (h : Quiet c c') : outlook c' = outlook c := by
  have hpriv : c'.priv = c.priv := congrArg Frame.priv h.same
  have hmmu : freshMmu c' = freshMmu c := by
    have hsatp : c'.csr.satp = c.csr.satp := congrArg Frame.satp h.same
    rw [freshMmu, freshMmu, h.mmu, hsatp]
  obtain ⟨hbase, hram, hend⟩ : c'.guestBase = c.guestBase ∧ c'.ramBase = c.ramBase ∧ c'.ramEnd = c.ramEnd := by
    simpa only [Prod.mk.injEq] using h.layout
  rcases h.mstatus with hm | hm
  · simp [outlook, hm, hpriv, hmmu, hbase, hram, hend]
  · obtain ⟨hmprv, hmpp, hmxr, hsum⟩ := mstatus_fs c.csr.mstatus
    simp [outlook, hm, hmprv, hmpp, hmxr, hsum, hpriv, hmmu, hbase, hram, hend]

theorem Effect.quiet (h : Effect c mem slow c₁) (hq : Quiet c₁ c') : Effect c mem slow c' :=
  h.of_kept (outlook_quiet hq) (congrArg Mmu.tlb hq.mmu)

theorem translated_effect (hs : Synced s.cpu) {e : Event} (h : Translated s e c) :
    Effect s.cpu s.mem (slowAccess s e) c := by
  cases h with
  | none => exact .same rfl rfl
  | dirty gva =>
    refine .kept rfl fun i => ?_
    change EntryEq (s.cpu.mmu.tlb i) (Function.update s.cpu.mmu.tlb (tlbIndex gva)
      { s.cpu.mmu.tlb (tlbIndex gva) with dirty := 1#8 } i)
    by_cases hi : i = tlbIndex gva
    · subst hi
      rw [Function.update_self]
      exact ⟨fun kind => by cases kind <;> rfl, rfl, rfl⟩
    · rw [Function.update_of_ne hi]
      exact EntryEq.refl _
  | data hslow hdata =>
    rw [hslow]
    exact translateForHelper_effect hs hdata _ _
  | @fetch vpc s1 hslow hcpu hmem =>
    have hsync : Synced s1.cpu := by
      rw [hcpu]
      exact ⟨hs.satp, hs.pmp⟩
    have hfetch := translatePc_effect hsync vpc
    rw [hcpu, hmem] at hfetch
    rw [hslow]
    exact hfetch.of_faultPc

/-- Every event of the machine has one of the listed effects on the TLB. -/
theorem did_effect (hs : Synced s.cpu) {e : Event} (hguest : guest e = true) (h : Did s e c) :
    Effect s.cpu s.mem (slowAccess s e) c := by
  cases h with
  | quiet ht hq => exact (translated_effect hs ht).quiet hq
  | trap => exact .doTrap ..
  | flush | mret => exact .flushed (empty_flush _)
  | sret hlegal =>
    rw [RiscvCpu.executeSret, if_neg hlegal]
    exact .flushed (empty_flush _)
  | csrHelper _ _ hwrite hq => exact (Effect.csr (.same rfl rfl) hwrite _).quiet hq
  | csrExit ht hwrite hq => exact ((translated_effect hs ht).csr hwrite _).quiet hq
  | gdbWrite reg val | gdbRestore gpr fpr pc csrs => cases hguest

/-- The PMP registers are the same, and the page table is up to added A and D bits. -/
structure Unchanged (s t : FullSystemCpu) : Prop where
  pmpcfg : t.cpu.csr.pmpcfg = s.cpu.csr.pmpcfg
  pmpaddr : t.cpu.csr.pmpaddr = s.cpu.csr.pmpaddr
  table : TableExt (freshMmu s.cpu) s.mem t.mem

/-- A run that keeps track whether page table and PMP registers are unchanged since the
TLB was last empty. -/
def watch (x : FullSystemCpu × Prop) (e : Event) : FullSystemCpu × Prop :=
  (step x.1 e, Empty (step x.1 e).cpu.mmu ∨ (x.2 ∧ Unchanged x.1 (step x.1 e)))

/-- The condition on a step of the machine: its refill is harmless, and satp is written
through the helper only with modes it accepts. -/
structure FillOk (s : FullSystemCpu) (e : Event) : Prop where
  machine : guest e = true
  satp : SyncOk s e
  refill : ∀ access gva size, slowAccess s e = some (access, gva, size) → RefillOk s.cpu s.mem access gva

theorem sound_step {e : Event} (hok : FillOk s e) (hs : Synced s.cpu)
    (hun : Unchanged s (step s e)) (hsound : Sound s.cpu s.mem) : Sound (step s e).cpu (step s e).mem := by
  have hpmp : freshPmp (step s e).cpu = freshPmp s.cpu := by rw [freshPmp, freshPmp, hun.pmpcfg, hun.pmpaddr]
  exact (did_effect hs hok.machine (step_did s e)).sound hok.refill hpmp hun.table hsound

/-- In every run whose steps meet the condition, as long as page table and PMP registers are
unchanged since the TLB was last empty, every entry is sound. -/
theorem tlb_sound_of_run (s t : FullSystemCpu) (es : List Event) (clean : Prop) (hsync : Synced s.cpu)
    (hempty : Empty s.cpu.mmu) (hrun : Run (guarded (fun x e => FillOk x.1 e) (ofStep watch)) (s, True) es (t, clean))
    (hclean : clean) : Sound t.cpu t.mem := by
  have hinv : Synced t.cpu ∧ (clean → Sound t.cpu t.mem) := by
    refine hrun.invariant (I := fun x => Synced x.1.cpu ∧ (x.2 → Sound x.1.cpu x.1.mem)) ?_
      ⟨hsync, fun _ => sound_of_empty s.mem hempty⟩
    rintro x e y ⟨hok, rfl⟩ ⟨hs, hsound⟩
    refine ⟨synced_step hok.satp hs, ?_⟩
    rintro (hflush | ⟨hx, hun⟩)
    · exact sound_of_empty _ hflush
    · exact sound_step hok hs hun (hsound hx)
  exact hinv.2 hclean

theorem walkWords_tlb (m : Mmu) (tlb : Fin 256 → TlbEntry) (mem : Mem) (gva : BitVec 64) (n : Nat) (a : BitVec 64) :
    walkWords { m with tlb := tlb } mem gva n a = walkWords m mem gva n a := by
  induction n generalizing a with
  | zero => rfl
  | succ level ih =>
    simp only [walkWords, ih]
    rfl

theorem tableExt_fresh (hs : Synced c) (h : TableExt c.mmu mem mem') : TableExt (freshMmu c) mem mem' := by
  rw [freshMmu_eq hs]
  rintro w ⟨hmode, gva, hw⟩
  refine h w ⟨hmode, gva, ?_⟩
  rw [walkWords_tlb] at hw
  exact hw

/-- The walker's own updates do not count as a change: a load keeps the page table. -/
theorem unchanged_load (hs : Synced s.cpu) (gva size : BitVec 64) : Unchanged s (step s (.load gva size)) := by
  have hframe := translateForHelper_frame s gva .read size
  have htable : TableExt s.cpu.mmu s.mem (s.translateForHelper gva .read size).1.mem := by
    unfold FullSystemCpu.translateForHelper
    dsimp only
    split
    · split <;> exact fun w _ => AdExt.refl _
    have hmiss := translateMiss_tableExt s.cpu.mmu s.mem gva .read
      (effectiveDataPriv s.cpu.priv s.cpu.csr.mstatus) s.cpu.csr.mstatus size (some s.cpu.pmp)
    unfold FullSystemCpu.translatePaged
    split <;> rename_i heq <;> rw [heq] at hmiss <;> exact hmiss
  have htr : Unchanged s (s.translateForHelper gva .read size).1 :=
    ⟨congrArg Frame.pmpcfg hframe, congrArg Frame.pmpaddr hframe, tableExt_fresh hs htable⟩
  simp only [step, FullSystemCpu.guestLoad, FullSystemCpu.machinaMemRead]
  split
  · exact ⟨rfl, rfl, fun w _ => AdExt.refl _⟩
  split <;> rename_i heq <;> rw [heq] at htr
  · split
    · exact htr
    · exact ⟨htr.pmpcfg, htr.pmpaddr, htr.table⟩
  · exact htr

/-- The system at reset with RAM that holds the given bytes. -/
def ramSystem (mem : Mem) : FullSystemCpu :=
  let s := bareSystem (RiscvCpu.newWithModel .genericRv64)
  { s with mem := mem, cpu := { s.cpu with ramBase := 0x80000000#64, ramEnd := 0x90000000#64 } }

theorem synced_ramSystem (mem : Mem) : Synced (ramSystem mem).cpu := by
  obtain ⟨hsatp, hpmp⟩ := (coherent_newWithModel .genericRv64).1
  exact ⟨hsatp, hpmp⟩

theorem empty_ramSystem (mem : Mem) : Empty (ramSystem mem).cpu.mmu := by
  intro i kind
  cases kind <;> rfl

/-- Without locked entries PMP does not bind machine mode. -/
theorem pageGranted_machine (hpriv : accessPriv c kind = .machine)
    (hlock : hasLocked (freshPmp c) = false) (gva : BitVec 64) (phys : BitVec 64 → BitVec 64) :
    PageGranted c kind gva phys := by
  intro gva' size _ _
  rw [hpriv, checkAccess, if_pos ⟨rfl, hlock⟩]

theorem tlb_sound_of_run_load : Sound (step (ramSystem fun _ => 0#8) (.load 0x80001000#64 8#64)).cpu
        (step (ramSystem fun _ => 0#8) (.load 0x80001000#64 8#64)).mem ∧
      ((step (ramSystem fun _ => 0#8) (.load 0x80001000#64 8#64)).cpu.mmu.tlb
        (tlbIndex 0x80001000#64)).tag .write = 0x80001000#64 := by
  refine ⟨?_, by decide +kernel⟩
  have hsync := synced_ramSystem fun _ => 0#8
  refine tlb_sound_of_run (ramSystem fun _ => 0#8) _ [.load 0x80001000#64 8#64] _ hsync (empty_ramSystem _)
    (.cons ⟨⟨rfl, trivial, ?_⟩, rfl⟩ (.nil _)) (Or.inr ⟨trivial, unchanged_load hsync _ _⟩)
  rintro access gva size hslow
  have hmiss : slowAccess (ramSystem fun _ => 0#8) (.load 0x80001000#64 8#64) =
      some (.read, 0x80001000#64, 8#64) := by decide +kernel
  cases hmiss.symm.trans hslow
  rw [RefillOk, if_pos (show Bare (ramSystem fun _ => 0#8).cpu .read from Or.inl (by decide +kernel))]
  intro _ _ kind
  exact pageGranted_machine (by cases kind <;> decide +kernel) (by decide +kernel) _ _

/-- A page table whose first gigabyte is a user page that may be read and executed. -/
def userTable : Mem := write (fun _ => 0#8) 0x80000000#64 8 0x2000005B#64

/-- Machine mode opens PMP, sets up the table and enters supervisor mode with SUM. -/
def sumSystem : FullSystemCpu :=
  [.csrHelper 0x3B0#64 (BitVec.allOnes 64) 1 1 0#64, .csrHelper 0x3A0#64 0x1F#64 1 1 0#64,
    .csrHelper 0x180#64 0x8000000000080000#64 1 1 0#64, .csrHelper 0x300#64 0x40800#64 1 1 0#64,
    .mret].foldl step (ramSystem userTable)

/-- Machine mode lets PMP grant reading only and enters user mode. -/
def readOnlySystem : FullSystemCpu :=
  [.csrHelper 0x3B0#64 (BitVec.allOnes 64) 1 1 0#64, .csrHelper 0x3A0#64 0x19#64 1 1 0#64, .mret].foldl step
    (ramSystem fun _ => 0#8)

/-- After a supervisor load from an executable user page the page has a code tag, although
supervisor mode may not execute it; after a user load from a page that PMP makes read-only
it has a write tag. -/
theorem tag_without_permission :
    ((step sumSystem (.load 0x1000#64 8#64)).cpu.mmu.tlb (tlbIndex 0x1000#64)).tag .execute = 0x1000#64 &&& pageMask ∧
      fresh (step sumSystem (.load 0x1000#64 8#64)).cpu (step sumSystem (.load 0x1000#64 8#64)).mem .execute 0x1000#64
        2#64 = .error .instructionPageFault ∧
      Empty sumSystem.cpu.mmu ∧ Unchanged sumSystem (step sumSystem (.load 0x1000#64 8#64)) ∧
    ((step readOnlySystem (.load 0x80001000#64 8#64)).cpu.mmu.tlb (tlbIndex 0x80001000#64)).tag .write =
        0x80001000#64 &&& pageMask ∧
      fresh (step readOnlySystem (.load 0x80001000#64 8#64)).cpu (step readOnlySystem (.load 0x80001000#64 8#64)).mem
        .write 0x80001000#64 8#64 = .error .storeAccessFault ∧
      Empty readOnlySystem.cpu.mmu ∧ Unchanged readOnlySystem (step readOnlySystem (.load 0x80001000#64 8#64)) := by
  have hsum : Synced sumSystem.cpu :=
    ⟨by decide +kernel, congrArg Pmp.mk (funext (by decide +kernel))⟩
  have hread : Synced readOnlySystem.cpu :=
    ⟨by decide +kernel, congrArg Pmp.mk (funext (by decide +kernel))⟩
  exact ⟨by decide +kernel, by decide +kernel, empty_flush _, unchanged_load hsum _ _, by decide +kernel,
    by decide +kernel, empty_flush _, unchanged_load hread _ _⟩

end MachinaTlb
