import Machina.Walk

/-!
# Translation through the TLB

A hit takes the physical address from the addend of its entry, a miss from the page
table. What a translation may change, and when a second one gives the same address.
-/

namespace MachinaTranslate

open MachinaBits MachinaRiscv MachinaPmp MachinaMmu MachinaByteMem MachinaWalk

local instance neZero16 : NeZero 16 := ⟨by decide⟩

def hitPhys (e : TlbEntry) (gva : BitVec 64) : BitVec 64 :=
  ((gva + e.addend) &&& pageMask) ||| (gva &&& (pageSize - 1#64))

/-- Translate an address: the mode and the form of the address are checked, then the TLB is looked up. -/
def translate (m : Mmu) (mem : Mem) (gva : BitVec 64) (access : AccessType) (priv : PrivLevel)
    (mstatus size : BitVec 64)
    (pmp : Option Pmp) : Mmu × Mem × Except Exception (BitVec 64) :=
  if m.satpMode = satpModeBare then (m, mem, .ok gva)
  else if m.satpMode ≠ satpModeSv39 ∧ m.satpMode ≠ satpModeSv48 then (m, mem, .error (pageFault access))
  else if m.maxSatpMode < m.satpMode then (m, mem, .error (pageFault access))
  else if isCanonicalSv gva m.satpMode = false then (m, mem, .error (pageFault access))
  else
    let entry := m.tlb (tlbIndex gva)
    if entry.tag access = gva &&& pageMask then
      match pmpCheck pmp (hitPhys entry gva) size access priv with
      | .error e => (m, mem, .error e)
      | .ok () => (m, mem, .ok (hitPhys entry gva))
    else m.translateMiss mem gva access priv mstatus size pmp

section Frame

variable (m : Mmu) (mem : Mem) (gva : BitVec 64) (access : AccessType) (priv : PrivLevel) (mstatus size : BitVec 64)
  (pmp : Option Pmp)

/-- Only accessed and dirty bits of the word at `w` differ. -/
structure AdOnly (mem mem' : Mem) (w : BitVec 64) : Prop where
  others : ∀ a, 8 ≤ (a - w).toNat → mem' a = mem a
  word : AdExt (read mem w 8) (read mem' w 8)

/-- An error changes nothing; a success at most the A and D bits of the leaf and one TLB entry. -/
structure FrameKept : Prop where
  error : ∀ e, (m.translateMiss mem gva access priv mstatus size pmp).2.2 = .error e →
    (m.translateMiss mem gva access priv mstatus size pmp).2.1 = mem ∧
      (m.translateMiss mem gva access priv mstatus size pmp).1.tlb = m.tlb
  ok : ∀ pa, (m.translateMiss mem gva access priv mstatus size pmp).2.2 = .ok pa →
    (∃ l, m.walkPageTable mem gva access pmp priv = .ok l ∧
      AdOnly mem (m.translateMiss mem gva access priv mstatus size pmp).2.1 l.pteAddr) ∧
    ∃ i, ∀ j, j ≠ i → (m.translateMiss mem gva access priv mstatus size pmp).1.tlb j = m.tlb j

/-- The leaf lacks an accessed or dirty bit that may be set, and PMP denies the access itself. -/
def DeniedLate : Prop :=
  ∃ l, m.walkPageTable mem gva access pmp priv = .ok l ∧ checkPerm l.perm access priv mstatus = .ok () ∧
    touchPte l.pte access ≠ l.pte ∧ pmpCheck pmp l.pteAddr pteSize .write priv = .ok () ∧
    ∃ e, pmpCheck pmp (l.phys gva) size access priv = .error e

variable {m mem gva access priv mstatus size pmp}

theorem updateAd_adOnly {l : Leaf} {mem' : Mem} (hl : read mem l.pteAddr 8 = l.pte)
    (h : updateAd mem l access pmp priv = .ok mem') : AdOnly mem mem' l.pteAddr := by
  rw [updateAd] at h
  split at h
  · cases h
    exact ⟨fun _ _ => rfl, AdExt.refl _⟩
  split at h
  · cases h
  · cases h
    refine ⟨fun a ha => write_of_ge ha, ?_⟩
    rw [read_write_word, hl]
    exact AdExt.touchPte l.pte access

/-- The memory after a translation that gets as far as the check of the access itself. -/
theorem translateMiss_late {l : Leaf} {mem' : Mem} (hwalk : m.walkPageTable mem gva access pmp priv = .ok l)
    (hperm : checkPerm l.perm access priv mstatus = .ok ()) (had : updateAd mem l access pmp priv = .ok mem')
    {e : Exception} (hpmp : pmpCheck pmp (l.phys gva) size access priv = .error e) :
    m.translateMiss mem gva access priv mstatus size pmp = (m, mem', .error e) := by
  rw [Mmu.translateMiss, hwalk]
  dsimp only
  rw [hperm]
  rw [had]
  rw [hpmp]

theorem not_frameKept_of_denied (h : DeniedLate m mem gva access priv mstatus size pmp) :
    ¬FrameKept m mem gva access priv mstatus size pmp := by
  obtain ⟨l, hwalk, hperm, htouch, hwrite, e, hpmp⟩ := h
  have hread := (walkPageTable_leafAt hwalk).pte
  have had : updateAd mem l access pmp priv = .ok (write mem l.pteAddr 8 (touchPte l.pte access)) := by
    rw [updateAd, if_neg htouch, hwrite]
  have heq := translateMiss_late hwalk hperm had hpmp
  intro hkept
  have hmem := (hkept.error e (by rw [heq])).1
  rw [heq] at hmem
  apply htouch
  calc touchPte l.pte access = read (write mem l.pteAddr 8 (touchPte l.pte access)) l.pteAddr 8 :=
        (read_write_word ..).symm
    _ = read mem l.pteAddr 8 := congrArg (read · l.pteAddr 8) hmem
    _ = l.pte := hread

theorem frameKept_of_not_denied (h : ¬DeniedLate m mem gva access priv mstatus size pmp) :
    FrameKept m mem gva access priv mstatus size pmp := by
  constructor
  · intro e he
    refine ⟨?_, congrArg Mmu.tlb (translateMiss_error he)⟩
    rw [Mmu.translateMiss] at he ⊢
    cases hwalk : m.walkPageTable mem gva access pmp priv with
    | error e' => rfl
    | ok l =>
      rw [hwalk] at he
      dsimp only at he ⊢
      cases hperm : checkPerm l.perm access priv mstatus with
      | error e' => rfl
      | ok u =>
        rw [hperm] at he
        cases had : updateAd mem l access pmp priv with
        | error e' => rfl
        | ok mem' =>
          rw [had] at he
          cases hpmp : pmpCheck pmp (l.phys gva) size access priv with
          | ok u =>
            rw [hpmp] at he
            cases he
          | error e' =>
            -- The update did nothing: otherwise the denial came late.
            rw [updateAd] at had
            split at had
            · exact (Except.ok.inj had).symm
            rename_i htouch
            split at had
            · cases had
            · exact absurd ⟨l, hwalk, hperm, htouch, ‹_›, e', hpmp⟩ h
  · intro pa hpa
    obtain ⟨l, hl, -⟩ := (translateMiss_ok_iff m mem gva access priv mstatus size pmp pa).mp hpa
    obtain ⟨mem', had⟩ := (updateAd_ok_iff mem l access pmp priv).mpr hl.ad
    have hmem : (m.translateMiss mem gva access priv mstatus size pmp).2.1 = mem' := by
      rw [Mmu.translateMiss, hl.walk]
      dsimp only
      rw [(checkPerm_ok_iff _ _ _ _).mpr ⟨hl.kind, hl.user⟩]
      rw [had]
      rw [hl.pmp]
    refine ⟨⟨l, hl.walk, ?_⟩, tlbIndex gva, fun j hj => ?_⟩
    · rw [hmem]
      exact updateAd_adOnly (walkPageTable_leafAt hl.walk).pte had
    · rw [translateMiss_fst hl]
      exact Function.update_of_ne hj _ _

end Frame

/-- A miss keeps its frame exactly when PMP does not deny the access after the page table has been updated. -/
theorem translate_miss_frame_iff (m : Mmu) (mem : Mem) (gva : BitVec 64) (access : AccessType) (priv : PrivLevel)
    (mstatus size : BitVec 64) (pmp : Option Pmp) :
    FrameKept m mem gva access priv mstatus size pmp ↔ ¬DeniedLate m mem gva access priv mstatus size pmp :=
  ⟨fun hkept hdenied => not_frameKept_of_denied hdenied hkept, frameKept_of_not_denied⟩

/-- Memory with one page-table entry: the root table is at `0x1000`, and its first entry is given. -/
def rootEntry (pte : BitVec 64) : Mem := write (fun _ => 0#8) 0x1000#64 8 pte

/-- Sv39 with that root table and an empty TLB. -/
def oneTable : Mmu := Mmu.new.setSatp 0x8000000000000001#64

/-- PMP that opens the first two pages for reading and writing, and nothing else. -/
def lowPages : Pmp := ⟨fun i => if i = 0 then ⟨0x0B#8, 0x800#64⟩ else ⟨0#8, 0#64⟩⟩

/-- A gigapage at `0x80000000` that is readable and was never accessed. -/
def freshGigapage : BitVec 64 := 0x20000007#64

/-- The accessed bit is set although the access is denied. -/
theorem denied_access_sets_accessed_bit :
    ¬FrameKept oneTable (rootEntry freshGigapage) 0x1234#64 .read .supervisor 0#64 8#64 (some lowPages) := by
  apply not_frameKept_of_denied
  refine ⟨⟨0x80000#64, 7#8, levelPageSize 2, 0x1000#64, freshGigapage⟩, ?_, rfl, by decide, rfl, _, rfl⟩
  decide +kernel

section Repeat

variable (m : Mmu) (mem : Mem) (gva : BitVec 64) (access : AccessType) (priv : PrivLevel) (mstatus size : BitVec 64)
  (pmp : Option Pmp)

/-- The MMU after the caller has set an addend, if it does. -/
def filled (m : Mmu) (gva : BitVec 64) : Option (BitVec 64) → Mmu
  | none => m
  | some addend => m.fillAddend gva addend

/-- A second translation gives the address of the first. -/
def Repeats (addend : Option (BitVec 64)) : Prop :=
  ∀ m₁ mem₁ pa, translate m mem gva access priv mstatus size pmp = (m₁, mem₁, .ok pa) →
    (translate (filled m₁ gva addend) mem₁ gva access priv mstatus size pmp).2.2 = .ok pa

/-- The mode and the address let the TLB be looked up. -/
structure Paged : Prop where
  on : m.satpMode ≠ satpModeBare
  known : m.satpMode = satpModeSv39 ∨ m.satpMode = satpModeSv48
  allowed : ¬m.maxSatpMode < m.satpMode
  canonical : isCanonicalSv gva m.satpMode = true

def Hits : Prop := (m.tlb (tlbIndex gva)).tag access = gva &&& pageMask

/-- The addend of the entry leads to the page the address is mapped to: for a hit the page the entry led to before,
for a miss the page of the leaf. -/
def AddendMatches (addend : Option (BitVec 64)) : Prop :=
  Paged m gva →
    (Hits m gva access → pmpCheck pmp (hitPhys (m.tlb (tlbIndex gva)) gva) size access priv = .ok () →
      ∀ a ∈ addend, (gva + a) &&& pageMask = (gva + (m.tlb (tlbIndex gva)).addend) &&& pageMask) ∧
    (¬Hits m gva access → ∀ l, Passes m mem gva access priv mstatus size pmp l →
      (gva + addend.getD 0#64) &&& pageMask = l.phys gva &&& pageMask)

variable {m mem gva access priv mstatus size pmp}

theorem translate_bare (h : m.satpMode = satpModeBare) :
    translate m mem gva access priv mstatus size pmp = (m, mem, .ok gva) := if_pos h

theorem translate_hit (hpaged : Paged m gva) (hhit : Hits m gva access) :
    translate m mem gva access priv mstatus size pmp =
      match pmpCheck pmp (hitPhys (m.tlb (tlbIndex gva)) gva) size access priv with
      | .error e => (m, mem, .error e)
      | .ok () => (m, mem, .ok (hitPhys (m.tlb (tlbIndex gva)) gva)) := by
  rw [translate, if_neg hpaged.on, if_neg (not_and_or.mpr (hpaged.known.imp not_not_intro not_not_intro)),
    if_neg hpaged.allowed, if_neg (by rw [hpaged.canonical]; decide)]
  exact if_pos hhit

theorem translate_miss (hpaged : Paged m gva) (hhit : ¬Hits m gva access) :
    translate m mem gva access priv mstatus size pmp = m.translateMiss mem gva access priv mstatus size pmp := by
  rw [translate, if_neg hpaged.on, if_neg (not_and_or.mpr (hpaged.known.imp not_not_intro not_not_intro)),
    if_neg hpaged.allowed, if_neg (by rw [hpaged.canonical]; decide)]
  exact if_neg hhit

theorem translate_error (hbare : m.satpMode ≠ satpModeBare) (hpaged : ¬Paged m gva) :
    translate m mem gva access priv mstatus size pmp = (m, mem, .error (pageFault access)) := by
  rw [translate, if_neg hbare]
  split
  · rfl
  split
  · rfl
  split
  · rfl
  rename_i hmode hmax hcanon
  refine absurd ⟨hbare, ?_, hmax, Bool.not_eq_false _ ▸ hcanon⟩ hpaged
  by_contra hcon
  exact hmode (not_or.mp hcon)

@[simp] theorem filled_satp (m : Mmu) (gva : BitVec 64) (addend : Option (BitVec 64)) :
    (filled m gva addend).satpMode = m.satpMode := by
  cases addend <;> rfl

theorem filled_entry (m : Mmu) (gva : BitVec 64) (addend : Option (BitVec 64)) :
    (filled m gva addend).tlb (tlbIndex gva) =
      { m.tlb (tlbIndex gva) with addend := addend.getD (m.tlb (tlbIndex gva)).addend } := by
  cases addend with
  | none => rfl
  | some a => exact Function.update_self ..

theorem Paged.filled (h : Paged m gva) (addend : Option (BitVec 64)) : Paged (filled m gva addend) gva := by
  cases addend <;> exact ⟨h.on, h.known, h.allowed, h.canonical⟩

theorem Hits.filled (h : Hits m gva access) (addend : Option (BitVec 64)) : Hits (filled m gva addend) gva access := by
  rw [Hits, filled_entry]
  cases access <;> exact h

/-- The low bits come from the virtual address. -/
def KeepsOffset (gva pa : BitVec 64) : Prop := pa = (pa &&& pageMask) ||| (gva &&& (pageSize - 1#64))

theorem page_join (x y : BitVec 64) :
    ((x &&& pageMask) ||| (y &&& (pageSize - 1#64))) &&& pageMask = x &&& pageMask := by
  rw [show pageSize - 1#64 = ~~~pageMask by decide]
  ext i hi
  simp only [BitVec.getElem_and, BitVec.getElem_or, BitVec.getElem_not]
  cases x[i] <;> cases y[i] <;> cases pageMask[i] <;> rfl

theorem keepsOffset_hitPhys (e : TlbEntry) (gva : BitVec 64) : KeepsOffset gva (hitPhys e gva) := by
  rw [KeepsOffset, hitPhys, page_join]

theorem keepsOffset_phys {l : Leaf} (hwalk : m.walkPageTable mem gva access pmp priv = .ok l) :
    KeepsOffset gva (l.phys gva) := by
  obtain ⟨level, hlevel, hsize⟩ := (walkPageTable_leafAt hwalk).size
  have hfour : levels m ≤ 4 := by
    unfold levels
    split <;> decide
  have hjoin := phys_samePage (show SamePage gva gva from rfl) (by omega) hsize
  rw [page_shift] at hjoin
  exact hjoin

theorem hitPhys_eq_iff {e : TlbEntry} {pa : BitVec 64} (h : KeepsOffset gva pa) :
    hitPhys e gva = pa ↔ (gva + e.addend) &&& pageMask = pa &&& pageMask := by
  constructor
  · rintro rfl
    rw [hitPhys, page_join]
  · intro hpage
    rw [hitPhys, hpage]
    exact h.symm

/-- A hit gives an address that PMP allows exactly when its addend leads to the page of it. -/
theorem translate_hit_iff (hpaged : Paged m gva) (hhit : Hits m gva access) {pa : BitVec 64}
    (hoff : KeepsOffset gva pa)
    (hpmp : pmpCheck pmp pa size access priv = .ok ()) :
    (translate m mem gva access priv mstatus size pmp).2.2 = .ok pa ↔
      (gva + (m.tlb (tlbIndex gva)).addend) &&& pageMask = pa &&& pageMask := by
  rw [← hitPhys_eq_iff hoff, translate_hit hpaged hhit]
  constructor
  · intro h
    split at h
    · cases h
    · exact Except.ok.inj h
  · intro h
    rw [h, hpmp]

/-- After a miss the entry of the page is there for the same kind of access. -/
theorem hits_refill {l : Leaf} (hon : m.satpMode ≠ satpModeBare)
    (h : Passes m mem gva access priv mstatus size pmp l) :
    Hits (m.refill gva mstatus (touchPte l.pte access) (l.phys gva) l.pgSize) gva access := by
  obtain ⟨l', -, hext⟩ : ∃ l', m.walkPageTable mem gva access pmp priv = .ok l' ∧ LeafExt l l' :=
    walkPageTable_ext rfl hon (fun w _ => AdExt.refl _) h.walk
  have hbit (k : Nat) (hk : k < 6) : has (permOf (touchPte l.pte access)) (bit k) = has l.perm (bit k) := by
    rw [hext.perm]
    exact (AdExt.touchPte l.pte access).has_permOf hk
  have hkind := h.kind
  rw [Hits, tag_refill, if_pos]
  cases access with
  | read =>
    simp only [tagged, permitsKind, pteR, pteX, hbit 1 (by decide), hbit 3 (by decide)] at hkind ⊢
    exact hkind
  | write =>
    have hdirty : touchPte (touchPte l.pte .write) .write = touchPte l.pte .write := by
      simp only [touchPte, if_true]
      ext i hi
      simp only [BitVec.getElem_or]
      cases l.pte[i] <;> cases (pteA.setWidth 64)[i] <;> cases (pteD.setWidth 64)[i] <;> rfl
    simp only [tagged, permitsKind, pteW, pteD, hbit 2 (by decide)] at hkind ⊢
    rw [hkind, Bool.true_and, has_permOf _ (by decide)]
    exact ((touchPte_eq_iff _ _).mp hdirty).2 rfl
  | execute =>
    simp only [tagged, permitsKind, pteX, hbit 3 (by decide)] at hkind ⊢
    exact hkind

theorem Paged.refill (h : Paged m gva) (mstatus newPte pa pgSize : BitVec 64) :
    Paged (m.refill gva mstatus newPte pa pgSize) gva := ⟨h.on, h.known, h.allowed, h.canonical⟩

theorem refill_addend (mstatus newPte pa pgSize : BitVec 64) :
    ((m.refill gva mstatus newPte pa pgSize).tlb (tlbIndex gva)).addend = 0#64 := by
  rw [Mmu.refill, Mmu.setEntry]
  dsimp only
  rw [Function.update_self]

/-- A first call that hits is repeated exactly when the addend set after it leads to the same page. -/
theorem repeats_hit_iff (hpaged : Paged m gva) (hhit : Hits m gva access) (addend : Option (BitVec 64)) :
    Repeats m mem gva access priv mstatus size pmp addend ↔
      (pmpCheck pmp (hitPhys (m.tlb (tlbIndex gva)) gva) size access priv = .ok () →
        ∀ a ∈ addend, (gva + a) &&& pageMask = (gva + (m.tlb (tlbIndex gva)).addend) &&& pageMask) := by
  rw [Repeats, translate_hit hpaged hhit]
  cases hpmp : pmpCheck pmp (hitPhys (m.tlb (tlbIndex gva)) gva) size access priv with
  | error e => exact iff_of_true (fun _ _ _ h => nomatch h) nofun
  | ok u =>
    have hsecond : (translate (filled m gva addend) mem gva access priv mstatus size pmp).2.2 =
        .ok (hitPhys (m.tlb (tlbIndex gva)) gva) ↔ _ :=
      translate_hit_iff (hpaged.filled addend) (hhit.filled addend) (keepsOffset_hitPhys _ gva) hpmp
    rw [filled_entry, hitPhys, page_join, ← hitPhys] at hsecond
    constructor
    · rintro h - a ha
      obtain rfl : addend = some a := ha
      exact hsecond.mp (h _ _ _ rfl)
    · rintro h _ _ _ heq
      cases heq
      refine hsecond.mpr ?_
      cases addend with
      | none => rfl
      | some a => exact h rfl a rfl

/-- A first call that misses is repeated exactly when the addend set after it, `0` if none is, leads to the page of
the leaf. -/
theorem repeats_miss_iff (hpaged : Paged m gva) (hhit : ¬Hits m gva access) (addend : Option (BitVec 64)) :
    Repeats m mem gva access priv mstatus size pmp addend ↔ ∀ l, Passes m mem gva access priv mstatus size pmp l →
        (gva + addend.getD 0#64) &&& pageMask = l.phys gva &&& pageMask := by
  rw [Repeats, translate_miss hpaged hhit]
  -- What the second call gives after a miss that led to the leaf `l`.
  have hsecond (l : Leaf) (hl : Passes m mem gva access priv mstatus size pmp l) (mem1 : Mem) :
      (translate (filled (m.refill gva mstatus (touchPte l.pte access) (l.phys gva) l.pgSize) gva addend)
        mem1 gva access
        priv mstatus size pmp).2.2 = .ok (l.phys gva) ↔
        (gva + addend.getD 0#64) &&& pageMask = l.phys gva &&& pageMask := by
    rw [translate_hit_iff ((hpaged.refill ..).filled addend) ((hits_refill hpaged.on hl).filled addend)
      (keepsOffset_phys hl.walk) hl.pmp, filled_entry, refill_addend]
  constructor
  · intro h l hl
    have hok : (m.translateMiss mem gva access priv mstatus size pmp).2.2 = .ok (l.phys gva) :=
      (translateMiss_ok_iff ..).mpr ⟨l, hl, rfl⟩
    have hrun : m.translateMiss mem gva access priv mstatus size pmp = (_, _, .ok (l.phys gva)) :=
      Prod.ext (translateMiss_fst hl) (Prod.ext rfl hok)
    exact (hsecond l hl _).mp (h _ _ _ hrun)
  · intro h m1 mem1 pa hrun
    obtain ⟨l, hl, rfl⟩ := (translateMiss_ok_iff ..).mp (congrArg (·.2.2) hrun)
    have hm1 : _ = m1 := (translateMiss_fst hl).symm.trans (congrArg (·.1) hrun)
    rw [← hm1]
    exact (hsecond l hl mem1).mpr (h l hl)

end Repeat

/-- A second translation gives the address of the first exactly when the addend leads to the page of it. -/
theorem repeated_translation_same_iff (m : Mmu) (mem : Mem) (gva : BitVec 64) (access : AccessType) (priv : PrivLevel)
    (mstatus size : BitVec 64) (pmp : Option Pmp) (addend : Option (BitVec 64)) :
    Repeats m mem gva access priv mstatus size pmp addend ↔
      AddendMatches m mem gva access priv mstatus size pmp addend := by
  by_cases hpaged : Paged m gva
  · by_cases hhit : Hits m gva access
    · rw [repeats_hit_iff hpaged hhit]
      exact ⟨fun h _ => ⟨fun _ => h, fun hmiss => absurd hhit hmiss⟩, fun h => (h hpaged).1 hhit⟩
    · rw [repeats_miss_iff hpaged hhit]
      exact ⟨fun h _ => ⟨fun hhit' => absurd hhit' hhit, fun _ => h⟩, fun h => (h hpaged).2 hhit⟩
  · refine iff_of_true ?_ (fun h => absurd h hpaged)
    intro m1 mem1 pa hfirst
    by_cases hbare : m.satpMode = satpModeBare
    · rw [translate_bare hbare] at hfirst
      cases hfirst
      rw [translate_bare ((filled_satp ..).trans hbare)]
    · rw [translate_error hbare hpaged] at hfirst
      cases hfirst

/-- A gigapage at `0x80000000` that was written before. -/
def writtenGigapage : BitVec 64 := 0x200000CF#64

/-- The miss gives `0x80001234`, the hit after it `0x1234`. -/
theorem hit_after_miss_loses_page :
    ¬Repeats oneTable (rootEntry writtenGigapage) 0x1234#64 .read .supervisor 0#64 8#64 none none := by
  intro h
  have hpaged : Paged oneTable 0x1234#64 := ⟨by decide, .inl (by decide), by decide, by decide⟩
  have hmiss : (oneTable.tlb (tlbIndex 0x1234#64)).tag .read ≠ 0x1234#64 &&& pageMask := by decide
  have hleaf : Passes oneTable (rootEntry writtenGigapage) 0x1234#64 .read .supervisor 0#64 8#64 none
      ⟨0x80000#64, 0xCF#8, levelPageSize 2, 0x1000#64, writtenGigapage⟩ :=
    ⟨by decide +kernel, by decide, by decide, .inl (by decide), rfl⟩
  exact absurd ((repeats_miss_iff hpaged hmiss none).mp h _ hleaf) (by decide)

end MachinaTranslate
