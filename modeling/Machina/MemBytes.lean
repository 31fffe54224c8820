import Machina.GuestRam

/-!
# Guest accesses byte by byte

The slow path of a load or store translates the address of its first byte only and
checks the range behind the translation. The specification translates and checks every
byte by itself, and reads or writes only when all of them pass.
-/

namespace MachinaMemBytes

open MachinaBits MachinaRiscv MachinaMmu MachinaPmp MachinaByteMem MachinaFullSystem MachinaTranslate
open MachinaWalk MachinaTlb MachinaGuestRam

variable {t : FullSystemCpu} {l : Leaf} {mem : Mem} {n : Nat} {pmp : Option Pmp} {priv : PrivLevel}

section Lists

/-- The bytes at the addresses, the first one lowest. -/
def gather (mem : Mem) : List (BitVec 64) → BitVec 64
  | [] => 0#64
  | a :: as => (mem a).setWidth 64 ||| (gather mem as <<< 8)

/-- Store the bytes of a word at the addresses, the lowest at the first one. -/
def scatter (mem : Mem) : List (BitVec 64) → BitVec 64 → Mem
  | [], _ => mem
  | a :: as, v => scatter (Function.update mem a (v.setWidth 8)) as (v >>> 8)

def consecutive (a : BitVec 64) (n : Nat) : List (BitVec 64) := (List.range n).map fun i => a + BitVec.ofNat 64 i

theorem consecutive_succ (a : BitVec 64) (n : Nat) :
    consecutive a (n + 1) = consecutive a n ++ [a + BitVec.ofNat 64 n] := by
  rw [consecutive, List.range_succ, List.map_append, List.map_singleton]
  rfl

@[simp] theorem length_consecutive (a : BitVec 64) (n : Nat) : (consecutive a n).length = n := by
  rw [consecutive, List.length_map, List.length_range]

theorem gather_append (mem : Mem) (as : List (BitVec 64)) (a : BitVec 64) :
    gather mem (as ++ [a]) = gather mem as ||| ((mem a).setWidth 64 <<< (8 * as.length)) := by
  induction as with
  | nil => simp [gather]
  | cons b as ih =>
    rw [List.cons_append, gather, gather, ih, BitVec.shiftLeft_or_distrib, ← BitVec.shiftLeft_add, BitVec.or_assoc,
      List.length_cons, Nat.mul_succ]

theorem scatter_append (mem : Mem) (as : List (BitVec 64)) (a v : BitVec 64) :
    scatter mem (as ++ [a]) v = Function.update (scatter mem as v) a ((v >>> (8 * as.length)).setWidth 8) := by
  induction as generalizing mem v with
  | nil => simp [scatter]
  | cons b as ih =>
    rw [List.cons_append, scatter, scatter, ih, ← BitVec.shiftRight_add, List.length_cons, Nat.mul_succ,
      Nat.add_comm 8]

theorem gather_consecutive (mem : Mem) (a : BitVec 64) (n : Nat) : gather mem (consecutive a n) = read mem a n := by
  induction n with
  | zero => rfl
  | succ n ih =>
    rw [consecutive_succ, gather_append, ih, length_consecutive]
    rfl

theorem scatter_consecutive (mem : Mem) (a v : BitVec 64) (hn : n ≤ 8) :
    scatter mem (consecutive a n) v = write mem a n v := by
  induction n with
  | zero => rfl
  | succ n ih =>
    rw [consecutive_succ, scatter_append, ih (by omega), length_consecutive]
    funext x
    have hlast : x = a + BitVec.ofNat 64 n ↔ (x - a).toNat = n := by
      rw [← BitVec.toNat_inj, BitVec.toNat_add, BitVec.toNat_sub, BitVec.toNat_ofNat]
      have hx := x.isLt
      have ha := a.isLt
      omega
    by_cases hx : x = a + BitVec.ofNat 64 n
    · have hoff := hlast.mp hx
      rw [hx, Function.update_self, ← hx, write, if_pos (by omega), hoff]
    have hoff : (x - a).toNat ≠ n := fun h => hx (hlast.mpr h)
    rw [Function.update_of_ne hx, write, write]
    by_cases hin : (x - a).toNat < n
    · rw [if_pos hin, if_pos (by omega)]
    · rw [if_neg hin, if_neg (by omega)]

end Lists

inductive Kind where
  | load | store
  deriving DecidableEq, Repr

def Kind.access : Kind → AccessType
  | load => .read
  | store => .write

/-- The cause latched for an address that is not backed. -/
def Kind.cause : Kind → BitVec 64
  | load => 5#64
  | store => 7#64

/-- The helper calls of more than one byte. -/
inductive Width where
  | half | word | double
  deriving DecidableEq, Repr

def Width.bytes : Width → Nat
  | half => 2
  | word => 4
  | double => 8

def Width.size (w : Width) : BitVec 64 := BitVec.ofNat 64 w.bytes

section

variable (s : FullSystemCpu)

def fault (cause gva : BitVec 64) : FullSystemCpu := { s with cpu := s.cpu.latch cause gva }

/-- Translate an access and check that physical memory is there, as both helpers do. -/
def locate (kind : Kind) (gva size : BitVec 64) : FullSystemCpu × Option (BitVec 64) :=
  match s.translateForHelper gva kind.access size with
  | (s', some pa) => if s'.isPhysBacked pa size then (s', some pa) else (fault s' kind.cause gva, none)
  | (s', none) => (s', none)

/-- The physical bytes a helper reads or writes. -/
def helperBytes (kind : Kind) (gva : BitVec 64) (w : Width) : FullSystemCpu × Option (List (BitVec 64)) :=
  match locate s kind gva w.size with
  | (s', some pa) => (s', some (consecutive pa w.bytes))
  | (s', none) => (s', none)

/-- The physical bytes of single-byte accesses at `gva` and the addresses after it, up to the first fault. -/
def ownBytes (s : FullSystemCpu) (kind : Kind) (gva : BitVec 64) : Nat → FullSystemCpu × Option (List (BitVec 64))
  | 0 => (s, some [])
  | n + 1 =>
    match ownBytes s kind gva n with
    | (s', none) => (s', none)
    | (s', some pas) =>
      match locate s' kind (gva + BitVec.ofNat 64 n) 1#64 with
      | (s'', some pa) => (s'', some (pas ++ [pa]))
      | (s'', none) => (s'', none)

/-- A load as the composition of single-byte accesses. -/
def loadBytes (gva : BitVec 64) (w : Width) : FullSystemCpu × BitVec 64 :=
  match ownBytes s .load gva w.bytes with
  | (s', some pas) => (s', gather s'.mem pas)
  | (s', none) => (s', 0#64)

/-- A store as the composition of single-byte accesses; nothing is written unless all of them pass. -/
def storeBytes (gva val : BitVec 64) (w : Width) : FullSystemCpu :=
  match ownBytes s .store gva w.bytes with
  | (s', some pas) => { s' with mem := scatter s'.mem pas val }
  | (s', none) => s'

/-! ## Where the bytes come from -/

/-- The page of an address: where it leads and the memory with its accessed and dirty bits set. -/
def pageMap (access : AccessType) (gva : BitVec 64) : Except Exception (Mem × BitVec 64) :=
  if translationMode s.cpu (dataPriv s) = satpModeBare then .ok (s.mem, gva)
  else do
    let l ← s.cpu.mmu.walkPageTable s.mem gva access (some s.cpu.pmp) (dataPriv s)
    checkPerm l.perm access (dataPriv s) s.cpu.csr.mstatus
    let mem ← updateAd s.mem l access (some s.cpu.pmp) (dataPriv s)
    return (mem, l.phys gva)

/-- A physical range that PMP grants and that is backed. -/
def granted (kind : Kind) (pa size : BitVec 64) : Bool :=
  grants s.cpu.pmp pa size kind.access (dataPriv s) && s.isPhysBacked pa size

/-- The system with another TLB and other page-table bits. -/
def touched (tlb : Fin 256 → TlbEntry) (mem : Mem) : FullSystemCpu :=
  { withTlb s tlb with mem := mem }

end

section Page

variable {s : FullSystemCpu} {access : AccessType} {gva : BitVec 64} {mem' : Mem} {pa : BitVec 64}

theorem pageMap_bare (hbare : translationMode s.cpu (dataPriv s) = satpModeBare) (access : AccessType)
    (gva : BitVec 64) : pageMap s access gva = .ok (s.mem, gva) := if_pos hbare

theorem pageMap_ok_iff (hpaged : translationMode s.cpu (dataPriv s) ≠ satpModeBare) :
    pageMap s access gva = .ok (mem', pa) ↔
      ∃ l, s.cpu.mmu.walkPageTable s.mem gva access (some s.cpu.pmp) (dataPriv s) = .ok l ∧
        checkPerm l.perm access (dataPriv s) s.cpu.csr.mstatus = .ok () ∧
        updateAd s.mem l access (some s.cpu.pmp) (dataPriv s) = .ok mem' ∧ pa = l.phys gva := by
  rw [pageMap, if_neg hpaged]
  constructor
  · intro h
    cases hwalk : s.cpu.mmu.walkPageTable s.mem gva access (some s.cpu.pmp) (dataPriv s) with
    | error e =>
      rw [hwalk] at h
      cases h
    | ok l =>
      rw [hwalk] at h
      cases hperm : checkPerm l.perm access (dataPriv s) s.cpu.csr.mstatus with
      | error e =>
        simp only [bind, Except.bind, hperm] at h
        cases h
      | ok u =>
        cases had : updateAd s.mem l access (some s.cpu.pmp) (dataPriv s) with
        | error e =>
          simp only [bind, Except.bind, hperm, had] at h
          cases h
        | ok mem =>
          simp only [bind, Except.bind, hperm, had] at h
          cases h
          exact ⟨l, rfl, hperm, had, rfl⟩
  · rintro ⟨l, hwalk, hperm, had, rfl⟩
    simp only [hwalk, hperm, had, bind, Except.bind]
    rfl

/-- The page does not depend on the TLB. -/
theorem pageMap_touched (s : FullSystemCpu) (tlb : Fin 256 → TlbEntry) (mem : Mem) (access : AccessType)
    (gva : BitVec 64) : pageMap (touched s tlb mem) access gva = pageMap { s with mem := mem } access gva := by
  have hwalk : (touched s tlb mem).cpu.mmu.walkPageTable (touched s tlb mem).mem gva access
      (some (touched s tlb mem).cpu.pmp) (dataPriv (touched s tlb mem)) =
      s.cpu.mmu.walkPageTable mem gva access (some s.cpu.pmp) (dataPriv s) :=
    walkPageTable_tlb s.cpu.mmu tlb mem gva access (some s.cpu.pmp) (dataPriv s)
  rw [pageMap, hwalk]
  rfl

/-- The update sets bits of the leaf and of nothing else. -/
theorem updateAd_cases {mem' : Mem} (h : updateAd mem l access pmp priv = .ok mem') :
    (touchPte l.pte access = l.pte ∧ mem' = mem) ∨ mem' = write mem l.pteAddr 8 (touchPte l.pte access) := by
  unfold updateAd at h
  dsimp only at h
  split at h
  · rename_i hsame
    exact Or.inl ⟨hsame, (Except.ok.inj h).symm⟩
  split at h
  · cases h
  · exact Or.inr (Except.ok.inj h).symm

def adBits (access : AccessType) : BitVec 64 :=
  if access = .write then pteA.setWidth 64 ||| pteD.setWidth 64 else pteA.setWidth 64

theorem touchPte_eq_or (pte : BitVec 64) (access : AccessType) : touchPte pte access = pte ||| adBits access := by
  unfold touchPte adBits
  split
  · exact BitVec.or_assoc ..
  · rfl

theorem touchPte_idem (pte : BitVec 64) (access : AccessType) :
    touchPte (touchPte pte access) access = touchPte pte access := by
  rw [touchPte_eq_or, touchPte_eq_or, BitVec.or_assoc, BitVec.or_self]

theorem read_updateAd {mem' : Mem}
    (hpte : read mem l.pteAddr 8 = l.pte) (h : updateAd mem l access pmp priv = .ok mem') :
    read mem' l.pteAddr 8 = touchPte l.pte access := by
  rcases updateAd_cases h with ⟨hsame, rfl⟩ | rfl
  · rw [hpte, hsame]
  · exact read_write_word ..

theorem updateAd_tableExt {m : Mmu}
    (hwalk : m.walkPageTable mem gva access pmp priv = .ok l) (h : updateAd mem l access pmp priv = .ok mem') :
    TableExt m mem mem' := by
  intro w hw
  have hleaf := walkPageTable_leafAt hwalk
  rcases updateAd_cases h with ⟨-, rfl⟩ | rfl
  · exact AdExt.refl _
  by_cases heq : w = l.pteAddr
  · rw [heq, read_write_word, hleaf.pte]
    exact AdExt.touchPte l.pte access
  · rw [read_write_other mem _ (walkWords_aligned m mem gva _ _ _ hleaf.addr) hw.aligned heq]
    exact AdExt.refl _

theorem translationMode_paged (hpaged : translationMode s.cpu (dataPriv s) ≠ satpModeBare) :
    s.cpu.mmu.satpMode ≠ satpModeBare := by
  unfold translationMode at hpaged
  split at hpaged
  · exact absurd rfl hpaged
  · exact hpaged

/-- Once a page has been looked up, every address of it leads into the same frame and nothing more is updated. -/
theorem pageMap_samePage {gva' : BitVec 64} (h : pageMap s access gva = .ok (mem', pa)) (hpage : SamePage gva gva') :
    pageMap { s with mem := mem' } access gva' = .ok (mem', (pa &&& pageMask) ||| (gva' &&& ~~~pageMask)) := by
  by_cases hbare : translationMode s.cpu (dataPriv s) = satpModeBare
  · rw [pageMap_bare hbare] at h
    cases h
    rw [pageMap_bare hbare, ← hpage]
    exact congrArg (fun a => Except.ok (s.mem, a)) ((and_or_and_not _ _ _).trans (and_add_and_not _ _)).symm
  · obtain ⟨l, hwalk, hperm, had, rfl⟩ := (pageMap_ok_iff hbare).mp h
    obtain ⟨l', hwalk', hext⟩ : ∃ l', s.cpu.mmu.walkPageTable mem' gva' access (some s.cpu.pmp) (dataPriv s) = .ok l' ∧
        LeafExt l l' :=
      walkPageTable_ext hpage (translationMode_paged hbare) (updateAd_tableExt hwalk had) hwalk
    have hperm' : checkPerm l'.perm access (dataPriv s) s.cpu.csr.mstatus = .ok () := by
      rw [checkPerm_ok_iff, permitsKind_ext hext, permitsPriv_ext hext, ← checkPerm_ok_iff]
      exact hperm
    have hset : touchPte l'.pte access = l'.pte := by
      have hpte := (walkPageTable_leafAt hwalk').pte
      rw [hext.pteAddr, read_updateAd (walkPageTable_leafAt hwalk).pte had] at hpte
      rw [← hpte, touchPte_idem]
    obtain ⟨level, hlevel, hsize⟩ := (walkPageTable_leafAt hwalk).size
    have hphys : l'.phys gva' = (l.phys gva &&& pageMask) ||| (gva' &&& ~~~pageMask) := by
      have hjoin := phys_samePage hpage (Nat.lt_of_lt_of_le hlevel (levels_le _)) hsize
      rw [page_shift] at hjoin
      rw [← hjoin, Leaf.phys, Leaf.phys, hext.ppn, hext.pgSize]
    have hpaged' : translationMode ({ s with mem := mem' } : FullSystemCpu).cpu (dataPriv { s with mem := mem' }) ≠
        satpModeBare := hbare
    exact (pageMap_ok_iff hpaged').mpr ⟨l', hwalk', hperm', if_pos hset, hphys.symm⟩

theorem byte_read (mem : Mem) (a : BitVec 64) {i : Nat} (hi : i < 8) :
    (read mem a 8 >>> (8 * i)).setWidth 8 = mem (a + BitVec.ofNat 64 i) := by
  apply BitVec.eq_of_getLsbD_eq
  intro j hj
  rw [BitVec.getLsbD_setWidth, BitVec.getLsbD_ushiftRight, getLsbD_read _ _ _ _ (by omega),
    show (8 * i + j) / 8 = i by omega, show (8 * i + j) % 8 = j by omega]
  simp [hj, show 8 * i + j < 8 * 8 by omega]

/-- Only bits have been set. -/
def Adds (mem mem' : Mem) : Prop := ∀ a, mem a ||| mem' a = mem' a

theorem Adds.refl (mem : Mem) : Adds mem mem := fun _ => BitVec.or_self

theorem Adds.trans {mem1 mem2 mem3 : Mem} (h : Adds mem1 mem2) (h' : Adds mem2 mem3) : Adds mem1 mem3 := by
  intro a
  rw [← h' a, ← BitVec.or_assoc, h a]

theorem Adds.antisymm {mem' : Mem} (h : Adds mem mem') (h' : Adds mem' mem) : mem = mem' := by
  funext a
  rw [← h a, BitVec.or_comm, h' a]

theorem adds_updateAd
    (hpte : read mem l.pteAddr 8 = l.pte) (h : updateAd mem l access pmp priv = .ok mem') : Adds mem mem' := by
  rcases updateAd_cases h with ⟨-, rfl⟩ | rfl
  · exact Adds.refl _
  intro a
  by_cases hin : (a - l.pteAddr).toNat < 8
  · have hbyte := byte_read mem l.pteAddr hin
    rw [BitVec.ofNat_toNat, BitVec.setWidth_eq, BitVec.add_comm, BitVec.sub_add_cancel, hpte] at hbyte
    rw [write, if_pos hin, touchPte_eq_or, BitVec.ushiftRight_or_distrib, BitVec.setWidth_or, hbyte,
      ← BitVec.or_assoc, BitVec.or_self]
  · rw [write_of_ge (by omega), BitVec.or_self]

theorem adds_pageMap (h : pageMap s access gva = .ok (mem', pa)) : Adds s.mem mem' := by
  by_cases hbare : translationMode s.cpu (dataPriv s) = satpModeBare
  · rw [pageMap_bare hbare] at h
    cases h
    exact Adds.refl _
  · obtain ⟨l, hwalk, -, had, -⟩ := (pageMap_ok_iff hbare).mp h
    exact adds_updateAd (walkPageTable_leafAt hwalk).pte had

/-- A miss looks up the page and then has PMP check the access itself. -/
theorem translateMiss_pageMap (hpaged : translationMode s.cpu (dataPriv s) ≠ satpModeBare) (access : AccessType)
    (gva size : BitVec 64) :
    ∃ tlb, s.cpu.mmu.translateMiss s.mem gva access (dataPriv s) s.cpu.csr.mstatus size (some s.cpu.pmp) =
      match pageMap s access gva with
      | .error e => (s.cpu.mmu, s.mem, .error e)
      | .ok (mem', pa) =>
        match checkAccess s.cpu.pmp pa size access (dataPriv s) with
        | .error e => (s.cpu.mmu, mem', .error e)
        | .ok () => ({ s.cpu.mmu with tlb := tlb }, mem', .ok pa) := by
  rw [Mmu.translateMiss, pageMap, if_neg hpaged]
  cases s.cpu.mmu.walkPageTable s.mem gva access (some s.cpu.pmp) (dataPriv s) with
  | error e => exact ⟨s.cpu.mmu.tlb, rfl⟩
  | ok l =>
    simp only [bind, Except.bind]
    cases checkPerm l.perm access (dataPriv s) s.cpu.csr.mstatus with
    | error e => exact ⟨s.cpu.mmu.tlb, rfl⟩
    | ok u =>
      cases updateAd s.mem l access (some s.cpu.pmp) (dataPriv s) with
      | error e => exact ⟨s.cpu.mmu.tlb, rfl⟩
      | ok mem' =>
        simp only [pmpCheck, pure, Except.pure]
        cases checkAccess s.cpu.pmp (l.phys gva) size access (dataPriv s) with
        | error e => exact ⟨s.cpu.mmu.tlb, rfl⟩
        | ok u => exact ⟨_, rfl⟩

theorem translateForHelper_pageMap (s : FullSystemCpu) (access : AccessType) (gva size : BitVec 64) :
    ∃ tlb, s.translateForHelper gva access size =
      match pageMap s access gva with
      | .error e => (fault s (dataFaultCause e) gva, none)
      | .ok (mem', pa) =>
        match checkAccess s.cpu.pmp pa size access (dataPriv s) with
        | .error e => (fault { s with mem := mem' } (dataFaultCause e) gva, none)
        | .ok () => (touched s tlb mem', some pa) := by
  by_cases hbare : translationMode s.cpu (dataPriv s) = satpModeBare
  · rw [translateForHelper_bare hbare, pageMap_bare hbare]
    dsimp only
    cases checkAccess s.cpu.pmp gva size access (dataPriv s) with
    | error e => exact ⟨s.cpu.mmu.tlb, rfl⟩
    | ok u => exact ⟨_, rfl⟩
  · obtain ⟨tlb, hmiss⟩ := translateMiss_pageMap hbare access gva size
    rw [translateForHelper_paged hbare, FullSystemCpu.translatePaged, hmiss]
    cases pageMap s access gva with
    | error e => exact ⟨tlb, rfl⟩
    | ok r =>
      obtain ⟨mem', pa⟩ := r
      dsimp only
      cases checkAccess s.cpu.pmp pa size access (dataPriv s) with
      | error e => exact ⟨tlb, rfl⟩
      | ok u => exact ⟨_, rfl⟩

end Page

/-! ## One range -/

section

variable {s : FullSystemCpu} {kind : Kind} {gva : BitVec 64} {mem' : Mem} {pa size : BitVec 64}

theorem locate_unmapped {e : Exception} (h : pageMap s kind.access gva = .error e) (size : BitVec 64) :
    locate s kind gva size = (fault s (dataFaultCause e) gva, none) := by
  obtain ⟨tlb, ht⟩ := translateForHelper_pageMap s kind.access gva size
  rw [locate, ht, h]

theorem accessFault_cause (kind : Kind) : dataFaultCause (accessFault kind.access) = kind.cause := by
  cases kind <;> rfl

section

variable (h : pageMap s kind.access gva = .ok (mem', pa))
include h

/-- A range of a mapped page is there as far as it is granted. -/
theorem locate_mapped (size : BitVec 64) : ∃ tlb, locate s kind gva size =
      if granted s kind pa size then (touched s tlb mem', some pa)
      else (fault (touched s tlb mem') kind.cause gva, none) := by
  obtain ⟨tlb, ht⟩ := translateForHelper_pageMap s kind.access gva size
  rw [h] at ht
  rw [locate, ht]
  dsimp only
  cases hpmp : checkAccess s.cpu.pmp pa size kind.access (dataPriv s) with
  | error e =>
    refine ⟨s.cpu.mmu.tlb, ?_⟩
    have hgrants : granted s kind pa size = false := by
      rw [granted, grants, hpmp]
      rfl
    rw [hgrants, checkAccess_error _ _ _ _ _ _ hpmp, ← accessFault_cause]
    rfl
  | ok u =>
    refine ⟨tlb, ?_⟩
    have hgrants : granted s kind pa size = s.isPhysBacked pa size := by
      rw [granted, grants, hpmp]
      exact Bool.true_and _
    rw [hgrants]
    rfl

theorem locate_granted (hg : granted s kind pa size = true) :
    ∃ tlb, locate s kind gva size = (touched s tlb mem', some pa) := by
  obtain ⟨tlb, hl⟩ := locate_mapped h size
  exact ⟨tlb, hl.trans (if_pos hg)⟩

theorem locate_denied (hg : ¬ granted s kind pa size = true) :
    ∃ tlb, locate s kind gva size = (fault (touched s tlb mem') kind.cause gva, none) := by
  obtain ⟨tlb, hl⟩ := locate_mapped h size
  exact ⟨tlb, hl.trans (if_neg hg)⟩

end

theorem locate_some (h : locate s kind gva size = (t, some pa)) :
    ∃ tlb mem', t = touched s tlb mem' ∧ pageMap s kind.access gva = .ok (mem', pa) ∧
      granted s kind pa size = true := by
  cases hpage : pageMap s kind.access gva with
  | error e =>
    rw [locate_unmapped hpage] at h
    cases h
  | ok r =>
    obtain ⟨mem', pa'⟩ := r
    obtain ⟨tlb, hl⟩ := locate_mapped hpage size
    rw [h] at hl
    split at hl
    · rename_i hg
      cases hl
      exact ⟨tlb, mem', rfl, rfl, hg⟩
    · cases hl

theorem locate_none (h : locate s kind gva size = (t, none)) : t.cpu.memFaultTval = gva := by
  cases hpage : pageMap s kind.access gva with
  | error e =>
    rw [locate_unmapped hpage] at h
    cases h
    rfl
  | ok r =>
    obtain ⟨mem', pa'⟩ := r
    obtain ⟨tlb, hl⟩ := locate_mapped hpage size
    rw [h] at hl
    split at hl
    · cases hl
    · cases hl
      rfl

end

/-! ## All bytes of an access -/

/-- What an access has found out: the latched fault, the page tables and the bytes to read or write. -/
structure Outcome where
  mem : Mem
  cause : BitVec 64
  tval : BitVec 64
  bytes : Option (List (BitVec 64))

def outcome (r : FullSystemCpu × Option (List (BitVec 64))) : Outcome :=
  ⟨r.1.mem, r.1.cpu.memFaultCause, r.1.cpu.memFaultTval, r.2⟩

/-- The helper reads or writes the bytes of the single-byte accesses, or reports their fault. -/
def Agrees (s : FullSystemCpu) (kind : Kind) (gva : BitVec 64) (w : Width) : Prop :=
  outcome (helperBytes s kind gva w) = outcome (ownBytes s kind gva w.bytes)

/-- Unless the page of the first byte is not mapped: the first byte is denied and so is the range behind
it, or the range and each of its bytes are granted, and the bytes on the following page are mapped to
the physical bytes that follow, with nothing left to update. -/
def Follows (s : FullSystemCpu) (kind : Kind) (gva : BitVec 64) (w : Width) : Prop :=
  ∀ mem' pa, pageMap s kind.access gva = .ok (mem', pa) →
    (granted s kind pa 1#64 = false ∧ granted s kind pa w.size = false) ∨
    (granted s kind pa w.size = true ∧ ∀ i < w.bytes, granted s kind (pa + BitVec.ofNat 64 i) 1#64 = true ∧
      (¬ SamePage gva (gva + BitVec.ofNat 64 i) →
        pageMap { s with mem := mem' } kind.access (gva + BitVec.ofNat 64 i) = .ok (mem', pa + BitVec.ofNat 64 i)))

section Runs

variable {s : FullSystemCpu} {kind : Kind} {gva : BitVec 64} {mem' : Mem} {pa : BitVec 64}

theorem ownBytes_succ_some {qs : List (BitVec 64)} (h : ownBytes s kind gva (n + 1) = (t, some qs)) :
    ∃ u pas q, ownBytes s kind gva n = (u, some pas) ∧ locate u kind (gva + BitVec.ofNat 64 n) 1#64 = (t, some q) ∧
      qs = pas ++ [q] := by
  rw [ownBytes] at h
  split at h
  · cases h
  rename_i u pas hn
  split at h
  · rename_i t' q hq
    cases h
    exact ⟨u, pas, q, hn, hq, rfl⟩
  · cases h

theorem ownBytes_succ_none (h : ownBytes s kind gva (n + 1) = (t, none)) : ownBytes s kind gva n = (t, none) ∨
      ∃ u pas, ownBytes s kind gva n = (u, some pas) ∧ locate u kind (gva + BitVec.ofNat 64 n) 1#64 = (t, none) := by
  rw [ownBytes] at h
  split at h
  · rename_i u hn
    cases h
    exact Or.inl hn
  rename_i u pas hn
  split at h
  · cases h
  rename_i t' ht
  cases h
  exact Or.inr ⟨u, pas, hn, ht⟩

/-- The first fault ends the access. -/
theorem ownBytes_of_first (h : locate s kind gva 1#64 = (t, none)) (n : Nat) :
    ownBytes s kind gva (n + 1) = (t, none) := by
  induction n with
  | zero =>
    have hzero : gva + BitVec.ofNat 64 0 = gva := BitVec.add_zero gva
    rw [ownBytes, ownBytes]
    dsimp only
    rw [hzero, h]
  | succ n ih => rw [ownBytes, ih]

section

variable (hpage : pageMap s kind.access gva = .ok (mem', pa))
include hpage

theorem ownBytes_of_mapped (n : Nat) (hbytes : ∀ i ≤ n, granted s kind (pa + BitVec.ofNat 64 i) 1#64 = true ∧
      (0 < i → pageMap { s with mem := mem' } kind.access (gva + BitVec.ofNat 64 i) =
        .ok (mem', pa + BitVec.ofNat 64 i))) :
    ∃ tlb, ownBytes s kind gva (n + 1) = (touched s tlb mem', some (consecutive pa (n + 1))) := by
  induction n with
  | zero =>
    have hgva : gva + BitVec.ofNat 64 0 = gva := BitVec.add_zero gva
    have hpa : pa + BitVec.ofNat 64 0 = pa := BitVec.add_zero pa
    have hg := (hbytes 0 (Nat.le_refl 0)).1
    rw [hpa] at hg
    obtain ⟨tlb, hl⟩ := locate_granted hpage hg
    refine ⟨tlb, ?_⟩
    rw [ownBytes, ownBytes]
    dsimp only
    rw [hgva, hl, consecutive_succ, hpa]
    rfl
  | succ n ih =>
    obtain ⟨tlb, hn⟩ := ih fun i hi => hbytes i (by omega)
    obtain ⟨hg, hmap⟩ := hbytes (n + 1) (Nat.le_refl _)
    have hmap' : pageMap (touched s tlb mem') kind.access (gva + BitVec.ofNat 64 (n + 1)) =
        .ok (mem', pa + BitVec.ofNat 64 (n + 1)) := by
      rw [pageMap_touched]
      exact hmap (Nat.succ_pos n)
    have hg' : granted (touched s tlb mem') kind (pa + BitVec.ofNat 64 (n + 1)) 1#64 = true := hg
    obtain ⟨tlb', hl⟩ := locate_granted hmap' hg'
    refine ⟨tlb', ?_⟩
    rw [ownBytes, hn]
    dsimp only
    rw [hl, consecutive_succ pa (n + 1)]
    rfl

/-- An access that passes from its first byte on: page tables only gain bits, and if they have gained none since the
first byte and the bytes are consecutive, then each of them is mapped and granted in its place. -/
theorem ownBytes_some (n : Nat) : ∀ t pas, ownBytes s kind gva (n + 1) = (t, some pas) →
      (∃ tlb, t = touched s tlb t.mem) ∧ Adds mem' t.mem ∧ (t.mem = mem' → pas = consecutive pa (n + 1) → ∀ i ≤ n,
        granted s kind (pa + BitVec.ofNat 64 i) 1#64 = true ∧
        (0 < i → pageMap { s with mem := mem' } kind.access (gva + BitVec.ofNat 64 i) =
          .ok (mem', pa + BitVec.ofNat 64 i))) := by
  induction n with
  | zero =>
    intro t pas h
    obtain ⟨u, ps, q, hu, hq, rfl⟩ := ownBytes_succ_some h
    cases hu
    have hgva : gva + BitVec.ofNat 64 0 = gva := BitVec.add_zero gva
    have hpa : pa + BitVec.ofNat 64 0 = pa := BitVec.add_zero pa
    rw [hgva] at hq
    obtain ⟨tlb, mem1, rfl, hmap, hg⟩ := locate_some hq
    cases hpage.symm.trans hmap
    refine ⟨⟨tlb, rfl⟩, Adds.refl _, fun _ _ i hi => ?_⟩
    obtain rfl : i = 0 := by omega
    rw [hpa]
    exact ⟨hg, fun h0 => absurd h0 (Nat.lt_irrefl 0)⟩
  | succ n ih =>
    intro t pas h
    obtain ⟨u, ps, q, hu, hq, rfl⟩ := ownBytes_succ_some h
    obtain ⟨⟨tlb, hut⟩, hadds, hrest⟩ := ih u ps hu
    rw [hut] at hq
    obtain ⟨tlb', mem1, rfl, hmap, hg⟩ := locate_some hq
    rw [pageMap_touched] at hmap
    have hmore : Adds ({ s with mem := u.mem } : FullSystemCpu).mem mem1 := adds_pageMap hmap
    refine ⟨⟨tlb', rfl⟩, hadds.trans hmore, fun hmem hpas i hi => ?_⟩
    have hmem1 : mem1 = mem' := hmem
    have humem : u.mem = mem' := (hadds.antisymm (hmem1 ▸ hmore)).symm
    rw [consecutive_succ] at hpas
    obtain ⟨hps, hlast⟩ := List.append_inj' hpas rfl
    have hq' : q = pa + BitVec.ofNat 64 (n + 1) := List.singleton_inj.mp hlast
    by_cases hin : i ≤ n
    · exact hrest humem hps i hin
    obtain rfl : i = n + 1 := by omega
    rw [humem, hmem1, hq'] at hmap
    rw [hq'] at hg
    exact ⟨hg, fun _ => hmap⟩

/-- A fault after the first byte is reported with a later address. -/
theorem ownBytes_none (hg : granted s kind pa 1#64 = true) (n : Nat) : ∀ t, ownBytes s kind gva n = (t, none) →
      ∃ i, 0 < i ∧ i < n ∧ t.cpu.memFaultTval = gva + BitVec.ofNat 64 i := by
  induction n with
  | zero =>
    intro t h
    cases h
  | succ n ih =>
    intro t h
    rcases ownBytes_succ_none h with hn | ⟨u, pas, hu, ht⟩
    · obtain ⟨i, hpos, hi, htval⟩ := ih t hn
      exact ⟨i, hpos, by omega, htval⟩
    refine ⟨n, Nat.pos_of_ne_zero fun hzero => ?_, Nat.lt_succ_self n, locate_none ht⟩
    subst hzero
    cases hu
    have hgva : gva + BitVec.ofNat 64 0 = gva := BitVec.add_zero gva
    obtain ⟨tlb, hl⟩ := locate_granted hpage hg
    rw [hgva, hl] at ht
    cases ht

end

/-- The addresses of a page are mapped one after the other. -/
theorem page_offset {gva pa d : BitVec 64} (hoff : KeepsOffset gva pa) (hpage : SamePage gva (gva + d)) :
    (pa &&& pageMask) ||| ((gva + d) &&& ~~~pageMask) = pa + d := by
  have hlow : (gva + d) &&& ~~~pageMask = (gva &&& ~~~pageMask) + d := by
    have hsum := and_add_and_not (gva + d) pageMask
    rw [hpage] at hsum
    apply (BitVec.add_right_inj (gva &&& pageMask)).mp
    rw [hsum, ← BitVec.add_assoc, and_add_and_not]
  have hpa : (pa &&& pageMask) + (gva &&& ~~~pageMask) = pa := by
    rw [← and_or_and_not]
    exact hoff.symm
  rw [and_or_and_not, hlow, ← BitVec.add_assoc, hpa]

theorem pageMap_keepsOffset (h : pageMap s kind.access gva = .ok (mem', pa)) : KeepsOffset gva pa := by
  by_cases hbare : translationMode s.cpu (dataPriv s) = satpModeBare
  · rw [pageMap_bare hbare] at h
    cases h
    exact ((and_or_and_not _ _ _).trans (and_add_and_not _ _)).symm
  · obtain ⟨l, hwalk, -, -, rfl⟩ := (pageMap_ok_iff hbare).mp h
    exact keepsOffset_phys hwalk

/-- So the bytes on the page of the first one need no further condition. -/
theorem pageMap_inPage (h : pageMap s kind.access gva = .ok (mem', pa)) {d : BitVec 64}
    (hpage : SamePage gva (gva + d)) : pageMap { s with mem := mem' } kind.access (gva + d) = .ok (mem', pa + d) := by
  rw [pageMap_samePage h hpage, page_offset (pageMap_keepsOffset h) hpage]

theorem Width.two_le (w : Width) : 2 ≤ w.bytes := by cases w <;> decide

theorem Width.le_eight (w : Width) : w.bytes ≤ 8 := by cases w <;> decide

theorem helperBytes_granted {w : Width} (h : pageMap s kind.access gva = .ok (mem', pa))
    (hg : granted s kind pa w.size = true) : outcome (helperBytes s kind gva w) =
      ⟨mem', s.cpu.memFaultCause, s.cpu.memFaultTval, some (consecutive pa w.bytes)⟩ := by
  obtain ⟨tlb, hl⟩ := locate_granted h hg
  rw [helperBytes, hl]
  rfl

theorem helperBytes_denied {w : Width} (h : pageMap s kind.access gva = .ok (mem', pa))
    (hg : granted s kind pa w.size = false) : outcome (helperBytes s kind gva w) = ⟨mem', kind.cause, gva, none⟩ := by
  obtain ⟨tlb, hl⟩ := locate_denied h (Bool.eq_false_iff.mp hg)
  rw [helperBytes, hl]
  rfl

/-- When the page of the first byte is not mapped both report it. -/
theorem agrees_of_unmapped {e : Exception} (h : pageMap s kind.access gva = .error e) (w : Width) :
    Agrees s kind gva w := by
  obtain ⟨n, hn⟩ : ∃ n, w.bytes = n + 1 := ⟨w.bytes - 1, by have := w.two_le; omega⟩
  rw [Agrees, helperBytes, locate_unmapped h, hn, ownBytes_of_first (locate_unmapped h 1#64)]

theorem agrees_denied_iff (h : pageMap s kind.access gva = .ok (mem', pa)) (hg : granted s kind pa 1#64 = false)
    (w : Width) : Agrees s kind gva w ↔ granted s kind pa w.size = false := by
  obtain ⟨n, hn⟩ : ∃ n, w.bytes = n + 1 := ⟨w.bytes - 1, by have := w.two_le; omega⟩
  obtain ⟨tlb, hl⟩ := locate_denied h (Bool.eq_false_iff.mp hg)
  have hown : outcome (ownBytes s kind gva w.bytes) = ⟨mem', kind.cause, gva, none⟩ := by
    rw [hn, ownBytes_of_first hl]
    rfl
  rw [Agrees, hown]
  constructor
  · intro hagree
    by_contra hgranted
    rw [helperBytes_granted h (Bool.not_eq_false _ ▸ hgranted)] at hagree
    cases congrArg Outcome.bytes hagree
  · exact helperBytes_denied h

/-- When the first byte is granted they agree if each byte is found in its place. -/
theorem agrees_granted_iff (h : pageMap s kind.access gva = .ok (mem', pa)) (hg : granted s kind pa 1#64 = true)
    (w : Width) : Agrees s kind gva w ↔ granted s kind pa w.size = true ∧ ∀ i < w.bytes,
      granted s kind (pa + BitVec.ofNat 64 i) 1#64 = true ∧
      (0 < i → pageMap { s with mem := mem' } kind.access (gva + BitVec.ofNat 64 i) =
        .ok (mem', pa + BitVec.ofNat 64 i)) := by
  obtain ⟨n, hn⟩ : ∃ n, w.bytes = n + 1 := ⟨w.bytes - 1, by have := w.two_le; omega⟩
  have hlt := w.le_eight
  constructor
  · intro hagree
    rw [Agrees] at hagree
    rcases hown : ownBytes s kind gva w.bytes with ⟨t, r⟩
    rw [hown] at hagree
    cases hwhole : granted s kind pa w.size with
    | false =>
      rw [helperBytes_denied h hwhole] at hagree
      have hbytes : none = r := congrArg Outcome.bytes hagree
      subst hbytes
      obtain ⟨i, hpos, hi, htval⟩ := ownBytes_none h hg _ t hown
      have heq : gva = gva + BitVec.ofNat 64 i := (congrArg Outcome.tval hagree).trans htval
      have hzero : BitVec.ofNat 64 i = 0#64 := add_eq_left.mp heq.symm
      have hval := congrArg BitVec.toNat hzero
      rw [BitVec.toNat_ofNat, Nat.mod_eq_of_lt (by omega)] at hval
      exact absurd hval (Nat.ne_of_gt hpos)
    | true =>
      rw [helperBytes_granted h hwhole] at hagree
      have hbytes : some (consecutive pa w.bytes) = r := congrArg Outcome.bytes hagree
      have hmem : mem' = t.mem := congrArg Outcome.mem hagree
      subst hbytes
      rw [hn] at hown
      refine ⟨rfl, fun i hi => ?_⟩
      exact (ownBytes_some h n t _ hown).2.2 hmem.symm rfl i (by omega)
  · rintro ⟨hwhole, hbytes⟩
    obtain ⟨tlb, hown⟩ := ownBytes_of_mapped h n fun i hi => hbytes i (by omega)
    rw [Agrees, helperBytes_granted h hwhole, hn, hown]
    rfl

theorem agrees_iff (s : FullSystemCpu) (kind : Kind) (gva : BitVec 64) (w : Width) :
    Agrees s kind gva w ↔ Follows s kind gva w := by
  cases hpage : pageMap s kind.access gva with
  | error e =>
    refine iff_of_true (agrees_of_unmapped hpage w) fun mem' pa h => ?_
    cases hpage.symm.trans h
  | ok r =>
    obtain ⟨mem', pa⟩ := r
    have hgva : gva + BitVec.ofNat 64 0 = gva := BitVec.add_zero gva
    have hpa : pa + BitVec.ofNat 64 0 = pa := BitVec.add_zero pa
    have hpos : 0 < w.bytes := Nat.lt_of_lt_of_le (by decide) w.two_le
    cases hfirst : granted s kind pa 1#64 with
    | false =>
      rw [agrees_denied_iff hpage hfirst]
      constructor
      · intro hwhole mem1 pa1 h
        cases hpage.symm.trans h
        exact Or.inl ⟨hfirst, hwhole⟩
      · intro h
        rcases h mem' pa hpage with hdenied | ⟨-, hbytes⟩
        · exact hdenied.2
        have hg := (hbytes 0 hpos).1
        rw [hpa, hfirst] at hg
        cases hg
    | true =>
      rw [agrees_granted_iff hpage hfirst]
      constructor
      · rintro ⟨hwhole, hbytes⟩ mem1 pa1 h
        cases hpage.symm.trans h
        refine Or.inr ⟨hwhole, fun i hi => ⟨(hbytes i hi).1, fun hother => (hbytes i hi).2 ?_⟩⟩
        refine Nat.pos_of_ne_zero fun hzero => hother ?_
        rw [hzero, hgva]
        rfl
      · intro h
        rcases h mem' pa hpage with hdenied | ⟨hwhole, hbytes⟩
        · rw [hfirst] at hdenied
          cases hdenied.1
        refine ⟨hwhole, fun i hi => ⟨(hbytes i hi).1, fun _ => ?_⟩⟩
        by_cases hsame : SamePage gva (gva + BitVec.ofNat 64 i)
        · exact pageMap_inPage hpage hsame
        · exact (hbytes i hi).2 hsame

end Runs

/-! ## Results -/

/-- What a load leaves behind: memory, the latched fault and the value. -/
def loaded (r : FullSystemCpu × BitVec 64) : Mem × BitVec 64 × BitVec 64 × BitVec 64 :=
  (r.1.mem, r.1.cpu.memFaultCause, r.1.cpu.memFaultTval, r.2)

section

variable (s : FullSystemCpu)

/-- What a store leaves behind: memory and the latched fault. -/
def stored : Mem × BitVec 64 × BitVec 64 := (s.mem, s.cpu.memFaultCause, s.cpu.memFaultTval)

/-- The result of a load whose bytes are known. -/
def Outcome.load (o : Outcome) : Mem × BitVec 64 × BitVec 64 × BitVec 64 :=
  (o.mem, o.cause, o.tval, match o.bytes with
    | some pas => gather o.mem pas
    | none => 0#64)

def Outcome.store (o : Outcome) (val : BitVec 64) : Mem × BitVec 64 × BitVec 64 :=
  (match o.bytes with
    | some pas => scatter o.mem pas val
    | none => o.mem, o.cause, o.tval)

theorem Width.accessBytes_size (w : Width) : accessBytes w.size = w.bytes := by cases w <;> decide

theorem machinaMemRead_locate (gva size : BitVec 64) : s.machinaMemRead gva size =
      match locate s .load gva size with
      | (s', some pa) => (s', s'.readPhysSized pa size)
      | (s', none) => (s', 0#64) := by
  rw [FullSystemCpu.machinaMemRead, locate, Kind.access]
  rcases s.translateForHelper gva .read size with ⟨s', _ | pa⟩
  · rfl
  · dsimp only
    cases s'.isPhysBacked pa size <;> rfl

theorem machinaMemWrite_locate (gva val size : BitVec 64) : s.machinaMemWrite gva val size =
      match locate s .store gva size with
      | (s', some pa) => s'.writePhysSized pa val size
      | (s', none) => s' := by
  rw [FullSystemCpu.machinaMemWrite, locate, Kind.access]
  rcases s.translateForHelper gva .write size with ⟨s', _ | pa⟩
  · rfl
  · dsimp only
    cases s'.isPhysBacked pa size <;> rfl

/-- A helper's result is that of the bytes it finds. -/
theorem loaded_machinaMemRead (gva : BitVec 64) (w : Width) :
    loaded (s.machinaMemRead gva w.size) = (outcome (helperBytes s .load gva w)).load := by
  rw [machinaMemRead_locate, helperBytes]
  rcases locate s .load gva w.size with ⟨s', _ | pa⟩
  · rfl
  have hread : s'.readPhysSized pa w.size = gather s'.mem (consecutive pa w.bytes) := by
    rw [gather_consecutive, FullSystemCpu.readPhysSized, w.accessBytes_size]
  exact congrArg (fun v => (s'.mem, s'.cpu.memFaultCause, s'.cpu.memFaultTval, v)) hread

theorem stored_machinaMemWrite (gva val : BitVec 64) (w : Width) :
    stored (s.machinaMemWrite gva val w.size) = (outcome (helperBytes s .store gva w)).store val := by
  rw [machinaMemWrite_locate, helperBytes]
  rcases locate s .store gva w.size with ⟨s', _ | pa⟩
  · rfl
  have hwrite : write s'.mem pa (accessBytes w.size) val = scatter s'.mem (consecutive pa w.bytes) val := by
    rw [scatter_consecutive _ _ _ w.le_eight, w.accessBytes_size]
  exact congrArg (fun m => (m, s'.cpu.memFaultCause, s'.cpu.memFaultTval)) hwrite

theorem loaded_loadBytes (gva : BitVec 64) (w : Width) :
    loaded (loadBytes s gva w) = (outcome (ownBytes s .load gva w.bytes)).load := by
  rw [loadBytes]
  rcases ownBytes s .load gva w.bytes with ⟨s', _ | pas⟩ <;> rfl

theorem stored_storeBytes (gva val : BitVec 64) (w : Width) :
    stored (storeBytes s gva val w) = (outcome (ownBytes s .store gva w.bytes)).store val := by
  rw [storeBytes]
  rcases ownBytes s .store gva w.bytes with ⟨s', _ | pas⟩ <;> rfl

/-- The helpers read and write the bytes they find, and these are the bytes of the single-byte accesses, with the
same fault, exactly when the access follows in physical memory; then the results are the same. -/
theorem memory_helpers_bytewise_iff (s : FullSystemCpu) (gva : BitVec 64) (w : Width) :
    loaded (s.machinaMemRead gva w.size) = (outcome (helperBytes s .load gva w)).load ∧
    (∀ val, stored (s.machinaMemWrite gva val w.size) = (outcome (helperBytes s .store gva w)).store val) ∧
    (∀ kind, Agrees s kind gva w ↔ Follows s kind gva w) ∧
    (Follows s .load gva w → loaded (s.machinaMemRead gva w.size) = loaded (loadBytes s gva w)) ∧
    (Follows s .store gva w → ∀ val, stored (s.machinaMemWrite gva val w.size) = stored (storeBytes s gva val w)) := by
  refine ⟨loaded_machinaMemRead s gva w, fun val => stored_machinaMemWrite s gva val w,
    fun kind => agrees_iff s kind gva w, fun h => ?_, fun h val => ?_⟩
  · rw [loaded_machinaMemRead, loaded_loadBytes, (agrees_iff s .load gva w).mpr h]
  · rw [stored_machinaMemWrite, stored_storeBytes, (agrees_iff s .store gva w).mpr h]

/-- A root table at the start of RAM whose only entry maps the first gigabyte to all of RAM. -/
def lowTable : Mem := write (fun _ => 0#8) 0x80000000#64 8 0x200000C7#64

end

/-- Machine mode opens PMP, sets up the table and enters supervisor mode; RAM has two gigabytes. -/
def lowSystem : FullSystemCpu :=
  let s := ramSystem lowTable
  [.csrHelper 0x3B0#64 (BitVec.allOnes 64) 1 1 0#64, .csrHelper 0x3A0#64 0x1F#64 1 1 0#64,
    .csrHelper 0x180#64 0x8000000000080000#64 1 1 0#64, .csrHelper 0x300#64 0x800#64 1 1 0#64,
    .mret].foldl MachinaMachine.step { s with cpu := { s.cpu with ramEnd := 0x100000000#64 } }

/-- Across the end of the mapped gigabyte the helpers load and store without a fault, although the second page is
not mapped. -/
theorem helpers_cross_into_unmapped_page : (lowSystem.machinaMemRead 0x3FFFFFFC#64 8#64).1.cpu.memFaultCause = 0#64 ∧
      (loadBytes lowSystem 0x3FFFFFFC#64 .double).1.cpu.memFaultCause = 13#64 ∧
      (loadBytes lowSystem 0x3FFFFFFC#64 .double).1.cpu.memFaultTval = 0x40000000#64 ∧
      (lowSystem.machinaMemWrite 0x3FFFFFFC#64 (BitVec.allOnes 64) 8#64).mem 0xC0000000#64 = 0xFF#8 ∧
      (storeBytes lowSystem 0x3FFFFFFC#64 (BitVec.allOnes 64) .double).mem 0xC0000000#64 = 0#8 := by
  decide +kernel

end MachinaMemBytes
