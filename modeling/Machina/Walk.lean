import Machina.Mmu

/-!
# What a page-table walk depends on

A walk depends on the page of its address and on the page-table words it reads,
and on those only up to the accessed and dirty bits. Both are needed to compare
the walk that filled a TLB entry with a later one for the same page.
-/

namespace MachinaWalk

open MachinaBits MachinaRiscv MachinaPmp MachinaMmu MachinaByteMem
open BitVec (getLsbD_or getLsbD_and eq_of_getLsbD_eq getLsbD_setWidth)

variable {access access' : AccessType} {gva gva' mstatus pte x y : BitVec 64} {l : Leaf} {mem : Mem} {m : Mmu}
    {i level : Nat} {pmp : Option Pmp} {priv : PrivLevel}

def adMask : BitVec 64 := 0xC0#64

/-- `y` is `x` with some accessed and dirty bits added. -/
def AdExt (x y : BitVec 64) : Prop := y = x ||| (y &&& adMask)

theorem AdExt.refl (x : BitVec 64) : AdExt x x := by
  unfold AdExt
  ext i hi
  simp only [BitVec.getElem_or, BitVec.getElem_and]
  cases x[i] <;> rfl

theorem getLsbD_adMask (i : Nat) : adMask.getLsbD i = (decide (i = 6) || decide (i = 7)) := by
  by_cases h : i < 64
  · revert h
    revert i
    decide
  · rw [BitVec.getLsbD_of_ge _ _ (by omega)]
    simp [show i ≠ 6 by omega, show i ≠ 7 by omega]

theorem AdExt.getLsbD (h : AdExt x y) (h6 : i ≠ 6) (h7 : i ≠ 7) : y.getLsbD i = x.getLsbD i := by
  rw [h, getLsbD_or, getLsbD_and, getLsbD_adMask]
  simp [h6, h7]

theorem AdExt.mono (h : AdExt x y) (hx : x.getLsbD i = true) : y.getLsbD i = true := by
  rw [h, getLsbD_or, hx, Bool.true_or]

theorem AdExt.trans {z : BitVec 64} (hxy : AdExt x y) (hyz : AdExt y z) : AdExt x z := by
  unfold AdExt
  apply eq_of_getLsbD_eq
  intro i hi
  rw [getLsbD_or, getLsbD_and, getLsbD_adMask]
  by_cases had : i = 6 ∨ i = 7
  · have hmask : (decide (i = 6) || decide (i = 7)) = true := by simpa using had
    rw [hmask, Bool.and_true]
    cases hx : x.getLsbD i with
    | false => rw [Bool.false_or]
    | true => rw [hyz.mono (hxy.mono hx), Bool.true_or]
  · obtain ⟨h6, h7⟩ := not_or.mp had
    rw [hyz.getLsbD h6 h7, hxy.getLsbD h6 h7]
    simp [h6, h7]

theorem AdExt.and (h : AdExt x y) (k : BitVec 64) : AdExt (x &&& k) (y &&& k) := by
  unfold AdExt
  apply eq_of_getLsbD_eq
  intro i hi
  have hbit : y.getLsbD i = (x.getLsbD i || (y.getLsbD i && adMask.getLsbD i)) := by
    rw [← getLsbD_and, ← getLsbD_or, ← h]
  simp only [getLsbD_or, getLsbD_and]
  revert hbit
  cases x.getLsbD i <;> cases y.getLsbD i <;> cases k.getLsbD i <;> cases adMask.getLsbD i <;> decide

theorem AdExt.ptePpn (h : AdExt x y) : ptePpn y = ptePpn x := by
  have hhigh : AgreeFrom 10 y x := fun i hi => h.getLsbD (by omega) (by omega)
  rw [MachinaMmu.ptePpn, MachinaMmu.ptePpn, hhigh.ushiftRight (Nat.le_refl 10)]

/-- A test of a mask without A and D. -/
theorem AdExt.has (h : AdExt x y) {mask : BitVec 64} (hmask : mask &&& adMask = 0#64) : has y mask = has x mask := by
  have hand : y &&& mask = x &&& mask := by
    apply eq_of_getLsbD_eq
    intro i hi
    rw [getLsbD_and, getLsbD_and]
    by_cases had : i = 6 ∨ i = 7
    · have hzero : (mask &&& adMask).getLsbD i = false := by rw [hmask]; simp
      rw [getLsbD_and, getLsbD_adMask] at hzero
      have hm : mask.getLsbD i = false := by
        rcases had with rfl | rfl <;> simpa using hzero
      rw [hm, Bool.and_false, Bool.and_false]
    · obtain ⟨h6, h7⟩ := not_or.mp had
      rw [h.getLsbD h6 h7]
  rw [MachinaBits.has, MachinaBits.has, hand]

theorem AdExt.standardView (h : AdExt x y) (m : Mmu) : AdExt (m.pteStandardView x) (m.pteStandardView y) := by
  have hsupported : isSupportedSvnapotPte y = isSupportedSvnapotPte x := by
    rw [isSupportedSvnapotPte, isSupportedSvnapotPte, h.ptePpn, h.has (by decide)]
  unfold Mmu.pteStandardView Mmu.theadMaeeAttrMask
  rw [hsupported]
  split
  · exact h.and _
  · exact h

def permOf (pte : BitVec 64) : BitVec 8 := (pte &&& 0xFF#64).setWidth 8

theorem has_permOf (pte : BitVec 64) {k : Nat} (hk : k < 8) : has (permOf pte) (bit k) = pte.getLsbD k := by
  have hmask : (0xFF#64).getLsbD k = true := by
    revert k
    decide
  rw [has_bit _ hk, permOf, getLsbD_setWidth, getLsbD_and, hmask]
  simp [hk]

theorem permOf_standardView (m : Mmu) (pte : BitVec 64) : permOf (m.pteStandardView pte) = permOf pte := by
  have hmask : ~~~(m.theadMaeeAttrMask pte) &&& 0xFF#64 = 0xFF#64 := by
    unfold Mmu.theadMaeeAttrMask
    split <;> decide
  unfold permOf Mmu.pteStandardView
  split
  · rw [BitVec.and_assoc, hmask]
  · rfl

/-- The permission bits other than A and D. -/
theorem AdExt.has_permOf (h : AdExt x y) {k : Nat} (hk : k < 6) :
    MachinaBits.has (permOf y) (bit k) = MachinaBits.has (permOf x) (bit k) := by
  rw [MachinaWalk.has_permOf y (by omega), MachinaWalk.has_permOf x (by omega)]
  exact h.getLsbD (by omega) (by omega)

/-- Two addresses of one 4 KiB page. -/
def SamePage (gva gva' : BitVec 64) : Prop := gva' &&& pageMask = gva &&& pageMask

theorem getLsbD_pageMask (i : Nat) : pageMask.getLsbD i = (decide (12 ≤ i) && decide (i < 64)) := by
  by_cases h : i < 64
  · revert h
    revert i
    decide
  · rw [BitVec.getLsbD_of_ge _ _ (by omega)]
    simp [h]

theorem SamePage.agreeFrom (h : SamePage gva gva') : AgreeFrom 12 gva' gva :=
  (agreeFrom_iff (by decide) _ _).mpr h

theorem SamePage.sshiftRight (h : SamePage gva gva') {n : Nat} (hn : 12 ≤ n) :
    gva'.sshiftRight n = gva.sshiftRight n := by
  apply eq_of_getLsbD_eq
  intro i hi
  have hmsb : gva'.msb = gva.msb := by
    rw [BitVec.msb_eq_getLsbD_last, BitVec.msb_eq_getLsbD_last]
    exact h.agreeFrom _ (by decide)
  rw [BitVec.getLsbD_sshiftRight, BitVec.getLsbD_sshiftRight, hmsb, h.agreeFrom (n + i) (by omega)]

theorem SamePage.vpnIndex (h : SamePage gva gva') (level : Nat) : vpnIndex gva' level = vpnIndex gva level := by
  rw [MachinaMmu.vpnIndex, MachinaMmu.vpnIndex, h.agreeFrom.ushiftRight (by omega)]

theorem SamePage.isCanonicalSv (h : SamePage gva gva') (mode : BitVec 64) :
    isCanonicalSv gva' mode = isCanonicalSv gva mode := by
  rw [MachinaMmu.isCanonicalSv, MachinaMmu.isCanonicalSv, h.sshiftRight (show 12 ≤ 38 by decide),
    h.sshiftRight (show 12 ≤ 47 by decide)]

theorem page_shift (x : BitVec 64) : (x >>> 12) <<< 12 = x &&& pageMask := (clear_low_eq x (by decide)).symm

theorem toNat_and_pageMask (x : BitVec 64) : (x &&& pageMask).toNat = x.toNat / 4096 * 4096 := by
  rw [show pageMask = ~~~((1#64 <<< 12) - 1#64) by decide]
  exact toNat_clear_low x (by decide)

theorem samePage_add {x : BitVec 64} {k : Nat} (h : x.toNat % 4096 + k < 4096) :
    SamePage x (x + BitVec.ofNat 64 k) := by
  apply BitVec.eq_of_toNat_eq
  rw [toNat_and_pageMask, toNat_and_pageMask, BitVec.toNat_add, BitVec.toNat_ofNat]
  omega

theorem SamePage.join (h : SamePage gva gva') : ((gva >>> 12) <<< 12) ||| (gva' &&& ~~~pageMask) = gva' := by
  have hmask : gva &&& pageMask = gva' &&& pageMask := Eq.symm h
  rw [page_shift, hmask, and_or_and_not, and_add_and_not]

/-- The later leaf is the earlier one with accessed and dirty bits added. -/
structure LeafExt (l l' : Leaf) : Prop where
  ppn : l'.ppn = l.ppn
  pgSize : l'.pgSize = l.pgSize
  pteAddr : l'.pteAddr = l.pteAddr
  pte : AdExt l.pte l'.pte
  perm : l.perm = permOf l.pte
  perm' : l'.perm = permOf l'.pte

/-- What one step of the later walk does, given the earlier step. -/
def StepExt : PteStep → PteStep → Prop
  | .leaf l, .leaf l' => LeafExt l l'
  | .descend a, .descend a' => a' = a
  | _, _ => False

theorem leafPpn_ext {pte' ppn : BitVec 64}
    (hpage : SamePage gva gva') (hpte : AdExt pte pte') (h : m.leafPpn gva access level pte = .ok ppn) :
    m.leafPpn gva' access' level pte' = .ok ppn := by
  unfold Mmu.leafPpn at h ⊢
  rw [hpte.has (show pteN &&& adMask = 0#64 by decide), hpte.ptePpn, hpage.agreeFrom.ushiftRight (Nat.le_refl 12)]
  dsimp only at h ⊢
  split at h
  · rename_i hn
    rw [if_pos hn]
    split at h
    · cases h
    rename_i hext
    rw [if_neg hext]
    split at h
    · cases h
    rename_i hlevel
    rw [if_neg hlevel]
    split at h
    · cases h
    rename_i hbits
    rw [if_neg hbits]
    exact h
  · rename_i hn
    rw [if_neg hn]
    exact h

/-- One step of the walk in the same page, with the PTE the same up to A and D. -/
theorem pteStep_ext {addr pte' : BitVec 64} {r : PteStep} (hpage : SamePage gva gva') (hpte : AdExt pte pte')
    (h : m.pteStep gva access level addr pte = .ok r) :
    ∃ r', m.pteStep gva' access' level addr pte' = .ok r' ∧ StepExt r r' := by
  have hview := hpte.standardView m
  have hflag (k : Nat) (hk : k < 6) : has (permOf (m.pteStandardView pte')) (bit k) =
      has (permOf (m.pteStandardView pte)) (bit k) := hview.has_permOf hk
  have hpbmt : has (m.pteStandardView pte') ptePbmt = has (m.pteStandardView pte) ptePbmt :=
    hview.has (by decide)
  unfold Mmu.pteStep at h ⊢
  change (if m.extSvpbmt = false ∧ has (m.pteStandardView pte) ptePbmt = true then _
    else if has (permOf (m.pteStandardView pte)) (bit 0) = false then _
    else if has (permOf (m.pteStandardView pte)) (bit 1) = false ∧
      has (permOf (m.pteStandardView pte)) (bit 2) = true then _
    else if has (permOf (m.pteStandardView pte)) (bit 1) = true ∨
      has (permOf (m.pteStandardView pte)) (bit 3) = true then _ else _) = _ at h
  change ∃ r', (if m.extSvpbmt = false ∧ has (m.pteStandardView pte') ptePbmt = true then _
    else if has (permOf (m.pteStandardView pte')) (bit 0) = false then _
    else if has (permOf (m.pteStandardView pte')) (bit 1) = false ∧
      has (permOf (m.pteStandardView pte')) (bit 2) = true then _
    else if has (permOf (m.pteStandardView pte')) (bit 1) = true ∨
      has (permOf (m.pteStandardView pte')) (bit 3) = true then _ else _) = _ ∧ _
  rw [hpbmt, hflag 0 (by decide), hflag 1 (by decide), hflag 2 (by decide), hflag 3 (by decide)]
  split at h
  · cases h
  rename_i h1
  rw [if_neg h1]
  split at h
  · cases h
  rename_i h2
  rw [if_neg h2]
  split at h
  · cases h
  rename_i h3
  rw [if_neg h3]
  split at h
  · rename_i h4
    rw [if_pos h4]
    split at h
    · cases h
    rename_i ppn hppn
    rw [leafPpn_ext hpage hview hppn]
    dsimp only
    rw [hview.ptePpn]
    split at h
    · cases h
    rename_i h5
    rw [if_neg h5]
    cases h
    exact ⟨_, rfl, rfl, rfl, rfl, hpte, permOf_standardView m pte, permOf_standardView m pte'⟩
  · rename_i h4
    rw [if_neg h4]
    cases h
    exact ⟨_, rfl, congrArg (· * pageSize) hpte.ptePpn⟩

/-- The page-table words the walk for an address reads, below the table at `a`. -/
def walkWords (m : Mmu) (mem : Mem) (gva : BitVec 64) : Nat → BitVec 64 → List (BitVec 64)
  | 0, _ => []
  | level + 1, a =>
    let pteAddr := a + vpnIndex gva level * pteSize
    pteAddr ::
      match m.pteStep gva .read level pteAddr (read mem pteAddr 8) with
      | .ok (.descend next) => walkWords m mem gva level next
      | _ => []

/-- The number of levels of the current mode. -/
def levels (m : Mmu) : Nat := if m.satpMode = satpModeSv48 then 4 else 3

def root (m : Mmu) : BitVec 64 := (m.satp &&& satpPpnMask) * pageSize

/-- The words of the page table that satp points to. In bare mode there is none. -/
def PageTableWord (m : Mmu) (mem : Mem) (w : BitVec 64) : Prop :=
  m.satpMode ≠ satpModeBare ∧ ∃ gva, w ∈ walkWords m mem gva (levels m) (root m)

/-- The page table is the same up to added accessed and dirty bits. -/
def TableExt (m : Mmu) (mem mem' : Mem) : Prop :=
  ∀ w, PageTableWord m mem w → AdExt (read mem w 8) (read mem' w 8)

theorem walkFrom_ext {mem' : Mem} (hpage : SamePage gva gva') : ∀ (n : Nat) (a : BitVec 64) (l : Leaf),
      (∀ w ∈ walkWords m mem gva n a, AdExt (read mem w 8) (read mem' w 8)) →
      m.walkFrom mem gva access pmp priv n a = .ok l →
      ∃ l', m.walkFrom mem' gva' access' pmp priv n a = .ok l' ∧ LeafExt l l' := by
  intro n
  induction n with
  | zero =>
    intro a l _ h
    cases h
  | succ level ih =>
    intro a l hwords h
    rw [Mmu.walkFrom] at h ⊢
    rw [walkWords] at hwords
    rw [hpage.vpnIndex]
    generalize a + vpnIndex gva level * pteSize = pteAddr at h hwords ⊢
    cases hpmp : pmpCheck pmp pteAddr pteSize .read priv with
    | error e =>
      rw [hpmp] at h
      cases h
    | ok u =>
      rw [hpmp] at h
      have hext := hwords pteAddr (List.mem_cons_self ..)
      cases hstep : m.pteStep gva access level pteAddr (read mem pteAddr 8) with
      | error e =>
        rw [hstep] at h
        cases h
      | ok r =>
        rw [hstep] at h
        obtain ⟨r', hr', hrel⟩ : ∃ r', m.pteStep gva' access' level pteAddr (read mem' pteAddr 8) = .ok r' ∧
            StepExt r r' := pteStep_ext hpage hext hstep
        obtain ⟨q, hq, hqrel⟩ : ∃ q, m.pteStep gva .read level pteAddr (read mem pteAddr 8) = .ok q ∧
            StepExt r q := pteStep_ext (show SamePage gva gva from rfl) (AdExt.refl _) hstep
        rw [hr']
        cases r with
        | leaf l1 =>
          cases h
          cases r' with
          | leaf l' => exact ⟨l', rfl, hrel⟩
          | descend a' => exact False.elim hrel
        | descend next =>
          cases r' with
          | leaf l' => exact False.elim hrel
          | descend next' =>
            cases q with
            | leaf l' => exact False.elim hqrel
            | descend next'' =>
              cases hrel
              cases hqrel
              rw [hq] at hwords
              exact ih next l (fun w hw => hwords w (List.mem_cons_of_mem _ hw)) h

/-- A later walk in the same page finds the same leaf, up to A and D. -/
theorem walkPageTable_ext {mem' : Mem} (hpage : SamePage gva gva') (hmode : m.satpMode ≠ satpModeBare)
    (htable : TableExt m mem mem') (h : m.walkPageTable mem gva access pmp priv = .ok l) :
    ∃ l', m.walkPageTable mem' gva' access' pmp priv = .ok l' ∧ LeafExt l l' := by
  unfold Mmu.walkPageTable at h ⊢
  rw [hpage.isCanonicalSv]
  split at h
  · cases h
  rename_i hcanon
  rw [if_neg hcanon]
  exact walkFrom_ext hpage _ _ l (fun w hw => htable w ⟨hmode, gva, hw⟩) h

/-- A leaf remembers where it was read; a pointer leads to a page. -/
theorem pteStep_cases {addr : BitVec 64} {r : PteStep} (h : m.pteStep gva access level addr pte = .ok r) :
    (∃ ppn perm, r = .leaf ⟨ppn, perm, levelPageSize level, addr, pte⟩) ∨ r = .descend (ptePpn pte * pageSize) := by
  unfold Mmu.pteStep at h
  dsimp only at h
  split at h
  · cases h
  split at h
  · cases h
  · split at h
    · cases h
    · split at h
      · split at h
        · cases h
        · split at h
          · cases h
          · cases h
            exact Or.inl ⟨_, _, rfl⟩
      · cases h
        exact Or.inr rfl

/-- The leaf of a walk is one of the words it read. -/
structure LeafAt (mem : Mem) (words : List (BitVec 64)) (n : Nat) (l : Leaf) : Prop where
  addr : l.pteAddr ∈ words
  pte : read mem l.pteAddr 8 = l.pte
  size : ∃ level, level < n ∧ l.pgSize = levelPageSize level

theorem walkFrom_leafAt : ∀ (n : Nat) (a : BitVec 64) (l : Leaf), m.walkFrom mem gva access pmp priv n a = .ok l →
      LeafAt mem (walkWords m mem gva n a) n l := by
  intro n
  induction n with
  | zero =>
    intro a l h
    cases h
  | succ level ih =>
    intro a l h
    rw [Mmu.walkFrom] at h
    rw [walkWords]
    generalize a + vpnIndex gva level * pteSize = pteAddr at h ⊢
    cases hpmp : pmpCheck pmp pteAddr pteSize .read priv with
    | error e =>
      rw [hpmp] at h
      cases h
    | ok u =>
      rw [hpmp] at h
      cases hstep : m.pteStep gva access level pteAddr (read mem pteAddr 8) with
      | error e =>
        rw [hstep] at h
        cases h
      | ok r =>
        rw [hstep] at h
        obtain ⟨q, hq, hrel⟩ : ∃ q, m.pteStep gva .read level pteAddr (read mem pteAddr 8) = .ok q ∧
            StepExt r q := pteStep_ext (show SamePage gva gva from rfl) (AdExt.refl _) hstep
        rcases pteStep_cases hstep with ⟨ppn, perm, rfl⟩ | rfl
        · cases h
          exact ⟨List.mem_cons_self .., rfl, level, Nat.lt_succ_self level, rfl⟩
        cases q with
        | leaf l' => exact False.elim hrel
        | descend next =>
          cases hrel
          rw [hq]
          have hleaf := ih _ l h
          obtain ⟨k, hk, hsize⟩ := hleaf.size
          exact ⟨List.mem_cons_of_mem _ hleaf.addr, hleaf.pte, k, by omega, hsize⟩

theorem toNat_page_mod (x y : BitVec 64) : (x * pageSize + y * pteSize).toNat % 8 = 0 := by
  rw [BitVec.toNat_add, BitVec.toNat_mul, BitVec.toNat_mul, show pageSize.toNat = 4096 from rfl,
    show pteSize.toNat = 8 from rfl]
  omega

theorem walkWords_aligned (m : Mmu) (mem : Mem) (gva : BitVec 64) :
    ∀ (n : Nat) (x w : BitVec 64), w ∈ walkWords m mem gva n (x * pageSize) → w.toNat % 8 = 0 := by
  intro n
  induction n with
  | zero =>
    intro x w hw
    cases hw
  | succ level ih =>
    intro x w hw
    rw [walkWords] at hw
    rcases List.mem_cons.mp hw with rfl | hw
    · exact toNat_page_mod x _
    split at hw
    · rename_i next hstep
      rcases pteStep_cases hstep with ⟨ppn, perm, hleaf⟩ | hdesc
      · cases hleaf
      · cases hdesc
        exact ih _ w hw
    · cases hw

theorem PageTableWord.aligned {w : BitVec 64} (h : PageTableWord m mem w) : w.toNat % 8 = 0 := by
  obtain ⟨_, gva, hw⟩ := h
  exact walkWords_aligned m mem gva _ _ w hw

theorem walkPageTable_leafAt (h : m.walkPageTable mem gva access pmp priv = .ok l) :
    LeafAt mem (walkWords m mem gva (levels m) (root m)) (levels m) l := by
  unfold Mmu.walkPageTable at h
  split at h
  · cases h
  · exact walkFrom_leafAt _ _ l h

theorem walkFrom_tlb (m : Mmu) (tlb : Fin 256 → TlbEntry) (mem : Mem) (gva : BitVec 64) (access : AccessType)
    (pmp : Option Pmp) (priv : PrivLevel) (n : Nat) (a : BitVec 64) :
    ({ m with tlb := tlb } : Mmu).walkFrom mem gva access pmp priv n a =
      m.walkFrom mem gva access pmp priv n a := by
  induction n generalizing a with
  | zero => rfl
  | succ level ih =>
    simp only [Mmu.walkFrom, ih]
    rfl

theorem walkPageTable_tlb (m : Mmu) (tlb : Fin 256 → TlbEntry) (mem : Mem) (gva : BitVec 64) (access : AccessType)
    (pmp : Option Pmp) (priv : PrivLevel) : ({ m with tlb := tlb } : Mmu).walkPageTable mem gva access pmp priv =
      m.walkPageTable mem gva access pmp priv := by
  unfold Mmu.walkPageTable
  rw [walkFrom_tlb]
  rfl

theorem touchPte_eq_iff (pte : BitVec 64) (access : AccessType) :
    touchPte pte access = pte ↔ pte.getLsbD 6 = true ∧ (access = .write → pte.getLsbD 7 = true) := by
  have hor (k : Nat) (x : BitVec 64) (hk : k < 8) :
      x ||| (bit k : BitVec 8).setWidth 64 = x ↔ x.getLsbD k = true := by
    constructor
    · intro h
      rw [← h, getLsbD_or, getLsbD_setWidth, getLsbD_bit]
      simp [hk, show k < 64 by omega]
    · intro h
      apply eq_of_getLsbD_eq
      intro i hi
      rw [getLsbD_or, getLsbD_setWidth, getLsbD_bit]
      by_cases hki : k = i
      · subst hki
        simp [h]
      · simp [hki]
  unfold touchPte pteA pteD
  by_cases hw : access = .write
  · rw [if_pos hw]
    constructor
    · intro h
      have h6 : pte.getLsbD 6 = true := by
        rw [← h, getLsbD_or, getLsbD_or]
        simp [bit]
      rw [(hor 6 pte (by decide)).mpr h6] at h
      exact ⟨h6, fun _ => (hor 7 pte (by decide)).mp h⟩
    · rintro ⟨h6, h7⟩
      rw [(hor 6 pte (by decide)).mpr h6, (hor 7 pte (by decide)).mpr (h7 hw)]
  · rw [if_neg hw, hor 6 pte (by decide)]
    simp [hw]

theorem AdExt.touchPte (pte : BitVec 64) (access : AccessType) : AdExt pte (touchPte pte access) := by
  have hor (x d : BitVec 64) (hd : d &&& adMask = d) : AdExt x (x ||| d) := by
    unfold AdExt
    apply eq_of_getLsbD_eq
    intro i hi
    have hbit : (d.getLsbD i && adMask.getLsbD i) = d.getLsbD i := by rw [← getLsbD_and, hd]
    simp only [getLsbD_or, getLsbD_and]
    revert hbit
    cases x.getLsbD i <;> cases d.getLsbD i <;> cases adMask.getLsbD i <;> decide
  unfold MachinaMmu.touchPte
  split
  · exact (hor _ _ (by decide)).trans (hor _ _ (by decide))
  · exact hor _ _ (by decide)

/-- The accessed and dirty bits are in place, or PMP lets the walker set them. -/
def AdAllowed (l : Leaf) (access : AccessType) (pmp : Option Pmp) (priv : PrivLevel) : Prop :=
  touchPte l.pte access = l.pte ∨ pmpCheck pmp l.pteAddr pteSize .write priv = .ok ()

theorem AdAllowed.ext {l' : Leaf}
    (hext : LeafExt l l') (h : AdAllowed l access pmp priv) : AdAllowed l' access pmp priv := by
  rcases h with h | h
  · obtain ⟨h6, h7⟩ := (touchPte_eq_iff _ _).mp h
    exact Or.inl ((touchPte_eq_iff _ _).mpr ⟨hext.pte.mono h6, fun hw => hext.pte.mono (h7 hw)⟩)
  refine Or.inr ?_
  rw [hext.pteAddr]
  exact h

/-- What a translation that misses the TLB has to pass. -/
structure Passes (m : Mmu) (mem : Mem) (gva : BitVec 64) (access : AccessType) (priv : PrivLevel)
    (mstatus size : BitVec 64) (pmp : Option Pmp) (l : Leaf) : Prop where
  walk : m.walkPageTable mem gva access pmp priv = .ok l
  kind : permitsKind l.perm access mstatus = true
  user : permitsPriv l.perm access priv mstatus = true
  ad : AdAllowed l access pmp priv
  pmp : pmpCheck pmp (l.phys gva) size access priv = .ok ()

theorem checkPerm_ok_iff (perm : BitVec 8) (access : AccessType) (priv : PrivLevel) (mstatus : BitVec 64) :
    checkPerm perm access priv mstatus = .ok () ↔
      permitsKind perm access mstatus = true ∧ permitsPriv perm access priv mstatus = true := by
  unfold checkPerm
  rw [← Bool.and_eq_true]
  split
  · rename_i h
    exact ⟨fun _ => h, fun _ => rfl⟩
  · rename_i h
    exact ⟨fun hc => (nomatch hc), fun hc => False.elim (h hc)⟩

theorem updateAd_ok_iff (mem : Mem) (l : Leaf) (access : AccessType) (pmp : Option Pmp) (priv : PrivLevel) :
    (∃ mem', updateAd mem l access pmp priv = .ok mem') ↔ AdAllowed l access pmp priv := by
  unfold updateAd AdAllowed
  dsimp only
  split
  · rename_i h
    exact ⟨fun _ => Or.inl h, fun _ => ⟨mem, rfl⟩⟩
  rename_i h
  cases hp : pmpCheck pmp l.pteAddr pteSize .write priv with
  | error e => simp [h]
  | ok u => exact ⟨fun _ => Or.inr rfl, fun _ => ⟨_, rfl⟩⟩

/-- A miss is translated exactly when the access passes all checks; then the entry of
its page is refilled. -/
theorem translateMiss_ok_iff (m : Mmu) (mem : Mem) (gva : BitVec 64) (access : AccessType) (priv : PrivLevel)
    (mstatus size : BitVec 64) (pmp : Option Pmp) (pa : BitVec 64) :
    (m.translateMiss mem gva access priv mstatus size pmp).2.2 = .ok pa ↔
      ∃ l, Passes m mem gva access priv mstatus size pmp l ∧ pa = l.phys gva := by
  unfold Mmu.translateMiss
  constructor
  · intro h
    split at h
    · cases h
    rename_i l hwalk
    split at h
    · cases h
    rename_i hperm
    obtain ⟨hkind, huser⟩ := (checkPerm_ok_iff _ _ _ _).mp hperm
    split at h
    · cases h
    rename_i mem' had
    split at h
    · cases h
    rename_i hpmp
    cases h
    exact ⟨l, ⟨hwalk, hkind, huser, (updateAd_ok_iff mem _ _ _ _).mp ⟨mem', had⟩, hpmp⟩, rfl⟩
  · rintro ⟨l, h, rfl⟩
    obtain ⟨mem', had⟩ := (updateAd_ok_iff mem l access pmp priv).mpr h.ad
    rw [h.walk]
    dsimp only
    rw [(checkPerm_ok_iff _ _ _ _).mpr ⟨h.kind, h.user⟩]
    rw [had]
    rw [h.pmp]

theorem translateMiss_fst {size : BitVec 64} (h : Passes m mem gva access priv mstatus size pmp l) :
    (m.translateMiss mem gva access priv mstatus size pmp).1 =
      m.refill gva mstatus (touchPte l.pte access) (l.phys gva) l.pgSize := by
  obtain ⟨mem', had⟩ := (updateAd_ok_iff mem l access pmp priv).mpr h.ad
  unfold Mmu.translateMiss
  rw [h.walk]
  dsimp only
  rw [(checkPerm_ok_iff _ _ _ _).mpr ⟨h.kind, h.user⟩]
  rw [had]
  rw [h.pmp]

theorem translateMiss_error {size : BitVec 64} {e : Exception}
    (h : (m.translateMiss mem gva access priv mstatus size pmp).2.2 = .error e) :
    (m.translateMiss mem gva access priv mstatus size pmp).1 = m := by
  have hcases : (m.translateMiss mem gva access priv mstatus size pmp).1 = m ∨
      ∃ pa, (m.translateMiss mem gva access priv mstatus size pmp).2.2 = .ok pa := by
    unfold Mmu.translateMiss
    split
    · exact Or.inl rfl
    split
    · exact Or.inl rfl
    · split
      · exact Or.inl rfl
      · split
        · exact Or.inl rfl
        · exact Or.inr ⟨_, rfl⟩
  rcases hcases with hm | ⟨pa, hpa⟩
  · exact hm
  · rw [hpa] at h
    cases h

/-- Whatever comes of it, a translation only adds A and D bits to the page table. -/
theorem translateMiss_tableExt (m : Mmu) (mem : Mem) (gva : BitVec 64) (access : AccessType) (priv : PrivLevel)
    (mstatus size : BitVec 64) (pmp : Option Pmp) :
    TableExt m mem (m.translateMiss mem gva access priv mstatus size pmp).2.1 := by
  have hupdate (l : Leaf) (mem' : Mem) (hwalk : m.walkPageTable mem gva access pmp priv = .ok l)
      (had : updateAd mem l access pmp priv = .ok mem') : TableExt m mem mem' := by
    intro w hw
    unfold updateAd at had
    dsimp only at had
    split at had
    · cases had
      exact AdExt.refl _
    split at had
    · cases had
    · cases had
      have hleaf := walkPageTable_leafAt hwalk
      by_cases heq : w = l.pteAddr
      · rw [heq, read_write_word, hleaf.pte]
        exact AdExt.touchPte l.pte access
      · rw [read_write_other mem _ (walkWords_aligned m mem gva _ _ _ hleaf.addr) hw.aligned heq]
        exact AdExt.refl _
  unfold Mmu.translateMiss
  split
  · exact fun w _ => AdExt.refl _
  rename_i l hwalk
  split
  · exact fun w _ => AdExt.refl _
  split
  · exact fun w _ => AdExt.refl _
  · rename_i mem' had
    split <;> exact hupdate l mem' hwalk had

/-- The kinds whose tag a refill sets. -/
def tagged (pte mstatus : BitVec 64) : AccessType → Bool
  | .read => permitsKind (permOf pte) .read mstatus
  | .write => has (permOf pte) pteW && has (permOf pte) pteD
  | .execute => has (permOf pte) pteX

theorem tag_refill (m : Mmu) (gva mstatus newPte pa pgSize : BitVec 64) (kind : AccessType) :
    ((m.refill gva mstatus newPte pa pgSize).tlb (tlbIndex gva)).tag kind =
      if tagged newPte mstatus kind then gva &&& pageMask else tlbInvalidTag := by
  unfold Mmu.refill Mmu.setEntry
  dsimp only
  rw [Function.update_self]
  cases kind <;> rfl

theorem permitsKind_of_tagged {kind : AccessType}
    (hperm : l.perm = permOf l.pte) (h : tagged (touchPte l.pte access) mstatus kind = true) :
    permitsKind l.perm kind mstatus = true := by
  have hbit (k : Nat) (hk : k < 6) :
      has (permOf (touchPte l.pte access)) (bit k) = has (permOf l.pte) (bit k) :=
    (AdExt.touchPte l.pte access).has_permOf hk
  rw [hperm]
  cases kind with
  | read =>
    simp only [tagged, permitsKind, pteR, pteX, hbit 1 (by decide), hbit 3 (by decide)] at h ⊢
    exact h
  | write =>
    simp only [tagged, permitsKind, pteW, hbit 2 (by decide), Bool.and_eq_true] at h ⊢
    exact h.1
  | execute =>
    simp only [tagged, permitsKind, pteX, hbit 3 (by decide)] at h ⊢
    exact h

/-- A kind that gets a tag needs no A/D update the refill could not make. -/
theorem AdAllowed.of_tagged {kind : AccessType} (had : AdAllowed l access pmp priv)
    (h : tagged (MachinaMmu.touchPte l.pte access) mstatus kind = true) : AdAllowed l kind pmp priv := by
  rcases had with had | had
  · refine Or.inl ((touchPte_eq_iff _ _).mpr ⟨((touchPte_eq_iff _ _).mp had).1, fun hk => ?_⟩)
    subst hk
    rw [had] at h
    simp only [tagged, pteD, Bool.and_eq_true] at h
    rw [← has_permOf l.pte (by decide)]
    exact h.2
  · exact Or.inr had

theorem getLsbD_levelPageSize {j : Nat} (hlevel : level < 4) (hj : j < 12) :
    (levelPageSize level - 1#64).getLsbD j = true := by
  revert j
  revert level
  decide

theorem phys_samePage (hpage : SamePage gva gva') (hlevel : level < 4) (hsize : l.pgSize = levelPageSize level) :
    l.phys gva' = ((l.phys gva >>> 12) <<< 12) ||| (gva' &&& ~~~pageMask) := by
  apply eq_of_getLsbD_eq
  intro j hj
  simp only [Leaf.phys, getLsbD_or, getLsbD_and, BitVec.getLsbD_shiftLeft,
    BitVec.getLsbD_ushiftRight, BitVec.getLsbD_not, getLsbD_pageMask, hj, decide_true, Bool.true_and, Bool.and_true]
  by_cases hlow : j < 12
  · rw [hsize, getLsbD_levelPageSize hlevel hlow]
    simp [hlow]
  have hhigh : 12 ≤ j := by omega
  rw [hpage.agreeFrom j hhigh, show 12 + (j - 12) = j by omega]
  simp [hlow, hhigh, hj]

end MachinaWalk
