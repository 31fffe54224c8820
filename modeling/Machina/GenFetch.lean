import Machina.GenCode

/-!
# When the fetch of a block is right

The page that follows is looked at when the start of the block makes an instruction
across the boundary look likely, not when one is there. Otherwise the fetch goes on
in physical memory.
-/

namespace MachinaGenFetch

open MachinaBits MachinaRiscv MachinaMmu MachinaPmp MachinaByteMem MachinaFullSystem MachinaTranslate
open MachinaWalk MachinaBlocks MachinaGenCode

variable {pa va : BitVec 64} {sys s₁ s₂ : FullSystemCpu} {i : Insn} {n : Nat}

/-! ## Translating the pc -/

/-- The accessed and dirty bits are in the first byte of a page-table word. -/
theorem updateAd_off {m : Mmu} {mem mem' : Mem} {gva : BitVec 64} {access : AccessType} {pmp : Option Pmp}
    {priv : PrivLevel} {l : Leaf} (hwalk : m.walkPageTable mem gva access pmp priv = .ok l)
    (h : updateAd mem l access pmp priv = .ok mem') {a : BitVec 64} (ha : a.toNat % 8 ≠ 0) : mem' a = mem a := by
  have hleaf := walkPageTable_leafAt hwalk
  rcases MachinaMemBytes.updateAd_cases h with ⟨-, rfl⟩ | rfl
  · rfl
  by_cases hin : (a - l.pteAddr).toNat < 8
  · have halign : l.pteAddr.toNat % 8 = 0 := walkWords_aligned m mem gva _ _ _ hleaf.addr
    have hoff : 0 < (a - l.pteAddr).toNat := by
      have hlt := a.isLt
      have hlt' := l.pteAddr.isLt
      rw [BitVec.toNat_sub] at hin ⊢
      omega
    have hbyte := MachinaMemBytes.byte_read mem l.pteAddr hin
    have hbits : (MachinaMemBytes.adBits access >>> (8 * (a - l.pteAddr).toNat)).setWidth 8 = 0#8 := by
      generalize (a - l.pteAddr).toNat = k at hin hoff
      interval_cases k <;> cases access <;> decide
    rw [BitVec.ofNat_toNat, BitVec.setWidth_eq, BitVec.add_comm, BitVec.sub_add_cancel, hleaf.pte] at hbyte
    rw [write, if_pos hin, MachinaMemBytes.touchPte_eq_or, BitVec.ushiftRight_or_distrib, BitVec.setWidth_or, hbyte,
      hbits, BitVec.or_zero]
  · exact write_of_ge (by omega)

theorem translateMiss_off (m : Mmu) (mem : Mem) (gva : BitVec 64) (access : AccessType) (priv : PrivLevel)
    (mstatus size : BitVec 64) (pmp : Option Pmp) {a : BitVec 64} (ha : a.toNat % 8 ≠ 0) :
    (m.translateMiss mem gva access priv mstatus size pmp).2.1 a = mem a := by
  unfold Mmu.translateMiss
  split
  · rfl
  rename_i l hwalk
  split
  · rfl
  split
  · rfl
  · rename_i mem' had
    split <;> exact updateAd_off hwalk had ha

/-- What a successful translation of the pc leaves alone. -/
structure Moved (s s' : FullSystemCpu) : Prop where
  cause : s'.cpu.memFaultCause = s.cpu.memFaultCause
  tval : s'.cpu.memFaultTval = s.cpu.memFaultTval
  region : resolveFetchRegion s' = resolveFetchRegion s
  mem : ∀ a, a.toNat % 8 ≠ 0 → s'.mem a = s.mem a

/-- A fault is latched with its address; otherwise the offset into the page is kept. -/
theorem translatePc_cases (s : FullSystemCpu) (vpc : BitVec 64) :
    ((s.translatePc vpc).2 = fetchFault ∧ (s.translatePc vpc).1.cpu.memFaultCause ≠ 0#64 ∧
      (s.translatePc vpc).1.cpu.memFaultTval = vpc) ∨
    (KeepsOffset vpc (s.translatePc vpc).2 ∧ Moved s (s.translatePc vpc).1) := by
  unfold FullSystemCpu.translatePc
  split
  · split
    · refine Or.inr ⟨?_, rfl, rfl, rfl, fun _ _ => rfl⟩
      exact ((and_or_and_not _ _ _).trans (and_add_and_not _ _)).symm
    · exact Or.inl ⟨rfl, (by decide : (1#64 : BitVec 64) ≠ 0#64), rfl⟩
  · rw [FullSystemCpu.translatePaged]
    have hoff : ∀ a : BitVec 64, a.toNat % 8 ≠ 0 → (s.cpu.mmu.translateMiss s.mem vpc .execute s.cpu.priv
        s.cpu.csr.mstatus 2#64 (some s.cpu.pmp)).2.1 a = s.mem a :=
      fun a ha => translateMiss_off _ _ _ _ _ _ _ _ ha
    rcases hmiss : s.cpu.mmu.translateMiss s.mem vpc .execute s.cpu.priv s.cpu.csr.mstatus 2#64 (some s.cpu.pmp) with
      ⟨mmu, mem, e | pa⟩
    · refine Or.inl ⟨rfl, ?_, rfl⟩
      change fetchFaultCause e ≠ 0#64
      cases e <;> decide
    rw [hmiss] at hoff
    have hok : (s.cpu.mmu.translateMiss s.mem vpc .execute s.cpu.priv s.cpu.csr.mstatus 2#64
        (some s.cpu.pmp)).2.2 = .ok pa := by rw [hmiss]
    obtain ⟨l, hl, rfl⟩ := (translateMiss_ok_iff ..).mp hok
    exact Or.inr ⟨keepsOffset_phys hl.walk, rfl, rfl, rfl, hoff⟩

theorem nextPage_ne (pc : BitVec 64) : pc ≠ nextPage pc := by
  intro h
  have hval := congrArg BitVec.toNat h
  rw [toNat_nextPage] at hval
  omega

theorem low_and_mask (x : BitVec 64) : x &&& 0xFFF#64 = x &&& ~~~pageMask := by
  rw [show ~~~pageMask = 0xFFF#64 by decide]

theorem keepsOffset_low {gva : BitVec 64} (h : KeepsOffset gva pa) : pa &&& ~~~pageMask = gva &&& ~~~pageMask := by
  have hsum : (pa &&& pageMask) + (gva &&& ~~~pageMask) = pa := by
    rw [← and_or_and_not]
    exact h.symm
  apply (BitVec.add_right_inj (pa &&& pageMask)).mp
  rw [hsum, and_add_and_not]

/-- The rest of the page leads to the next one. -/
theorem add_pageRemain (x physPc : BitVec 64) (hlow : physPc &&& ~~~pageMask = x &&& ~~~pageMask) :
    x + pageRemain physPc = nextPage x := by
  have hx := and_add_and_not x pageMask
  rw [pageRemain, nextPage, low_and_mask, hlow]
  nth_rewrite 1 [← hx]
  ring

theorem nextPage_low (pc : BitVec 64) : nextPage pc &&& ~~~pageMask = 0#64 := by
  apply BitVec.eq_of_toNat_eq
  rw [show ~~~pageMask = (1#64 <<< 12) - 1#64 by decide, toNat_and_low _ (by decide), toNat_nextPage,
    BitVec.toNat_zero]
  omega

/-- A page leads to a page, which does not stand for a fault. -/
theorem page_ne_fetchFault {page : BitVec 64} (hpage : page &&& ~~~pageMask = 0#64) (h : KeepsOffset page pa) :
    pa ≠ fetchFault := by
  rintro rfl
  have hlow := keepsOffset_low h
  rw [hpage] at hlow
  exact absurd hlow (by decide)

/-! ## Fetching in advance -/

theorem resolveFetchRegion_restoreFault (s s₁ : FullSystemCpu) (pa : BitVec 64) :
    resolveFetchRegion (restoreFault s s₁) pa = resolveFetchRegion s₁ pa := rfl

theorem Moved.restoreFault {s : FullSystemCpu} (h : Moved s s₁) : Moved s (restoreFault s s₁) :=
  ⟨rfl, rfl, h.region, h.mem⟩

section Prefetch

variable {s : FullSystemCpu} {pc physPc : BitVec 64} {r : FetchRegion}

theorem prefetch_plain (h : ¬ LooksWide s physPc r) : prefetch s pc physPc r = (s, 0#32) := by
  unfold prefetch
  split
  · rename_i hrem
    dsimp only
    split
    · rename_i hin
      split
      · rename_i hwide
        exact absurd ⟨hrem, hin, hwide⟩ h
      · rfl
    · rfl
  · rfl

variable (h : LooksWide s physPc r) (hoff : KeepsOffset pc physPc)
include h hoff

theorem prefetch_wide : prefetch s pc physPc r =
      if (s.translatePc (nextPage pc)).2 = fetchFault then ((s.translatePc (nextPage pc)).1, 0#32) else
        let s₂ := restoreFault s (s.translatePc (nextPage pc)).1
        match resolveFetchRegion s₂ (s.translatePc (nextPage pc)).2 with
        | none => ({ s₂ with cpu := s₂.cpu.latch 1#64 (nextPage pc) }, 0#32)
        | some _ => (s₂, (read16 s.mem (physPc + pageRemain physPc - 2#64)).setWidth 32 |||
            ((read16 s₂.mem (s.translatePc (nextPage pc)).2).setWidth 32 <<< 16)) := by
  obtain ⟨hrem, hin, hwide⟩ := h
  have hnext : pc + pageRemain physPc = nextPage pc := add_pageRemain pc physPc (keepsOffset_low hoff)
  rw [prefetch, if_pos hrem, if_pos hin, ← hnext]
  exact if_pos hwide

/-- A following page that cannot be fetched from is reported. -/
theorem prefetch_unavailable (hframe : frame s (nextPage pc) = none) : FaultsNext (prefetch s pc physPc r).1 pc := by
  rw [prefetch_wide h hoff]
  rcases translatePc_cases s (nextPage pc) with ⟨hfault, hcause, htval⟩ | ⟨hkeeps, hmoved⟩
  · rw [if_pos hfault]
    exact ⟨hcause, htval⟩
  have hpa := page_ne_fetchFault (nextPage_low pc) hkeeps
  have hregion : resolveFetchRegion s (s.translatePc (nextPage pc)).2 = none := by
    by_contra hsome
    rw [frame, if_neg (not_or.mpr ⟨hpa, hsome⟩)] at hframe
    cases hframe
  have hregion' : resolveFetchRegion (restoreFault s (s.translatePc (nextPage pc)).1)
      (s.translatePc (nextPage pc)).2 = none := by
    rw [resolveFetchRegion_restoreFault, hmoved.region, hregion]
  rw [if_neg hpa]
  dsimp only
  rw [hregion']
  exact ⟨(by decide : (1#64 : BitVec 64) ≠ 0#64), rfl⟩

/-- From one that can be fetched from the second half is taken. -/
theorem prefetch_available (hframe : frame s (nextPage pc) = some pa) :
    ∃ s₂, prefetch s pc physPc r = (s₂, (read16 s.mem (physPc + pageRemain physPc - 2#64)).setWidth 32 |||
      ((read16 s₂.mem pa).setWidth 32 <<< 16)) ∧ Moved s s₂ := by
  rw [frame] at hframe
  split at hframe
  · cases hframe
  rename_i hok
  cases hframe
  obtain ⟨hpa, hregion⟩ := not_or.mp hok
  rcases translatePc_cases s (nextPage pc) with ⟨hfault, -⟩ | ⟨-, hmoved⟩
  · exact absurd hfault hpa
  obtain ⟨r', hr'⟩ := Option.ne_none_iff_exists'.mp hregion
  have hregion' : resolveFetchRegion (restoreFault s (s.translatePc (nextPage pc)).1)
      (s.translatePc (nextPage pc)).2 = some r' := by
    rw [resolveFetchRegion_restoreFault, hmoved.region, hr']
  refine ⟨restoreFault s (s.translatePc (nextPage pc)).1, ?_, hmoved.restoreFault⟩
  rw [prefetch_wide h hoff, if_neg hpa]
  dsimp only
  rw [hregion']

end Prefetch

/-! ## The block -/

section

variable {s s₁ : FullSystemCpu} {pc physPc : BitVec 64} {r : FetchRegion}

theorem fetchStart_some (h : fetchStart s pc = (s₁, some (physPc, r))) :
    KeepsOffset pc physPc ∧ s₁.cpu.memFaultCause = s.cpu.memFaultCause := by
  unfold fetchStart at h
  dsimp only at h
  split at h
  · cases h
  rename_i hpa
  split at h
  · cases h
  cases h
  rcases translatePc_cases { s with cpu := { s.cpu with faultPc := 0#64 } } pc with ⟨hfault, -⟩ | ⟨hkeeps, hmoved⟩
  · exact absurd hfault hpa
  · exact ⟨hkeeps, hmoved.cause⟩

/-- A block that is not found reports no fault on the following page. -/
theorem fetchStart_none (h : fetchStart s pc = (s₁, none)) (hclean : s.cpu.memFaultCause = 0#64) :
    ¬ FaultsNext s₁ pc := by
  rintro ⟨hcause, htval⟩
  unfold fetchStart at h
  dsimp only at h
  split at h
  · cases h
    rcases translatePc_cases { s with cpu := { s.cpu with faultPc := 0#64 } } pc with ⟨-, -, hpc⟩ | ⟨-, hmoved⟩
    · exact nextPage_ne pc (hpc.symm.trans htval)
    · exact hcause (hmoved.cause.trans hclean)
  · split at h
    · cases h
      exact nextPage_ne pc htval
    · cases h

variable {jump : BitVec 64 → Insn → DisasJumpType} {maxInsns : Nat}

variable (hstart : fetchStart s pc = (s₁, some (physPc, r)))
include hstart

theorem genCode_empty (hlimit : blockLimit physPc r maxInsns = 0) : genCode s jump pc maxInsns = ⟨s₁, [], 0#32⟩ := by
  rw [genCode, hstart]
  exact if_pos hlimit

theorem genCode_fault (hlimit : blockLimit physPc r maxInsns ≠ 0)
    (hcause : (prefetch s₁ pc physPc r).1.cpu.memFaultCause ≠ 0#64) :
    genCode s jump pc maxInsns = ⟨(prefetch s₁ pc physPc r).1, [], 0#32⟩ := by
  rw [genCode, hstart]
  dsimp only
  rw [if_neg hlimit, if_pos hcause]

theorem genCode_block (hlimit : blockLimit physPc r maxInsns ≠ 0)
    {x : BitVec 32} (hpre : prefetch s₁ pc physPc r = (s₂, x)) (hcause : s₂.cpu.memFaultCause = 0#64) :
    (genCode s jump pc maxInsns).sys = s₂ ∧ (genCode s jump pc maxInsns).insns =
      (block (rules jump pc) (stream (blockContext pc physPc x (blockLimit physPc r maxInsns)) s₂.mem)
        (blockLimit physPc r maxInsns) pc).1 := by
  rw [genCode, hstart]
  dsimp only
  rw [if_neg hlimit, hpre]
  rw [if_neg (not_not_intro hcause)]
  exact ⟨rfl, translateLoop_eq _ (blockContext pc physPc x _) rfl (Nat.zero_add _)⟩

end

section Own

variable {s : FullSystemCpu} {pc physPc : BitVec 64} {mem : Mem}

theorem ownByte_of_startByte {b : BitVec 8} (h : startByte mem pc physPc va = some b) :
    ownByte s mem pc physPc va = some b := by
  obtain ⟨hpage, rfl⟩ := startByte_some h
  exact if_pos hpage

theorem rawByte_of_startByte {b : BitVec 8} (h : startByte mem pc physPc va = some b) :
    rawByte mem pc physPc va = some b := by
  obtain ⟨-, rfl⟩ := startByte_some h
  rfl

/-- Behind the page the bytes are those of the following one. -/
theorem ownByte_outside {k : Nat} (hva : SamePage pc va) (hk : k < 4) (hout : ¬ SamePage pc (va + BitVec.ofNat 64 k)) :
    ownByte s mem pc physPc (va + BitVec.ofNat 64 k) =
      (frame s (nextPage pc)).map fun pa => mem (pa + (va + BitVec.ofNat 64 k - nextPage pc)) := by
  have hpage : (va + BitVec.ofNat 64 k) &&& pageMask = nextPage pc := by
    rw [samePage_iff] at hva
    rw [samePage_iff, toNat_add_ofNat va (by omega)] at hout
    rw [← BitVec.toNat_inj, toNat_and_pageMask, toNat_nextPage, toNat_add_ofNat va (by omega)]
    omega
  have hlow : (va + BitVec.ofNat 64 k) &&& ~~~pageMask = va + BitVec.ofNat 64 k - nextPage pc := by
    rw [← hpage]
    nth_rewrite 2 [← and_add_and_not (va + BitVec.ofNat 64 k) pageMask]
    ring
  rw [ownByte, if_neg hout, hpage, hlow]

theorem own_of_start (h : insnAt (startByte mem pc physPc) va = some i) :
    insnAt (ownByte s mem pc physPc) va = some i :=
  insnAt_mono (fun _ _ => ownByte_of_startByte) h

theorem own_len (hva : InBlock pc va)
    (h : insnAt (ownByte s mem pc physPc) va = some i) : i.2 = insnLen (mem (physPc + (va - pc))) :=
  insnAt_len h (if_pos hva.1)

/-- The block of the own bytes is that of the page, or one instruction longer. -/
theorem block_own (jump : BitVec 64 → Insn → DisasJumpType) (n : Nat) :
    block (rules jump pc) (insnAt (ownByte s mem pc physPc)) n pc = resume (insnAt (ownByte s mem pc physPc))
        (block (rules jump pc) (insnAt (startByte mem pc physPc)) n pc) :=
  block_of_startByte jump (fun _ _ _ => own_of_start) (fun _ _ => own_len) n

/-- Without the following page it stops where the page does. -/
theorem own_unavailable (hframe : frame s (nextPage pc) = none) (hva : InBlock pc va)
    (hstuck : insnAt (startByte mem pc physPc) va = none) : insnAt (ownByte s mem pc physPc) va = none := by
  obtain ⟨k, hk, hout⟩ := outside_of_stuck hva.1 hstuck
  have hlen : insnLen (mem (physPc + (va - pc))) ≤ 4 := by
    rcases insnLen_cases (mem (physPc + (va - pc))) with h | h <;> omega
  have hbyte : ownByte s mem pc physPc (va + BitVec.ofNat 64 k) = none := by
    rw [ownByte_outside hva.1 (by omega) hout, hframe]
    rfl
  cases h : insnAt (ownByte s mem pc physPc) va with
  | none => rfl
  | some i =>
    have hk' : k < i.2 := by rwa [own_len hva h]
    obtain ⟨b, hb⟩ := insnAt_byte h hk'
    rw [hbyte] at hb
    cases hb

theorem word_of_halves (b0 b1 b2 b3 : BitVec 8) :
    (b1 ++ b0).setWidth 32 ||| ((b3 ++ b2).setWidth 32 <<< 16) = b3 ++ b2 ++ b1 ++ b0 := by
  have hword := BitVec.setWidth_eq (b3 ++ b2 ++ b1 ++ b0)
  rw [BitVec.setWidth_append_append_append_eq_shiftLeft_setWidth_or] at hword
  rw [← hword, BitVec.setWidth_append_eq_shiftLeft_setWidth_or, BitVec.setWidth_append_eq_shiftLeft_setWidth_or,
    BitVec.shiftLeft_or_distrib, ← BitVec.shiftLeft_add]
  simp [BitVec.or_assoc, BitVec.or_comm]

theorem boundary_toNat (physPc : BitVec 64) : (physPc + pageRemain physPc - 2#64).toNat % 8 = 6 := by
  rw [add_pageRemain physPc physPc rfl, BitVec.toNat_sub, toNat_nextPage]
  change (2 ^ 64 - 2 + (physPc.toNat / 4096 * 4096 + 4096) % 2 ^ 64) % 2 ^ 64 % 8 = 6
  omega

/-- The last halfword of the page is not changed by the second translation. -/
theorem Moved.read16_boundary (h : Moved s₁ s₂) (physPc : BitVec 64) :
    read16 s₁.mem (physPc + pageRemain physPc - 2#64) = read16 s₂.mem (physPc + pageRemain physPc - 2#64) := by
  have hsix := boundary_toNat physPc
  have hnext : (physPc + pageRemain physPc - 2#64 + 1#64).toNat % 8 ≠ 0 := by
    rw [BitVec.toNat_add]
    change ((physPc + pageRemain physPc - 2#64).toNat + 1) % 2 ^ 64 % 8 ≠ 0
    omega
  rw [read16_bytes, read16_bytes, h.mem _ hnext, h.mem _ (by omega)]

/-- The instruction fetched in advance is the one of the own bytes. -/
theorem insnAt_boundary (hoff : KeepsOffset pc physPc) (hmoved : Moved s₁ s₂)
    (hframe : frame s₁ (nextPage pc) = some pa) (hva : SamePage pc (nextPage pc - 2#64))
    (hlen : insnLen (s₂.mem (physPc + (nextPage pc - 2#64 - pc))) = 4) :
    insnAt (ownByte s₁ s₂.mem pc physPc) (nextPage pc - 2#64) =
      some ((read16 s₁.mem (physPc + pageRemain physPc - 2#64)).setWidth 32 |||
        ((read16 s₂.mem pa).setWidth 32 <<< 16), 4) := by
  have hnext : pc + pageRemain physPc = nextPage pc := add_pageRemain pc physPc (keepsOffset_low hoff)
  have hboundary : physPc + pageRemain physPc - 2#64 = physPc + (nextPage pc - 2#64 - pc) := by
    rw [← hnext]
    ring
  have hone : physPc + (nextPage pc - 2#64 + 1#64 - pc) = physPc + pageRemain physPc - 2#64 + 1#64 := by
    rw [hboundary]
    ring
  have hpage (k : Nat) (hk : k < 4) : SamePage pc (nextPage pc - 2#64 + BitVec.ofNat 64 k) ↔ k < 2 := by
    rw [samePage_iff, BitVec.toNat_sub, toNat_nextPage] at hva
    rw [samePage_iff, toNat_add_ofNat _ (by omega), BitVec.toNat_sub, toNat_nextPage]
    change ((2 ^ 64 - 2 + (pc.toNat / 4096 * 4096 + 4096) % 2 ^ 64) % 2 ^ 64 + k) % 2 ^ 64 / 4096 = pc.toNat / 4096 ↔ _
    omega
  have h0 : ownByte s₁ s₂.mem pc physPc (nextPage pc - 2#64) = some (s₂.mem (physPc + (nextPage pc - 2#64 - pc))) :=
    if_pos hva
  have h1 : ownByte s₁ s₂.mem pc physPc (nextPage pc - 2#64 + 1#64) =
      some (s₂.mem (physPc + (nextPage pc - 2#64 + 1#64 - pc))) := if_pos ((hpage 1 (by decide)).mpr (by decide))
  have hbehind (k : Nat) (hk : k < 2) : ownByte s₁ s₂.mem pc physPc (nextPage pc - 2#64 + BitVec.ofNat 64 (k + 2)) =
      some (s₂.mem (pa + BitVec.ofNat 64 k)) := by
    have hout : ¬ SamePage pc (nextPage pc - 2#64 + BitVec.ofNat 64 (k + 2)) := by
      rw [hpage (k + 2) (by omega)]
      omega
    rw [ownByte_outside hva (by omega) hout, hframe, BitVec.ofNat_add]
    refine congrArg (fun a => some (s₂.mem (pa + a))) ?_
    ring
  have h2 : ownByte s₁ s₂.mem pc physPc (nextPage pc - 2#64 + 2#64) = some (s₂.mem pa) := by
    have h := hbehind 0 (by decide)
    rwa [show pa + BitVec.ofNat 64 0 = pa from BitVec.add_zero pa] at h
  rw [hmoved.read16_boundary, read16_bytes, read16_bytes, word_of_halves, ← hone, hboundary]
  exact insnAt_four h0 hlen h1 h2 (hbehind 1 (by decide))

theorem own_of_mem {jump : BitVec 64 → Insn → DisasJumpType} {i : BitVec 64 × Insn}
    (hi : i ∈ (block (rules jump pc) (insnAt (startByte mem pc physPc)) n pc).1) :
    insnAt (ownByte s mem pc physPc) i.1 = some i.2 :=
  own_of_start (mem_block (keeps_startByte jump) n (inBlock_self pc) i hi).2

end Own

section Cases

variable {s s₁ : FullSystemCpu} {jump : BitVec 64 → Insn → DisasJumpType} {pc physPc : BitVec 64} {r : FetchRegion}
  {maxInsns : Nat}

theorem not_faultsNext (h : sys.cpu.memFaultCause = 0#64) : ¬ FaultsNext sys pc :=
  fun hfault => hfault.1 h

/-- The following page cannot be fetched from: reporting it is right when an instruction reaches into it. -/
theorem ownBlock_unavailable (hframe : frame s₁ (nextPage pc) = none) (hfault : FaultsNext sys pc) :
    OwnBlock s₁ jump pc physPc n sys [] ↔
      (block (rules jump pc) (insnAt (startByte sys.mem pc physPc)) n pc).2 ≠ none := by
  have hsame : (block (rules jump pc) (insnAt (ownByte s₁ sys.mem pc physPc)) n pc).2 =
      (block (rules jump pc) (insnAt (startByte sys.mem pc physPc)) n pc).2 := by
    rw [block_own]
    cases hstuck : (block (rules jump pc) (insnAt (startByte sys.mem pc physPc)) n pc).2 with
    | none => rw [resume_done hstuck, hstuck]
    | some va =>
      obtain ⟨hva, hnone⟩ := block_stuck (keeps_startByte jump) n (inBlock_self pc) hstuck
      rw [resume_stuck hstuck (own_unavailable hframe hva hnone), hstuck]
  rw [OwnBlock, hsame]
  exact ⟨fun h => h.2.mp hfault, fun h => ⟨List.forall_mem_nil _, iff_of_true hfault h⟩⟩

/-- A block of the page with at most one more instruction has the own bytes when that instruction does. -/
theorem ownBlock_resume {get : BitVec 64 → Option Insn}
    (hclean : sys.cpu.memFaultCause = 0#64) (hget : ∀ va, get va ≠ none) : OwnBlock s₁ jump pc physPc n sys
        (resume get (block (rules jump pc) (insnAt (startByte sys.mem pc physPc)) n pc)).1 ↔
      ∀ va, (block (rules jump pc) (insnAt (startByte sys.mem pc physPc)) n pc).2 = some va →
        insnAt (ownByte s₁ sys.mem pc physPc) va = get va := by
  rw [OwnBlock, block_own, iff_false_left (not_faultsNext hclean), not_not]
  cases hstuck : (block (rules jump pc) (insnAt (startByte sys.mem pc physPc)) n pc).2 with
  | none =>
    rw [resume_done hstuck, resume_done hstuck]
    refine iff_of_true ⟨fun i hi => own_of_mem hi, hstuck⟩ fun va hva => ?_
    cases hva
  | some va =>
    obtain ⟨i, hi⟩ := Option.ne_none_iff_exists'.mp (hget va)
    rw [resume_item hstuck hi]
    constructor
    · rintro ⟨hbytes, -⟩ va' hva'
      cases hva'
      rw [hi]
      exact hbytes (va, i) (List.mem_append_right _ (List.mem_singleton_self _))
    · intro h
      have hown := (h va rfl).trans hi
      refine ⟨fun x hx => ?_, by rw [resume_item hstuck hown]⟩
      rcases List.mem_append.mp hx with hx | hx
      · exact own_of_mem hx
      · cases List.mem_singleton.mp hx
        exact hown

section

variable (hoff : KeepsOffset pc physPc)
include hoff

theorem crossPagePc_at {x : BitVec 32} (hx : x ≠ 0#32) (n : Nat) :
    (blockContext pc physPc x n).crossPagePc = nextPage pc - 2#64 := by
  have hnext : pc + pageRemain physPc = nextPage pc := add_pageRemain pc physPc (keepsOffset_low hoff)
  have hpc : (blockContext pc physPc x n).crossPagePc = pc + pageRemain physPc - 2#64 := if_pos hx
  rw [hpc, hnext]

/-- The context fetches the instructions that the page holds. -/
theorem stream_of_startByte (x : BitVec 32) (n : Nat) {mem : Mem}
    (hva : InBlock pc va) (h : insnAt (startByte mem pc physPc) va = some i) :
    stream (blockContext pc physPc x n) mem va = some i := by
  rw [stream_raw rfl va]
  · exact insnAt_mono (fun _ _ => rawByte_of_startByte) h
  by_cases hx : x = 0#32
  · exact Or.inl hx
  · refine Or.inr ?_
    rw [crossPagePc_at hoff hx]
    by_cases hcross : va = nextPage pc - 2#64
    · refine Or.inr ?_
      rw [← insnAt_len h (startByte_inPage hva.1)]
      rcases insnAt_startByte h with ⟨hlen, -⟩ | ⟨-, hin⟩
      · exact hlen
      have hpage := (samePage_iff pc va).mp hva.1
      rw [samePage_iff, toNat_add_ofNat va (by decide)] at hin
      rw [hcross, BitVec.toNat_sub, toNat_nextPage] at hpage hin
      change ((2 ^ 64 - 2 + (pc.toNat / 4096 * 4096 + 4096) % 2 ^ 64) % 2 ^ 64 + 3) % 2 ^ 64 / 4096 =
        pc.toNat / 4096 at hin
      omega
    · exact Or.inl hcross

/-- So its block is the one of the page, or one instruction longer. -/
theorem block_stream (x : BitVec 32) (n : Nat) (mem : Mem) :
    block (rules jump pc) (stream (blockContext pc physPc x n) mem) n pc =
      resume (stream (blockContext pc physPc x n) mem)
        (block (rules jump pc) (insnAt (startByte mem pc physPc)) n pc) :=
  block_of_startByte jump (fun _ _ hva h => stream_of_startByte hoff x n hva h) (fun _ _ _ h => stream_len rfl h) n

theorem even_of_looksWide (h : LooksWide s₁ physPc r) : pc.toNat % 2 = 0 := by
  have hrem := congrArg BitVec.toNat h.1
  have hlow := congrArg BitVec.toNat (keepsOffset_low hoff)
  rw [show ~~~pageMask = (1#64 <<< 12) - 1#64 by decide, toNat_and_low _ (by decide),
    toNat_and_low _ (by decide)] at hlow
  rw [BitVec.toNat_umod, pageRemain, BitVec.toNat_sub, show 0xFFF#64 = (1#64 <<< 12) - 1#64 by decide,
    toNat_and_low _ (by decide)] at hrem
  change (2 ^ 64 - physPc.toNat % 2 ^ 12 + 4096) % 2 ^ 64 % 4 = 2 at hrem
  omega

end

/-- Without a fetch in advance the bytes that follow in physical memory have to be the right ones. -/
theorem fetchesOwn_plain (hstart : fetchStart s pc = (s₁, some (physPc, r))) (hclean : s.cpu.memFaultCause = 0#64)
    (hlimit : blockLimit physPc r maxInsns ≠ 0) (hwide : ¬ LooksWide s₁ physPc r) :
    OwnBlock s₁ jump pc physPc (blockLimit physPc r maxInsns) (genCode s jump pc maxInsns).sys
        (genCode s jump pc maxInsns).insns ↔
      ∀ va, (block (rules jump pc) (insnAt (startByte s₁.mem pc physPc)) (blockLimit physPc r maxInsns) pc).2 =
          some va →
        insnAt (ownByte s₁ s₁.mem pc physPc) va = insnAt (rawByte s₁.mem pc physPc) va := by
  obtain ⟨hoff, hcause⟩ := fetchStart_some hstart
  obtain ⟨hsys, hinsns⟩ : (genCode s jump pc maxInsns).sys = s₁ ∧ (genCode s jump pc maxInsns).insns =
      (block (rules jump pc) (stream (blockContext pc physPc 0#32 (blockLimit physPc r maxInsns)) s₁.mem)
        (blockLimit physPc r maxInsns) pc).1 :=
    genCode_block hstart hlimit (prefetch_plain hwide) (hcause.trans hclean)
  rw [hsys, hinsns, block_stream hoff, ownBlock_resume (hcause.trans hclean) (fun va h => by cases h)]
  refine forall_congr' fun va => imp_congr_right fun _ => ?_
  rw [stream_raw rfl va (Or.inl rfl)]

theorem word_ne_zero {lo : BitVec 16} (h : is32bit lo = true) (hi : BitVec 32) :
    lo.setWidth 32 ||| (hi <<< 16) ≠ 0#32 := by
  have hlow := (and_three_iff (by decide) lo).mp (of_decide_eq_true h).1
  intro hzero
  have hbit : (lo.setWidth 32 ||| (hi <<< 16)).getLsbD 0 = false := by
    rw [hzero]
    rfl
  rw [BitVec.getLsbD_or, BitVec.getLsbD_setWidth, hlow.1] at hbit
  exact absurd hbit (by simp)

theorem fetchesOwn_wide (hstart : fetchStart s pc = (s₁, some (physPc, r))) (hclean : s.cpu.memFaultCause = 0#64)
    (hlimit : blockLimit physPc r maxInsns ≠ 0) (hwide : LooksWide s₁ physPc r)
    (hframe : frame s₁ (nextPage pc) = some pa) :
    OwnBlock s₁ jump pc physPc (blockLimit physPc r maxInsns) (genCode s jump pc maxInsns).sys
      (genCode s jump pc maxInsns).insns := by
  obtain ⟨hoff, hcause⟩ := fetchStart_some hstart
  obtain ⟨s₂, hpre, hmoved⟩ := prefetch_available hwide hoff hframe
  have hclean2 : s₂.cpu.memFaultCause = 0#64 := hmoved.cause.trans (hcause.trans hclean)
  obtain ⟨hsys, hinsns⟩ : (genCode s jump pc maxInsns).sys = s₂ ∧ (genCode s jump pc maxInsns).insns = _ :=
    genCode_block hstart hlimit hpre hclean2
  have hx := word_ne_zero hwide.2.2 ((read16 s₂.mem pa).setWidth 32)
  rw [hsys, hinsns, block_stream hoff, ownBlock_resume hclean2 (fun va h => by cases h)]
  intro va hstuck
  obtain ⟨hva, hnone⟩ := block_stuck (keeps_startByte jump) _ (inBlock_self pc) hstuck
  obtain ⟨rfl, hlen⟩ := stuck_at_boundary (even_of_looksWide hoff hwide) hva hnone
  rw [insnAt_boundary hoff hmoved hframe hva.1 hlen]
  have hcross := crossPagePc_at hoff hx (blockLimit physPc r maxInsns)
  rw [← hcross] at hlen ⊢
  exact (stream_cross rfl hx hlen).symm

end Cases

/-- `gen_code` fetches every byte through its own page, and reports a fault on the following page when it is needed,
exactly when the start of the block and the layout of its page are safe. -/
theorem genCode_fetches_own_iff (s : FullSystemCpu) (jump : BitVec 64 → Insn → DisasJumpType) (pc : BitVec 64)
    (maxInsns : Nat) (hclean : s.cpu.memFaultCause = 0#64) :
    FetchesOwn s jump pc maxInsns ↔ FetchSafe s jump pc maxInsns := by
  rw [FetchesOwn, FetchSafe]
  rcases hstart : fetchStart s pc with ⟨s₁, _ | ⟨physPc, r⟩⟩
  · refine iff_of_true ⟨?_, ?_⟩ trivial
    · rw [genCode, hstart]
    · rw [genCode, hstart]
      exact fetchStart_none hstart hclean
  · dsimp only
    obtain ⟨hoff, hcause⟩ := fetchStart_some hstart
    by_cases hlimit : blockLimit physPc r maxInsns = 0
    · rw [genCode_empty hstart hlimit, hlimit]
      refine iff_of_true ⟨List.forall_mem_nil _, ?_⟩ fun h => h.1.1 hlimit
      exact iff_of_false (not_faultsNext (hcause.trans hclean)) fun h => h rfl
    by_cases hwide : LooksWide s₁ physPc r
    · have hpre : Prefetches maxInsns s₁ physPc r := ⟨hlimit, hwide⟩
      cases hframe : frame s₁ (nextPage pc) with
      | none =>
        have hfault := prefetch_unavailable hwide hoff hframe
        rw [genCode_fault hstart hlimit hfault.1, ownBlock_unavailable hframe hfault]
        cases (block (rules jump pc) (insnAt (startByte (prefetch s₁ pc physPc r).1.mem pc physPc))
          (blockLimit physPc r maxInsns) pc).2 with
        | none => exact iff_of_false (fun h => h rfl) fun h => h ⟨hpre, rfl⟩
        | some va => exact iff_of_true (Option.some_ne_none va) (Or.inl hpre)
      | some pa =>
        refine iff_of_true (fetchesOwn_wide hstart hclean hlimit hwide hframe) ?_
        split
        · rintro ⟨-, hnone⟩
          cases hnone
        · exact Or.inl hpre
    · rw [fetchesOwn_plain hstart hclean hlimit hwide, prefetch_plain hwide]
      cases (block (rules jump pc) (insnAt (startByte s₁.mem pc physPc)) (blockLimit physPc r maxInsns) pc).2 with
      | none => exact iff_of_true (fun va h => nomatch h) fun h => hwide h.1.2
      | some va =>
        constructor
        · intro h
          exact Or.inr (h va rfl)
        · rintro (hpre | heq) va' hva'
          · exact absurd hpre.2 hwide
          · cases hva'
            exact heq

/-- Machine mode with RAM full of zeros. -/
def bootSystem : FullSystemCpu := { MachinaTlb.ramSystem (fun _ => 0#8) with ramSize := 0x10000000#64 }

/-- Two compressed instructions at the start of RAM. -/
theorem genCode_fetches_own_boot : FetchesOwn bootSystem (fun _ _ => .next) 0x80000000#64 2 := by
  refine (genCode_fetches_own_iff bootSystem _ _ _ rfl).mpr ?_
  have hstart : fetchStart bootSystem 0x80000000#64 =
      ((fetchStart bootSystem 0x80000000#64).1, some (0x80000000#64, ⟨0x80000000#64, 0x10000000#64⟩)) :=
    Prod.ext rfl (by decide +kernel)
  have hblock : (block (rules (fun _ _ => .next) 0x80000000#64)
      (insnAt (startByte (prefetch (fetchStart bootSystem 0x80000000#64).1 0x80000000#64 0x80000000#64
        ⟨0x80000000#64, 0x10000000#64⟩).1.mem 0x80000000#64 0x80000000#64))
      (blockLimit 0x80000000#64 ⟨0x80000000#64, 0x10000000#64⟩ 2) 0x80000000#64).2 = none := by decide +kernel
  rw [FetchSafe, hstart]
  dsimp only
  rw [hblock]
  rintro ⟨⟨-, hrem, -⟩, -⟩
  exact absurd hrem (by decide)

/-- A root table that maps the first gigabyte to RAM and nothing behind it, and the last bytes of that gigabyte. -/
def lastBytes (code : BitVec 64) : Mem :=
  write (write (fun _ => 0#8) 0x80000000#64 8 0x200000CF#64) 0xBFFFFFF8#64 8 code

def lastPage (code : BitVec 64) : FullSystemCpu :=
  let s := MachinaTlb.ramSystem (lastBytes code)
  [.csrHelper 0x3B0#64 (BitVec.allOnes 64) 1 1 0#64, .csrHelper 0x3A0#64 0x1F#64 1 1 0#64,
    .csrHelper 0x180#64 0x8000000000080000#64 1 1 0#64, .csrHelper 0x300#64 0x800#64 1 1 0#64,
    .mret].foldl MachinaMachine.step
      { s with ramSize := 0x80000000#64, cpu := { s.cpu with ramEnd := 0x100000000#64 } }

theorem not_fetchesOwn {s : FullSystemCpu} {jump : BitVec 64 → Insn → DisasJumpType} {pc physPc : BitVec 64}
    {r : FetchRegion} {maxInsns : Nat} (hstart : (fetchStart s pc).2 = some (physPc, r))
    (h : ¬ (FaultsNext (genCode s jump pc maxInsns).sys pc ↔
      (block (rules jump pc) (insnAt (ownByte (fetchStart s pc).1 (genCode s jump pc maxInsns).sys.mem pc physPc))
        (blockLimit physPc r maxInsns) pc).2 ≠ none)) : ¬ FetchesOwn s jump pc maxInsns := by
  rcases hfetch : fetchStart s pc with ⟨s₁, x⟩
  rw [hfetch] at hstart h
  cases hstart
  rw [FetchesOwn, hfetch]
  exact fun hown => h hown.2

/-- A compressed and a 32-bit instruction at the end of the page, the second without a following page: no fault is
reported. A compressed and a 32-bit instruction that fill the page, where the second half looks like a 32-bit
instruction: a fault is reported although the following page is not needed. -/
theorem genCode_misses_and_invents_faults :
    ¬ FetchesOwn (lastPage 0x0013000100000000#64) (fun _ _ => .next) 0x3FFFFFFC#64 512 ∧
      ¬ FetchesOwn (lastPage 0x0013001300010000#64) (fun _ _ => .next) 0x3FFFFFFA#64 512 := by
  have hlow : (fetchStart (lastPage 0x0013000100000000#64) 0x3FFFFFFC#64).2 =
      some (0xBFFFFFFC#64, ⟨0x80000000#64, 0x80000000#64⟩) := by decide +kernel
  have hhigh : (fetchStart (lastPage 0x0013001300010000#64) 0x3FFFFFFA#64).2 =
      some (0xBFFFFFFA#64, ⟨0x80000000#64, 0x80000000#64⟩) := by decide +kernel
  exact ⟨not_fetchesOwn hlow (by decide +kernel), not_fetchesOwn hhigh (by decide +kernel)⟩

end MachinaGenFetch
