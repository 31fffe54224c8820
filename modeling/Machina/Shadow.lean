import Machina.Privilege
import Machina.PmpLock

/-!
# Shadow state

The MMU keeps its own copy of `satp` and the PMP unit a decoded copy of the PMP
registers. CSR instructions bring the copies up to date; the helper path hands the
MMU the value it tried to write, and the debugger writes registers without any
synchronisation. This module says which runs keep the copies equal.
-/

namespace MachinaShadow

open MachinaRiscv MachinaCsr MachinaPmp MachinaCpu MachinaFullSystem MachinaMachine
open MachinaPrivilege MachinaRuns

variable {addr : BitVec 16} {val : BitVec 64} {c c' : RiscvCpu}

theorem decode_eq_satp (h : decode addr = some .satp) : addr = csrSatp := by
  apply BitVec.eq_of_toNat_eq
  unfold decode at h
  split at h <;> first | cases h | skip
  · assumption
  split at h
  · cases h
  · split at h <;> cases h

theorem decode_eq_status (h : decode addr = some .mstatus ∨ decode addr = some .sstatus) :
    addr = csrMstatus ∨ addr = csrSstatus := by
  have hnat : addr.toNat = 0x300 ∨ addr.toNat = 0x100 := by
    unfold decode at h
    split at h <;> simp_all
    all_goals split at h <;> simp_all
  rcases hnat with hn | hn
  · exact Or.inl (BitVec.eq_of_toNat_eq hn)
  · exact Or.inr (BitVec.eq_of_toNat_eq hn)

theorem isPmpCsr_of_decode
    (h : (∃ k, decode addr = some (.pmpcfg k)) ∨ ∃ i, decode addr = some (.pmpaddr i)) : isPmpCsr addr := by
  have hle (a b : BitVec 16) : a ≤ b ↔ a.toNat ≤ b.toNat := Iff.rfl
  have hlt (a b : BitVec 16) : a < b ↔ a.toNat < b.toNat := Iff.rfl
  simp only [isPmpCsr, hle, hlt]
  unfold decode at h
  split at h <;> simp_all
  all_goals split at h <;> simp_all

/-- The copies agree with the registers. -/
structure Synced (c : RiscvCpu) : Prop where
  satp : c.mmu.satp = c.csr.satp
  pmp : c.pmp = syncFromCsr c.csr.pmpcfg c.csr.pmpaddr

/-- satp holds a mode the profile supports. -/
structure ValidSatp (c : RiscvCpu) : Prop where
  limit : c.csr.maxSatpMode = c.profile.maxSatpMode
  mode : c.csr.acceptsSatp c.csr.satp

theorem Synced.of_frame (h : frame c' = frame c) (hs : Synced c) : Synced c' := by
  have hshadow : c'.mmu.satp = c.mmu.satp := congrArg Frame.shadowSatp h
  have hsatp : c'.csr.satp = c.csr.satp := congrArg Frame.satp h
  have hpmp : c'.pmp = c.pmp := congrArg Frame.pmp h
  have hcfg : c'.csr.pmpcfg = c.csr.pmpcfg := congrArg Frame.pmpcfg h
  have haddr : c'.csr.pmpaddr = c.csr.pmpaddr := congrArg Frame.pmpaddr h
  exact ⟨by rw [hshadow, hsatp, hs.satp], by rw [hpmp, hcfg, haddr, hs.pmp]⟩

theorem acceptsSatp_congr {f g : CsrFile} (h : g.maxSatpMode = f.maxSatpMode) (val : BitVec 64) :
    g.acceptsSatp val ↔ f.acceptsSatp val := by
  simp [CsrFile.acceptsSatp, h]

theorem ValidSatp.of_frame (h : frame c' = frame c) (hs : ValidSatp c) : ValidSatp c' := by
  have hmax : c'.csr.maxSatpMode = c.csr.maxSatpMode := congrArg Frame.maxSatpMode h
  have hprofile : c'.profile = c.profile := congrArg Frame.profile h
  have hsatp : c'.csr.satp = c.csr.satp := congrArg Frame.satp h
  refine ⟨by rw [hmax, hprofile, hs.limit], ?_⟩
  rw [hsatp, acceptsSatp_congr hmax]
  exact hs.mode

/-- Trap entry and trap return only change the privilege within the frame. -/
theorem frame_doTrap (c : RiscvCpu) (cause tval : BitVec 64) :
    frame (c.doTrap cause tval) = { frame c with priv := trapLevel c.csr c.priv cause } := by
  unfold RiscvCpu.doTrap trapLevel
  split <;> rfl

theorem frame_executeMret (c : RiscvCpu) : frame c.executeMret = { frame c with priv := mpp c.csr.mstatus } := rfl

theorem frame_executeSret (c : RiscvCpu) : ∃ p, frame c.executeSret.1 = { frame c with priv := p } := by
  unfold RiscvCpu.executeSret
  split
  · exact ⟨c.priv, rfl⟩
  · exact ⟨_, rfl⟩

theorem Synced.of_priv {p : PrivLevel} (h : frame c' = { frame c with priv := p })
    (hs : Synced c) : Synced c' :=
  Synced.of_frame (show frame c' = frame { c with priv := p } from h) ⟨hs.satp, hs.pmp⟩

theorem ValidSatp.of_priv {p : PrivLevel} (h : frame c' = { frame c with priv := p })
    (hs : ValidSatp c) : ValidSatp c' :=
  ValidSatp.of_frame (show frame c' = frame { c with priv := p } from h) ⟨hs.limit, hs.mode⟩

theorem csrWrite_fst (c : RiscvCpu) (addr : BitVec 16) (val : BitVec 64) :
    (csrWrite c addr val).1 = { c with csr := (c.csr.write addr val c.priv).1 } := by
  simp [csrWrite]

theorem validSatp_csrWrite (hs : ValidSatp c) (addr : BitVec 16) (val : BitVec 64) :
    ValidSatp (csrWrite c addr val).1 := by
  rw [csrWrite_fst]
  refine ⟨(write_maxSatpMode _ _ _ _).trans hs.limit, ?_⟩
  rw [acceptsSatp_congr (write_maxSatpMode _ _ _ _)]
  rcases write_satp_cases c.csr addr val c.priv with h | ⟨_, h, ha⟩
  · rw [h]
    exact hs.mode
  · rw [h]
    exact ha

/-- The registers the copies are made of. -/
theorem write_pmp_of_not (f : CsrFile) (val : BitVec 64) (priv : PrivLevel) (h : ¬ isPmpCsr addr) :
    (f.write addr val priv).1.pmpcfg = f.pmpcfg ∧ (f.write addr val priv).1.pmpaddr = f.pmpaddr := by
  rcases MachinaPmpLock.write_pmp_cases f addr val priv with hk | ⟨k, hd, _⟩ | ⟨i, hd, _⟩
  · exact hk
  · exact False.elim (h (isPmpCsr_of_decode (Or.inl ⟨k, hd⟩)))
  · exact False.elim (h (isPmpCsr_of_decode (Or.inr ⟨i, hd⟩)))

theorem write_satp_of_ne (f : CsrFile) (val : BitVec 64) (priv : PrivLevel)
    (h : addr ≠ csrSatp) : (f.write addr val priv).1.satp = f.satp := by
  rcases write_satp_cases f addr val priv with hk | ⟨hd, _⟩
  · exact hk
  · exact False.elim (h (decode_eq_satp hd))

/-- A write followed by a synchronisation with the right satp value keeps the copies. -/
theorem synced_syncRuntime {c1 : RiscvCpu} {satp : BitVec 64} {r : Except Nat Unit}
    (hs : Synced c) (hwrite : csrWrite c addr val = (c1, r)) (hsatp : addr = csrSatp → satp = c1.csr.satp) :
    Synced (syncRuntime c1 addr satp) := by
  have hc1 : c1 = { c with csr := (c.csr.write addr val c.priv).1 } := by rw [← csrWrite_fst, hwrite]
  constructor
  · change (if addr = csrSatp then (c1.mmu.setSatp satp).flush
      else if addr = csrMstatus ∨ addr = csrSstatus then c1.mmu.flush else c1.mmu).satp = c1.csr.satp
    by_cases ha : addr = csrSatp
    · rw [if_pos ha]
      exact hsatp ha
    have hkeep : c1.mmu.satp = c1.csr.satp := by
      rw [hc1]
      exact hs.satp.trans (write_satp_of_ne c.csr val c.priv ha).symm
    rw [if_neg ha]
    split <;> exact hkeep
  · change (if isPmpCsr addr then syncFromCsr c1.csr.pmpcfg c1.csr.pmpaddr else c1.pmp) =
      syncFromCsr c1.csr.pmpcfg c1.csr.pmpaddr
    by_cases ha : isPmpCsr addr
    · rw [if_pos ha]
    obtain ⟨hcfg, haddr⟩ := write_pmp_of_not c.csr val c.priv ha
    rw [if_neg ha, hc1]
    rw [hcfg, haddr]
    exact hs.pmp

theorem validSatp_syncRuntime (hs : ValidSatp c) (addr : BitVec 16) (satp : BitVec 64) :
    ValidSatp (syncRuntime c addr satp) := ⟨hs.limit, hs.mode⟩

theorem two_le_four : 2 ≤ 4 := by decide

/-- A register write that cannot change the sources of the copies: it is rejected for
lack of privilege, or it writes the value that is already there. -/
def Harmless (c : RiscvCpu) (addr : BitVec 16) (val : BitVec 64) : Prop :=
  c.priv < required addr ∨
    match decode addr with
    | some .satp => val = c.csr.satp
    | some (.pmpcfg k) => val = c.csr.pmpcfg (k.castLE two_le_four)
    | some (.pmpaddr i) => val = c.csr.pmpaddr i
    | _ => True

theorem writePmpcfg_self (f : CsrFile) (k : Fin 2) :
    (f.writePmpcfg k (f.pmpcfg (k.castLE (by decide)))).pmpcfg = f.pmpcfg := by
  unfold CsrFile.writePmpcfg
  rw [Function.update_eq_self_iff]
  apply BitVec.eq_of_getLsbD_eq
  intro j hj
  rw [MachinaPmpLock.getLsbD_merge f k _ _ _ hj]
  split <;> rfl

/-- A harmless write keeps the sources of the copies. -/
theorem write_harmless (h : Harmless c addr val) : (c.csr.write addr val c.priv).1.satp = c.csr.satp ∧
      (c.csr.write addr val c.priv).1.pmpcfg = c.csr.pmpcfg ∧
      (c.csr.write addr val c.priv).1.pmpaddr = c.csr.pmpaddr := by
  rcases h with hp | h
  · rw [CsrFile.write, if_pos hp]
    exact ⟨rfl, rfl, rfl⟩
  refine ⟨?_, ?_⟩
  · rcases write_satp_cases c.csr addr val c.priv with hk | ⟨hd, hv, _⟩
    · exact hk
    · rw [hd] at h
      exact hv.trans h
  · rcases MachinaPmpLock.write_pmp_cases c.csr addr val c.priv with hk | ⟨k, hd, hw⟩ | ⟨i, hd, _, hcfg, haddr⟩
    · exact hk
    · rw [hd] at h
      have hval : val = c.csr.pmpcfg (k.castLE (by decide)) := h
      rw [hw, hval]
      exact ⟨writePmpcfg_self c.csr k, rfl⟩
    · rw [hd] at h
      have hval : val = c.csr.pmpaddr i := h
      exact ⟨hcfg, by rw [haddr, hval, Function.update_eq_self]⟩

theorem synced_csrWrite (hs : Synced c) (h : Harmless c addr val) : Synced (csrWrite c addr val).1 := by
  obtain ⟨hsatp, hcfg, haddr⟩ := write_harmless h
  rw [csrWrite_fst]
  exact ⟨hs.satp.trans hsatp.symm, by simp only [hcfg, haddr]; exact hs.pmp⟩

/-- A harmless write does not make another write harmful. -/
theorem Harmless.csrWrite {addr' : BitVec 16} {val' : BitVec 64}
    (h : Harmless c addr val) (h' : Harmless c addr' val') :
    Harmless (MachinaFullSystem.csrWrite c addr val).1 addr' val' := by
  obtain ⟨hsatp, hcfg, haddr⟩ := write_harmless h
  rw [csrWrite_fst]
  unfold Harmless at h' ⊢
  rw [hsatp, hcfg, haddr]
  exact h'

theorem synced_restoreCsrs (ws : List (BitVec 16 × BitVec 64)) (hs : Synced c)
    (h : ∀ w ∈ ws, Harmless c w.1 w.2) : Synced (ws.foldl (fun c w => (csrWrite c w.1 w.2).1) c) := by
  induction ws generalizing c with
  | nil => exact hs
  | cons w ws ih =>
    have hw := h w (List.mem_cons_self ..)
    exact ih (synced_csrWrite hs hw) fun v hv => hw.csrWrite (h v (List.mem_cons_of_mem _ hv))

theorem validSatp_restoreCsrs (ws : List (BitVec 16 × BitVec 64)) (hs : ValidSatp c) :
    ValidSatp (ws.foldl (fun c w => (csrWrite c w.1 w.2).1) c) := by
  induction ws generalizing c with
  | nil => exact hs
  | cons w ws ih => exact ih (validSatp_csrWrite hs w.1 w.2)

/-- The steps that keep the copies: a CSR instruction run as a helper does not write an
unsupported mode to satp, and the debugger does not change satp or a PMP register. -/
def SyncOk (s : FullSystemCpu) : Event → Prop
  | .csrHelper csr rs1Val _ funct3 time =>
    csr.setWidth 16 = csrSatp → ∀ old val, csrOld s.cpu csrSatp time = .ok old →
      csrNew funct3 old rs1Val = some val → s.cpu.csr.acceptsSatp val
  | .gdbWrite reg val => 66 ≤ reg → ∀ addr, gdbCsrs[reg - 66]? = some addr → Harmless s.cpu addr val
  | .gdbRestore _ _ _ csrs => ∀ w ∈ gdbCsrs.zip csrs, Harmless s.cpu w.1 w.2
  | _ => True

/-- A register write through the debugger is a CSR write or leaves the frame alone. -/
theorem gdbWriteRegister_cases (c : RiscvCpu) (reg : Nat) (val : BitVec 64) :
    frame (gdbWriteRegister c reg val).1 = frame c ∨ (66 ≤ reg ∧ ∃ addr, gdbCsrs[reg - 66]? = some addr ∧
        (gdbWriteRegister c reg val).1 = (csrWrite c addr val).1) := by
  unfold gdbWriteRegister
  split
  · exact Or.inl rfl
  split
  · exact Or.inl rfl
  · split
    · exact Or.inl rfl
    · split
      · exact Or.inl rfl
      · split
        · exact Or.inl rfl
        · split
          · rename_i addr haddr
            exact Or.inr ⟨by omega, addr, haddr, rfl⟩
          · exact Or.inl rfl

theorem validSatp_step {s : FullSystemCpu} (e : Event) (hs : ValidSatp s.cpu) : ValidSatp (step s e).cpu := by
  have hwrite {c c1 c' : RiscvCpu} {addr : BitVec 16} {val satp : BitVec 64} {r : Except Nat Unit}
      (hc : ValidSatp c) (hw : csrWrite c addr val = (c1, r)) (h : frame c' = frame (syncRuntime c1 addr satp)) :
      ValidSatp c' := by
    have hc1 : ValidSatp c1 := by
      have h1 := validSatp_csrWrite hc addr val
      rw [hw] at h1
      exact h1
    exact (validSatp_syncRuntime hc1 addr satp).of_frame h
  have ho := step_cases s e
  generalize (step s e).cpu = c' at ho ⊢
  cases ho with
  | quiet h => exact hs.of_frame h
  | trap h cause tval => exact (hs.of_frame h).of_priv (frame_doTrap _ cause tval)
  | mret => exact hs.of_priv (frame_executeMret s.cpu)
  | sret _ =>
    obtain ⟨p, hp⟩ := frame_executeSret s.cpu
    exact hs.of_priv hp
  | csrHelper _ _ hw h => exact hwrite hs hw h
  | csrExit h0 hw h => exact hwrite (hs.of_frame h0) hw h
  | gdbWrite reg val =>
    rcases gdbWriteRegister_cases s.cpu reg val with h | ⟨_, addr, _, h⟩
    · exact hs.of_frame h
    · rw [h]
      exact validSatp_csrWrite hs addr val
  | gdbRestore gpr fpr pc csrs => exact validSatp_restoreCsrs _ ⟨hs.limit, hs.mode⟩

theorem theadWrite_satp (priv : PrivLevel) (profile : RiscvCpuProfile) :
    theadWrite csrSatp priv profile = .error causeIllegalInsn := by
  have hread : theadRead csrSatp priv profile = .error causeIllegalInsn := by
    unfold theadRead
    split
    · rfl
    split
    · rfl
    · rw [if_neg (by decide), if_neg (by decide)]
  rw [theadWrite, hread]
  rfl

/-- The helper hands the MMU the value that was kept, if satp accepts it. -/
theorem csrWrite_satp {c1 : RiscvCpu} (hw : csrWrite c csrSatp val = (c1, .ok ()))
    (ha : c.csr.acceptsSatp val) : val = c1.csr.satp := by
  have hc1 : c1 = { c with csr := (c.csr.write csrSatp val c.priv).1 } := by rw [← csrWrite_fst, hw]
  have hok : (c.csr.write csrSatp val c.priv).2 = .ok () := by
    have hres : (c.csr.writeForProfile csrSatp val c.priv c.profile).2 = .ok () := congrArg Prod.snd hw
    unfold CsrFile.writeForProfile at hres
    split at hres
    · rename_i heq
      rw [heq]
    · rw [theadWrite_satp] at hres
      cases hres
  rw [hc1]
  exact (write_satp_ok hok ha).symm

theorem synced_step {s : FullSystemCpu} {e : Event} (hok : SyncOk s e) (hs : Synced s.cpu) :
    Synced (step s e).cpu := by
  have ho := step_cases s e
  generalize (step s e).cpu = c' at ho ⊢
  cases ho with
  | quiet h => exact hs.of_frame h
  | trap h cause tval => exact (hs.of_frame h).of_priv (frame_doTrap _ cause tval)
  | mret => exact hs.of_priv (frame_executeMret s.cpu)
  | sret _ =>
    obtain ⟨p, hp⟩ := frame_executeSret s.cpu
    exact hs.of_priv hp
  | csrHelper hold hnew hw h =>
    refine Synced.of_frame h (synced_syncRuntime hs hw fun haddr => ?_)
    rw [haddr] at hold hw
    exact csrWrite_satp hw (hok haddr _ _ hold hnew)
  | csrExit h0 hw h => exact Synced.of_frame h (synced_syncRuntime (hs.of_frame h0) hw fun _ => rfl)
  | gdbWrite reg val =>
    rcases gdbWriteRegister_cases s.cpu reg val with h | ⟨hreg, addr, haddr, h⟩
    · exact hs.of_frame h
    · rw [h]
      exact synced_csrWrite hs (hok hreg addr haddr)
  | gdbRestore gpr fpr pc csrs => exact synced_restoreCsrs _ ⟨hs.satp, hs.pmp⟩ hok

/-- A CSR access that fails changes nothing: the register file refuses it as a whole, the
helper raises an illegal instruction in the state before it, the exit path reports it. -/
structure Refuses (s : FullSystemCpu) : Prop where
  file : ∀ addr val err, (csrWrite s.cpu addr val).2 = .error err → (csrWrite s.cpu addr val).1 = s.cpu
  helper : ∀ csr rs1Val rs1Idx funct3 time, (s.machinaCsrOp csr rs1Val rs1Idx funct3 time).2 = none →
    (s.machinaCsrOp csr rs1Val rs1Idx funct3 time).1 = s.raise .illegalInstruction 0#64
  exit : ∀ insn time, (s.privCsrInsn insn time).2 = false → (s.privCsrInsn insn time).1 = s

theorem refuses (s : FullSystemCpu) : Refuses s where
  file _ _ _ h := csrWrite_error (Prod.ext rfl h)
  helper csr rs1Val rs1Idx funct3 time := by
    unfold FullSystemCpu.machinaCsrOp
    dsimp only
    split
    · exact fun _ => rfl
    split
    · rintro ⟨⟩
    · split
      · rintro ⟨⟩
      · split <;> rename_i hwrite
        · rw [csrWrite_error hwrite]
          exact fun _ => rfl
        · rintro ⟨⟩
  exit insn time := by
    unfold FullSystemCpu.privCsrInsn
    split
    · exact fun _ => rfl
    split
    · exact fun _ => rfl
    · split
      · exact fun _ => rfl
      · split
        · rintro ⟨⟩
        · split <;> rename_i hwrite
          · rw [csrWrite_error hwrite]
            exact fun _ => rfl
          · rintro ⟨⟩

/-- The CPU comes out of reset with equal copies and a valid satp, whatever its profile. -/
theorem coherent_newWithModel (profile : RiscvCpuProfile) :
    Synced (RiscvCpu.newWithModel profile) ∧ ValidSatp (RiscvCpu.newWithModel profile) := by
  have hpmp : Pmp.new = syncFromCsr CsrFile.new.pmpcfg CsrFile.new.pmpaddr := by
    refine congrArg Pmp.mk (funext fun i => ?_)
    revert i
    decide
  exact ⟨⟨rfl, hpmp⟩, ⟨rfl, Or.inl (show (0#64 >>> 60) &&& 0xF#64 = 0#64 by decide)⟩⟩

/-- In every run, satp stays valid and failing CSR accesses change nothing; the copies
stay equal to the registers in every run whose steps all meet their condition. -/
theorem shadow_of_run (s t : FullSystemCpu) (es : List Event) (hsync : Synced s.cpu) (hsatp : ValidSatp s.cpu)
    (hrun : Run (ofStep step) s es t) :
    ValidSatp t.cpu ∧ Refuses t ∧ (Run (guarded SyncOk (ofStep step)) s es t → Synced t.cpu) := by
  refine ⟨?_, refuses t, fun hok => ?_⟩
  · refine hrun.invariant (I := fun a => ValidSatp a.cpu) ?_ hsatp
    rintro a e b rfl ha
    exact validSatp_step e ha
  · refine hok.invariant (I := fun a => Synced a.cpu) ?_ hsync
    rintro a e b ⟨hstep, rfl⟩ ha
    exact synced_step hstep ha

theorem shadow_of_run_reset :
    Synced (step (step resetSystem (.csrHelper 0x180#64 (8#64 <<< 60) 1 1 0#64)) .ecall).cpu := by
  obtain ⟨hsync, hsatp⟩ := coherent_newWithModel .genericRv64
  refine (shadow_of_run resetSystem _ [.csrHelper 0x180#64 (8#64 <<< 60) 1 1 0#64, .ecall] hsync hsatp
    (.cons rfl (.cons rfl (.nil _)))).2.2 (.cons ⟨?_, rfl⟩ (.cons ⟨trivial, rfl⟩ (.nil _)))
  rintro _ old val - hval
  cases hval
  decide

/-- From reset, the helper writes the mode Sv48 to the satp of a profile that ends at Sv39. -/
def sv48System : FullSystemCpu := step resetSystem (.csrHelper 0x180#64 (9#64 <<< 60) 1 1 0#64)

/-- From reset, the debugger writes a lock to the first PMP entry. -/
def pokedSystem : FullSystemCpu := step resetSystem (.gdbWrite 88 0x98#64)

/-- The MMU takes over the mode that satp rejected, and the PMP unit does not see what
the debugger wrote. -/
theorem shadow_diverges : sv48System.cpu.csr.satp = 0#64 ∧ sv48System.cpu.mmu.satp = 9#64 <<< 60 ∧
      pokedSystem.cpu.pmp ≠ syncFromCsr pokedSystem.cpu.csr.pmpcfg pokedSystem.cpu.csr.pmpaddr := by
  refine ⟨by decide +kernel, by decide +kernel, fun h => ?_⟩
  have hentry := congrArg (fun p => (p.entries 0).cfg) h
  revert hentry
  decide +kernel

end MachinaShadow
