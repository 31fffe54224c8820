import Machina.Helpers
import Machina.Runs

/-!
# The machine as a transition system

Every way the execution loop, generated code, the devices and the debugger can
do to privilege, CSRs and the shadow state; the results about whole runs are
derived from it.
-/

namespace MachinaMachine

open MachinaBits MachinaRiscv MachinaCsr MachinaPmp MachinaMmu MachinaByteMem MachinaCpu MachinaFullSystem

inductive Event where
  /-- Generated code computes on its own registers; FP instructions mark FS dirty. -/
  | compute (gpr fpr : Fin 32 → BitVec 64) (pc loadRes loadVal faultPc : BitVec 64) (fsDirty : Bool)
  | load (gva size : BitVec 64)
  | store (gva val size : BitVec 64)
  | loadReserved (gva size : BitVec 64)
  | storeConditional (gva val size : BitVec 64)
  | amo (gva val size : BitVec 64) (op : Option AmoOp)
  | fetch (vpc : BitVec 64)
  | csrHelper (csr rs1Val : BitVec 64) (rs1Idx funct3 : Nat) (time : BitVec 64)
  | csrExit (time : BitVec 64)
  | undef
  | ebreak
  | ecall
  /-- In builtin mode the host answers supervisor calls. -/
  | firmware (a₀ a₁ : BitVec 64) (clearStip : Bool)
  | memFault
  | lines (mip : BitVec 64)
  | interrupt
  | mret
  | sret
  | sfenceVma
  | fenceI
  | wfi (stopped : Bool)
  | retired (cycles insns : BitVec 64)
  | gdbWrite (reg : Nat) (val : BitVec 64)
  | gdbWriteAll (gpr fpr : Fin 32 → BitVec 64) (pc : BitVec 64)
  | gdbRestore (gpr fpr : Fin 32 → BitVec 64) (pc : BitVec 64) (csrs : List (BitVec 64))
  | gdbPoke (pa : BitVec 64) (byte : BitVec 8)

variable (s : FullSystemCpu)

/-- An illegal instruction found after the pc moved past it. -/
def illegalBefore : FullSystemCpu :=
  ({ s with cpu := { s.cpu with pc := s.cpu.pc - 4#64 } }).handleException 2#64 0#64

/-- SFENCE.VMA traps in S-mode while TVM is set. -/
def checkSfenceTrap (c : RiscvCpu) : Prop := c.priv = .supervisor ∧ has c.csr.mstatus mstatusTvm = true

instance (c : RiscvCpu) : Decidable (checkSfenceTrap c) := inferInstanceAs (Decidable (_ ∧ _))

def ecallCause : PrivLevel → BitVec 64
  | .user => 8#64
  | .supervisor => 9#64
  | .machine => 11#64

/-- The execution loop only delivers an interrupt when `pending_interrupt` says so. -/
def deliver : FullSystemCpu := if s.pendingInterrupt then s.handleInterrupt.1 else s

def setHalted (halted : Bool) : FullSystemCpu := { s with cpu := { s.cpu with halted := halted } }

def onCpu (f : RiscvCpu → RiscvCpu) : FullSystemCpu := { s with cpu := f s.cpu }

def step : Event → FullSystemCpu
  | .compute gpr fpr pc loadRes loadVal faultPc fsDirty =>
    onCpu s fun c => { c with gpr := gpr, fpr := fpr, pc := pc, loadRes := loadRes, loadVal := loadVal,
                              faultPc := faultPc,
                              csr := if fsDirty then { c.csr with mstatus := c.csr.mstatus ||| mstatusFs } else c.csr }
  | .load gva size => (s.guestLoad gva size).1
  | .store gva val size => s.guestStore gva val size
  | .loadReserved gva size => (s.machinaLrOp gva size).1
  | .storeConditional gva val size => (s.machinaScOp gva val size).1
  | .amo gva val size op => (s.machinaAmoOp gva val size op).1
  | .fetch vpc =>
    let s₁ := onCpu s fun c => { c with faultPc := 0#64 }
    let (s₂, pa) := s₁.translatePc vpc
    if pa = fetchFault then s₂ else onCpu s₂ fun c => { c with lastPhysPc := pa }
  | .csrHelper csr rs1Val rs1Idx funct3 time => (s.machinaCsrOp csr rs1Val rs1Idx funct3 time).1
  | .csrExit time =>
    let (s₁, legal) := s.handlePrivCsr time
    if legal then { s₁ with instretWriteSuppression := false } else s₁.handleException 2#64 0#64
  | .undef => s.handleException 2#64 0#64
  | .ebreak => s.handleException 3#64 s.cpu.pc
  | .ecall => s.handleException (ecallCause s.cpu.priv) 0#64
  | .firmware a₀ a₁ clearStip =>
    onCpu s fun c => { c with gpr := Function.update (Function.update c.gpr 10 a₀) 11 a₁, pc := c.pc + 4#64,
                              csr := if clearStip then { c.csr with mip := c.csr.mip &&& ~~~bit 5 } else c.csr }
  | .memFault => s.checkMemFault.1
  | .lines mip => { s with sharedMip := mip }
  | .interrupt => deliver s
  | .mret => onCpu s RiscvCpu.executeMret
  | .sret => if s.cpu.executeSret.2 then onCpu s fun c => c.executeSret.1 else illegalBefore s
  | .sfenceVma =>
    if checkSfenceTrap s.cpu then illegalBefore s else onCpu s fun c => { c with mmu := c.mmu.flush }
  | .fenceI => s
  | .wfi stopped =>
    if s.pendingWfiWakeup = false ∧ stopped = true then setHalted s false else deliver (setHalted s false)
  | .retired cycles insns =>
    onCpu s fun c => { c with csr := { c.csr with cycle := c.csr.cycle + cycles, instret := c.csr.instret + insns } }
  | .gdbWrite reg val => onCpu s fun c => (gdbWriteRegister c reg val).1
  | .gdbWriteAll gpr fpr pc => onCpu s fun c => { c with gpr := gpr, fpr := fpr, pc := pc }
  | .gdbRestore gpr fpr pc csrs => onCpu s fun c => restoreSnapshot c gpr fpr pc csrs
  | .gdbPoke pa byte => { s with mem := write s.mem pa 1 (byte.setWidth 64) }

/-- The part of the CPU that only traps, trap returns, CSR instructions and the debugger
can change. -/
structure Frame where
  priv : PrivLevel
  profile : RiscvCpuProfile
  pmp : Pmp
  shadowSatp : BitVec 64
  medeleg : BitVec 64
  mideleg : BitVec 64
  pmpcfg : Fin 4 → BitVec 64
  pmpaddr : Fin 16 → BitVec 64
  satp : BitVec 64
  maxSatpMode : BitVec 64

def frame (c : RiscvCpu) : Frame :=
  ⟨c.priv, c.profile, c.pmp, c.mmu.satp, c.csr.medeleg, c.csr.mideleg, c.csr.pmpcfg, c.csr.pmpaddr, c.csr.satp,
    c.csr.maxSatpMode⟩

/-- Everything an event can do to the CPU, as far as the frame is concerned. -/
inductive Outcome (c : RiscvCpu) : Event → RiscvCpu → Prop where
  | quiet {e : Event} {c' : RiscvCpu} (h : frame c' = frame c) : Outcome c e c'
  | trap {e : Event} {c₀ : RiscvCpu} (h : frame c₀ = frame c) (cause tval : BitVec 64) :
    Outcome c e (c₀.doTrap cause tval)
  | mret : Outcome c .mret c.executeMret
  | sret (h : ¬ sretIllegal c) : Outcome c .sret c.executeSret.1
  | csrHelper {csr rs1Val time old val : BitVec 64} {rs1Idx funct3 : Nat} {c₁ c' : RiscvCpu}
    (hold : csrOld c (csr.setWidth 16) time = .ok old) (hnew : csrNew funct3 old rs1Val = some val)
    (hwrite : csrWrite c (csr.setWidth 16) val = (c₁, .ok ()))
    (h : frame c' = frame (syncRuntime c₁ (csr.setWidth 16) val)) :
    Outcome c (.csrHelper csr rs1Val rs1Idx funct3 time) c'
  | csrExit {time val : BitVec 64} {addr : BitVec 16} {c₀ c₁ c' : RiscvCpu} (h₀ : frame c₀ = frame c)
    (hwrite : csrWrite c₀ addr val = (c₁, .ok ())) (h : frame c' = frame (syncRuntime c₁ addr c₁.csr.satp)) :
    Outcome c (.csrExit time) c'
  | gdbWrite (reg : Nat) (val : BitVec 64) : Outcome c (.gdbWrite reg val) (gdbWriteRegister c reg val).1
  | gdbRestore (gpr fpr : Fin 32 → BitVec 64) (pc : BitVec 64) (csrs : List (BitVec 64)) :
    Outcome c (.gdbRestore gpr fpr pc csrs) (restoreSnapshot c gpr fpr pc csrs)

/-- The access that an event has to translate, because no tag lets it through. -/
def slowAccess (s : FullSystemCpu) : Event → Option (AccessType × BitVec 64 × BitVec 64)
  | .load gva size => if s.inlineHit .read gva size = none then some (.read, gva, size) else none
  | .store gva _ size => if s.inlineHit .write gva size = none then some (.write, gva, size) else none
  | .loadReserved gva size => some (.read, gva, size)
  | .storeConditional gva _ size => some (.write, gva, size)
  | .amo gva _ size _ =>
    if (size = 4#64 ∨ size = 8#64) ∧ gva &&& (size - 1#64) = 0#64 then some (.write, gva, size) else none
  | .fetch vpc => some (.execute, vpc, 2#64)
  | .csrExit _ => some (.execute, s.cpu.pc, 2#64)
  | _ => none

/-- The CPU after the translation an event needs, or with the dirty mark of its inline store. -/
inductive Translated (s : FullSystemCpu) (e : Event) : RiscvCpu → Prop where
  | none : Translated s e s.cpu
  | dirty (gva : BitVec 64) : Translated s e { s.cpu with mmu := markDirty s.cpu.mmu gva }
  | data {access : AccessType} {gva size : BitVec 64} (hslow : slowAccess s e = some (access, gva, size))
    (hdata : access ≠ .execute) : Translated s e (s.translateForHelper gva access size).1.cpu
  | fetch {vpc : BitVec 64} {s₁ : FullSystemCpu} (hslow : slowAccess s e = some (.execute, vpc, 2#64))
    (hcpu : s₁.cpu = { s.cpu with faultPc := 0#64 }) (hmem : s₁.mem = s.mem) :
    Translated s e (s₁.translatePc vpc).1.cpu

/-- Neither the frame nor anything translation depends on changes: `mstatus` at most marks FS dirty. -/
structure Quiet (c c' : RiscvCpu) : Prop where
  same : frame c' = frame c
  mmu : c'.mmu = c.mmu
  layout : (c'.guestBase, c'.ramBase, c'.ramEnd) = (c.guestBase, c.ramBase, c.ramEnd)
  mstatus : c'.csr.mstatus = c.csr.mstatus ∨ c'.csr.mstatus = c.csr.mstatus ||| mstatusFs

/-- Everything an event can do to the CPU: the case analysis of `step` that every account of one part of the
CPU is read off. -/
inductive Did (s : FullSystemCpu) : Event → RiscvCpu → Prop where
  | quiet {e : Event} {c c' : RiscvCpu} (ht : Translated s e c) (hq : Quiet c c') : Did s e c'
  | trap {e : Event} {c c₀ : RiscvCpu} (ht : Translated s e c) (hq : Quiet c c₀) (cause tval : BitVec 64) :
    Did s e (c₀.doTrap cause tval)
  | flush : Did s .sfenceVma { s.cpu with mmu := s.cpu.mmu.flush }
  | mret : Did s .mret s.cpu.executeMret
  | sret (h : ¬ sretIllegal s.cpu) : Did s .sret s.cpu.executeSret.1
  | csrHelper {csr rs1Val time old val : BitVec 64} {rs1Idx funct3 : Nat} {c₁ c' : RiscvCpu}
    (hold : csrOld s.cpu (csr.setWidth 16) time = .ok old) (hnew : csrNew funct3 old rs1Val = some val)
    (hwrite : csrWrite s.cpu (csr.setWidth 16) val = (c₁, .ok ()))
    (hq : Quiet (syncRuntime c₁ (csr.setWidth 16) val) c') :
    Did s (.csrHelper csr rs1Val rs1Idx funct3 time) c'
  | csrExit {time val : BitVec 64} {addr : BitVec 16} {c₀ c₁ c' : RiscvCpu}
    (ht : Translated s (.csrExit time) c₀) (hwrite : csrWrite c₀ addr val = (c₁, .ok ()))
    (hq : Quiet (syncRuntime c₁ addr c₁.csr.satp) c') : Did s (.csrExit time) c'
  | gdbWrite (reg : Nat) (val : BitVec 64) : Did s (.gdbWrite reg val) (gdbWriteRegister s.cpu reg val).1
  | gdbRestore (gpr fpr : Fin 32 → BitVec 64) (pc : BitVec 64) (csrs : List (BitVec 64)) :
    Did s (.gdbRestore gpr fpr pc csrs) (restoreSnapshot s.cpu gpr fpr pc csrs)

theorem Quiet.of_eq {c c' : RiscvCpu} (h : (frame c', c'.mmu, (c'.guestBase, c'.ramBase, c'.ramEnd), c'.csr.mstatus) =
      (frame c, c.mmu, (c.guestBase, c.ramBase, c.ramEnd), c.csr.mstatus)) : Quiet c c' := by
  simp only [Prod.mk.injEq] at h
  exact ⟨h.1, h.2.1, Prod.ext h.2.2.1.1 (Prod.ext h.2.2.1.2.1 h.2.2.1.2.2), .inl h.2.2.2⟩

theorem setGpr_quiet (c : RiscvCpu) (rd : Fin 32) (v pc : BitVec 64) : Quiet c { setGpr c rd v with pc := pc } := by
  unfold setGpr
  split <;> exact .of_eq rfl

@[simp] theorem translateMiss_satp (m : Mmu) (mem : Mem) (gva : BitVec 64) (access : AccessType) (priv : PrivLevel)
    (mstatus size : BitVec 64) (pmp : Option Pmp) :
    (m.translateMiss mem gva access priv mstatus size pmp).1.satp = m.satp := by
  unfold Mmu.translateMiss
  split
  · rfl
  split
  · rfl
  · split
    · rfl
    · split <;> rfl

theorem translatePaged_frame (gva : BitVec 64) (access : AccessType) (priv : PrivLevel)
    (size : BitVec 64) (fault : Exception → BitVec 64) :
    frame (s.translatePaged gva access priv size fault).1.cpu = frame s.cpu := by
  have hsatp := translateMiss_satp s.cpu.mmu s.mem gva access priv s.cpu.csr.mstatus size (some s.cpu.pmp)
  unfold FullSystemCpu.translatePaged
  split <;> rename_i mmu mem _ heq
  all_goals
    rw [heq] at hsatp
    simp only [frame, Mmu.fillAddend, Mmu.setEntry, RiscvCpu.latch, Frame.mk.injEq, and_self, and_true, true_and]
    exact hsatp

theorem translateForHelper_frame (gva : BitVec 64) (access : AccessType) (size : BitVec 64) :
    frame (s.translateForHelper gva access size).1.cpu = frame s.cpu := by
  unfold FullSystemCpu.translateForHelper
  dsimp only
  split
  · split <;> rfl
  · exact translatePaged_frame s _ _ _ _ _

theorem translatePc_frame (vpc : BitVec 64) : frame (s.translatePc vpc).1.cpu = frame s.cpu := by
  have hpaged := translatePaged_frame s vpc .execute s.cpu.priv 2#64 fetchFaultCause
  unfold FullSystemCpu.translatePc
  split
  · split <;> rfl
  · split <;> rename_i heq <;> rw [heq] at hpaged <;> exact hpaged

theorem csrWrite_error {c c1 : RiscvCpu} {addr : BitVec 16} {val : BitVec 64} {err : Nat}
    (h : csrWrite c addr val = (c1, .error err)) : c1 = c := by
  have hfile : (c.csr.writeForProfile addr val c.priv c.profile).2 = .error err := congrArg Prod.snd h
  have hsame : (c.csr.write addr val c.priv).1 = c.csr := by
    unfold CsrFile.writeForProfile at hfile
    cases hw : c.csr.write addr val c.priv with
    | mk g r =>
      rw [hw] at hfile
      cases r with
      | ok u => cases hfile
      | error err' =>
        have hres : (c.csr.write addr val c.priv).2 = .error err' := by rw [hw]
        rw [← hw]
        exact write_error hres
  have hfst : c1 = { c with csr := (c.csr.writeForProfile addr val c.priv c.profile).1 } :=
    (congrArg Prod.fst h).symm
  rw [hfst, writeForProfile_fst, hsame]

theorem Did.raiseLatched {s s₁ : FullSystemCpu} {e : Event} {c : RiscvCpu} (ht : Translated s e c)
    (hq : Quiet c s₁.cpu) (accessCause : BitVec 64) (onAccess onPage : Exception) :
    Did s e (s₁.raiseLatched accessCause onAccess onPage).cpu :=
  .trap ht (show Quiet c (s₁.cpu.latch 0#64 0#64) from ⟨hq.same, hq.mmu, hq.layout, hq.mstatus⟩) _ _

theorem Did.illegalBefore (e : Event) : Did s e (illegalBefore s).cpu :=
  .trap .none (show Quiet s.cpu { s.cpu with pc := s.cpu.pc - 4#64 } from .of_eq rfl) _ _

/-- Delivery mirrors the lines into `mip` and then takes at most one interrupt. -/
theorem deliver_did (e : Event) (halted : Bool) : Did s e (deliver (setHalted s halted)).cpu := by
  unfold deliver
  split
  · unfold FullSystemCpu.handleInterrupt RiscvCpu.handleInterrupt
    dsimp only
    cases (setHalted s halted).mirrorMip.cpu.selectInterrupt with
    | none => exact .quiet .none (.of_eq rfl)
    | some irq => exact .trap .none (show Quiet s.cpu (setHalted s halted).mirrorMip.cpu from .of_eq rfl) _ _
  · exact .quiet .none (.of_eq rfl)

/-- A CSR instruction in the exit path is quiet or performs one write; an illegal one
is always quiet. -/
theorem privCsrInsn_cases (i : CsrInsn) (time : BitVec 64) : Quiet s.cpu (s.privCsrInsn i time).1.cpu ∨
      ((s.privCsrInsn i time).2 = true ∧ ∃ val c1, csrWrite s.cpu i.addr val = (c1, .ok ()) ∧
        Quiet (syncRuntime c1 i.addr c1.csr.satp) (s.privCsrInsn i time).1.cpu) := by
  unfold FullSystemCpu.privCsrInsn
  split
  · exact Or.inl (.of_eq rfl)
  split
  · exact Or.inl (.of_eq rfl)
  · split
    · exact Or.inl (.of_eq rfl)
    · split
      · exact Or.inl (setGpr_quiet _ _ _ _)
      · split <;> rename_i val _ _ _ c1 hwrite
        · rw [csrWrite_error hwrite]
          exact Or.inl (.of_eq rfl)
        · exact Or.inr ⟨rfl, val, c1, hwrite, setGpr_quiet _ _ _ _⟩

theorem csrExit_did (time : BitVec 64) : Did s (.csrExit time) (step s (.csrExit time)).cpu := by
  have hfetch : Translated s (.csrExit time) (FullSystemCpu.translatePc
      { s with cpu := { s.cpu with faultPc := 0#64 }, instretWriteSuppression := false } s.cpu.pc).1.cpu :=
    .fetch rfl rfl rfl
  simp only [step, FullSystemCpu.handlePrivCsr]
  generalize FullSystemCpu.translatePc
    { s with cpu := { s.cpu with faultPc := 0#64 }, instretWriteSuppression := false } s.cpu.pc = r at hfetch ⊢
  obtain ⟨s2, physPc⟩ := r
  by_cases hfault : physPc = fetchFault
  · rw [if_pos hfault]
    split
    · exact .quiet hfetch (.of_eq rfl)
    · exact .trap hfetch (.of_eq rfl) _ _
  · rw [if_neg hfault]
    by_cases hregion : s2.fetchable physPc = false
    · rw [if_pos hregion]
      exact .quiet hfetch (.of_eq rfl)
    rw [if_neg hregion]
    rcases privCsrInsn_cases s2 (decodeCsrInsn ((read s2.mem physPc 4).setWidth 32)) time with
      hquiet | ⟨hlegal, val, c1, hwrite, hquiet⟩
    · split
      · exact .quiet hfetch hquiet
      · exact .trap hfetch hquiet _ _
    · rw [if_pos hlegal]
      exact .csrExit hfetch hwrite hquiet

theorem compute_quiet (gpr fpr : Fin 32 → BitVec 64) (pc loadRes loadVal faultPc : BitVec 64) (fsDirty : Bool) :
    Quiet s.cpu (step s (.compute gpr fpr pc loadRes loadVal faultPc fsDirty)).cpu := by
  cases fsDirty with
  | false => exact .of_eq rfl
  | true => exact ⟨rfl, rfl, rfl, .inr rfl⟩

theorem step_did (e : Event) : Did s e (step s e).cpu := by
  cases e with
  | compute gpr fpr pc loadRes loadVal faultPc fsDirty => exact .quiet .none (compute_quiet s _ _ _ _ _ _ _)
  | load gva size =>
    simp only [step, FullSystemCpu.guestLoad, FullSystemCpu.machinaMemRead]
    split
    · exact .quiet .none (.of_eq rfl)
    rename_i hmiss
    have htr : Translated s (.load gva size) _ := .data (if_pos hmiss) (by decide)
    split <;> rename_i heq <;> rw [heq] at htr
    · split <;> exact .quiet htr (.of_eq rfl)
    · exact .quiet htr (.of_eq rfl)
  | store gva val size =>
    simp only [step, FullSystemCpu.guestStore, FullSystemCpu.machinaMemWrite]
    split
    · exact .quiet (.dirty gva) (.of_eq rfl)
    rename_i hmiss
    have htr : Translated s (.store gva val size) _ := .data (if_pos hmiss) (by decide)
    split <;> rename_i heq <;> rw [heq] at htr
    · split <;> exact .quiet htr (.of_eq rfl)
    · exact .quiet htr (.of_eq rfl)
  | loadReserved gva size =>
    have htr : Translated s (.loadReserved gva size) _ := .data rfl (by decide)
    simp only [step, FullSystemCpu.machinaLrOp]
    split <;> rename_i heq <;> rw [heq] at htr
    · exact .raiseLatched htr (.of_eq rfl) _ _ _
    split
    · exact .quiet htr (.of_eq rfl)
    · exact .trap htr (.of_eq rfl) _ _
  | storeConditional gva val size =>
    have htr : Translated s (.storeConditional gva val size) _ := .data rfl (by decide)
    simp only [step, FullSystemCpu.machinaScOp]
    split <;> rename_i heq <;> rw [heq] at htr
    · exact .raiseLatched htr (.of_eq rfl) _ _ _
    split
    · exact .quiet htr (.of_eq rfl)
    · split
      · split <;> exact .quiet htr (.of_eq rfl)
      · exact .trap htr (.of_eq rfl) _ _
  | amo gva val size op =>
    simp only [step, FullSystemCpu.machinaAmoOp]
    split
    · exact .trap .none (.of_eq rfl) _ _
    rename_i hsize
    split
    · exact .trap .none (.of_eq rfl) _ _
    rename_i halign
    have htr : Translated s (.amo gva val size op) _ := .data (if_pos ⟨by tauto, not_not.mp halign⟩) (by decide)
    split <;> rename_i heq <;> rw [heq] at htr
    · exact .raiseLatched htr (.of_eq rfl) _ _ _
    split
    · exact .trap htr (.of_eq rfl) _ _
    · split
      · exact .trap htr (.of_eq rfl) _ _
      · exact .quiet htr (.of_eq rfl)
  | fetch vpc =>
    have htr : Translated s (.fetch vpc) ((onCpu s fun c => { c with faultPc := 0#64 }).translatePc vpc).1.cpu :=
      .fetch rfl rfl rfl
    simp only [step]
    split <;> exact .quiet htr (.of_eq rfl)
  | csrHelper csr rs1Val rs1Idx funct3 time =>
    simp only [step, FullSystemCpu.machinaCsrOp]
    split
    · exact .trap .none (.of_eq rfl) _ _
    rename_i old hold
    split
    · exact .quiet .none (.of_eq rfl)
    rename_i val hnew
    split
    · exact .quiet .none (.of_eq rfl)
    split <;> rename_i c1 hwrite
    · rw [csrWrite_error hwrite]
      exact .trap .none (.of_eq rfl) _ _
    · exact .csrHelper hold hnew hwrite (.of_eq rfl)
  | csrExit time => exact csrExit_did s time
  | undef | ebreak | ecall => exact .trap .none (.of_eq rfl) _ _
  | firmware a0 a1 clearStip => cases clearStip <;> exact .quiet .none (.of_eq rfl)
  | memFault =>
    simp only [step, FullSystemCpu.checkMemFault]
    split
    · exact .quiet .none (.of_eq rfl)
    · refine .trap .none ?_ _ _
      split <;> exact .of_eq rfl
  | interrupt => exact deliver_did s _ s.cpu.halted
  | mret => exact .mret
  | sret =>
    simp only [step, onCpu, RiscvCpu.executeSret]
    by_cases hill : sretIllegal s.cpu
    · simp only [if_pos hill, Bool.false_eq_true, if_false]
      exact .illegalBefore s _
    simp only [if_neg hill, if_true]
    have hdid : Did s .sret s.cpu.executeSret.1 := .sret hill
    rw [RiscvCpu.executeSret, if_neg hill] at hdid
    exact hdid
  | sfenceVma =>
    simp only [step]
    split
    · exact .illegalBefore s _
    · exact .flush
  | wfi stopped =>
    simp only [step]
    split
    · exact .quiet .none (.of_eq rfl)
    · exact deliver_did s _ false
  | lines mip | fenceI | retired cycles insns | gdbWriteAll gpr fpr pc | gdbPoke pa byte =>
    exact .quiet .none (.of_eq rfl)
  | gdbWrite reg val => exact .gdbWrite reg val
  | gdbRestore gpr fpr pc csrs => exact .gdbRestore gpr fpr pc csrs

/-- Translation only changes the TLB and the latched fault. -/
theorem Translated.frame_eq {s : FullSystemCpu} {e : Event} {c : RiscvCpu} (h : Translated s e c) :
    frame c = frame s.cpu := by
  cases h with
  | none | dirty gva => rfl
  | data => exact translateForHelper_frame s _ _ _
  | fetch _ hcpu _ =>
    rw [translatePc_frame, hcpu]
    rfl

theorem Did.outcome {s : FullSystemCpu} {e : Event} {c : RiscvCpu} (h : Did s e c) : Outcome s.cpu e c := by
  cases h with
  | quiet ht hq => exact .quiet (hq.same.trans ht.frame_eq)
  | trap ht hq cause tval => exact .trap (hq.same.trans ht.frame_eq) cause tval
  | flush => exact .quiet rfl
  | mret => exact .mret
  | sret h => exact .sret h
  | csrHelper hold hnew hwrite hq => exact .csrHelper hold hnew hwrite hq.same
  | csrExit ht hwrite hq => exact .csrExit ht.frame_eq hwrite hq.same
  | gdbWrite reg val => exact .gdbWrite reg val
  | gdbRestore gpr fpr pc csrs => exact .gdbRestore gpr fpr pc csrs

theorem step_cases (e : Event) : Outcome s.cpu e (step s e).cpu := (step_did s e).outcome

end MachinaMachine
