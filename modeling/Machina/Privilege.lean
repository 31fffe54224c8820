import Machina.Machine

/-!
# Privilege changes

Privilege rises only by trap entry, to the level delegation selects; an illegal
`sret` raises an illegal-instruction exception and nothing else; a trap return
undoes the trap; and returning below machine mode leaves MPRV clear. The source
checks no privilege for `mret` and never clears MPRV, so the results are about
runs whose trap returns avoid both.
-/

namespace MachinaPrivilege

open MachinaBits MachinaRiscv MachinaCsr MachinaCpu MachinaFullSystem MachinaMachine MachinaRuns

theorem doTrap_priv (c : RiscvCpu) (cause tval : BitVec 64) :
    (c.doTrap cause tval).priv = trapLevel c.csr c.priv cause := by
  unfold RiscvCpu.doTrap trapLevel
  split <;> rfl

theorem trapLevel_congr {c c' : RiscvCpu} (h : frame c' = frame c) (cause : BitVec 64) :
    trapLevel c'.csr c'.priv cause = trapLevel c.csr c.priv cause := by
  have hpriv : c'.priv = c.priv := congrArg Frame.priv h
  have hm : c'.csr.medeleg = c.csr.medeleg := congrArg Frame.medeleg h
  have hi : c'.csr.mideleg = c.csr.mideleg := congrArg Frame.mideleg h
  have hiff : delegated c'.csr c'.priv cause ↔ delegated c.csr c.priv cause := by
    simp [delegated, delegReg, hpriv, hm, hi]
  exact if_congr hiff rfl rfl

theorem restoreCsrs_priv (c : RiscvCpu) (csrs : List (BitVec 64)) : (restoreCsrs c csrs).priv = c.priv := by
  unfold restoreCsrs
  generalize gdbCsrs.zip csrs = ws
  induction ws generalizing c with
  | nil => rfl
  | cons w ws ih => exact ih (csrWrite c w.1 w.2).1

theorem gdbWriteRegister_priv (c : RiscvCpu) (reg : Nat) (v : BitVec 64) :
    (gdbWriteRegister c reg v).1.priv = c.priv := by
  unfold gdbWriteRegister
  split
  · rfl
  split
  · rfl
  · split
    · rfl
    · split
      · rfl
      · split
        · rfl
        · split <;> rfl

theorem csrWrite_priv {c c1 : RiscvCpu} {addr : BitVec 16} {val : BitVec 64} {r : Except Nat Unit}
    (h : csrWrite c addr val = (c1, r)) : c1.priv = c.priv :=
  (congrArg (fun p => p.1.priv) h).symm

theorem executeSret_priv_le {c : RiscvCpu} (h : ¬ sretIllegal c) : c.executeSret.1.priv ≤ c.priv := by
  have hge : PrivLevel.supervisor ≤ c.priv := by
    have hnot : ¬ c.priv < .supervisor := fun hlt => h (Or.inl hlt)
    rw [PrivLevel.lt_def] at hnot
    exact Nat.le_of_not_lt hnot
  rw [PrivLevel.le_def] at hge ⊢
  simp only [RiscvCpu.executeSret, if_neg h]
  split
  · exact hge
  · exact Nat.zero_le _

/-- An event raises the privilege only by entering a trap, or by an MRET below machine mode. -/
theorem priv_rise_cases {s : FullSystemCpu} {e : Event} (hrise : s.cpu.priv < (step s e).cpu.priv) :
    (∃ c cause tval, frame c = frame s.cpu ∧ (step s e).cpu = c.doTrap cause tval) ∨
      (e = .mret ∧ s.cpu.priv ≠ .machine) := by
  have hne : (step s e).cpu.priv ≠ s.cpu.priv := by
    intro h
    rw [PrivLevel.lt_def, h] at hrise
    exact Nat.lt_irrefl _ hrise
  have hcases := step_cases s e
  generalize hc' : (step s e).cpu = c' at hrise hne hcases
  cases hcases with
  | quiet h => exact False.elim (hne (congrArg Frame.priv h))
  | @trap _ c0 h cause tval => exact Or.inl ⟨c0, cause, tval, h, rfl⟩
  | mret =>
    refine Or.inr ⟨rfl, fun hm => ?_⟩
    rw [hm, PrivLevel.lt_def] at hrise
    exact Nat.not_lt_of_le (PrivLevel.le_machine _) hrise
  | sret h =>
    rw [PrivLevel.lt_def] at hrise
    exact False.elim (Nat.not_lt_of_le (executeSret_priv_le h) hrise)
  | csrHelper hold hnew hwrite h =>
    have hkeep := csrWrite_priv hwrite
    exact False.elim (hne ((congrArg Frame.priv h).trans hkeep))
  | csrExit h0 hwrite h =>
    have hkeep := (csrWrite_priv hwrite).trans (congrArg Frame.priv h0)
    exact False.elim (hne ((congrArg Frame.priv h).trans hkeep))
  | gdbWrite reg val => exact False.elim (hne (gdbWriteRegister_priv _ reg val))
  | gdbRestore gpr fpr pc csrs => exact False.elim (hne (restoreCsrs_priv _ csrs))

/-- The conditions a trap return has to meet: `mret` runs in machine mode, and a return
below machine mode finds MPRV clear. -/
def XretOk (s : FullSystemCpu) : Event → Prop
  | .mret => s.cpu.priv = .machine ∧ (mpp s.cpu.csr.mstatus < .machine → has s.cpu.csr.mstatus mstatusMprv = false)
  | .sret => ¬ sretIllegal s.cpu → has s.cpu.csr.mstatus mstatusMprv = false
  | _ => True

/-- A trap return executes, rather than raising an exception. -/
def Returns (s : FullSystemCpu) (e : Event) : Prop := e = .mret ∨ (e = .sret ∧ ¬ sretIllegal s.cpu)

def xret : PrivLevel → Event
  | .machine => .mret
  | _ => .sret

/-- The exception pc and the interrupt-enable bit of level `l`. -/
def xepc (l : PrivLevel) (f : CsrFile) : BitVec 64 := if l = .machine then f.mepc else f.sepc
def xie (l : PrivLevel) (f : CsrFile) : Bool := has f.mstatus (if l = .machine then mstatusMie else mstatusSie)

/-- The trap `c → t` is undone by the return of its level, from every later state `u` at
that level in which mstatus and xepc are untouched and the return is legal. -/
def Undone (c t : RiscvCpu) : Prop :=
  ∀ u : FullSystemCpu, u.cpu.priv = t.priv → u.cpu.csr.mstatus = t.csr.mstatus →
    xepc t.priv u.cpu.csr = xepc t.priv t.csr → Returns u (xret t.priv) →
    (step u (xret t.priv)).cpu.priv = c.priv ∧ (step u (xret t.priv)).cpu.pc = c.pc ∧
      xie t.priv (step u (xret t.priv)).cpu.csr = xie t.priv c.csr

/-- What one step of a run has to satisfy. -/
structure StepOk (s : FullSystemCpu) (e : Event) (t : FullSystemCpu) : Prop where
  rise : s.cpu.priv < t.cpu.priv → ∃ c cause tval, frame c = frame s.cpu ∧ t.cpu = c.doTrap cause tval ∧
    t.cpu.priv = trapLevel s.cpu.csr s.cpu.priv cause
  mretIllegal : e = .mret → s.cpu.priv < .machine → t = illegalBefore s
  sretIllegal : e = .sret → sretIllegal s.cpu → t = illegalBefore s
  back : ∀ c cause tval, t.cpu = c.doTrap cause tval → Undone c t.cpu
  mprv : Returns s e → t.cpu.priv < .machine → has t.cpu.csr.mstatus mstatusMprv = false

theorem mstatusMpp_eq : mstatusMpp = bit 11 ||| bit 12 := by decide

section

variable (x : BitVec 64)

theorem has_mie : has x mstatusMie = x[3] := has_bit x (by decide)
theorem has_mpie : has x mstatusMpie = x[7] := has_bit x (by decide)
theorem has_sie : has x mstatusSie = x[1] := has_bit x (by decide)
theorem has_spie : has x mstatusSpie = x[5] := has_bit x (by decide)
theorem has_spp : has x mstatusSpp = x[8] := has_bit x (by decide)
theorem has_mprv : has x mstatusMprv = x[17] := has_bit x (by decide)

end

variable (m : BitVec 64)

theorem mie_mret_trap (p : PrivLevel) : has (mretStatus (trapStatusM m p)) mstatusMie = has m mstatusMie := by
  simp only [mretStatus, trapStatusM, has_mie, has_mpie]
  cases p <;> simp [put, mstatusMpp_eq, mstatusMie, mstatusMpie, PrivLevel.code]

theorem sie_sret_trap (p : PrivLevel) : has (sretStatus (trapStatusS m p)) mstatusSie = has m mstatusSie := by
  simp only [sretStatus, trapStatusS, has_sie, has_spie]
  cases p <;> simp [put, mstatusSpp, mstatusSie, mstatusSpie, PrivLevel.le_def, PrivLevel.code]

theorem mpp_trap (p : PrivLevel) : mpp (trapStatusM m p) = p := by
  have hmask (x : BitVec 64) (b : Bool) : (assign x 7 b &&& ~~~mstatusMie) &&& mstatusMpp = x &&& mstatusMpp := by
    ext i hi
    simp only [mstatusMpp_eq, mstatusMie]
    by_cases h11 : 11 = i
    · subst h11
      simp
    by_cases h12 : 12 = i
    · subst h12
      simp
    · simp [h11, h12]
  rw [mpp, trapStatusM, hmask, put_and_mask _ _ _ (by cases p <;> decide)]
  cases p <;> decide

theorem spp_trap (p : PrivLevel) : has (trapStatusS m p) mstatusSpp = decide (PrivLevel.supervisor ≤ p) := by
  simp only [trapStatusS, has_spp]
  cases p <;> simp [put, mstatusSpp, mstatusSie, PrivLevel.le_def, PrivLevel.code]

theorem mprv_mretStatus : has (mretStatus m) mstatusMprv = has m mstatusMprv := by
  simp only [mretStatus, has_mprv, has_mpie]
  simp [mstatusMpp_eq, mstatusMpie]

theorem mprv_sretStatus : has (sretStatus m) mstatusMprv = has m mstatusMprv := by
  simp only [sretStatus, has_mprv, has_spie]
  simp [mstatusSpp, mstatusSpie]

theorem step_sret_of_legal {s : FullSystemCpu} (h : ¬ sretIllegal s.cpu) :
    step s .sret = onCpu s fun c => c.executeSret.1 := by
  have hflag : s.cpu.executeSret.2 = true := by simp [RiscvCpu.executeSret, h]
  simp [step, hflag]

theorem step_sret_of_illegal {s : FullSystemCpu} (h : sretIllegal s.cpu) : step s .sret = illegalBefore s := by
  have hflag : s.cpu.executeSret.2 = false := by simp [RiscvCpu.executeSret, h]
  simp [step, hflag]

/-- Every trap is undone by the return of its level. -/
theorem doTrap_undone (c : RiscvCpu) (cause tval : BitVec 64) : Undone c (c.doTrap cause tval) := by
  intro u hpriv hstatus hepc hret
  by_cases hd : delegated c.csr c.priv cause
  · have ht : c.doTrap cause tval =
        { c with
          csr := { c.csr with sepc := c.pc, scause := cause, stval := tval,
                              mstatus := trapStatusS c.csr.mstatus c.priv }
          pc := tvecAddr c.csr.stvec cause (has cause interruptBit)
          priv := .supervisor
          loadRes := noReservation
          mmu := c.mmu.flush } := if_pos hd
    rw [ht] at hpriv hstatus hepc hret ⊢
    dsimp only [xret, xepc, xie] at hstatus hepc hret ⊢
    have hlegal : ¬ sretIllegal u.cpu := by
      rcases hret with h | ⟨_, h⟩
      · cases h
      · exact h
    rw [step_sret_of_legal hlegal]
    simp only [onCpu, RiscvCpu.executeSret, if_neg hlegal, hstatus, spp_trap]
    refine ⟨?_, hepc, sie_sret_trap _ _⟩
    have hlt : c.priv < .machine := hd.2
    cases hp : c.priv with
    | user | supervisor => rfl
    | machine =>
      rw [hp, PrivLevel.lt_def] at hlt
      exact False.elim (Nat.lt_irrefl _ hlt)
  · have ht : c.doTrap cause tval =
        { c with
          csr := { c.csr with mepc := c.pc, mcause := cause, mtval := tval,
                              mstatus := trapStatusM c.csr.mstatus c.priv }
          pc := tvecAddr c.csr.mtvec cause (has cause interruptBit)
          priv := .machine
          loadRes := noReservation
          mmu := c.mmu.flush } := if_neg hd
    rw [ht] at hpriv hstatus hepc hret ⊢
    dsimp only [xret, xepc, xie] at hstatus hepc hret ⊢
    simp only [step, onCpu, RiscvCpu.executeMret, hstatus]
    exact ⟨mpp_trap _ _, hepc, mie_mret_trap _ _⟩

/-- A trap return that meets its condition leaves MPRV clear below machine mode. -/
theorem mprv_of_returns {s : FullSystemCpu} {e : Event} (hok : XretOk s e) (hret : Returns s e)
    (hlow : (step s e).cpu.priv < .machine) : has (step s e).cpu.csr.mstatus mstatusMprv = false := by
  rcases hret with rfl | ⟨rfl, hlegal⟩
  · change has (mretStatus s.cpu.csr.mstatus) mstatusMprv = false
    rw [mprv_mretStatus]
    exact hok.2 hlow
  rw [step_sret_of_legal hlegal]
  simp only [onCpu, RiscvCpu.executeSret, if_neg hlegal]
  rw [mprv_sretStatus]
  exact hok hlegal

theorem stepOk_of_xretOk {s : FullSystemCpu} {e : Event} (hok : XretOk s e) : StepOk s e (step s e) where
  rise hrise := by
    rcases priv_rise_cases hrise with ⟨c, cause, tval, hframe, ht⟩ | ⟨rfl, hne⟩
    · refine ⟨c, cause, tval, hframe, ht, ?_⟩
      rw [ht, doTrap_priv, trapLevel_congr hframe]
    · exact False.elim (hne hok.1)
  mretIllegal he hlow := by
    subst he
    have hm : s.cpu.priv = .machine := hok.1
    rw [hm, PrivLevel.lt_def] at hlow
    exact False.elim (Nat.lt_irrefl _ hlow)
  sretIllegal he hill := by
    subst he
    exact step_sret_of_illegal hill
  back c cause tval ht := by
    rw [ht]
    exact doTrap_undone c cause tval
  mprv hret hlow := mprv_of_returns hok hret hlow

/-- In every run whose trap returns meet their conditions, every step obeys the
privilege rules. -/
theorem privilege_rules_of_run (s t : FullSystemCpu) (es : List Event)
    (hrun : Run (guarded XretOk (ofStep step)) s es t) : Run (fun a e b => b = step a e ∧ StepOk a e b) s es t := by
  refine hrun.mono ?_
  rintro a e b ⟨hok, rfl⟩
  exact ⟨rfl, stepOk_of_xretOk hok⟩

def bareSystem (c : RiscvCpu) : FullSystemCpu :=
  ⟨c, fun _ => 0#8, fun _ _ => false, 0#64, 0#64, 0#64, 0#64, false, false⟩

def resetSystem : FullSystemCpu := bareSystem (RiscvCpu.newWithModel .genericRv64)

theorem privilege_rules_of_run_reset : Run (fun a e b => b = step a e ∧ StepOk a e b) resetSystem [.ecall, .mret]
      (step (step resetSystem .ecall) .mret) :=
  privilege_rules_of_run _ _ _
    (.cons ⟨trivial, rfl⟩ (.cons ⟨⟨by decide +kernel, by decide +kernel⟩, rfl⟩ (.nil _)))

/-- From reset, machine mode sets MPP to machine and leaves to user mode by `sret`. -/
def userSystem : FullSystemCpu := step (step resetSystem (.csrHelper 0x300#64 (3#64 <<< 11) 1 1 0#64)) .sret

/-- From reset, machine mode sets MPRV and leaves to user mode by `mret`. -/
def lentSystem : FullSystemCpu := step (step resetSystem (.csrHelper 0x300#64 (1#64 <<< 17) 1 1 0#64)) .mret

/-- In user mode `mret` returns to machine mode instead of being illegal, and a return to
user mode keeps MPRV set. -/
theorem mret_raises_privilege : userSystem.cpu.priv = .user ∧ (step userSystem .mret).cpu.priv = .machine ∧
      step userSystem .mret ≠ illegalBefore userSystem ∧
      lentSystem.cpu.priv = .user ∧ has lentSystem.cpu.csr.mstatus mstatusMprv = true := by
  refine ⟨by decide +kernel, by decide +kernel, ?_, by decide +kernel, by decide +kernel⟩
  intro h
  have hcause : (step userSystem .mret).cpu.csr.mcause = (illegalBefore userSystem).cpu.csr.mcause :=
    congrArg (fun s => s.cpu.csr.mcause) h
  revert hcause
  decide +kernel

end MachinaPrivilege
