import Machina.LoongCpu

/-!
# Pending and delivered interrupts

Devices raise lines asynchronously, in an interrupt state beside the CPU. `pending_interrupt` asks the registers and
that state whether an interrupt is waiting; `handle_interrupt` first moves the lines into the status registers, passed
through to the guest where GINTC says so, and then takes the highest enabled one. The first always judges the
asynchronous lines by the host's registers. This module says exactly when the two agree.
-/

namespace MachinaLoongIrq

open MachinaBits MachinaLoongMmu MachinaLoongCpu

structure LoongArchCpuInterruptState where
  hwiPending : BitVec 32 := 0
  ipiPending : Bool := false
  deriving DecidableEq, Repr

variable {c : LoongArchCpu} {i : LoongArchCpuInterruptState} {l line : Nat}

section

variable (i : LoongArchCpuInterruptState)

def LoongArchCpuInterruptState.hwi (line : Nat) : Bool :=
  has i.hwiPending (bit line)

def LoongArchCpuInterruptState.pendingEstatBits : BitVec 64 :=
  let bits := (List.range 8).foldl (fun bits line => if i.hwi line then bits ||| bit (2 + line) else bits) 0#64
  if i.ipiPending then bits ||| bit 12 else bits

def LoongArchCpuInterruptState.pendingInterrupt (c : LoongArchCpu) : Bool :=
  if !has (c.csr csrCrmd) crmdIe then false
  else (c.maskedInterruptLineForEstat (c.csr csrEstat ||| i.pendingEstatBits)).isSome

def LoongArchCpuInterruptState.applyHwi (lines : List Nat) (c : LoongArchCpu) : LoongArchCpu :=
  lines.foldl (fun c line => c.setHwiInterruptPending line (i.hwi line)) c

def LoongArchCpuInterruptState.applyToCpu (c : LoongArchCpu) : LoongArchCpu :=
  (i.applyHwi (List.range 8) c).setIpiInterruptPending i.ipiPending

structure LoongArchFullSystemCpu where
  cpu : LoongArchCpu
  interrupts : Option LoongArchCpuInterruptState

end

def LoongArchFullSystemCpu.applyAsyncInterrupts (s : LoongArchFullSystemCpu) : LoongArchFullSystemCpu :=
  match s.interrupts with
  | none => s
  | some i => { s with cpu := i.applyToCpu s.cpu }

def LoongArchFullSystemCpu.asyncPendingInterrupt (s : LoongArchFullSystemCpu) : Bool :=
  s.interrupts.any fun i => i.pendingInterrupt s.cpu

def LoongArchFullSystemCpu.pendingInterrupt (s : LoongArchFullSystemCpu) : Bool :=
  s.cpu.pendingInterrupt || s.asyncPendingInterrupt

/-- The line the function takes, if it takes one, beside the state it leaves. -/
def loongarchHandleInterrupt (c : LoongArchCpu) : Option Nat × LoongArchCpu :=
  match c.pendingInterruptLine with
  | none => (none, c)
  | some irq =>
    let (vec, c) := c.enterException ecodeInt 0 none
    (some irq, { c with pc := c.externalInterruptVector irq vec })

def LoongArchFullSystemCpu.handleInterrupt (s : LoongArchFullSystemCpu) : Option Nat × LoongArchFullSystemCpu :=
  let s := s.applyAsyncInterrupts
  let (line, c) := loongarchHandleInterrupt s.cpu
  (line, { s with cpu := c })

/-! ## Lines -/

/-- Some line of the interrupt field has the property. -/
def someLine (p : Nat → Bool) : Prop := ∃ line, line < 13 ∧ p line = true

/-- The line has the property and no higher one has. -/
def Highest (p : Nat → Bool) (line : Nat) : Prop :=
  line < 13 ∧ p line = true ∧ ∀ l, line < l → l < 13 → p l = false

theorem getLsbD_estatIsMask (k : Nat) : estatIsMask.getLsbD k = decide (k < 13) := by
  have hmask : estatIsMask = (BitVec.allOnes 13).setWidth 64 := by decide
  rw [hmask, BitVec.getLsbD_setWidth, BitVec.getLsbD_allOnes]
  by_cases h : k < 13
  · simp [h, show k < 64 by omega]
  · simp [h]

/-- Reading a pending word picks its highest line in the interrupt field. -/
theorem maskedInterruptLineFor_eq_some {estat ecfg : BitVec 64} (h : maskedInterruptLineFor estat ecfg = some line) :
    Highest (fun l => ecfg.getLsbD l && estat.getLsbD l) line := by
  simp only [maskedInterruptLineFor] at h
  set pending := estat &&& ecfg &&& estatIsMask with hpending
  have hbit : ∀ l, pending.getLsbD l = (ecfg.getLsbD l && estat.getLsbD l && decide (l < 13)) := by
    intro l
    rw [hpending, BitVec.getLsbD_and, BitVec.getLsbD_and, getLsbD_estatIsMask, Bool.and_comm (estat.getLsbD l)]
  split at h
  · exact absurd h (by simp)
  rename_i hne
  obtain rfl := Option.some.inj h
  have htop := BitVec.getLsbD_true_clz_of_ne_zero (by decide) hne
  rw [hbit] at htop
  simp only [Bool.and_eq_true, decide_eq_true_eq] at htop
  refine ⟨htop.2, by simpa using htop.1, ?_⟩
  intro l hl hl13
  -- a bit above the highest one would make the word too large
  by_contra hset
  have hlit : pending.getLsbD l = true := by
    rw [hbit]
    simpa [hl13] using hset
  have hlt := BitVec.toNat_lt_two_pow_sub_clz (x := pending)
  have hge : 2 ^ l ≤ pending.toNat := Nat.ge_two_pow_of_testBit hlit
  have hpow : 2 ^ (64 - pending.clz.toNat) ≤ 2 ^ l := Nat.pow_le_pow_right (by decide) (by omega)
  omega

theorem maskedInterruptLineFor_isSome (estat ecfg : BitVec 64) :
    (maskedInterruptLineFor estat ecfg).isSome = true ↔ someLine fun l => ecfg.getLsbD l && estat.getLsbD l := by
  constructor
  · intro h
    obtain ⟨line, hline⟩ := Option.isSome_iff_exists.mp h
    have htop := maskedInterruptLineFor_eq_some hline
    exact ⟨line, htop.1, htop.2.1⟩
  · rintro ⟨line, hlt, hline⟩
    have hne : estat &&& ecfg &&& estatIsMask ≠ 0 := by
      intro hzero
      have hbit := congrArg (fun x : BitVec 64 => x.getLsbD line) hzero
      simp only [BitVec.getLsbD_and, getLsbD_estatIsMask, hlt, decide_true, Bool.and_true] at hbit
      rw [Bool.and_comm] at hbit
      simp [hline] at hbit
    rw [maskedInterruptLineFor, if_neg hne]
    rfl

/-! ## Moving the asynchronous lines into the registers -/

/-- GINTC passes the device line through to the guest. -/
def passedThrough (c : LoongArchCpu) (hwi : Nat) : Bool := has (c.csr csrGintc) (bit (8 + hwi))

/-- Only the host and the guest ESTAT may differ. -/
structure SameButEstat (c d : LoongArchCpu) : Prop where
  csr : ∀ num, num ≠ csrEstat → d.csr num = c.csr num
  gcsr : ∀ num, num ≠ csrEstat → d.gcsr num = c.gcsr num

theorem SameButEstat.trans {d e : LoongArchCpu} (h : SameButEstat c d) (h' : SameButEstat d e) : SameButEstat c e where
  csr num hnum := (h'.csr num hnum).trans (h.csr num hnum)
  gcsr num hnum := (h'.gcsr num hnum).trans (h.gcsr num hnum)

section

variable (c : LoongArchCpu)

/-- Waking the CPU leaves the registers alone. -/
theorem setInterruptBitPending_csr (k : Nat) (pending : Bool) : (c.setInterruptBitPending k pending).csr
      = Function.update c.csr csrEstat (assign (c.csr csrEstat) k pending) := by
  simp only [LoongArchCpu.setInterruptBitPending]
  split <;> rfl

theorem setInterruptBitPending_gcsr (k : Nat) (pending : Bool) :
    (c.setInterruptBitPending k pending).gcsr = c.gcsr := by
  simp only [LoongArchCpu.setInterruptBitPending]
  split <;> rfl

theorem setGuestInterruptBitPending_csr (k : Nat) (pending : Bool) :
    (c.setGuestInterruptBitPending k pending).csr = c.csr := by
  simp only [LoongArchCpu.setGuestInterruptBitPending]
  split <;> rfl

theorem setGuestInterruptBitPending_gcsr (k : Nat) (pending : Bool) : (c.setGuestInterruptBitPending k pending).gcsr
      = Function.update c.gcsr csrEstat (assign (c.gcsr csrEstat) k pending) := by
  simp only [LoongArchCpu.setGuestInterruptBitPending]
  split <;> rfl

theorem sameButEstat_setHwi (hwi : Nat) (pending : Bool) : SameButEstat c (c.setHwiInterruptPending hwi pending) := by
  simp only [LoongArchCpu.setHwiInterruptPending]
  split
  · exact ⟨fun _ _ => rfl, fun _ _ => rfl⟩
  split
  · refine ⟨fun num _ => ?_, fun num hnum => ?_⟩
    · rw [setGuestInterruptBitPending_csr]
    · rw [setGuestInterruptBitPending_gcsr, Function.update_of_ne hnum]
  · refine ⟨fun num hnum => ?_, fun num _ => ?_⟩
    · rw [setInterruptBitPending_csr, Function.update_of_ne hnum]
    · rw [setInterruptBitPending_gcsr]

/-- The registers of the guest, or of the host. -/
def regsOf (guest : Bool) : Nat → BitVec 64 := if guest then c.gcsr else c.csr

theorem estat_setHwi (guest : Bool) {hwi : Nat} (hlt : hwi < 8) (pending : Bool) (l : Nat) :
    (regsOf (c.setHwiInterruptPending hwi pending) guest csrEstat).getLsbD l
      = if l = 2 + hwi ∧ passedThrough c hwi = guest then pending else (regsOf c guest csrEstat).getLsbD l := by
  rw [LoongArchCpu.setHwiInterruptPending, if_neg (by omega)]
  cases hpass : has (c.csr csrGintc) (bit (8 + hwi)) <;> cases guest <;>
    simp [regsOf, setInterruptBitPending_csr, setInterruptBitPending_gcsr, setGuestInterruptBitPending_csr,
      setGuestInterruptBitPending_gcsr, passedThrough, hpass, getLsbD_assign _ (show 2 + hwi < 64 by omega)]

theorem passedThrough_setHwi (hwi : Nat) (pending : Bool) (hwi' : Nat) :
    passedThrough (c.setHwiInterruptPending hwi pending) hwi' = passedThrough c hwi' := by
  rw [passedThrough, (sameButEstat_setHwi c hwi pending).csr csrGintc (by decide), passedThrough]

/-- Writing one line and then a list of lines writes the longer list. -/
theorem lines_cons (line : Nat) (lines : List Nat) (q : Nat → Bool) (b : Bool) (f : Nat → Bool) (x : Bool) (l : Nat) :
    (if 2 ≤ l ∧ l - 2 ∈ lines ∧ q (l - 2) = b then f (l - 2) else if l = 2 + line ∧ q line = b then f line else x)
      = if 2 ≤ l ∧ l - 2 ∈ line :: lines ∧ q (l - 2) = b then f (l - 2) else x := by
  by_cases heq : l = 2 + line
  · subst heq
    by_cases hq : q line = b <;> simp [hq]
  by_cases h2 : 2 ≤ l
  · have hne : l - 2 ≠ line := by omega
    simp [heq, h2, hne]
  · simp [heq, h2]

end

section

variable (i : LoongArchCpuInterruptState)

theorem sameButEstat_applyHwi (lines : List Nat) (c : LoongArchCpu) : SameButEstat c (i.applyHwi lines c) := by
  induction lines generalizing c with
  | nil => exact ⟨fun _ _ => rfl, fun _ _ => rfl⟩
  | cons line lines ih => exact (sameButEstat_setHwi c line (i.hwi line)).trans (ih _)

/-- Each line shows its device where it goes, and lines outside the list keep their bit. -/
theorem estat_applyHwi (guest : Bool) (lines : List Nat) (hlines : ∀ line ∈ lines, line < 8)
    (c : LoongArchCpu) (l : Nat) :
    (regsOf (i.applyHwi lines c) guest csrEstat).getLsbD l
      = if 2 ≤ l ∧ l - 2 ∈ lines ∧ passedThrough c (l - 2) = guest then i.hwi (l - 2)
        else (regsOf c guest csrEstat).getLsbD l := by
  induction lines generalizing c with
  | nil => simp [LoongArchCpuInterruptState.applyHwi]
  | cons line lines ih =>
    have hlt := hlines line List.mem_cons_self
    have hrest := ih (fun x hx => hlines x (List.mem_cons_of_mem _ hx)) (c.setHwiInterruptPending line (i.hwi line))
    rw [passedThrough_setHwi, estat_setHwi c guest hlt] at hrest
    exact hrest.trans (lines_cons line lines (passedThrough c) guest i.hwi _ l)

variable (c : LoongArchCpu)

/-- The host line after the asynchronous state has been applied. -/
def hostPending (line : Nat) : Bool :=
  if line = 12 then i.ipiPending
  else if 2 ≤ line ∧ line < 10 ∧ passedThrough c (line - 2) = false then i.hwi (line - 2)
  else (c.csr csrEstat).getLsbD line

/-- The guest line after the asynchronous state has been applied. -/
def guestPending (line : Nat) : Bool :=
  if 2 ≤ line ∧ line < 10 ∧ passedThrough c (line - 2) = true then i.hwi (line - 2)
  else (c.gcsr csrEstat).getLsbD line

theorem sameButEstat_applyToCpu : SameButEstat c (i.applyToCpu c) := by
  refine (sameButEstat_applyHwi i (List.range 8) c).trans ⟨fun num hnum => ?_, fun num _ => ?_⟩
  · rw [LoongArchCpuInterruptState.applyToCpu, LoongArchCpu.setIpiInterruptPending, setInterruptBitPending_csr,
      Function.update_of_ne hnum]
  · rw [LoongArchCpuInterruptState.applyToCpu, LoongArchCpu.setIpiInterruptPending, setInterruptBitPending_gcsr]

theorem estat_applyHwi_all (guest : Bool) (l : Nat) : (regsOf (i.applyHwi (List.range 8) c) guest csrEstat).getLsbD l
      = if 2 ≤ l ∧ l < 10 ∧ passedThrough c (l - 2) = guest then i.hwi (l - 2)
        else (regsOf c guest csrEstat).getLsbD l := by
  have hrange : (2 ≤ l ∧ l - 2 ∈ List.range 8 ∧ passedThrough c (l - 2) = guest)
      ↔ 2 ≤ l ∧ l < 10 ∧ passedThrough c (l - 2) = guest := by
    rw [List.mem_range]
    constructor <;> rintro ⟨h2, hlt, hp⟩ <;> exact ⟨h2, by omega, hp⟩
  simp only [estat_applyHwi i guest _ (fun _ => List.mem_range.mp), hrange]

theorem estat_applyToCpu (l : Nat) : ((i.applyToCpu c).csr csrEstat).getLsbD l = hostPending i c l := by
  rw [LoongArchCpuInterruptState.applyToCpu, LoongArchCpu.setIpiInterruptPending, setInterruptBitPending_csr,
    Function.update_self, getLsbD_assign _ (by decide)]
  exact congrArg (ite _ _) (estat_applyHwi_all i c false l)

theorem gestat_applyToCpu (l : Nat) : ((i.applyToCpu c).gcsr csrEstat).getLsbD l = guestPending i c l := by
  rw [LoongArchCpuInterruptState.applyToCpu, LoongArchCpu.setIpiInterruptPending, setInterruptBitPending_gcsr]
  exact estat_applyHwi_all i c true l

/-- A device or another processor raises the line. -/
def raised (line : Nat) : Bool := (line == 12 && i.ipiPending) || (decide (2 ≤ line ∧ line < 10) && i.hwi (line - 2))

theorem getLsbD_pendingEstatBits (l : Nat) : i.pendingEstatBits.getLsbD l = raised i l := by
  have hfold : ∀ (lines : List Nat) (x : BitVec 64), (∀ line ∈ lines, line < 8) →
      (lines.foldl (fun bits line => if i.hwi line then bits ||| bit (2 + line) else bits) x).getLsbD l
        = (x.getLsbD l || decide (2 ≤ l ∧ l - 2 ∈ lines) && i.hwi (l - 2)) := by
    intro lines
    induction lines with
    | nil => simp
    | cons line lines ih =>
      intro x hlines
      have hlt := hlines line List.mem_cons_self
      rw [List.foldl_cons, ih _ (fun y hy => hlines y (List.mem_cons_of_mem _ hy))]
      by_cases heq : l = 2 + line
      · subst heq
        cases hh : i.hwi line <;> simp [hh, show 2 + line < 64 by omega]
      have hne : ¬ 2 + line = l := fun h => heq h.symm
      have hne' : ¬ (2 ≤ l ∧ l - 2 = line) := by omega
      by_cases h2 : 2 ≤ l
      · have hne'' : l - 2 ≠ line := fun h => hne' ⟨h2, h⟩
        cases hh : i.hwi line <;> simp [getLsbD_bit, hne, h2, hne'']
      · cases hh : i.hwi line <;> simp [getLsbD_bit, hne, h2]
  have hrange : (2 ≤ l ∧ l - 2 ∈ List.range 8) ↔ 2 ≤ l ∧ l < 10 := by
    rw [List.mem_range]
    omega
  have hbits := hfold (List.range 8) 0#64 (fun _ => List.mem_range.mp)
  simp only [LoongArchCpuInterruptState.pendingEstatBits, raised]
  cases hipi : i.ipiPending with
  | false =>
    simp only [Bool.false_eq_true, if_false, hbits, hrange]
    simp
  | true =>
    simp only [if_true, BitVec.getLsbD_or, hbits, hrange, getLsbD_bit]
    by_cases h12 : l = 12
    · simp [h12]
    · have hne : ¬ 12 = l := fun h => h12 h.symm
      simp [h12, hne]

end

/-! ## Agreement -/

variable (s : LoongArchFullSystemCpu)

/-- The lines that can be taken in the running mode once the asynchronous state has been applied. -/
def LoongArchFullSystemCpu.takeable (line : Nat) : Bool :=
  if s.cpu.inGuestMode then
    has (s.cpu.gcsr csrCrmd) crmdIe && (s.cpu.gcsr csrEcfg).getLsbD line &&
      s.interrupts.elim ((s.cpu.gcsr csrEstat).getLsbD line) fun i => guestPending i s.cpu line
  else
    has (s.cpu.csr csrCrmd) crmdIe && (s.cpu.csr csrEcfg).getLsbD line &&
      s.interrupts.elim ((s.cpu.csr csrEstat).getLsbD line) fun i => hostPending i s.cpu line

open LoongArchFullSystemCpu (takeable pendingInterrupt applyAsyncInterrupts asyncPendingInterrupt handleInterrupt)

def guestEnabled (c : LoongArchCpu) (line : Nat) : Bool :=
  has (c.gcsr csrCrmd) crmdIe && (c.gcsr csrEcfg).getLsbD line

section

variable (i : LoongArchCpuInterruptState)

/-- The host registers, with the raised lines added, show an enabled line. -/
def hostShows (c : LoongArchCpu) : Prop :=
  has (c.csr csrCrmd) crmdIe = true ∧
    someLine fun l => (c.csr csrEcfg).getLsbD l && ((c.csr csrEstat).getLsbD l || raised i l)

/-- The bit is left in ESTAT by a line that has gone down since. -/
def stale (c : LoongArchCpu) (line : Nat) : Bool :=
  (c.csr csrEstat).getLsbD line && !hostPending i c line

/-- The line is up, but it is passed through to the guest. -/
def diverted (c : LoongArchCpu) (line : Nat) : Bool :=
  decide (2 ≤ line ∧ line < 10) && passedThrough c (line - 2) && i.hwi (line - 2)

/-- The guest's ESTAT still has the bit of a line that is passed through and has gone down since. -/
def guestStale (c : LoongArchCpu) (line : Nat) : Bool :=
  decide (2 ≤ line ∧ line < 10) && passedThrough c (line - 2) && !i.hwi (line - 2) && (c.gcsr csrEstat).getLsbD line

/-- The line is up and passed through, but the guest's ESTAT does not have its bit yet. -/
def unrecorded (c : LoongArchCpu) (line : Nat) : Bool :=
  diverted i c line && !(c.gcsr csrEstat).getLsbD line

/-- The guest's ESTAT has the bit of the line rightly. -/
def recorded (c : LoongArchCpu) (line : Nat) : Bool :=
  (c.gcsr csrEstat).getLsbD line && !guestStale i c line

end

/-- The states in which `pending_interrupt` and `handle_interrupt` agree. In host mode no enabled line may be stale or
diverted, unless another can be taken. In guest mode some enabled line is rightly recorded; or a line is raised and
not recorded yet exactly if another is stale or the host's registers show one, which announces it by chance. -/
def Agrees : Prop :=
  match s.interrupts with
  | none => True
  | some i =>
    if s.cpu.inGuestMode then
      (someLine fun l => guestEnabled s.cpu l && recorded i s.cpu l) ∨
        ((someLine fun l => guestEnabled s.cpu l && unrecorded i s.cpu l) ↔
          (someLine fun l => guestEnabled s.cpu l && guestStale i s.cpu l) ∨ hostShows i s.cpu)
    else
      has (s.cpu.csr csrCrmd) crmdIe = true → someLine s.takeable ∨
        ∀ line < 13, (s.cpu.csr csrEcfg).getLsbD line = true →
          stale i s.cpu line = false ∧ diverted i s.cpu line = false

theorem handleInterrupt_line : s.handleInterrupt.1 = s.applyAsyncInterrupts.cpu.pendingInterruptLine := by
  simp only [handleInterrupt, loongarchHandleInterrupt]
  cases s.applyAsyncInterrupts.cpu.pendingInterruptLine <;> rfl

variable (regs : Nat → BitVec 64)

/-- The line that the CPU takes, by the registers of the mode it runs in. -/
def lineIn : Option Nat :=
  if has (regs csrCrmd) crmdIe then maskedInterruptLineFor (regs csrEstat) (regs csrEcfg) else none

def enabledIn (line : Nat) : Bool :=
  has (regs csrCrmd) crmdIe && (regs csrEcfg).getLsbD line && (regs csrEstat).getLsbD line

theorem pendingInterruptLine_eq (c : LoongArchCpu) :
    c.pendingInterruptLine = if c.inGuestMode then lineIn c.gcsr else lineIn c.csr := by
  simp only [LoongArchCpu.pendingInterruptLine, LoongArchCpu.maskedInterruptLine,
    LoongArchCpu.maskedInterruptLineForEstat, lineIn]
  cases c.inGuestMode <;> cases has (c.csr csrCrmd) crmdIe <;> cases has (c.gcsr csrCrmd) crmdIe <;> simp

theorem lineIn_eq_some {regs : Nat → BitVec 64} (h : lineIn regs = some line) : Highest (enabledIn regs) line := by
  obtain ⟨hie, hline⟩ := Option.ite_none_right_eq_some.mp h
  obtain ⟨hlt, hset, hmax⟩ := maskedInterruptLineFor_eq_some hline
  refine ⟨hlt, ?_, fun l hl hl13 => ?_⟩
  · simpa [enabledIn, hie] using hset
  · simpa [enabledIn, hie] using hmax l hl hl13

theorem lineIn_isSome : (lineIn regs).isSome = true ↔ someLine (enabledIn regs) := by
  cases hie : has (regs csrCrmd) crmdIe with
  | false => simp [lineIn, someLine, enabledIn, hie]
  | true =>
    rw [lineIn, if_pos hie, maskedInterruptLineFor_isSome]
    simp [someLine, enabledIn, hie]

/-- Applying the lines turns the registers of the running mode into the takeable lines. -/
theorem takeable_eq (line : Nat) :
    s.takeable line = if s.applyAsyncInterrupts.cpu.inGuestMode then enabledIn s.applyAsyncInterrupts.cpu.gcsr line
      else enabledIn s.applyAsyncInterrupts.cpu.csr line := by
  obtain ⟨c, interrupts⟩ := s
  cases interrupts with
  | none => rfl
  | some i =>
    have hsame := sameButEstat_applyToCpu i c
    have hmode : (i.applyToCpu c).inGuestMode = c.inGuestMode := by
      rw [LoongArchCpu.inGuestMode, hsame.csr csrGstat (by decide), LoongArchCpu.inGuestMode]
    simp [takeable, applyAsyncInterrupts, hmode, enabledIn,
      hsame.csr csrCrmd (by decide), hsame.csr csrEcfg (by decide), hsame.gcsr csrCrmd (by decide),
      hsame.gcsr csrEcfg (by decide), estat_applyToCpu, gestat_applyToCpu]

theorem delivers_iff : s.handleInterrupt.1.isSome = true ↔ someLine s.takeable := by
  have htake : s.takeable = fun line => s.takeable line := rfl
  rw [handleInterrupt_line, pendingInterruptLine_eq, htake]
  simp only [takeable_eq]
  cases s.applyAsyncInterrupts.cpu.inGuestMode <;> simp [lineIn_isSome]

theorem delivered_is_highest {s : LoongArchFullSystemCpu} (h : s.handleInterrupt.1 = some line) :
    Highest s.takeable line := by
  have htake : s.takeable = fun line => s.takeable line := rfl
  rw [handleInterrupt_line, pendingInterruptLine_eq] at h
  rw [htake]
  simp only [takeable_eq]
  cases hmode : s.applyAsyncInterrupts.cpu.inGuestMode with
  | false | true => exact lineIn_eq_some (by simpa [hmode] using h)

theorem asyncPending_iff (i : LoongArchCpuInterruptState) (c : LoongArchCpu) :
    i.pendingInterrupt c = true ↔ hostShows i c := by
  rw [LoongArchCpuInterruptState.pendingInterrupt, hostShows]
  cases hie : has (c.csr csrCrmd) crmdIe with
  | false => simp
  | true =>
    simp [LoongArchCpu.maskedInterruptLineForEstat, maskedInterruptLineFor_isSome, getLsbD_pendingEstatBits]

theorem cpuPending_iff (c : LoongArchCpu) :
    c.pendingInterrupt = true ↔ someLine (if c.inGuestMode then enabledIn c.gcsr else enabledIn c.csr) := by
  rw [LoongArchCpu.pendingInterrupt, pendingInterruptLine_eq]
  cases c.inGuestMode <;> simp [lineIn_isSome]

/-- A line the host can take is recorded or raised. -/
theorem shown_of_hostPending (h : hostPending i c l = true) : ((c.csr csrEstat).getLsbD l || raised i l) = true := by
  simp only [hostPending] at h
  split at h
  · simp_all [raised]
  split at h
  · simp_all [raised]
  · simp [h]

/-- A line that is recorded or raised, but that the host cannot take, is stale or diverted. -/
theorem stale_or_diverted (hshown : ((c.csr csrEstat).getLsbD l || raised i l) = true)
    (h : hostPending i c l = false) :
    stale i c l = true ∨ diverted i c l = true := by
  cases hestat : (c.csr csrEstat).getLsbD l with
  | true => exact .inl (by simp [stale, hestat, h])
  | false =>
    refine .inr ?_
    simp only [hestat, Bool.false_or, raised, Bool.or_eq_true, Bool.and_eq_true, beq_iff_eq,
      decide_eq_true_eq] at hshown
    obtain ⟨h12, hipi⟩ | ⟨⟨h2, h10⟩, hhwi⟩ := hshown
    · simp [hostPending, h12, hipi] at h
    have hne : l ≠ 12 := by omega
    simp only [hostPending, hne, if_false] at h
    cases hpass : passedThrough c (l - 2) with
    | true => simp [diverted, h2, h10, hpass, hhwi]
    | false => simp [h2, h10, hpass, hhwi] at h

theorem shown_of_stale_or_diverted
    (h : stale i c l = true ∨ diverted i c l = true) : ((c.csr csrEstat).getLsbD l || raised i l) = true := by
  obtain h | h := h
  · simp only [stale, Bool.and_eq_true] at h
    simp [h.1]
  · simp only [diverted, Bool.and_eq_true, decide_eq_true_eq] at h
    simp [raised, h.1.1, h.2]

/-- Without an interrupt that can be taken, the host shows none exactly when no enabled line is stale or diverted. -/
theorem not_hostShows_iff (hie : has (c.csr csrCrmd) crmdIe = true)
    (hnone : ∀ l < 13, (c.csr csrEcfg).getLsbD l = true → hostPending i c l = false) :
    ¬ hostShows i c ↔ ∀ l < 13, (c.csr csrEcfg).getLsbD l = true → stale i c l = false ∧ diverted i c l = false := by
  constructor
  · intro hshows l hl hen
    by_contra hbad
    refine hshows ⟨hie, l, hl, ?_⟩
    have hkind : stale i c l = true ∨ diverted i c l = true := by
      cases hs : stale i c l <;> cases hd : diverted i c l <;> simp_all
    simp [hen, shown_of_stale_or_diverted hkind]
  · rintro hgood ⟨-, l, hl, hshown⟩
    simp only [Bool.and_eq_true] at hshown
    obtain hs | hd := stale_or_diverted hshown.2 (hnone l hl hshown.1)
    · simp [(hgood l hl hshown.1).1] at hs
    · simp [(hgood l hl hshown.1).2] at hd

theorem pending_iff (c : LoongArchCpu) (i : LoongArchCpuInterruptState) :
    pendingInterrupt ⟨c, some i⟩ = true
      ↔ someLine (if c.inGuestMode then enabledIn c.gcsr else enabledIn c.csr) ∨ hostShows i c := by
  rw [pendingInterrupt, Bool.or_eq_true, cpuPending_iff, ← asyncPending_iff]
  rfl

theorem host_agrees_iff (hmode : c.inGuestMode = false) :
    (pendingInterrupt ⟨c, some i⟩ = true ↔
      someLine (takeable ⟨c, some i⟩))
      ↔ Agrees ⟨c, some i⟩ := by
  have htake : ∀ l, takeable ⟨c, some i⟩ l
      = (has (c.csr csrCrmd) crmdIe && (c.csr csrEcfg).getLsbD l && hostPending i c l) := by
    intro l
    simp [takeable, hmode]
  have hshow : (someLine (enabledIn c.csr) ∨ hostShows i c) ↔ hostShows i c := by
    refine or_iff_right_of_imp ?_
    rintro ⟨l, hl, hen⟩
    simp only [enabledIn, Bool.and_eq_true] at hen
    exact ⟨hen.1.1, l, hl, by simp [hen.1.2, hen.2]⟩
  have hsound : someLine (takeable ⟨c, some i⟩) → hostShows i c := by
    rintro ⟨l, hl, hl'⟩
    simp only [htake, Bool.and_eq_true] at hl'
    exact ⟨hl'.1.1, l, hl, by simp [hl'.1.2, shown_of_hostPending hl'.2]⟩
  rw [pending_iff, hmode, if_neg (by decide), hshow]
  simp only [Agrees, hmode, Bool.false_eq_true, if_false]
  by_cases htakes : someLine (takeable ⟨c, some i⟩)
  · simp [htakes, hsound htakes]
  cases hie : has (c.csr csrCrmd) crmdIe with
  | false => simp [htakes, hostShows, hie]
  | true =>
    have hnone : ∀ l < 13, (c.csr csrEcfg).getLsbD l = true → hostPending i c l = false := by
      intro l hl hen
      by_contra hp
      exact htakes ⟨l, hl, by simp [htake, hie, hen, hp]⟩
    simp [htakes, not_hostShows_iff hie hnone]

theorem someLine_or (p q : Nat → Bool) : (someLine fun l => p l || q l) ↔ someLine p ∨ someLine q := by
  simp [someLine, and_or_left, exists_or]

theorem gestat_eq (i : LoongArchCpuInterruptState) (c : LoongArchCpu) (l : Nat) :
    (c.gcsr csrEstat).getLsbD l = (recorded i c l || guestStale i c l) := by
  unfold recorded guestStale
  grind

/-- The guest's lines once the asynchronous state has been applied. -/
theorem guestPending_eq (i : LoongArchCpuInterruptState) (c : LoongArchCpu) (l : Nat) :
    guestPending i c l = (recorded i c l || unrecorded i c l) := by
  unfold guestPending recorded unrecorded guestStale diverted
  grind

theorem guest_agrees_iff (hmode : c.inGuestMode = true) :
    (pendingInterrupt ⟨c, some i⟩ = true ↔
      someLine (takeable ⟨c, some i⟩))
      ↔ Agrees ⟨c, some i⟩ := by
  have hshown : enabledIn c.gcsr =
      fun l => guestEnabled c l && recorded i c l || guestEnabled c l && guestStale i c l := by
    funext l
    rw [enabledIn, gestat_eq i, Bool.and_or_distrib_left]
    rfl
  have htake : takeable ⟨c, some i⟩ =
      fun l => guestEnabled c l && recorded i c l || guestEnabled c l && unrecorded i c l := by
    funext l
    rw [← Bool.and_or_distrib_left, ← guestPending_eq]
    simp [takeable, hmode, guestEnabled]
  rw [pending_iff, hmode, if_pos rfl, hshown, htake, someLine_or, someLine_or]
  simp only [Agrees, hmode, if_true]
  tauto

/-- `pending_interrupt` announces exactly what `handle_interrupt` delivers, and the delivered line is the highest that
can be taken, in the states described by `Agrees` and in no others. -/
theorem pending_interrupt_iff_delivered (s : LoongArchFullSystemCpu) :
    ((s.pendingInterrupt = true ↔ s.handleInterrupt.1.isSome = true) ∧
      ∀ line, s.handleInterrupt.1 = some line → Highest s.takeable line) ↔ Agrees s := by
  rw [and_iff_left fun _ => delivered_is_highest, delivers_iff]
  obtain ⟨c, interrupts⟩ := s
  cases interrupts with
  | none =>
    have hpending : pendingInterrupt ⟨c, none⟩ = c.pendingInterrupt := by
      simp [pendingInterrupt, asyncPendingInterrupt]
    have htake : takeable ⟨c, none⟩ =
      if c.inGuestMode then enabledIn c.gcsr else enabledIn c.csr := by
      funext l
      rw [takeable_eq]
      cases hmode : c.inGuestMode <;> simp [applyAsyncInterrupts, hmode]
    simp [Agrees, hpending, htake, cpuPending_iff]
  | some i =>
    cases hmode : c.inGuestMode with
    | false => exact host_agrees_iff hmode
    | true => exact guest_agrees_iff hmode

/-- A guest with line 2 enabled and passed through by GINTC, and the device line just raised. -/
def raisedForGuest : LoongArchFullSystemCpu where
  cpu := {
    csr := Function.update (Function.update (fun _ => 0) csrGstat gstatVm) csrGintc (bit 8)
    gcsr := Function.update (Function.update (fun _ => 0) csrCrmd crmdIe) csrEcfg (bit 2) }
  interrupts := some { hwiPending := 1 }

/-- The interrupt would be delivered, but nothing announces it. -/
theorem passed_through_line_is_not_announced :
    ¬ (raisedForGuest.pendingInterrupt = true ↔ raisedForGuest.handleInterrupt.1.isSome = true) := by
  decide

end MachinaLoongIrq
