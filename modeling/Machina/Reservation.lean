import Machina.Rva

/-!
# Load-reserved and store-conditional

A hart's reservation is an address and the word that was read there. The hart is
run next to a record of what it stands for: the physical address of the latest
load-reserved and whether its bytes have been stored to. A store-conditional is
compared with that record.
-/

namespace MachinaReservation

open MachinaBits MachinaRiscv MachinaMmu MachinaByteMem MachinaCpu MachinaFullSystem MachinaRuns
open MachinaWalk MachinaTlb MachinaTranslate MachinaGuestRam MachinaRva MachinaMachine

variable {gva : BitVec 64} {full word : Bool} {s : FullSystemCpu} {h : Hart}

section

variable (s : FullSystemCpu)

/-- LR without a helper: an ordinary load; the reservation holds the virtual address. -/
def lrInline (gva : BitVec 64) (word : Bool) : FullSystemCpu × Option (BitVec 64) :=
  match softMmu.load s gva (wordSize word) with
  | (s', some v) =>
    ({ s' with cpu := { s'.cpu with loadRes := gva, loadVal := isaLoaded word v } }, some (isaLoaded word v))
  | (s', none) => (s'.checkMemFault.1, none)

/-- The addend `helper_sc` works with: that of a write hit, or else that of a read hit. -/
def helperScAddend (m : Mmu) (gva : BitVec 64) : Option (BitVec 64) :=
  (m.tlbLookup .write gva).or (m.tlbLookup .read gva)

/-- SC helper of user mode: check the reservation, conditionally store through the TLB. -/
def helperSc (gva val : BitVec 64) (word : Bool) : FullSystemCpu × BitVec 64 :=
  if s.cpu.loadRes ≠ gva then (s.unreserve, 1#64)
  else
    match helperScAddend s.cpu.mmu gva with
    | none => (s.unreserve, 1#64)
    | some addend =>
      if s.readAtomic (hostPhys s.cpu gva addend) (wordSize word) ≠ s.cpu.loadVal then (s.unreserve, 1#64)
      else ((s.writePhysSized (hostPhys s.cpu gva addend) val (wordSize word)).unreserve, 0#64)

inductive Event where
  | lr (gva : BitVec 64) (word : Bool)
  | sc (gva val : BitVec 64) (word : Bool)
  | store (gva val size : BitVec 64)
  | trap (cause tval : BitVec 64)
  | mret
  | sret

/-- One event, in a full system with its helpers or without; with what an LR or SC returns. -/
def exec (full : Bool) (s : FullSystemCpu) : Event → FullSystemCpu × Option (BitVec 64)
  | .lr gva word => if full then s.machinaLrOp gva (wordSize word) else lrInline s gva word
  | .sc gva val word =>
    if full then s.machinaScOp gva val (wordSize word)
    else ((helperSc s gva val word).1, some (helperSc s gva val word).2)
  | .store gva val size =>
    match softMmu.store s gva val size with
    | (s', true) => (s', none)
    | (s', false) => (s'.checkMemFault.1, none)
  | .trap cause tval => (onCpu s fun c => c.doTrap cause tval, none)
  | .mret => (MachinaMachine.step s .mret, none)
  | .sret => (MachinaMachine.step s .sret, none)

/-- The physical address of an ordinary access. -/
def target (access : AccessType) (gva size : BitVec 64) : Option (BitVec 64) :=
  match s.inlineHit access gva size with
  | some addend => some (hostPhys s.cpu gva addend)
  | none => (s.translateForHelper gva access size).2

def lrTarget (full : Bool) (s : FullSystemCpu) (gva size : BitVec 64) : Option (BitVec 64) :=
  if full then (s.translateForHelper gva .read size).2 else target s .read gva size

def scTarget (full : Bool) (s : FullSystemCpu) (gva size : BitVec 64) : Option (BitVec 64) :=
  if full then (s.translateForHelper gva .write size).2
  else (helperScAddend s.cpu.mmu gva).map fun addend => hostPhys s.cpu gva addend

/-- The latest LR, when nothing has ended its reservation: where it was, and whether its bytes
have been stored to. -/
structure Held where
  gva : BitVec 64
  pa : BitVec 64
  size : BitVec 64
  stored : Bool

instance (a b : BitVec 64) (n m : Nat) : Decidable (Apart a n b m) := inferInstanceAs (Decidable (_ ∧ _))

def Held.afterStore (h : Held) (pa : Option (BitVec 64)) (size : BitVec 64) : Held :=
  { h with stored := h.stored || pa.any fun a => decide (¬ Apart a (accessBytes size) h.pa (accessBytes h.size)) }

/-- A hart with the record of its reservation. -/
structure Hart where
  sys : FullSystemCpu
  held : Option Held

/-- The record after an event: a faulting LR or store is a trap. -/
def track (full : Bool) (h : Hart) : Event → Option Held
  | .lr gva word =>
    if (exec full h.sys (.lr gva word)).2.isSome then
      (lrTarget full h.sys gva (wordSize word)).map fun pa => ⟨gva, pa, wordSize word, false⟩
    else none
  | .store gva val size =>
    if (softMmu.store h.sys gva val size).2 then h.held.map fun r => r.afterStore (target h.sys .write gva size) size
    else none
  | _ => none

def step (full : Bool) (h : Hart) (e : Event) : Hart := ⟨(exec full h.sys e).1, track full h e⟩

/-- An ordinary store to the address is let through. -/
def StoreAllowed (gva size : BitVec 64) : Prop := (target s .write gva size).isSome = true

/-- The bytes stay in the page of the address, and it may be stored to. -/
def Writable (gva size : BitVec 64) : Prop :=
  (∀ i, i < accessBytes size → SamePage gva (gva + BitVec.ofNat 64 i)) ∧ StoreAllowed s gva size

/-- An SC succeeds only with a reservation of its physical address that was not stored to, then
writes exactly its bytes, in a writable page; otherwise memory stays as it is. -/
structure ScSafe (full : Bool) (h : Hart) (gva val : BitVec 64) (word : Bool) : Prop where
  success : (exec full h.sys (.sc gva val word)).2 = some 0#64 →
    ∃ r, h.held = some r ∧ r.stored = false ∧ scTarget full h.sys gva (wordSize word) = some r.pa ∧
      Writable h.sys gva (wordSize word) ∧
      (exec full h.sys (.sc gva val word)).1.mem = write h.sys.mem r.pa (accessBytes (wordSize word)) val
  failure : (exec full h.sys (.sc gva val word)).2 ≠ some 0#64 →
    ((exec full h.sys (.sc gva val word)).2 = some 1#64 ∨ (exec full h.sys (.sc gva val word)).2 = none) ∧
      (exec full h.sys (.sc gva val word)).1.mem = h.sys.mem

/-! ## The reservation follows the record -/

/-- The reservation register says what the record says. -/
def Linked (full : Bool) (h : Hart) : Prop :=
  h.sys.cpu.loadRes =
    match h.held with
    | some r => if full then r.pa else r.gva
    | none => noReservation

@[simp] theorem doTrap_loadRes (c : RiscvCpu) (cause tval : BitVec 64) :
    (c.doTrap cause tval).loadRes = noReservation := by
  simp only [RiscvCpu.doTrap]
  split <;> rfl

@[simp] theorem raise_loadRes (excp : Exception) (tval : BitVec 64) :
    (s.raise excp tval).cpu.loadRes = noReservation := doTrap_loadRes ..

end

theorem checkMemFault_loadRes (h : s.cpu.memFaultCause ≠ 0#64) : s.checkMemFault.1.cpu.loadRes = noReservation := by
  unfold FullSystemCpu.checkMemFault
  rw [if_neg h]
  exact doTrap_loadRes ..

section

variable (s : FullSystemCpu)

theorem machinaLrOp_loadRes (gva size : BitVec 64) : (s.machinaLrOp gva size).1.cpu.loadRes =
      if (s.machinaLrOp gva size).2.isSome then (s.translateForHelper gva .read size).2.getD 0#64
      else noReservation := by
  unfold FullSystemCpu.machinaLrOp
  rcases ht : s.translateForHelper gva .read size with ⟨s', _ | pa⟩
  · exact raise_loadRes ..
  dsimp only
  split
  · rfl
  · exact raise_loadRes ..

theorem machinaScOp_loadRes (gva val size : BitVec 64) :
    (s.machinaScOp gva val size).1.cpu.loadRes = noReservation := by
  unfold FullSystemCpu.machinaScOp
  rcases ht : s.translateForHelper gva .write size with ⟨s', _ | pa⟩
  · exact raise_loadRes ..
  · dsimp only
    split_ifs <;> first | rfl | exact raise_loadRes ..

theorem helperSc_loadRes (gva val : BitVec 64) (word : Bool) :
    (helperSc s gva val word).1.cpu.loadRes = noReservation := by
  unfold helperSc
  split
  · rfl
  split
  · rfl
  · split <;> rfl

/-- A load that returns a value had a physical address; one that does not has latched its cause. -/
theorem load_cases (gva size : BitVec 64) :
    (∃ s' v pa, softMmu.load s gva size = (s', some v) ∧ target s .read gva size = some pa) ∨
      ∃ s', softMmu.load s gva size = (s', none) ∧ s'.cpu.memFaultCause ≠ 0#64 := by
  cases hhit : s.inlineHit .read gva size with
  | some addend =>
    have hload : softMmu.load s gva size = ((s.guestLoad gva size).1, some (s.guestLoad gva size).2) := by
      simp [softMmu, hhit]
    have htarget : target s .read gva size = some (hostPhys s.cpu gva addend) := by simp [target, hhit]
    exact .inl ⟨_, _, _, hload, htarget⟩
  | none =>
    by_cases hfault : (s.guestLoad gva size).1.cpu.memFaultCause = 0#64
    · rcases ht : s.translateForHelper gva .read size with ⟨s', _ | pa⟩
      · have hs' : (s.guestLoad gva size).1 = s' := by
          simp [FullSystemCpu.guestLoad, hhit, FullSystemCpu.machinaMemRead, ht]
        exact absurd (hs' ▸ hfault) (translateForHelper_none ht)
      · have hload : softMmu.load s gva size = ((s.guestLoad gva size).1, some (s.guestLoad gva size).2) := by
          simp [softMmu, hhit, hfault]
        exact .inl ⟨_, _, pa, hload, by simp [target, hhit, ht]⟩
    · exact .inr ⟨_, by simp [softMmu, hhit, hfault], hfault⟩

theorem guestStore_loadRes (gva val size : BitVec 64) : (s.guestStore gva val size).cpu.loadRes = s.cpu.loadRes := by
  have htr := translateForHelper_loadRes s gva .write size
  unfold FullSystemCpu.guestStore FullSystemCpu.machinaMemWrite
  split
  · rfl
  split <;> rename_i heq <;> rw [heq] at htr
  · split <;> exact htr
  · exact htr

/-- A store that is done keeps the reservation; one that is not has latched its cause. -/
theorem store_cases (gva val size : BitVec 64) :
    (∃ s', softMmu.store s gva val size = (s', true) ∧ s'.cpu.loadRes = s.cpu.loadRes) ∨
      ∃ s', softMmu.store s gva val size = (s', false) ∧ s'.cpu.memFaultCause ≠ 0#64 := by
  have hkeep := guestStore_loadRes s gva val size
  cases hhit : s.inlineHit .write gva size with
  | some addend => exact .inl ⟨_, by simp [softMmu, hhit], hkeep⟩
  | none =>
    by_cases hfault : (s.guestStore gva val size).cpu.memFaultCause = 0#64
    · exact .inl ⟨_, by simp [softMmu, hhit, hfault], hkeep⟩
    · exact .inr ⟨_, by simp [softMmu, hhit, hfault], hfault⟩

theorem linked_lr (full : Bool) (h : Hart) (gva : BitVec 64) (word : Bool) :
    Linked full (step full h (.lr gva word)) := by
  cases full with
  | true =>
    have hres := machinaLrOp_loadRes h.sys gva (wordSize word)
    have hsome : (h.sys.machinaLrOp gva (wordSize word)).2.isSome = true →
        (h.sys.translateForHelper gva .read (wordSize word)).2.isSome = true := by
      unfold FullSystemCpu.machinaLrOp
      rcases h.sys.translateForHelper gva .read (wordSize word) with ⟨s', _ | pa⟩
      · exact id
      · exact fun _ => rfl
    change (h.sys.machinaLrOp gva (wordSize word)).1.cpu.loadRes = _
    rw [hres]
    by_cases hdone : (h.sys.machinaLrOp gva (wordSize word)).2.isSome = true
    · obtain ⟨pa, hpa⟩ := Option.isSome_iff_exists.mp (hsome hdone)
      simp [step, track, exec, lrTarget, hdone, hpa]
    · simp [step, track, exec, hdone]
  | false =>
    obtain ⟨s', v, pa, hload, htarget⟩ | ⟨s', hload, hfault⟩ := load_cases h.sys gva (wordSize word)
    · simp [Linked, step, track, exec, lrInline, lrTarget, hload, htarget]
    · simp only [Linked, step, track, exec, lrInline, Bool.false_eq_true, if_false, hload, Option.isSome_none]
      exact checkMemFault_loadRes hfault

/-- Every event keeps the reservation register and the record together. -/
theorem linked_step (hl : Linked full h) (e : Event) : Linked full (step full h e) := by
  cases e with
  | lr gva word => exact linked_lr full h gva word
  | sc gva val word =>
    cases full with
    | true => exact machinaScOp_loadRes ..
    | false => exact helperSc_loadRes ..
  | store gva val size =>
    obtain ⟨s', hstore, hkeep⟩ | ⟨s', hstore, hfault⟩ := store_cases h.sys gva val size
    · simp only [Linked, step, exec, track, hstore, if_true, hkeep]
      rw [Linked] at hl
      rw [hl]
      cases h.held <;> rfl
    · simp only [Linked, step, exec, track, hstore, Bool.false_eq_true, if_false]
      exact checkMemFault_loadRes hfault
  | trap cause tval => exact doTrap_loadRes ..
  | mret => rfl
  | sret =>
    change (MachinaMachine.step h.sys .sret).cpu.loadRes = noReservation
    rw [MachinaMachine.step]
    by_cases hillegal : sretIllegal h.sys.cpu
    · have hsret : h.sys.cpu.executeSret = (h.sys.cpu, false) := if_pos hillegal
      rw [hsret, if_neg Bool.false_ne_true]
      exact doTrap_loadRes ..
    · have hdone : h.sys.cpu.executeSret.2 = true := by rw [RiscvCpu.executeSret, if_neg hillegal]
      rw [if_pos hdone, onCpu, RiscvCpu.executeSret, if_neg hillegal]

/-! ## When a store-conditional is safe -/

/-- The address is naturally aligned. If the reserved bytes were stored to, they differ from the
word the LR read. With the helpers the accessed and dirty bits of the page are set; without them
the page may be stored to and its TLB entry leads to where the LR read. -/
structure ScOk (full : Bool) (h : Hart) (gva : BitVec 64) (word : Bool) : Prop where
  aligned : gva &&& (wordSize word - 1#64) = 0#64
  differs : ∀ r, h.held = some r → r.stored = true → h.sys.readAtomic r.pa (wordSize word) ≠ h.sys.cpu.loadVal
  adSet : full = true → AdSet h.sys gva .write
  tlb : full = false → StoreAllowed h.sys gva (wordSize word) ∧ ∀ r, h.held = some r → r.gva = gva →
    ∀ addend, helperScAddend h.sys.cpu.mmu gva = some addend → hostPhys h.sys.cpu gva addend = r.pa

theorem wordSize_low (word : Bool) : noReservation &&& (wordSize word - 1#64) ≠ 0#64 := by
  cases word <;> decide

theorem aligned_ne (h : gva &&& (wordSize word - 1#64) = 0#64) : gva ≠ noReservation := by
  rintro rfl
  exact wordSize_low word h

theorem aligned_iff (x : BitVec 64) (word : Bool) :
    x &&& (wordSize word - 1#64) = 0#64 ↔ x.toNat % accessBytes (wordSize word) = 0 := by
  have hmask : ∃ k < 64, wordSize word - 1#64 = (1#64 <<< k) - 1#64 ∧ accessBytes (wordSize word) = 2 ^ k := by
    cases word
    · exact ⟨3, by decide, by decide, by decide⟩
    · exact ⟨2, by decide, by decide, by decide⟩
  obtain ⟨k, hk, hsize, hbytes⟩ := hmask
  rw [hsize, hbytes, ← toNat_and_low x hk]
  exact BitVec.toNat_inj.symm

theorem aligned_offset {pa : BitVec 64} (h : gva &&& (wordSize word - 1#64) = 0#64)
    (hoff : KeepsOffset gva pa) : pa &&& (wordSize word - 1#64) = 0#64 := by
  have hmask : pageMask &&& (wordSize word - 1#64) = 0#64 := by cases word <;> decide
  have hlow : (pageSize - 1#64) &&& (wordSize word - 1#64) = wordSize word - 1#64 := by cases word <;> decide
  rw [hoff, BitVec.and_or_distrib_right, BitVec.and_assoc, hmask, BitVec.and_assoc, hlow, h, BitVec.and_zero,
    BitVec.or_zero]

theorem samePage_of_aligned (h : gva &&& (wordSize word - 1#64) = 0#64) {i : Nat}
    (hi : i < accessBytes (wordSize word)) : SamePage gva (gva + BitVec.ofNat 64 i) := by
  have hmod := (aligned_iff gva word).mp h
  have hbytes : accessBytes (wordSize word) = 4 ∨ accessBytes (wordSize word) = 8 := by cases word <;> decide
  apply samePage_add
  rcases hbytes with hbytes | hbytes <;> rw [hbytes] at hmod hi <;> omega

/-- The record behind a reservation register that holds an aligned address. -/
theorem held_of_linked (hl : Linked full h) {x : BitVec 64} (hx : h.sys.cpu.loadRes = x)
    (hne : x ≠ noReservation) : ∃ r, h.held = some r ∧ (if full then r.pa else r.gva) = x := by
  rw [Linked, hx] at hl
  cases hheld : h.held with
  | none =>
    rw [hheld] at hl
    exact absurd hl hne
  | some r =>
    rw [hheld] at hl
    exact ⟨r, rfl, hl.symm⟩

theorem stored_false (hok : ScOk full h gva word) {r : Held}
    (hr : h.held = some r) (heq : h.sys.readAtomic r.pa (wordSize word) = h.sys.cpu.loadVal) : r.stored = false := by
  cases hstored : r.stored with
  | false => rfl
  | true => exact absurd heq (hok.differs r hr hstored)

/-- What the helper of the full system can do. -/
theorem machinaScOp_cases (gva val size : BitVec 64) :
    (((s.machinaScOp gva val size).2 = some 1#64 ∨ (s.machinaScOp gva val size).2 = none) ∧
        (s.machinaScOp gva val size).1.mem = (s.translateForHelper gva .write size).1.mem) ∨
      ∃ s' pa, s.translateForHelper gva .write size = (s', some pa) ∧ s'.cpu.loadRes = pa ∧
        s'.readAtomic pa size = s'.cpu.loadVal ∧ (s.machinaScOp gva val size).2 = some 0#64 ∧
        (s.machinaScOp gva val size).1.mem = write s'.mem pa (accessBytes size) val := by
  unfold FullSystemCpu.machinaScOp
  rcases s.translateForHelper gva .write size with ⟨s', _ | pa⟩
  · exact .inl ⟨.inr rfl, rfl⟩
  dsimp only
  split
  · exact .inl ⟨.inl rfl, rfl⟩
  rename_i hres
  split
  · split
    · exact .inl ⟨.inl rfl, rfl⟩
    · rename_i hval
      exact .inr ⟨s', pa, rfl, not_not.mp hres, not_not.mp hval, rfl, rfl⟩
  · exact .inl ⟨.inr rfl, rfl⟩

/-- What the helper without a full system can do. -/
theorem helperSc_cases (gva val : BitVec 64) (word : Bool) :
    ((helperSc s gva val word).2 = 1#64 ∧ (helperSc s gva val word).1.mem = s.mem) ∨
      ∃ addend, s.cpu.loadRes = gva ∧ helperScAddend s.cpu.mmu gva = some addend ∧
        s.readAtomic (hostPhys s.cpu gva addend) (wordSize word) = s.cpu.loadVal ∧
        (helperSc s gva val word).2 = 0#64 ∧ (helperSc s gva val word).1.mem =
          write s.mem (hostPhys s.cpu gva addend) (accessBytes (wordSize word)) val := by
  unfold helperSc
  split
  · exact .inl ⟨rfl, rfl⟩
  rename_i hres
  split
  · exact .inl ⟨rfl, rfl⟩
  rename_i addend haddend
  split
  · exact .inl ⟨rfl, rfl⟩
  · rename_i hval
    exact .inr ⟨addend, not_not.mp hres, haddend, not_not.mp hval, rfl, rfl⟩

end

theorem writable_of_aligned
    (haligned : gva &&& (wordSize word - 1#64) = 0#64) (hallowed : StoreAllowed s gva (wordSize word)) :
    Writable s gva (wordSize word) :=
  ⟨fun _ hi => samePage_of_aligned haligned hi, hallowed⟩

theorem storeAllowed_of_translates {s' : FullSystemCpu} {size pa : BitVec 64}
    (ht : s.translateForHelper gva .write size = (s', some pa)) : StoreAllowed s gva size := by
  unfold StoreAllowed target
  split
  · rfl
  · rw [ht]
    rfl

theorem machinaScOp_safe (hl : Linked true h) (hok : ScOk true h gva word)
    (val : BitVec 64) : ScSafe true h gva val word := by
  have hmem := (hok.adSet rfl).mem (wordSize word)
  have hres := translateForHelper_loadRes h.sys gva .write (wordSize word)
  have hexec : exec true h.sys (.sc gva val word) = h.sys.machinaScOp gva val (wordSize word) := rfl
  obtain ⟨hfail, hsame⟩ | ⟨s', pa, ht, hpa, hval, hzero, hwrite⟩ := machinaScOp_cases h.sys gva val (wordSize word)
  · refine ⟨fun hdone => ?_, fun _ => ⟨hexec ▸ hfail, hexec ▸ hsame.trans hmem⟩⟩
    rw [hexec] at hdone
    rcases hfail with hone | hnone
    · exact absurd (hdone.symm.trans hone) (by decide)
    · exact absurd (hdone.symm.trans hnone) (by decide)
  · refine ⟨fun _ => ?_, fun hnot => absurd (hexec ▸ hzero) hnot⟩
    rw [ht] at hmem hres
    obtain ⟨⟨tlb, hs'⟩, hoff, -⟩ := translateForHelper_ok ht
    have hne : pa ≠ noReservation := aligned_ne (aligned_offset hok.aligned hoff)
    obtain ⟨r, hheld, hr⟩ := held_of_linked hl (hres.symm.trans hpa) hne
    have hrpa : r.pa = pa := hr
    have heq : h.sys.readAtomic r.pa (wordSize word) = h.sys.cpu.loadVal := by
      have hread : s'.readAtomic pa (wordSize word) = h.sys.readAtomic pa (wordSize word) := by
        simp [FullSystemCpu.readAtomic, FullSystemCpu.readPhysSized, show s'.mem = h.sys.mem from hmem]
      have hloadVal : s'.cpu.loadVal = h.sys.cpu.loadVal := by
        rw [hs']
        rfl
      rw [hrpa, ← hread, hval, hloadVal]
    refine ⟨r, hheld, stored_false hok hheld heq, ?_, ?_, ?_⟩
    · rw [scTarget, if_pos rfl, ht, hrpa]
    · exact writable_of_aligned hok.aligned (storeAllowed_of_translates ht)
    · rw [hexec, hwrite, hrpa, show s'.mem = h.sys.mem from hmem]

theorem helperSc_safe (hl : Linked false h) (hok : ScOk false h gva word)
    (val : BitVec 64) : ScSafe false h gva val word := by
  obtain ⟨hallowed, hleads⟩ := hok.tlb rfl
  have hexec : exec false h.sys (.sc gva val word) =
      ((helperSc h.sys gva val word).1, some (helperSc h.sys gva val word).2) := rfl
  obtain ⟨hone, hsame⟩ | ⟨addend, hres, haddend, hval, hzero, hwrite⟩ := helperSc_cases h.sys gva val word
  · rw [hone] at hexec
    have hne : (some 0#64 : Option (BitVec 64)) ≠ some 1#64 := by decide
    exact ⟨fun hdone => absurd (hdone.symm.trans (congrArg Prod.snd hexec)) hne,
      fun _ => ⟨.inl (congrArg Prod.snd hexec), (congrArg (fun p => p.1.mem) hexec).trans hsame⟩⟩
  · rw [hzero] at hexec
    refine ⟨fun _ => ?_, fun hnot => absurd (congrArg Prod.snd hexec) hnot⟩
    obtain ⟨r, hheld, hr⟩ := held_of_linked hl hres (aligned_ne hok.aligned)
    have hrpa := hleads r hheld hr addend haddend
    rw [hrpa] at hval hwrite
    refine ⟨r, hheld, stored_false hok hheld hval, ?_, writable_of_aligned hok.aligned hallowed, ?_⟩
    · rw [scTarget, if_neg Bool.false_ne_true, haddend, Option.map_some, hrpa]
    · rw [hexec]
      exact hwrite

/-- In every run of a hart every store-conditional that meets the condition is safe. -/
theorem storeConditional_safe_of_run (full : Bool) {s : FullSystemCpu} {h : Hart} {es : List Event}
    (hreset : s.cpu.loadRes = noReservation) (hrun : Run (ofStep (step full)) ⟨s, none⟩ es h) (gva val : BitVec 64)
    (word : Bool) (hok : ScOk full h gva word) : ScSafe full h gva val word := by
  have hl : Linked full h := by
    refine hrun.invariant (fun h1 e h2 hstep hl1 => ?_) hreset
    cases hstep
    exact linked_step hl1 e
  cases full with
  | true => exact machinaScOp_safe hl hok val
  | false => exact helperSc_safe hl hok val

def resetHart : Hart := ⟨ramSystem fun _ => 0#8, none⟩

/-- LR and SC of a doubleword with nothing in between. -/
theorem storeConditional_safe_after_lr :
    ScSafe true (step true resetHart (.lr 0x80001000#64 false)) 0x80001000#64 5#64 false := by
  refine storeConditional_safe_of_run true rfl (.cons rfl (.nil _)) _ _ _ ⟨by decide, ?_, fun _ => .inl ?_, nofun⟩
  · have hheld : (step true resetHart (.lr 0x80001000#64 false)).held.map Held.stored = some false := by decide +kernel
    intro r hr hstored
    have hr' : (step true resetHart (.lr 0x80001000#64 false)).held = some r := hr
    rw [hr', Option.map_some, hstored] at hheld
    cases hheld
  · decide +kernel

/-- The word an LR read is overwritten and then put back. -/
def putBack : List Event :=
  [.lr 0x80001000#64 false, .store 0x80001000#64 1#64 8#64, .store 0x80001000#64 0#64 8#64]

theorem storeConditional_after_putBack :
    ∃ h, Run (ofStep (step true)) resetHart putBack h ∧
    (exec true h.sys (.sc 0x80001000#64 5#64 false)).2 = some 0#64 ∧
      ¬ ScSafe true h 0x80001000#64 5#64 false := by
  refine ⟨putBack.foldl (step true) resetHart, .cons rfl (.cons rfl (.cons rfl (.nil _))), by decide +kernel, ?_⟩
  intro hsafe
  obtain ⟨r, hheld, hstored, -⟩ := hsafe.success (by decide +kernel)
  have hrecord : (putBack.foldl (step true) resetHart).held.map Held.stored = some true := by decide +kernel
  rw [hheld, Option.map_some, hstored] at hrecord
  cases hrecord

end MachinaReservation
