import Machina.Csr
import Machina.PmpSpec
import Machina.Runs

/-!
# Locked PMP entries

Once the lock bit of an entry is set, no sequence of CSR writes changes its
configuration byte, its address register, or (in TOR mode) the address register
below it; hence the region it protects is constant until reset.
-/

namespace MachinaPmpLock

open MachinaBits MachinaRiscv MachinaCsr MachinaPmp MachinaRuns

local instance neZero4 : NeZero 4 := ⟨by decide⟩
local instance neZero16 : NeZero 16 := ⟨by decide⟩

section

variable (f : CsrFile)

def locked (e : Fin 16) : Bool := has (f.pmpcfgByte e) pmpcfgL

def isTor (e : Fin 16) : Prop := f.pmpcfgByte e &&& pmpcfgAMask = pmpcfgATor

theorem getLsbD_pmpcfgByte (e : Fin 16) (j : Nat) : (f.pmpcfgByte e).getLsbD j =
      (decide (j < 8) && (f.pmpcfg ⟨e.val / 8, cfgIndex_lt e⟩).getLsbD (e.val % 8 * 8 + j)) := by
  have hmask : (0xff#64).getLsbD j = decide (j < 8) := by
    rw [show (0xff#64) = (BitVec.allOnes 8).setWidth 64 by decide, BitVec.getLsbD_setWidth,
      BitVec.getLsbD_allOnes]
    by_cases h : j < 8
    · simp [h, show j < 64 by omega]
    · simp [h]
  rw [CsrFile.pmpcfgByte, BitVec.getLsbD_and, BitVec.getLsbD_ushiftRight, hmask, Bool.and_comm]

theorem getLsbD_byteMask (b : Fin 8) {j : Nat} (hj : j < 64) :
    ((0xff#64 : BitVec 64) <<< (b.val * 8)).getLsbD j = decide (j / 8 = b.val) := by
  rw [show (0xff#64) = (BitVec.allOnes 8).setWidth 64 by decide, BitVec.getLsbD_shiftLeft,
    BitVec.getLsbD_setWidth, BitVec.getLsbD_allOnes]
  by_cases hlo : j < b.val * 8
  · simp [hj, hlo, show j / 8 ≠ b.val by omega]
  by_cases h : j / 8 = b.val
  · simp [hj, hlo, h, show j - b.val * 8 < 8 by omega]
    omega
  · simp [h, show ¬ j - b.val * 8 < 8 by omega]

/-- What the merge loop has done after the bytes in `bs`: bit `j` comes from the
written value when its byte was visited and is not locked. -/
theorem getLsbD_merge (csr : Fin 2) (val : BitVec 64) (bs : List (Fin 8)) (next : BitVec 64) {j : Nat} (hj : j < 64) :
    (bs.foldl (f.mergeByte csr val) next).getLsbD j =
      if (⟨j / 8, by omega⟩ : Fin 8) ∈ bs ∧ locked f ⟨csr.val * 8 + j / 8, by omega⟩ = false then val.getLsbD j
      else next.getLsbD j := by
  induction bs generalizing next with
  | nil => simp
  | cons b bs ih =>
    rw [List.foldl_cons, ih]
    have hround : (f.mergeByte csr val next b).getLsbD j =
        if j / 8 = b.val ∧ locked f ⟨csr.val * 8 + j / 8, by omega⟩ = false then val.getLsbD j
        else next.getLsbD j := by
      unfold CsrFile.mergeByte locked
      by_cases hb : j / 8 = b.val
      · simp only [hb, true_and]
        cases hl : has (f.pmpcfgByte ⟨csr.val * 8 + b.val, by omega⟩) pmpcfgL with
        | true => simp
        | false =>
          simp only [Bool.false_eq_true, if_false, if_true]
          rw [getLsbD_put_of_mem _ _ _ (by rw [getLsbD_byteMask b hj]; simpa using hb), BitVec.getLsbD_and,
            getLsbD_byteMask b hj]
          simp [hb]
      · have hm : ((0xff#64 : BitVec 64) <<< (b.val * 8)).getLsbD j = false := by
          rw [getLsbD_byteMask b hj]
          simpa using hb
        simp only [hb, false_and, if_false]
        split
        · rfl
        · exact getLsbD_put_of_not _ _ _ hj hm (by rw [BitVec.getLsbD_and, hm, Bool.and_false])
    rw [hround]
    have hmem : (⟨j / 8, by omega⟩ : Fin 8) = b ↔ j / 8 = b.val := Fin.ext_iff
    simp only [List.mem_cons, hmem]
    by_cases hb : j / 8 = b.val <;>
      cases hl : locked f ⟨csr.val * 8 + j / 8, by omega⟩ <;> simp [hb]

/-- The merge keeps the whole byte of a locked entry. -/
theorem pmpcfgByte_writePmpcfg (csr : Fin 2) (val : BitVec 64) (e : Fin 16)
    (hl : locked f e = true) : (f.writePmpcfg csr val).pmpcfgByte e = f.pmpcfgByte e := by
  apply BitVec.eq_of_getLsbD_eq
  intro j _
  rw [getLsbD_pmpcfgByte, getLsbD_pmpcfgByte]
  by_cases hj : j < 8
  · congr 1
    unfold CsrFile.writePmpcfg
    by_cases hk : (⟨e.val / 8, by omega⟩ : Fin 4) = csr.castLE (by decide)
    · have hcsr : e.val / 8 = csr.val := by simpa [Fin.ext_iff] using hk
      have hentry : (⟨csr.val * 8 + (e.val % 8 * 8 + j) / 8, by omega⟩ : Fin 16) = e :=
        Fin.ext (by simp only; omega)
      rw [hk]
      simp only [Function.update_self]
      rw [getLsbD_merge f csr val _ _ (by omega), hentry, hl]
      simp
    · simp [Function.update_of_ne hk]
  · simp [hj]

/-- All a CSR write can do to the PMP registers. -/
theorem write_pmp_cases (addr : BitVec 16) (val : BitVec 64) (priv : PrivLevel) :
    ((f.write addr val priv).1.pmpcfg = f.pmpcfg ∧ (f.write addr val priv).1.pmpaddr = f.pmpaddr) ∨
      (∃ k, decode addr = some (.pmpcfg k) ∧ (f.write addr val priv).1 = f.writePmpcfg k val) ∨
      ∃ i, decode addr = some (.pmpaddr i) ∧ f.pmpaddrLocked i = false ∧ (f.write addr val priv).1.pmpcfg = f.pmpcfg ∧
        (f.write addr val priv).1.pmpaddr = Function.update f.pmpaddr i val := by
  rcases write_fst_cases f addr val priv with hf | ⟨r, hd, hr⟩
  · rw [hf]
    exact Or.inl ⟨rfl, rfl⟩
  rw [hr]
  cases r with
  | pmpcfg k => exact Or.inr (Or.inl ⟨k, hd, rfl⟩)
  | pmpaddr i =>
    cases hl : f.pmpaddrLocked i with
    | true => simp [CsrFile.writeReg, hl]
    | false => exact Or.inr (Or.inr ⟨i, hd, hl, by simp [CsrFile.writeReg, hl], by simp [CsrFile.writeReg, hl]⟩)
  | satp =>
    left
    unfold CsrFile.writeReg
    dsimp only
    split
    · exact ⟨rfl, rfl⟩
    · split <;> exact ⟨rfl, rfl⟩
  | _ => exact Or.inl ⟨rfl, rfl⟩

end

/-- What a locked entry pins down. -/
structure Kept (f g : CsrFile) (e : Fin 16) : Prop where
  cfg : g.pmpcfgByte e = f.pmpcfgByte e
  addr : g.pmpaddr e = f.pmpaddr e
  below : isTor f e → ∀ d : Fin 16, d.val + 1 = e.val → g.pmpaddr d = f.pmpaddr d

theorem Kept.refl (f : CsrFile) (e : Fin 16) : Kept f f e := ⟨rfl, rfl, fun _ _ _ => rfl⟩

theorem pmpaddrLocked_self {f : CsrFile} {e : Fin 16} (hl : locked f e = true) : f.pmpaddrLocked e = true := by
  unfold locked at hl
  simp [CsrFile.pmpaddrLocked, hl]

theorem pmpaddrLocked_below {f : CsrFile} {d e : Fin 16} (hl : locked f e = true) (ht : isTor f e)
    (hd : d.val + 1 = e.val) : f.pmpaddrLocked d = true := by
  have he : (⟨d.val + 1, by omega⟩ : Fin 16) = e := Fin.ext hd
  unfold locked at hl
  unfold isTor at ht
  unfold CsrFile.pmpaddrLocked
  by_cases hown : has (f.pmpcfgByte d) pmpcfgL
  · simp [hown]
  · simp [hown, he, hl, ht, show d.val + 1 < 16 by omega]

theorem kept_write {f g : CsrFile} {e : Fin 16} (hl : locked f e = true) (hk : Kept f g e) (addr : BitVec 16)
    (val : BitVec 64) (priv : PrivLevel) : Kept f (g.write addr val priv).1 e := by
  have hlg : locked g e = true := by rw [locked, hk.cfg]; exact hl
  rcases write_pmp_cases g addr val priv with ⟨hc, ha⟩ | ⟨k, _, hw⟩ | ⟨i, _, hi, hc, ha⟩
  · refine ⟨?_, by rw [ha]; exact hk.addr, fun ht d hd => by rw [ha]; exact hk.below ht d hd⟩
    rw [CsrFile.pmpcfgByte, hc]
    exact hk.cfg
  · rw [hw]
    exact ⟨(pmpcfgByte_writePmpcfg g k val e hlg).trans hk.cfg, hk.addr, hk.below⟩
  have hie : e ≠ i := by
    intro h
    rw [← h, pmpaddrLocked_self hlg] at hi
    cases hi
  refine ⟨?_, ?_, fun ht d hd => ?_⟩
  · rw [CsrFile.pmpcfgByte, hc]
    exact hk.cfg
  · rw [ha, Function.update_of_ne hie]
    exact hk.addr
  · have htg : isTor g e := by rw [isTor, hk.cfg]; exact ht
    have hid : d ≠ i := by
      intro h
      rw [← h, pmpaddrLocked_below hlg htg hd] at hi
      cases hi
    rw [ha, Function.update_of_ne hid]
    exact hk.below ht d hd

def unit (f : CsrFile) : Pmp := syncFromCsr f.pmpcfg f.pmpaddr

theorem cfgByte_eq (f : CsrFile) (e : Fin 16) : cfgByte f.pmpcfg e = (f.pmpcfgByte e).setWidth 8 := rfl

/-- The TOR tests of the CSR file and of the unit agree. -/
theorem isTor_of_fromCfg {f : CsrFile} {e : Fin 16}
    (h : PmpAddrMatch.fromCfg (cfgByte f.pmpcfg e) = .tor) : isTor f e := by
  have hbits : ∀ n : Fin 256, PmpAddrMatch.fromCfg (BitVec.ofFin n) = .tor →
      (BitVec.ofFin n : BitVec 8).getLsbD 3 = true ∧ (BitVec.ofFin n : BitVec 8).getLsbD 4 = false := by
    decide +kernel
  obtain ⟨h₃, h₄⟩ := hbits (cfgByte f.pmpcfg e).toFin h
  have hbyte (k : Nat) (hk : k < 8) : (f.pmpcfgByte e).getLsbD k = (cfgByte f.pmpcfg e).getLsbD k := by
    rw [cfgByte_eq, BitVec.getLsbD_setWidth, decide_eq_true hk, Bool.true_and]
  have e3 := (hbyte 3 (by decide)).trans h₃
  have e4 := (hbyte 4 (by decide)).trans h₄
  apply BitVec.eq_of_getLsbD_eq
  intro j _
  rw [BitVec.getLsbD_and, show pmpcfgAMask = bit 3 ||| bit 4 by decide, show pmpcfgATor = bit 3 from rfl,
    BitVec.getLsbD_or, getLsbD_bit, getLsbD_bit]
  by_cases h3 : 3 = j
  · subst h3
    rw [e3]
    rfl
  by_cases h4 : 4 = j
  · subst h4
    rw [e4]
    rfl
  · simp [h3, h4]

/-- A kept entry decodes to the same window and the same region. -/
theorem Kept.region_eq {f g : CsrFile} {e : Fin 16} (hk : Kept f g e) :
    region (unit g) e = region (unit f) e ∧ entryRange (unit g) e = entryRange (unit f) e := by
  have hcfg : ((unit g).entries e).cfg = ((unit f).entries e).cfg := by
    change cfgByte g.pmpcfg e = cfgByte f.pmpcfg e
    rw [cfgByte_eq, cfgByte_eq, hk.cfg]
  have haddr : ((unit g).entries e).addr = ((unit f).entries e).addr := hk.addr
  unfold region entryRange torBase
  dsimp only
  rw [hcfg, haddr]
  cases hm : PmpAddrMatch.fromCfg ((unit f).entries e).cfg with
  | off | napot | na4 => exact ⟨rfl, rfl⟩
  | tor =>
    by_cases h0 : e.val = 0
    · simp [h0]
    have hsub : (e - 1).val + 1 = e.val := by
      rw [Fin.val_sub_one_of_ne_zero (by intro h; exact h0 (by rw [h]; rfl))]
      omega
    have hbelow : ((unit g).entries (e - 1)).addr = ((unit f).entries (e - 1)).addr :=
      hk.below (isTor_of_fromCfg hm) (e - 1) hsub
    simp [hbelow]

/-- A CSR write by some instruction: address, value and the privilege it runs at. -/
structure CsrWrite where
  addr : BitVec 16
  val : BitVec 64
  priv : PrivLevel

/-- One write on a CPU of the given profile, whatever it returns. -/
def writeStep (profile : RiscvCpuProfile) (f : CsrFile) (w : CsrWrite) : CsrFile :=
  (f.writeForProfile w.addr w.val w.priv profile).1

/-- Every sequence of CSR writes keeps a locked entry: configuration byte, address
register, the register below it in TOR mode, and the region it protects. -/
theorem locked_entry_constant (profile : RiscvCpuProfile) (f g : CsrFile) (ws : List CsrWrite) (e : Fin 16)
    (hl : locked f e = true) (hrun : Run (ofStep (writeStep profile)) f ws g) :
    locked g e = true ∧ g.pmpcfgByte e = f.pmpcfgByte e ∧ g.pmpaddr e = f.pmpaddr e ∧
      (isTor f e → ∀ d : Fin 16, d.val + 1 = e.val → g.pmpaddr d = f.pmpaddr d) ∧
      region (unit g) e = region (unit f) e ∧ entryRange (unit g) e = entryRange (unit f) e := by
  have hk : Kept f g e := by
    refine hrun.invariant (I := fun g => Kept f g e) ?_ (Kept.refl f e)
    rintro s w t rfl hs
    rw [writeStep, writeForProfile_fst]
    exact kept_write hl hs w.addr w.val w.priv
  refine ⟨?_, hk.cfg, hk.addr, hk.below, hk.region_eq⟩
  rw [locked, hk.cfg]
  exact hl

/-- A file whose entry 1 is a locked TOR region up to `0x8000`. -/
def lockedTor : CsrFile :=
  { CsrFile.new with pmpcfg := fun k => if k = 0 then 0x8F00#64 else 0#64,
                     pmpaddr := fun i => if i = 1 then 0x2000#64 else 0#64 }

/-- Machine-mode writes to `pmpcfg0` and `pmpaddr0` do not move it. -/
theorem locked_entry_constant_tor :
    region (unit ((lockedTor.write 0x3A0#16 0#64 .machine).1.write 0x3B0#16 1#64 .machine).1) 1 =
      region (unit lockedTor) 1 := by
  have h := locked_entry_constant .genericRv64 lockedTor
    (writeStep .genericRv64 (writeStep .genericRv64 lockedTor ⟨0x3A0#16, 0#64, .machine⟩)
      ⟨0x3B0#16, 1#64, .machine⟩)
    [⟨0x3A0#16, 0#64, .machine⟩, ⟨0x3B0#16, 1#64, .machine⟩] 1 (by decide)
    (.cons rfl (.cons rfl (.nil _)))
  simpa only [writeStep, writeForProfile_fst] using h.2.2.2.2.1

end MachinaPmpLock
