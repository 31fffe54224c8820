import Machina.Csr

/-!
# Aliased registers

The supervisor views of mstatus, mie and mip, the combined floating-point register
and the legal values of mstatus, over every sequence of CSR writes.
-/

namespace MachinaCsrViews

open MachinaBits MachinaRiscv MachinaCsr
open BitVec (eq_of_toNat_eq toNat_setWidth)

/-- The supervisor views of machine registers. -/
inductive View where
  | sstatus | sie | sip
  deriving DecidableEq, Repr

namespace View

def addr : View → BitVec 16
  | sstatus => 0x100#16
  | sie => 0x104#16
  | sip => 0x144#16

def behind (f : CsrFile) : View → BitVec 64
  | sstatus => f.mstatus
  | sie => f.mie
  | sip => f.mip

/-- The file with another register behind a view. -/
def set (f : CsrFile) (w : BitVec 64) : View → CsrFile
  | sstatus => { f with mstatus := w }
  | sie => { f with mie := w }
  | sip => { f with mip := w }

/-- The bits a view exposes, as far as they are delegated. -/
def exposed (f : CsrFile) : View → BitVec 64
  | sstatus => sstatusMask
  | sie => f.mideleg &&& sipMask
  | sip => f.mideleg &&& sipMask

/-- Those of them that are stored and not computed. -/
def writable (f : CsrFile) : View → BitVec 64
  | sstatus => sstatusWriteMask
  | sie => f.mideleg &&& sipMask
  | sip => f.mideleg &&& sipMask

end View

/-- A write through a view changes, in the register behind it and nowhere else, only bits that
the view exposes, and they are read back; below S-mode it is refused. -/
structure ViewHolds (f : CsrFile) (v : View) (val : BitVec 64) (priv : PrivLevel) : Prop where
  changes : .supervisor ≤ priv → (f.write v.addr val priv).2 = .ok () ∧
    ∃ w, (f.write v.addr val priv).1 = v.set f w ∧ w &&& ~~~v.exposed f = v.behind f &&& ~~~v.exposed f
  readBack : .supervisor ≤ priv → ∃ r, (f.write v.addr val priv).1.read v.addr priv = .ok r ∧
    r &&& v.writable f = val &&& v.writable f ∧ r &&& ~~~v.exposed f = 0#64
  refused : priv < .supervisor → f.write v.addr val priv = (f, .error causeIllegalInsn)

def View.reg : View → Reg
  | sstatus => .sstatus
  | sie => .sie
  | sip => .sip

section

variable (f : CsrFile) (v : View) (val : BitVec 64) {priv : PrivLevel}

theorem not_lt_required (hpriv : .supervisor ≤ priv) : ¬ priv < required v.addr := by
  cases v <;> cases priv <;> revert hpriv <;> decide

theorem write_view (hpriv : .supervisor ≤ priv) : f.write v.addr val priv = f.writeReg v.reg val priv := by
  have hwritable : ¬ (v.addr >>> 10) &&& 3#16 = 3#16 := by cases v <;> decide
  have hdecode : decode v.addr = some v.reg := by cases v <;> decide
  rw [CsrFile.write, if_neg (not_lt_required v hpriv), if_neg hwritable, hdecode]

theorem read_view (hpriv : .supervisor ≤ priv) : f.read v.addr priv = f.readReg v.reg priv := by
  have hdecode : decode v.addr = some v.reg := by cases v <;> decide
  rw [CsrFile.read, if_neg (not_lt_required v hpriv), hdecode]

/-- A write through a view replaces its writable bits. -/
theorem writeReg_view : f.writeReg v.reg val priv =
    (v.set f (put (v.behind f) (v.writable f) (val &&& v.writable f)), .ok ()) := by
  cases v <;> rfl

theorem put_and_not {x m w : BitVec 64} (hm : m &&& ~~~w = 0#64) (y : BitVec 64) :
    put x m (y &&& m) &&& ~~~w = x &&& ~~~w := by
  apply BitVec.eq_of_getLsbD_eq
  intro i hi
  have hbit := congrArg (fun z => z.getLsbD i) hm
  simp only [put, BitVec.getLsbD_and, BitVec.getLsbD_or, BitVec.getLsbD_not, BitVec.getLsbD_zero, hi, decide_true,
    Bool.true_and] at hbit ⊢
  cases hmi : m.getLsbD i <;> cases hwi : w.getLsbD i <;> simp_all

theorem writable_exposed : v.writable f &&& ~~~v.exposed f = 0#64 := by
  cases v with
  | sstatus => exact (by decide : sstatusWriteMask &&& ~~~sstatusMask = 0#64)
  | sie | sip => exact BitVec.and_not_self _

theorem and_and_not (x m : BitVec 64) : (x &&& m) &&& ~~~m = 0#64 := by
  rw [BitVec.and_assoc, BitVec.and_not_self]
  exact BitVec.and_zero

/-- The computed bits of mstatus lie outside the writable ones. -/
theorem sstatus_and_writable (g : CsrFile) :
    ((g.mstatus ||| g.sdBit ||| mstatusUxl64) &&& sstatusMask) &&& sstatusWriteMask =
      g.mstatus &&& sstatusWriteMask := by
  have hmask : sstatusMask &&& sstatusWriteMask = sstatusWriteMask := by decide
  have huxl : mstatusUxl64 &&& sstatusWriteMask = 0#64 := by decide
  have hsd : g.sdBit &&& sstatusWriteMask = 0#64 := by
    unfold CsrFile.sdBit
    split <;> decide
  rw [BitVec.and_assoc, hmask, BitVec.and_or_distrib_right, BitVec.and_or_distrib_right, hsd, huxl, BitVec.or_zero,
    BitVec.or_zero]

/-- What is read through a view: its bits of the register behind it, with the computed bits of mstatus. -/
theorem readReg_view (w : BitVec 64) (priv : PrivLevel) : ∃ r, (v.set f w).readReg v.reg priv = .ok r ∧
    r &&& v.writable f = w &&& v.writable f ∧ r &&& ~~~v.exposed f = 0#64 := by
  cases v with
  | sstatus => exact ⟨_, rfl, sstatus_and_writable { f with mstatus := w }, and_and_not _ _⟩
  | sie | sip =>
    refine ⟨w &&& f.mideleg &&& sipMask, rfl, ?_, ?_⟩
    · change w &&& f.mideleg &&& sipMask &&& (f.mideleg &&& sipMask) = w &&& (f.mideleg &&& sipMask)
      rw [BitVec.and_assoc w, BitVec.and_assoc w, BitVec.and_self]
    · rw [BitVec.and_assoc w]
      exact and_and_not _ _

/-- The views of every register file. -/
theorem viewHolds (priv : PrivLevel) : ViewHolds f v val priv where
  changes hpriv := by
    rw [write_view f v val hpriv, writeReg_view]
    exact ⟨rfl, _, rfl, put_and_not (writable_exposed f v) val⟩
  readBack hpriv := by
    rw [read_view _ v hpriv, write_view f v val hpriv, writeReg_view]
    obtain ⟨r, hr, hwritten, hothers⟩ :=
      readReg_view f v (put (v.behind f) (v.writable f) (val &&& v.writable f)) priv
    exact ⟨r, hr, hwritten.trans (put_and_mask _ _ _ (by rw [BitVec.and_assoc, BitVec.and_self])), hothers⟩
  refused hpriv := by
    have hlt : priv < required v.addr := by cases v <;> exact hpriv
    rw [CsrFile.write, if_pos hlt]

end

structure CsrWrite where
  addr : BitVec 16
  val : BitVec 64
  priv : PrivLevel

section

variable (f : CsrFile) (ws : List CsrWrite)

def after : CsrFile := ws.foldl (fun f w => (f.write w.addr w.val w.priv).1) f

/-! ## The floating-point registers -/

/-- The flags and the rounding mode. -/
structure FpState where
  fflags : BitVec 5
  frm : BitVec 3
  deriving DecidableEq, Repr

/-- A write to one of the three addresses sets the fields it names. -/
def FpState.write (s : FpState) (w : CsrWrite) : FpState :=
  if w.addr = 0x001#16 then { s with fflags := w.val.setWidth 5 }
  else if w.addr = 0x002#16 then { s with frm := w.val.setWidth 3 }
  else if w.addr = 0x003#16 then ⟨w.val.setWidth 5, (w.val >>> 5).setWidth 3⟩
  else s

def fpOf : FpState := ⟨f.fflags.setWidth 5, f.frm.setWidth 3⟩

/-- The combined register: the rounding mode above the flags. -/
def FpState.fcsr (s : FpState) : BitVec 64 := (s.frm ++ s.fflags).setWidth 64

/-- After any writes the three registers hold what was last written to each field. -/
def FpHolds (priv : PrivLevel) : Prop :=
  let s := ws.foldl FpState.write (fpOf f)
  (after f ws).read 0x001#16 priv = .ok (s.fflags.setWidth 64) ∧
    (after f ws).read 0x002#16 priv = .ok (s.frm.setWidth 64) ∧ (after f ws).read 0x003#16 priv = .ok s.fcsr

/-- The registers of interest here have one address each. -/
def soleAddr : Reg → Option (BitVec 16)
  | .mstatus => some 0x300#16
  | .sstatus => some 0x100#16
  | .fflags => some 0x001#16
  | .frm => some 0x002#16
  | .fcsr => some 0x003#16
  | _ => none

theorem decode_sole {addr a : BitVec 16} {r : Reg} (h : decode addr = some r) (ha : soleAddr r = some a) :
    addr = a := by
  unfold decode at h
  split at h
  all_goals first
    | cases h
      cases ha
      apply eq_of_toNat_eq
      assumption
    | cases h
      cases ha
    | skip
  · split at h
    · cases h
      cases ha
    · split at h
      · cases h
        cases ha
      · cases h

/-- A write that every privilege may make. -/
theorem write_user {addr : BitVec 16} {r : Reg} (hreq : required addr = .user)
    (hrw : ¬ (addr >>> 10) &&& 3#16 = 3#16) (hdecode : decode addr = some r) (val : BitVec 64) (priv : PrivLevel) :
    f.write addr val priv = f.writeReg r val priv := by
  have hpriv : ¬ priv < required addr := by
    rw [hreq]
    cases priv <;> decide
  rw [CsrFile.write, if_neg hpriv, if_neg hrw, hdecode]

theorem setWidth_and_fflags (x : BitVec 64) : (x &&& fflagsMask).setWidth 5 = x.setWidth 5 := by
  apply eq_of_toNat_eq
  rw [toNat_setWidth, show fflagsMask = (1#64 <<< 5) - 1#64 by decide, toNat_and_low x (by decide),
    toNat_setWidth, Nat.mod_mod]

theorem setWidth_and_frm (x : BitVec 64) : (x &&& frmMask).setWidth 3 = x.setWidth 3 := by
  apply eq_of_toNat_eq
  rw [toNat_setWidth, show frmMask = (1#64 <<< 3) - 1#64 by decide, toNat_and_low x (by decide),
    toNat_setWidth, Nat.mod_mod]

/-- Every write acts on the fields as the abstract one does. -/
theorem fpOf_write (w : CsrWrite) : fpOf (f.write w.addr w.val w.priv).1 = (fpOf f).write w := by
  unfold FpState.write
  split_ifs with hflags hfrm hfcsr
  · rw [hflags, write_user f rfl (by decide) (show decode 0x001#16 = some .fflags by decide)]
    simp only [fpOf, CsrFile.writeReg, setWidth_and_fflags]
  · rw [hfrm, write_user f rfl (by decide) (show decode 0x002#16 = some .frm by decide)]
    simp only [fpOf, CsrFile.writeReg, setWidth_and_frm]
  · rw [hfcsr, write_user f rfl (by decide) (show decode 0x003#16 = some .fcsr by decide)]
    simp only [fpOf, CsrFile.writeReg, setWidth_and_fflags, setWidth_and_frm]
  rcases write_fst_cases f w.addr w.val w.priv with hsame | ⟨r, hdecode, hwrite⟩
  · rw [hsame]
  · rw [hwrite]
    cases r with
    | fflags => exact absurd (decode_sole hdecode rfl) hflags
    | frm => exact absurd (decode_sole hdecode rfl) hfrm
    | fcsr => exact absurd (decode_sole hdecode rfl) hfcsr
    | pmpaddr i =>
      simp only [CsrFile.writeReg]
      split <;> rfl
    | satp =>
      simp only [CsrFile.writeReg]
      split
      · rfl
      · split <;> rfl
    | _ => rfl

theorem fpOf_after : fpOf (after f ws) = ws.foldl FpState.write (fpOf f) := by
  induction ws generalizing f with
  | nil => rfl
  | cons w ws ih =>
    rw [List.foldl_cons, ← fpOf_write]
    exact ih _

theorem and_fflags (x : BitVec 64) : x &&& fflagsMask = (x.setWidth 5).setWidth 64 := by
  apply eq_of_toNat_eq
  rw [show fflagsMask = (1#64 <<< 5) - 1#64 by decide, toNat_and_low x (by decide), toNat_setWidth,
    toNat_setWidth]
  omega

theorem and_frm (x : BitVec 64) : x &&& frmMask = (x.setWidth 3).setWidth 64 := by
  apply eq_of_toNat_eq
  rw [show frmMask = (1#64 <<< 3) - 1#64 by decide, toNat_and_low x (by decide), toNat_setWidth,
    toNat_setWidth]
  omega

/-- The three reads are the fields of the abstract state. -/
theorem read_fp (priv : PrivLevel) :
    f.read 0x001#16 priv = .ok ((fpOf f).fflags.setWidth 64) ∧ f.read 0x002#16 priv = .ok ((fpOf f).frm.setWidth 64) ∧
      f.read 0x003#16 priv = .ok (fpOf f).fcsr := by
  have hread {addr : BitVec 16} {r : Reg} (hreq : required addr = .user) (hdecode : decode addr = some r) :
      f.read addr priv = f.readReg r priv := by
    have hpriv : ¬ priv < required addr := by
      rw [hreq]
      cases priv <;> decide
    rw [CsrFile.read, if_neg hpriv, hdecode]
  rw [hread rfl (show decode 0x001#16 = some .fflags by decide),
    hread rfl (show decode 0x002#16 = some .frm by decide), hread rfl (show decode 0x003#16 = some .fcsr by decide)]
  simp only [CsrFile.readReg, and_fflags, and_frm, fpOf, FpState.fcsr, true_and, Except.ok.injEq]
  apply BitVec.eq_of_getLsbD_eq
  intro i hi
  simp only [BitVec.getLsbD_or, BitVec.getLsbD_setWidth, BitVec.getLsbD_shiftLeft, BitVec.getLsbD_append]
  by_cases hlow : i < 5
  · simp [hlow, hi]
  · simp [hlow, hi, show i - 5 < 64 by omega]

theorem fpHolds (priv : PrivLevel) : FpHolds f ws priv := by
  unfold FpHolds
  rw [← fpOf_after]
  exact read_fp (after f ws) priv

/-! ## The fields of mstatus -/

def mpp (mstatus : BitVec 64) : BitVec 64 := (mstatus >>> 11) &&& 3#64

/-- No field outside the write mask and no reserved privilege. -/
def MstatusOk : Prop := f.mstatus &&& ~~~mstatusWriteMask = 0#64 ∧ mpp f.mstatus ≠ 2#64

/-- A write to mstatus that carries the reserved privilege. -/
def SetsReservedMpp (w : CsrWrite) : Prop := w.addr = 0x300#16 ∧ w.priv = .machine ∧ mpp w.val = 2#64

end

instance (f : CsrFile) : Decidable (MstatusOk f) := inferInstanceAs (Decidable (_ ∧ _))

theorem mpp_eq (x : BitVec 64) : mpp x = (x &&& 0x1800#64) >>> 11 := by
  rw [BitVec.ushiftRight_and_distrib]
  rfl

theorem mpp_put {m : BitVec 64} (hm : m &&& 0x1800#64 = 0#64) (x y : BitVec 64) : mpp (put x m (y &&& m)) = mpp x := by
  have hkeep : put x m (y &&& m) &&& ~~~(~~~0x1800#64) = x &&& ~~~(~~~0x1800#64) :=
    put_and_not (by rwa [BitVec.not_not]) y
  rw [BitVec.not_not] at hkeep
  rw [mpp_eq, mpp_eq, hkeep]

theorem writeReg_mstatus (f : CsrFile) {r : Reg} (hm : r ≠ .mstatus) (hs : r ≠ .sstatus) (val : BitVec 64)
    (priv : PrivLevel) : (f.writeReg r val priv).1.mstatus = f.mstatus := by
  cases r with
  | mstatus => exact absurd rfl hm
  | sstatus => exact absurd rfl hs
  | pmpaddr i =>
    simp only [CsrFile.writeReg]
    split <;> rfl
  | satp =>
    simp only [CsrFile.writeReg]
    split
    · rfl
    · split <;> rfl
  | _ => rfl

theorem mstatusOk_writeMstatus {f : CsrFile} (hf : MstatusOk f) (val : BitVec 64) :
    MstatusOk (f.write 0x300#16 val .machine).1 ↔ mpp val ≠ 2#64 := by
  have hwrite : (f.write 0x300#16 val .machine).1.mstatus =
    put f.mstatus mstatusWriteMask (val &&& mstatusWriteMask) :=
    rfl
  have hfields : put f.mstatus mstatusWriteMask (val &&& mstatusWriteMask) &&& ~~~mstatusWriteMask = 0#64 := by
    rw [put_and_not (BitVec.and_not_self _), hf.1]
  have hmpp : mpp (put f.mstatus mstatusWriteMask (val &&& mstatusWriteMask)) = mpp val := by
    have hput := put_and_mask f.mstatus mstatusWriteMask (val &&& mstatusWriteMask)
      (by rw [BitVec.and_assoc, BitVec.and_self])
    have hmask : mstatusWriteMask &&& 0x1800#64 = 0x1800#64 := by decide
    rw [mpp_eq, mpp_eq, ← hmask, ← BitVec.and_assoc, hput, BitVec.and_assoc, hmask]
  rw [MstatusOk, hwrite, hmpp]
  exact and_iff_right hfields

/-- Any other write keeps the fields legal. -/
theorem mstatusOk_writeOther {f : CsrFile} (hf : MstatusOk f) {w : CsrWrite}
    (hw : ¬ (w.addr = 0x300#16 ∧ w.priv = .machine)) : MstatusOk (f.write w.addr w.val w.priv).1 := by
  rcases write_fst_cases f w.addr w.val w.priv with hsame | ⟨r, hdecode, hwrite⟩
  · rwa [hsame]
  by_cases hm : r = .mstatus
  · subst hm
    have haddr : w.addr = 0x300#16 := decode_sole hdecode rfl
    have hrefused : w.priv < required w.addr := by
      have hpriv : w.priv ≠ .machine := fun h => hw ⟨haddr, h⟩
      rw [haddr]
      revert hpriv
      cases w.priv <;> decide
    rwa [CsrFile.write, if_pos hrefused]
  · rw [hwrite]
    by_cases hs : r = .sstatus
    · subst hs
      constructor
      · exact (put_and_not (by decide) w.val).trans hf.1
      · exact (mpp_put (by decide) f.mstatus w.val).trans_ne hf.2
    · rw [MstatusOk, writeReg_mstatus f hm hs]
      exact hf

theorem mstatusOk_write {f : CsrFile} (hf : MstatusOk f) (w : CsrWrite) :
    MstatusOk (f.write w.addr w.val w.priv).1 ↔ ¬ SetsReservedMpp w := by
  by_cases hw : w.addr = 0x300#16 ∧ w.priv = .machine
  · rw [hw.1, hw.2, mstatusOk_writeMstatus hf]
    exact not_congr ⟨fun h => ⟨hw.1, hw.2, h⟩, fun h => h.2.2⟩
  · exact iff_of_true (mstatusOk_writeOther hf hw) (fun h => hw ⟨h.1, h.2.1⟩)

/-- A property of every state of a run, at the first write. -/
theorem forall_prefix_cons (P : CsrFile → Prop) (f : CsrFile) (w : CsrWrite) (ws : List CsrWrite) :
    (∀ pre, pre <+: w :: ws → P (after f pre)) ↔
      P f ∧ ∀ pre, pre <+: ws → P (after (f.write w.addr w.val w.priv).1 pre) := by
  constructor
  · intro h
    exact ⟨h [] List.nil_prefix, fun pre hpre => h (w :: pre) (List.cons_prefix_cons.mpr ⟨rfl, hpre⟩)⟩
  · rintro ⟨hf, hrest⟩ pre hpre
    cases pre with
    | nil => exact hf
    | cons w' pre =>
      obtain ⟨rfl, htail⟩ := List.cons_prefix_cons.mp hpre
      exact hrest pre htail

/-- The states of a run are legal as long as no write carries the reserved privilege. -/
theorem mstatusOk_after (f : CsrFile) (ws : List CsrWrite) :
    (∀ pre, pre <+: ws → MstatusOk (after f pre)) ↔ MstatusOk f ∧ ∀ w ∈ ws, ¬ SetsReservedMpp w := by
  induction ws generalizing f with
  | nil =>
    constructor
    · intro h
      exact ⟨h [] List.nil_prefix, List.forall_mem_nil _⟩
    · rintro ⟨hf, -⟩ pre hpre
      rw [List.prefix_nil.mp hpre]
      exact hf
  | cons w ws ih =>
    rw [forall_prefix_cons, ih, List.forall_mem_cons]
    exact and_congr_right fun hf => and_congr_left fun _ => mstatusOk_write hf w

/-- The views and the combined register hold in every state; mstatus stays legal in exactly the runs
whose writes to it carry no reserved privilege. -/
theorem csr_views_and_mstatus (f : CsrFile) (ws : List CsrWrite) :
    (∀ v val priv, ViewHolds f v val priv) ∧ (∀ priv, FpHolds f ws priv) ∧ MstatusOk CsrFile.new ∧
      ((∀ pre, pre <+: ws → MstatusOk (after f pre)) ↔ MstatusOk f ∧ ∀ w ∈ ws, ¬ SetsReservedMpp w) :=
  ⟨viewHolds f, fpHolds f ws, by decide, mstatusOk_after f ws⟩

/-- From reset, one write leaves the reserved privilege in mstatus. -/
theorem mstatus_holds_reserved_mpp : ¬ MstatusOk (after CsrFile.new [⟨0x300#16, 0x1000#64, .machine⟩]) := by
  decide

end MachinaCsrViews
