import Machina.RvTrans

/-!
# Multiplication and division instructions

The translators of the M extension. High products with one signed factor are
corrected from the unsigned product, unsigned divisions substitute a divisor and
signed divisions call helpers. Each translator's code leaves in its destination
the result the instruction set prescribes.
-/

namespace MachinaRvm

open MachinaFold (low_setWidth)
open MachinaIr MachinaIrSem MachinaIrGen MachinaRvTrans MachinaOptimizePaths

/-- Signed division: by zero it gives -1, and the most negative word by -1 gives itself. -/
def signedDiv {w : Nat} (a b : BitVec w) : BitVec w :=
  if b = 0#w then -1#w else if a = BitVec.intMin w ∧ b = -1#w then BitVec.intMin w else a.sdiv b

/-- Signed remainder: by zero it gives the dividend, and the most negative word by -1 gives 0. -/
def signedRem {w : Nat} (a b : BitVec w) : BitVec w :=
  if b = 0#w then a else if a = BitVec.intMin w ∧ b = -1#w then 0#w else a.srem b

def helperDivs64 (a b : BitVec 64) : BitVec 64 := signedDiv a b
def helperRems64 (a b : BitVec 64) : BitVec 64 := signedRem a b

/-- 32-bit forms, sign-extended to 64 bits. -/
def helperDivw64 (a b : BitVec 64) : BitVec 64 := (signedDiv (a.setWidth 32) (b.setWidth 32)).signExtend 64
def helperRemw64 (a b : BitVec 64) : BitVec 64 := (signedRem (a.setWidth 32) (b.setWidth 32)).signExtend 64

inductive Helper where
  | divs64 | rems64 | divw64 | remw64
  deriving DecidableEq, Repr

def Helper.code : Helper → BitVec 64 → BitVec 64 → BitVec 64
  | .divs64 => helperDivs64
  | .rems64 => helperRems64
  | .divw64 => helperDivw64
  | .remw64 => helperRemw64

/-- Where the helpers are, and what is called at an address. -/
structure Linkage where
  addr : Helper → BitVec 64
  code : BitVec 64 → BitVec 64 → BitVec 64 → BitVec 64
  linked : ∀ h, code (addr h) = h.code

/-- The four helpers at four addresses. -/
def Linkage.consecutive : Linkage where
  addr
    | .divs64 => 0x10#64
    | .rems64 => 0x20#64
    | .divw64 => 0x30#64
    | .remw64 => 0x40#64
  code a :=
    if a = 0x10#64 then helperDivs64 else if a = 0x20#64 then helperRems64
    else if a = 0x30#64 then helperDivw64 else helperRemw64
  linked h := by cases h <;> rfl

def callAddress (i : Instr) : BitVec 64 :=
  BitVec.ofNat 64 (i.cargs.getD 0 0) ||| (BitVec.ofNat 64 (i.cargs.getD 1 0) <<< 32)

/-- Helper calls return what the linked function computes. -/
def calls {W E : Type} (link : Linkage) (other : Sem W E) : Sem W E := fun i xs world =>
  if i.opc = .call then ⟨[link.code (callAddress i) (xs.getD 0 0#64) (xs.getD 1 0#64)], world, none⟩
  else other i xs world

section Translators

variable (tr : RiscvDisasContext) (addr : Helper → BitVec 64) (a : ArgsR)

/-- R-type ALU: `rd = op(rs1, rs2)`. -/
def genArith (op : IrType → TempIdx → TempIdx → TempIdx → Builder Unit) : Builder Bool := do
  let s1 ← gprOrZero tr a.rs1
  let s2 ← gprOrZero tr a.rs2
  let d ← newTemp .i64
  op .i64 d s1 s2
  genSetGpr tr a.rd d
  pure true

/-- R-type W: `rd = sext32(op(rs1, rs2))`. -/
def genArithW (op : IrType → TempIdx → TempIdx → TempIdx → Builder Unit) : Builder Bool := do
  let s1 ← gprOrZero tr a.rs1
  let s2 ← gprOrZero tr a.rs2
  let d ← newTemp .i64
  op .i64 d s1 s2
  genSetGprSx32 tr a.rd d
  pure true

/-- A helper call on both operands, shared by the signed divisions. -/
def genHelper (helper : BitVec 64) : Builder Bool := do
  let s1 ← gprOrZero tr a.rs1
  let s2 ← gprOrZero tr a.rs2
  let r ← newTemp .i64
  genCall r helper [s1, s2]
  genSetGpr tr a.rd r
  pure true

variable (wantRem : Bool)

/-- Signed division with its special cases via helper call. -/
def genDivRem : Builder Bool := genHelper tr a (if wantRem then addr .rems64 else addr .divs64)

def genDivRemW : Builder Bool := genHelper tr a (if wantRem then addr .remw64 else addr .divw64)

/-- Unsigned division: the divisor zero is replaced by one, and its result afterwards. -/
def genDivuRemu : Builder Bool := do
  let s1 ← gprOrZero tr a.rs1
  let s2 ← gprOrZero tr a.rs2
  let c0 ← newConst .i64 0#64
  let c1 ← newConst .i64 1#64
  let safe ← newTemp .i64
  genMovcond .i64 safe s2 c0 c1 s2 .eq
  let quot ← newTemp .i64
  let rem ← newTemp .i64
  genDivu2 .i64 quot rem s1 c0 safe
  if wantRem then
    let r ← newTemp .i64
    genMovcond .i64 r s2 c0 s1 rem .eq
    genSetGpr tr a.rd r
    pure true
  else
    let neg1 ← newConst .i64 (BitVec.allOnes 64)
    let r ← newTemp .i64
    genMovcond .i64 r s2 c0 neg1 quot .eq
    genSetGpr tr a.rd r
    pure true

def genDivuRemuW : Builder Bool := do
  let s1 ← gprOrZero tr a.rs1
  let s2 ← gprOrZero tr a.rs2
  let a32 ← newTemp .i32
  genExtrlI64I32 a32 s1
  let b32 ← newTemp .i32
  genExtrlI64I32 b32 s2
  let c0 ← newConst .i32 0#64
  let c1 ← newConst .i32 1#64
  let safe ← newTemp .i32
  genMovcond .i32 safe b32 c0 c1 b32 .eq
  let quot ← newTemp .i32
  let rem ← newTemp .i32
  genDivu2 .i32 quot rem a32 c0 safe
  if wantRem then
    let r ← newTemp .i32
    genMovcond .i32 r b32 c0 a32 rem .eq
    genSetGprSx32 tr a.rd r
    pure true
  else
    let max ← newConst .i32 0xFFFFFFFF#64
    let r ← newTemp .i32
    genMovcond .i32 r b32 c0 max quot .eq
    genSetGprSx32 tr a.rd r
    pure true

def transMul : Builder Bool := requireExt tr misaM (genArith tr a genMul)
def transMulw : Builder Bool := requireExt tr misaM (genArithW tr a genMul)

def transMulh : Builder Bool := requireExt tr misaM do
  let s1 ← gprOrZero tr a.rs1
  let s2 ← gprOrZero tr a.rs2
  let lo ← newTemp .i64
  let hi ← newTemp .i64
  genMuls2 .i64 lo hi s1 s2
  genSetGpr tr a.rd hi
  pure true

/-- The unsigned high product, less the second factor when the first is negative. -/
def transMulhsu : Builder Bool := requireExt tr misaM do
  let s1 ← gprOrZero tr a.rs1
  let s2 ← gprOrZero tr a.rs2
  let lo ← newTemp .i64
  let hi ← newTemp .i64
  genMulu2 .i64 lo hi s1 s2
  let c63 ← newConst .i64 63#64
  let sign ← newTemp .i64
  genSar .i64 sign s1 c63
  let adj ← newTemp .i64
  genAnd .i64 adj sign s2
  genSub .i64 hi hi adj
  genSetGpr tr a.rd hi
  pure true

def transMulhu : Builder Bool := requireExt tr misaM do
  let s1 ← gprOrZero tr a.rs1
  let s2 ← gprOrZero tr a.rs2
  let lo ← newTemp .i64
  let hi ← newTemp .i64
  genMulu2 .i64 lo hi s1 s2
  genSetGpr tr a.rd hi
  pure true

def transDiv : Builder Bool := requireExt tr misaM (genDivRem tr addr a false)
def transDivu : Builder Bool := requireExt tr misaM (genDivuRemu tr a false)
def transRem : Builder Bool := requireExt tr misaM (genDivRem tr addr a true)
def transRemu : Builder Bool := requireExt tr misaM (genDivuRemu tr a true)
def transDivw : Builder Bool := requireExt tr misaM (genDivRemW tr addr a false)
def transDivuw : Builder Bool := requireExt tr misaM (genDivuRemuW tr a false)
def transRemw : Builder Bool := requireExt tr misaM (genDivRemW tr addr a true)
def transRemuw : Builder Bool := requireExt tr misaM (genDivuRemuW tr a true)

end Translators

inductive MulDiv where
  | mul | mulh | mulhsu | mulhu | div | divu | rem | remu | mulw | divw | divuw | remw | remuw
  deriving DecidableEq, Repr

def MulDiv.translate (tr : RiscvDisasContext) (addr : Helper → BitVec 64) (a : ArgsR) : MulDiv → Builder Bool
  | .mul => transMul tr a
  | .mulh => transMulh tr a
  | .mulhsu => transMulhsu tr a
  | .mulhu => transMulhu tr a
  | .div => transDiv tr addr a
  | .divu => transDivu tr a
  | .rem => transRem tr addr a
  | .remu => transRemu tr a
  | .mulw => transMulw tr a
  | .divw => transDivw tr addr a
  | .divuw => transDivuw tr a
  | .remw => transRemw tr addr a
  | .remuw => transRemuw tr a

/-! ## What the instruction set prescribes -/

section

variable {w : Nat}

def isaDiv (x y : BitVec w) : BitVec w :=
  if y = 0#w then BitVec.allOnes w else if x = BitVec.intMin w ∧ y = BitVec.allOnes w then x
  else BitVec.ofInt w (x.toInt.tdiv y.toInt)

def isaRem (x y : BitVec w) : BitVec w :=
  if y = 0#w then x else if x = BitVec.intMin w ∧ y = BitVec.allOnes w then 0#w
  else BitVec.ofInt w (x.toInt.tmod y.toInt)

def isaDivu (x y : BitVec w) : BitVec w :=
  if y = 0#w then BitVec.allOnes w else BitVec.ofNat w (x.toNat / y.toNat)

def isaRemu (x y : BitVec w) : BitVec w := if y = 0#w then x else BitVec.ofNat w (x.toNat % y.toNat)

/-- The high half of the exact product of two double-width words. -/
def highHalf (x y : BitVec 128) : BitVec 64 := (x * y).extractLsb' 64 64

/-- A 32-bit operation on the low halves, sign-extended. -/
def wordForm (f : BitVec 32 → BitVec 32 → BitVec 32) (x y : BitVec 64) : BitVec 64 :=
  (f (x.setWidth 32) (y.setWidth 32)).signExtend 64

/-- The result of an instruction on its two operands. -/
def MulDiv.result : MulDiv → BitVec 64 → BitVec 64 → BitVec 64
  | .mul => fun x y => x * y
  | .mulh => fun x y => highHalf (x.signExtend 128) (y.signExtend 128)
  | .mulhsu => fun x y => highHalf (x.signExtend 128) (y.setWidth 128)
  | .mulhu => fun x y => highHalf (x.setWidth 128) (y.setWidth 128)
  | .div => isaDiv
  | .divu => isaDivu
  | .rem => isaRem
  | .remu => isaRemu
  | .mulw => wordForm fun x y => x * y
  | .divw => wordForm isaDiv
  | .divuw => wordForm isaDivu
  | .remw => wordForm isaRem
  | .remuw => wordForm isaRemu

variable (x y : BitVec w)

theorem signedDiv_eq : signedDiv x y = isaDiv x y := by
  unfold signedDiv isaDiv
  rw [BitVec.neg_one_eq_allOnes]
  split_ifs with hzero hover
  · rfl
  · exact hover.1.symm
  have hne : x ≠ BitVec.intMin w ∨ y ≠ -1#w := by
    rw [BitVec.neg_one_eq_allOnes]
    exact not_and_or.mp hover
  rw [← BitVec.toInt_sdiv_of_ne_or_ne x y hne, BitVec.ofInt_toInt]

theorem signedRem_eq : signedRem x y = isaRem x y := by
  unfold signedRem isaRem
  rw [BitVec.neg_one_eq_allOnes, ← BitVec.toInt_srem, BitVec.ofInt_toInt]

theorem extract_high_ofInt (z : Int) : (BitVec.ofInt 128 z).extractLsb' 64 64 = BitVec.ofInt 64 (z / 2 ^ 64) := by
  apply BitVec.eq_of_toNat_eq
  rw [BitVec.extractLsb'_toNat, BitVec.toNat_ofInt, BitVec.toNat_ofInt, Nat.shiftRight_eq_div_pow]
  omega

theorem highHalf_ofInt (x y : Int) :
    highHalf (BitVec.ofInt 128 x) (BitVec.ofInt 128 y) = BitVec.ofInt 64 (x * y / 2 ^ 64) := by
  rw [highHalf, ← BitVec.ofInt_mul, extract_high_ofInt]

theorem setWidth_eq_ofInt (x : BitVec 64) : x.setWidth 128 = BitVec.ofInt 128 (x.toNat : Int) := by
  rw [BitVec.ofInt_natCast]
  apply BitVec.eq_of_toNat_eq
  rw [BitVec.toNat_setWidth, BitVec.toNat_ofNat]

theorem sshiftRight_sign (x : BitVec 64) : x.sshiftRight 63 = if x.msb then BitVec.allOnes 64 else 0#64 := by
  ext i hi
  rw [BitVec.getElem_sshiftRight, BitVec.msb_eq_getLsbD_last]
  by_cases hzero : i = 0
  · subst hzero
    cases h : x.getLsbD 63 <;> simp_all [← BitVec.getLsbD_eq_getElem]
  rw [dif_neg (by omega)]
  cases x.getLsbD (64 - 1)
  · rw [if_neg Bool.false_ne_true, BitVec.getElem_zero]
  · rw [if_pos rfl, BitVec.getElem_allOnes]

/-- The correction of the unsigned product: a negative factor counts `2 ^ 64` too much. -/
theorem highHalf_signed_unsigned (x y : BitVec 64) :
    BitVec.ofNat 64 (x.toNat * y.toNat / 2 ^ 64) - (x.sshiftRight 63 &&& y) =
      highHalf (x.signExtend 128) (y.setWidth 128) := by
  rw [BitVec.signExtend, setWidth_eq_ofInt, highHalf_ofInt]
  have hcast : BitVec.ofNat 64 (x.toNat * y.toNat / 2 ^ 64) =
      BitVec.ofInt 64 ((x.toNat : Int) * y.toNat / 2 ^ 64) := by
    rw [← BitVec.ofInt_natCast]
    rfl
  have hy : y = BitVec.ofInt 64 (y.toNat : Int) := by rw [BitVec.ofInt_natCast, BitVec.ofNat_toNat, BitVec.setWidth_eq]
  rw [sshiftRight_sign]
  cases hneg : x.msb with
  | false =>
    rw [if_neg Bool.false_ne_true, BitVec.zero_and, BitVec.sub_zero, hcast, BitVec.toInt_eq_msb_cond, hneg]
    rfl
  | true =>
    have hdiv : ((x.toNat : Int) - 2 ^ 64) * y.toNat / 2 ^ 64 = (x.toNat : Int) * y.toNat / 2 ^ 64 - y.toNat := by
      rw [Int.sub_mul, Int.sub_ediv_of_dvd _ (Dvd.intro _ rfl), Int.mul_ediv_cancel_left _ (by decide)]
    have hint : x.toInt = (x.toNat : Int) - 2 ^ 64 := by
      rw [BitVec.toInt_eq_msb_cond, hneg]
      rfl
    have hadd : BitVec.ofInt 64 ((x.toNat : Int) * y.toNat / 2 ^ 64) =
        BitVec.ofInt 64 ((x.toNat : Int) * y.toNat / 2 ^ 64 - y.toNat) + BitVec.ofInt 64 (y.toNat : Int) := by
      rw [← BitVec.ofInt_add, Int.sub_add_cancel]
    rw [← hy] at hadd
    rw [if_pos rfl, BitVec.allOnes_and, hcast, hint, hdiv, BitVec.sub_eq_iff_eq_add]
    exact hadd

theorem divU2_single (hy : y ≠ 0#w) :
    divU2 x 0#w y = some [BitVec.ofNat w (x.toNat / y.toNat), BitVec.ofNat w (x.toNat % y.toNat)] := by
  have hfits : ¬ 2 ^ w ≤ x.toNat / y.toNat :=
    Nat.not_le.mpr (lt_of_le_of_lt (Nat.div_le_self _ _) x.isLt)
  unfold divU2
  simp only [BitVec.toNat_ofNat, Nat.zero_mod, Nat.zero_mul, Nat.zero_add]
  rw [if_neg (not_or.mpr ⟨hy, hfits⟩)]

/-- The divisor an unsigned division works with. -/
def safeDivisor (y : BitVec w) : BitVec w := if y = 0#w then 1#w else y

theorem safeDivisor_ne (hw : 0 < w) (y : BitVec w) : safeDivisor y ≠ 0#w := by
  unfold safeDivisor
  split_ifs with hzero
  · intro hone
    have hnat := congrArg BitVec.toNat hone
    rw [BitVec.toNat_ofNat, BitVec.toNat_ofNat, Nat.zero_mod, Nat.mod_eq_of_lt (Nat.one_lt_two_pow hw.ne')] at hnat
    cases hnat
  · exact hzero

theorem isaDivu_safe :
    (if y = 0#w then BitVec.allOnes w else BitVec.ofNat w (x.toNat / (safeDivisor y).toNat)) = isaDivu x y := by
  unfold isaDivu safeDivisor
  split_ifs <;> rfl

theorem isaRemu_safe : (if y = 0#w then x else BitVec.ofNat w (x.toNat % (safeDivisor y).toNat)) = isaRemu x y := by
  unfold isaRemu safeDivisor
  split_ifs <;> rfl

end

/-! ## What the translators emit -/

section

variable {W E β : Type} (link : Linkage) (trap : E) (other : Sem W E) (s : Session) (σ : State W) (a : ArgsR)

theorem Emits.operands {sem : Sem W E} {f : TempIdx → TempIdx → Builder β} {post : β → Gen → State W → Prop}
    (h : ∀ s1 s2 g, s.Knows σ σ.world [(s2, s.reg σ a.rs2), (s1, s.reg σ a.rs1)] g σ → Emits sem (f s1 s2) g σ post) :
    Emits sem (gprOrZero s.tr a.rs1 >>= fun s1 => gprOrZero s.tr a.rs2 >>= fun s2 => f s1 s2) s.ir σ post := by
  apply Emits.gprOrZero (Knows.start s.consts σ)
  intro s1 g1 hk1
  apply Emits.gprOrZero hk1
  intro s2 g2 hk2
  exact h s1 s2 g2 hk2

theorem emits_genArith_mul : Emits (exact trap (calls link other)) (genArith s.tr a genMul) s.ir σ
      (s.Sets σ a.rd (s.reg σ a.rs1 * s.reg σ a.rs2) σ.world) := by
  apply Emits.operands
  intro s1 s2 g hk
  apply Emits.freshArith hk (.cons (.tail _ (.head _)) (.cons (.head _) .nil)) ⟨rfl, rfl⟩ (arith_i64 rfl)
  intro d g₁ σ1 _ _ _ hk₁
  exact Emits.genSetGpr hk₁ (.head _)

theorem emits_genArithW_mul : Emits (exact trap (calls link other)) (genArithW s.tr a genMul) s.ir σ
      (s.Sets σ a.rd (wordForm (fun x y => x * y) (s.reg σ a.rs1) (s.reg σ a.rs2)) σ.world) := by
  apply Emits.operands
  intro s1 s2 g hk
  apply Emits.freshArith hk (.cons (.tail _ (.head _)) (.cons (.head _) .nil)) ⟨rfl, rfl⟩ (arith_i64 rfl)
  intro d g₁ σ1 _ _ _ hk₁
  rw [wordForm, ← BitVec.setWidth_mul _ _ (by decide)]
  exact Emits.genSetGprSx32 hk₁ (.head _)

theorem emits_transMulh (hM : s.tr.contains misaM = true) :
    Emits (exact trap (calls link other)) (transMulh s.tr a) s.ir σ
      (s.Sets σ a.rd (highHalf ((s.reg σ a.rs1).signExtend 128) ((s.reg σ a.rs2).signExtend 128)) σ.world) := by
  apply Emits.requireExt hM
  apply Emits.operands
  intro s1 s2 g hk
  apply Emits.freshWide hk (.inr (.inl rfl)) rfl (.cons (.tail _ (.head _)) (.cons (.head _) .nil)) rfl
  intro lo hi g₁ σ1 _ _ hk₁
  rw [BitVec.signExtend, BitVec.signExtend, highHalf_ofInt]
  simp only [low, width, BitVec.setWidth_eq] at hk₁
  exact Emits.genSetGpr hk₁ (.tail _ (.head _))

theorem emits_transMulhu (hM : s.tr.contains misaM = true) :
    Emits (exact trap (calls link other)) (transMulhu s.tr a) s.ir σ
      (s.Sets σ a.rd (highHalf ((s.reg σ a.rs1).setWidth 128) ((s.reg σ a.rs2).setWidth 128)) σ.world) := by
  apply Emits.requireExt hM
  apply Emits.operands
  intro s1 s2 g hk
  apply Emits.freshWide hk (.inl rfl) rfl (.cons (.tail _ (.head _)) (.cons (.head _) .nil)) rfl
  intro lo hi g₁ σ1 _ _ hk₁
  rw [setWidth_eq_ofInt, setWidth_eq_ofInt, highHalf_ofInt]
  simp only [low, width, BitVec.setWidth_eq] at hk₁
  exact Emits.genSetGpr hk₁ (.tail _ (.head _))

theorem emits_transMulhsu (hM : s.tr.contains misaM = true) :
    Emits (exact trap (calls link other)) (transMulhsu s.tr a) s.ir σ
      (s.Sets σ a.rd (highHalf ((s.reg σ a.rs1).signExtend 128) ((s.reg σ a.rs2).setWidth 128)) σ.world) := by
  apply Emits.requireExt hM
  apply Emits.operands
  intro s1 s2 g hk
  apply Emits.freshWide hk (.inl rfl) rfl (.cons (.tail _ (.head _)) (.cons (.head _) .nil)) rfl
  intro lo hi g₁ σ1 hhi _ hk₁
  simp only [low, width, BitVec.setWidth_eq] at hk₁
  apply Emits.newConst hk₁ (by decide)
  intro c63 g₂ hext2 hk₂
  apply Emits.freshArith hk₂ (.cons (.tail _ (.tail _ (.tail _ (.tail _ (.head _))))) (.cons (.head _) .nil))
    ⟨rfl, rfl⟩
    (arith_i64 rfl)
  intro sign g3 σ3 hext3 _ _ hk3
  apply Emits.freshArith hk3 (.cons (.head _) (.cons (.tail _ (.tail _ (.tail _ (.tail _ (.head _))))) .nil))
    ⟨rfl, rfl⟩
    (arith_i64 rfl)
  intro adj g4 σ4 hext4 _ _ hk4
  -- The difference overwrites the high half, so nothing else is kept.
  have hlocal := hhi.extend (hext2.trans (hext3.trans hext4))
  have hdoes : Does (exact trap (calls link other)) (instr (.withArgs .sub .i64 [hi, hi, adj]))
      [BitVec.ofNat 64 ((s.reg σ a.rs1).toNat * (s.reg σ a.rs2).toNat / 2 ^ 64),
        (s.reg σ a.rs1).sshiftRight 63 &&& s.reg σ a.rs2] σ.world
      [highHalf ((s.reg σ a.rs1).signExtend 128) ((s.reg σ a.rs2).setWidth 128)] σ.world :=
    Or.inl ⟨_, arith_i64 (congrArg some (highHalf_signed_unsigned _ _)), rfl, rfl⟩
  refine Emits.op hk4 (.cons ?_ (.cons (.head _) .nil)) hdoes (fun d hd => List.mem_singleton.mp hd ▸ hlocal)
    (List.nodup_singleton hi) (List.forall_mem_nil _) fun g5 σ5 _ hk5 => ?_
  · exact .tail _ (.tail _ (.tail _ (.tail _ (.head _))))
  · exact Emits.genSetGpr hk5 (.head _)

theorem join_halves (address : BitVec 64) :
    (address.setWidth 32).setWidth 64 ||| ((address >>> 32).setWidth 32).setWidth 64 <<< 32 = address := by
  ext i hi
  simp only [BitVec.getElem_or, BitVec.getElem_setWidth, BitVec.getLsbD_setWidth, BitVec.getElem_shiftLeft,
    BitVec.getLsbD_ushiftRight]
  by_cases hlow : i < 32
  · simp [hlow, ← BitVec.getLsbD_eq_getElem]
  have hrest : 32 + (i - 32) = i := by omega
  have hhigh : i - 32 < 32 := by omega
  simp [hlow, hhigh, hrest, ← BitVec.getLsbD_eq_getElem]

/-- A helper call delivers what the linked function computes. -/
theorem emits_genHelper (h : Helper) {result : BitVec 64 → BitVec 64 → BitVec 64} (hcode : h.code = result) :
    Emits (exact trap (calls link other)) (genHelper s.tr a (link.addr h)) s.ir σ
      (s.Sets σ a.rd (result (s.reg σ a.rs1) (s.reg σ a.rs2)) σ.world) := by
  subst hcode
  apply Emits.operands
  intro s1 s2 g hk
  apply Emits.newTemp hk
  intro r g₁ _ hr _ hk₁
  unfold genCall
  rw [bind_assoc]
  apply Emits.newConst hk₁ (by decide)
  intro z g₂ hext2 hk₂
  let op : Op := .withArgs .call .i64 (r :: (List.range 6).map (fun i => [s1, s2].getD i z) ++
    [((link.addr h).setWidth 32).toNat, ((link.addr h >>> 32).setWidth 32).toNat])
  have hin : List.Forall₂ (fun t x => (t, x) ∈
    (z, 0#64) :: (r, σ.vals r) :: [(s2, s.reg σ a.rs2), (s1, s.reg σ a.rs1)])
      op.iargs [s.reg σ a.rs1, s.reg σ a.rs2, 0#64, 0#64, 0#64, 0#64] :=
    .cons (.tail _ (.tail _ (.tail _ (.head _)))) (.cons (.tail _ (.tail _ (.head _)))
      (.cons (.head _) (.cons (.head _) (.cons (.head _) (.cons (.head _) .nil)))))
  have haddress : callAddress (instr op) = link.addr h := by
    change BitVec.ofNat 64 ((link.addr h).setWidth 32).toNat |||
      BitVec.ofNat 64 ((link.addr h >>> 32).setWidth 32).toNat <<< 32 = _
    rw [BitVec.ofNat_toNat, BitVec.ofNat_toNat]
    exact join_halves _
  have hdoes : Does (exact trap (calls link other)) (instr op)
      [s.reg σ a.rs1, s.reg σ a.rs2, 0#64, 0#64, 0#64, 0#64] σ.world
      [h.code (s.reg σ a.rs1) (s.reg σ a.rs2)] σ.world := by
    refine Or.inr ⟨rfl, ?_⟩
    change (⟨[link.code (callAddress (instr op)) _ _], _, _⟩ : Effect W E) = _
    rw [haddress, link.linked]
    rfl
  have hlocal := hr.extend hext2
  refine Emits.op hk₂ hin hdoes (fun d hd => List.mem_singleton.mp hd ▸ hlocal) (List.nodup_singleton r)
    (List.forall_mem_nil _) fun g3 σ3 _ hk3 => ?_
  exact Emits.genSetGpr hk3 (.head _)

/-- Where the divisor is zero, another word takes the place of the result. -/
theorem Emits.unlessZero {ty : IrType} {y v r res : BitVec (width ty)} {m c0 tv tr : TempIdx} {base : Context}
    {old : TempIdx → BitVec 64} {world : W} {l : List (TempIdx × BitVec 64)} {g : Gen} {σ : State W}
    {f : TempIdx → Builder β} {post : β → Gen → State W → Prop} (hk : Knows base old world l g σ)
    (hm : (m, y.setWidth 64) ∈ l) (hc : (c0, (0#(width ty)).setWidth 64) ∈ l) (hv : (tv, v.setWidth 64) ∈ l)
    (hr : (tr, r.setWidth 64) ∈ l) (hres : (if y = 0#(width ty) then v else r) = res)
    (h : ∀ d l' g' σ', (d, res.setWidth 64) ∈ l' → Knows base old world l' g' σ' →
      Emits (exact trap other) (f d) g' σ' post) :
    Emits (exact trap other) (newTemp ty >>= fun d => genMovcond ty d m c0 tv tr .eq >>= fun _ => f d) g σ post := by
  apply Emits.genMovcond hk hm hc hv hr
  intro d g' σ' hk'
  rw [movCond_word] at hk'
  apply h d ((d, res.setWidth 64) :: l) g' σ' (.head _)
  simpa [condHolds, ← hres] using hk'

variable (wantRem : Bool)

/-- The part the unsigned divisions of both widths share. -/
theorem Emits.unsignedDivision {ty : IrType} {x y : BitVec (width ty)} {ones : BitVec 64} {n m : TempIdx}
    {base : Context} {old : TempIdx → BitVec 64} {world : W} {l : List (TempIdx × BitVec 64)} {g : Gen} {σ : State W}
    {f : TempIdx → Builder β} {post : β → Gen → State W → Prop}
    (hk : Knows base old world l g σ) (hn : (n, x.setWidth 64) ∈ l) (hm : (m, y.setWidth 64) ∈ l)
    (hones : ones = (BitVec.allOnes (width ty)).setWidth 64)
    (h : ∀ r l' g' σ', (r, ((if wantRem then isaRemu else isaDivu) x y).setWidth 64) ∈ l' →
      Knows base old world l' g' σ' → Emits (exact trap other) (f r) g' σ' post) :
    Emits (exact trap other) (do
      let c0 ← newConst ty 0#64
      let c1 ← newConst ty 1#64
      let safe ← newTemp ty
      genMovcond ty safe m c0 c1 m .eq
      let quot ← newTemp ty
      let rem ← newTemp ty
      genDivu2 ty quot rem n c0 safe
      if wantRem then
        let r ← newTemp ty
        genMovcond ty r m c0 n rem .eq
        f r
      else
        let most ← newConst ty ones
        let r ← newTemp ty
        genMovcond ty r m c0 most quot .eq
        f r) g σ post := by
  have hzero : (0#64 : BitVec 64) = (0#(width ty)).setWidth 64 := by cases ty <;> rfl
  have hone : (1#64 : BitVec 64) = (1#(width ty)).setWidth 64 := by cases ty <;> rfl
  have hpos : 0 < width ty := by cases ty <;> decide
  apply Emits.newConst hk (by cases ty <;> decide)
  intro c0 g₁ _ hk₁
  apply Emits.newConst hk₁ (by cases ty <;> decide)
  intro c1 g₂ _ hk₂
  rw [hzero, hone] at hk₂
  apply Emits.genMovcond hk₂ (.tail _ (.tail _ hm)) (.tail _ (.head _)) (.head _) (.tail _ (.tail _ hm))
  intro safe g3 σ3 hk3
  rw [movCond_word] at hk3
  have hsafe : (if condHolds .eq y 0#(width ty) then 1#(width ty) else y) = safeDivisor y := by
    unfold safeDivisor condHolds
    simp
  rw [hsafe] at hk3
  have hw : wideOp .divU2 ([x.setWidth 64, (0#(width ty)).setWidth 64, (safeDivisor y).setWidth 64].map (low ty)) =
      some [BitVec.ofNat (width ty) (x.toNat / (safeDivisor y).toNat),
        BitVec.ofNat (width ty) (x.toNat % (safeDivisor y).toNat)] := by
    simp only [List.map_cons, List.map_nil, low_setWidth]
    exact divU2_single x _ (safeDivisor_ne hpos y)
  apply Emits.freshWide hk3 (.inr (.inr rfl)) rfl
    (.cons (.tail _ (.tail _ (.tail _ hn))) (.cons (.tail _ (.tail _ (.head _))) (.cons (.head _) .nil))) hw
  intro quot rem g4 σ4 _ _ hk4
  cases wantRem with
  | true =>
    exact Emits.unlessZero trap _ hk4 (List.mem_append_right [_, _, _, _, _] hm)
      (.tail _ (.tail _ (.tail _ (.tail _ (.head _))))) (List.mem_append_right [_, _, _, _, _] hn) (.tail _ (.head _))
      (isaRemu_safe x y) h
  | false =>
    apply Emits.newConst hk4 (by rw [hones]; cases ty <;> decide)
    intro most g5 _ hk5
    rw [hones] at hk5
    exact Emits.unlessZero trap _ hk5 (List.mem_append_right [_, _, _, _, _, _] hm)
      (.tail _ (.tail _ (.tail _ (.tail _ (.tail _ (.head _)))))) (.head _) (.tail _ (.head _)) (isaDivu_safe x y) h

theorem emits_genDivuRemu : Emits (exact trap (calls link other)) (genDivuRemu s.tr a wantRem) s.ir σ
      (s.Sets σ a.rd ((if wantRem then isaRemu else isaDivu) (s.reg σ a.rs1) (s.reg σ a.rs2)) σ.world) := by
  have hword : ∀ v : BitVec 64, v.setWidth 64 = v := fun v => BitVec.setWidth_eq v
  apply Emits.operands
  intro s1 s2 g hk
  rw [← hword (s.reg σ a.rs1), ← hword (s.reg σ a.rs2)] at hk
  apply @Emits.unsignedDivision _ _ _ _ _ _ .i64 _ _ _ _ _ _ _ _ _ _ _ _ _ hk (.tail _ (.head _)) (.head _) rfl
  intro r l' g' σ' hr hk'
  rw [← hword ((if wantRem then isaRemu else isaDivu) _ _)]
  exact Emits.genSetGpr hk' hr

theorem emits_genDivuRemuW : Emits (exact trap (calls link other)) (genDivuRemuW s.tr a wantRem) s.ir σ
      (s.Sets σ a.rd (wordForm (if wantRem then isaRemu else isaDivu) (s.reg σ a.rs1) (s.reg σ a.rs2)) σ.world) := by
  apply Emits.operands
  intro s1 s2 g hk
  apply Emits.freshArith hk (.cons (.tail _ (.head _)) .nil) ⟨rfl, rfl⟩ (arith_extrl _)
  intro a32 g₁ σ1 _ _ _ hk₁
  apply Emits.freshArith hk₁ (.cons (.tail _ (.head _)) .nil) ⟨rfl, rfl⟩ (arith_extrl _)
  intro b32 g₂ σ2 _ _ _ hk₂
  apply @Emits.unsignedDivision _ _ _ _ _ _ .i32 _ _ _ _ _ _ _ _ _ _ _ _ _ hk₂ (.tail _ (.head _)) (.head _) rfl
  intro r l' g' σ' hr hk'
  have hlow : ∀ v : BitVec 32, (v.setWidth 64).setWidth 32 = v := fun v => by simp
  rw [wordForm, ← hlow ((if wantRem then isaRemu else isaDivu) _ _)]
  exact Emits.genSetGprSx32 hk' hr

/-- The code of every instruction of the M extension writes its result to the destination
register and changes nothing else that existed before. -/
theorem mulDiv_translate_sets_result (op : MulDiv) (hM : s.tr.contains misaM = true) :
    Emits (exact trap (calls link other)) (op.translate s.tr link.addr a) s.ir σ
      (s.Sets σ a.rd (op.result (s.reg σ a.rs1) (s.reg σ a.rs2)) σ.world) := by
  have hdiv : Helper.divw64.code = wordForm isaDiv :=
    funext₂ fun _ _ => congrArg (BitVec.signExtend 64) (signedDiv_eq _ _)
  have hrem : Helper.remw64.code = wordForm isaRem :=
    funext₂ fun _ _ => congrArg (BitVec.signExtend 64) (signedRem_eq _ _)
  cases op with
  | mul => exact Emits.requireExt hM (emits_genArith_mul link trap other s σ a)
  | mulh => exact emits_transMulh link trap other s σ a hM
  | mulhsu => exact emits_transMulhsu link trap other s σ a hM
  | mulhu => exact emits_transMulhu link trap other s σ a hM
  | div => exact Emits.requireExt hM (emits_genHelper link trap other s σ a .divs64 (funext₂ signedDiv_eq))
  | divu => exact Emits.requireExt hM (emits_genDivuRemu link trap other s σ a false)
  | rem => exact Emits.requireExt hM (emits_genHelper link trap other s σ a .rems64 (funext₂ signedRem_eq))
  | remu => exact Emits.requireExt hM (emits_genDivuRemu link trap other s σ a true)
  | mulw => exact Emits.requireExt hM (emits_genArithW_mul link trap other s σ a)
  | divw => exact Emits.requireExt hM (emits_genHelper link trap other s σ a .divw64 hdiv)
  | divuw => exact Emits.requireExt hM (emits_genDivuRemuW link trap other s σ a false)
  | remw => exact Emits.requireExt hM (emits_genHelper link trap other s σ a .remw64 hrem)
  | remuw => exact Emits.requireExt hM (emits_genDivuRemuW link trap other s σ a true)

/-- `mulhsu x3, x1, x2` as the first instruction of a block. -/
theorem mulhsu_at_block_start :
    Emits (exact () (calls Linkage.consecutive fun _ _ world => (⟨[], world, none⟩ : Effect Unit Unit)))
      (MulDiv.mulhsu.translate (initDisasContext misaM 0x80000000#64 0#64 0#64 0#64)
        Linkage.consecutive.addr ⟨2, 1, 3⟩)
      initGen ⟨fun t => BitVec.ofNat 64 t, (), []⟩
      ((Session.init misaM 0x80000000#64 0#64 0#64 0#64).Sets ⟨fun t => BitVec.ofNat 64 t, (), []⟩ 3
        (highHalf 2#128 3#128) ()) :=
  mulDiv_translate_sets_result Linkage.consecutive () _ (Session.init misaM 0x80000000#64 0#64 0#64 0#64)
    ⟨fun t => BitVec.ofNat 64 t, (), []⟩ ⟨2, 1, 3⟩ .mulhsu (by decide)

end

end MachinaRvm
