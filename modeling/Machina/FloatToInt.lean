import Machina.FloatUnpack
import Machina.RoundPack

/-!
# Conversion to integers

The magnitude is rounded to a 128-bit integer and saturated at the target's
bounds. Magnitudes below one half become zero in every mode, and a left shift
drops what leaves the word.
-/
namespace MachinaFloatToInt

open MachinaFloatRound MachinaSoftfloat MachinaSoftfloatSpec MachinaSoftfloatWords MachinaFloatUnpack MachinaBits
  MachinaRoundPack MachinaRoundStages

def shouldRoundUpInt (remainder half truncated : BitVec 128) (rm : RoundMode) (sign : Bool) : Bool :=
  match rm with
  | .nearEven => if half < remainder then true else if remainder = half then truncated &&& 1 != 0 else false
  | .nearMaxMag => half ≤ remainder
  | .toZero => false
  | .down => sign && remainder != 0
  | .up => !sign && remainder != 0
  | .odd => if remainder != 0 then truncated &&& 1 == 0 else false

/-- The rounded magnitude of a number of class normal, and whether it is inexact. -/
def floatToUint128 (parts : FloatParts) (rm : RoundMode) : BitVec 128 × Bool :=
  let shift := BitVec.ofNat 32 intBit - parts.exp
  if 128 ≤ shift.toInt then (0, parts.frac != 0)
  else if 0 < shift.toInt then
    let shift := shift.toNat
    let remainder := parts.frac &&& ((1#128 <<< shift) - 1)
    let truncated := parts.frac >>> shift
    let up := shouldRoundUpInt remainder (1#128 <<< (shift - 1)) truncated rm parts.sign
    (if up then truncated + 1 else truncated, remainder != 0)
  else if shift.toInt = 0 then (parts.frac, false)
  else
    let lshift := (-shift).toNat
    if 128 ≤ lshift then (BitVec.allOnes 128, false) else (parts.frac <<< lshift, false)

inductive IntType where
  | i32
  | u32
  | i64
  | u64
  deriving DecidableEq

namespace IntType

def width : IntType → ℕ
  | i32 | u32 => 32
  | i64 | u64 => 64

def min : IntType → ℤ
  | i32 => -2 ^ 31
  | i64 => -2 ^ 63
  | _ => 0

def max : IntType → ℤ
  | i32 => 2 ^ 31 - 1
  | u32 => 2 ^ 32 - 1
  | i64 => 2 ^ 63 - 1
  | u64 => 2 ^ 64 - 1

end IntType

def limit (t : IntType) (sign : Bool) : ℤ := if sign then -t.min else t.max

/-- The signed result and the flags for a rounded magnitude. -/
def saturate (t : IntType) (sign : Bool) (mag : ℕ) (inexact : Bool) : ℤ × ExcFlags :=
  let done := if inexact then ExcFlags.inexact else ExcFlags.none
  if mag > limit t sign then (if sign then t.min else t.max, ExcFlags.invalid)
  else (if sign then -mag else mag, done)

section

variable (f : FloatFormat) (t : IntType) (a : BitVec f.totalBits) (env : FloatEnv)

/-- The common body of the four conversions. -/
def toInt : BitVec t.width × FloatEnv :=
  let parts := unpack f a
  let (value, flags) : ℤ × ExcFlags :=
    if isNan parts then (t.max, ExcFlags.invalid)
    else if parts.cls = .inf then (if parts.sign then t.min else t.max, ExcFlags.invalid)
    else if parts.cls = .zero then (0, ExcFlags.none)
    else
      let (mag, inexact) := floatToUint128 parts env.roundMode
      saturate t parts.sign mag.toNat inexact
  (BitVec.ofInt t.width value, env.raise flags)

def toI32 : BitVec 32 × FloatEnv := toInt f .i32 a env
def toU32 : BitVec 32 × FloatEnv := toInt f .u32 a env
def toI64 : BitVec 64 × FloatEnv := toInt f .i64 a env
def toU64 : BitVec 64 × FloatEnv := toInt f .u64 a env

end

/-- What unpacked parts denote. -/
def value (p : FloatParts) : Datum :=
  match p.cls with
  | .zero | .normal => .finite p.sign (magnitude p)
  | .inf => .inf p.sign
  | .qNaN | .sNaN => .nan

/-- The integer a conversion should return and the flags it should raise. -/
def nearestInt (t : IntType) (rm : RoundMode) : Datum → ℤ × ExcFlags
  | .nan => (t.max, ExcFlags.invalid)
  | .inf sign => (if sign then t.min else t.max, ExcFlags.invalid)
  | .finite sign mag =>
    let r := roundInt (direction rm sign) mag
    let i : ℤ := if sign then -r else r
    if t.min ≤ i ∧ i ≤ t.max then (i, if r = mag then ExcFlags.none else ExcFlags.inexact)
    else (if sign then t.min else t.max, ExcFlags.invalid)

section

variable (f : FloatFormat) (t : IntType) (a : BitVec f.totalBits)

/-- The result and the flags raised are those of the exact value that the encoding denotes. -/
def ConvertsRight (env : FloatEnv) : Prop :=
  (toInt f t a env).1 = BitVec.ofInt t.width (nearestInt t env.roundMode (decode f a)).1 ∧
    (toInt f t a { env with flags := ExcFlags.none }).2.flags = (nearestInt t env.roundMode (decode f a)).2

/-- A nonzero magnitude below one half in a mode that rounds it to one. -/
def TinyAway (rm : RoundMode) (sign : Bool) (m : ℚ) : Prop :=
  0 < m ∧ m < 1 / 2 ∧ (direction rm sign = .up ∨ direction rm sign = .odd)

/-- A magnitude past the word whose low 128 bits are within the target's bound. -/
def Wraps (sign : Bool) (m : ℚ) : Prop :=
  2 ^ 128 ≤ m ∧ m < 2 ^ 254 ∧ ((⌊m⌋₊ % 2 ^ 128 : ℕ) : ℤ) ≤ limit t sign

/-- An x80 encoding with an exponent of the normal numbers and a clear integer bit. It denotes no number. -/
def Unnormal : Prop :=
  f.hasExplicitInt = true ∧ encExp f a ≠ 0 ∧ encExp f a ≠ 2 ^ f.expBits - 1 ∧ encFrac f a < 2 ^ f.fracBits

/-- The exponent and the number that the fields of an encoding of class normal amount to. -/
def faceExp : ℤ := encExp f a - f.bias
def faceValue : ℚ := encFrac f a * 2 ^ (faceExp f a - f.fracBits)

/-- An unnormal encoding is taken at its face value, which gives the result of a NaN if it is positive and found to be
too large. -/
def FaceTooLarge (rm : RoundMode) : Prop :=
  encSign f a = false ∧ (254 ≤ faceExp f a ∨
    126 ≤ faceExp f a ∧ limit t false < (⌊faceValue f a⌋₊ % 2 ^ 128 : ℕ) ∨
    -2 < faceExp f a ∧ faceExp f a < 126 ∧ limit t false < roundInt (direction rm false) (faceValue f a))

def Convertible (rm : RoundMode) : Prop :=
  match decode f a with
  | .finite sign m => ¬TinyAway rm sign m ∧ ¬Wraps t sign m
  | .inf _ => True
  | .nan => Unnormal f a → FaceTooLarge f t a rm

end

variable {p : FloatParts} {rm : RoundMode} {t : IntType}

theorem shouldRoundUpInt_eq (r q : BitVec 128) {h : BitVec 128} (hh : h.toNat ≠ 0) (rm : RoundMode) (sign : Bool) :
    shouldRoundUpInt r h q rm sign =
      (direction rm sign).increments ((q &&& 1).toNat == 1) (remPlace r.toNat h.toNat) := by
  have hodd : (q &&& 1 != 0) = ((q &&& 1).toNat == 1) := by
    have : (q &&& 1).toNat < 2 := by simp; omega
    rw [Bool.eq_iff_iff, toNat_ne_zero_iff, beq_iff_eq]
    omega
  rw [increments_remPlace r hh, ← hodd]
  cases rm <;> simp [shouldRoundUpInt, bne, beq_eq_decide]

theorem nearestInt_finite (t : IntType) (rm : RoundMode) (sign : Bool) (m : ℚ) : nearestInt t rm (.finite sign m) =
      saturate t sign (roundInt (direction rm sign) m) (roundInt (direction rm sign) m ≠ m) := by
  have hmin : t.min ≤ 0 := by cases t <;> decide
  have hmax : 0 ≤ t.max := by cases t <;> decide
  simp only [nearestInt, saturate, limit]
  cases sign <;> grind

theorem magnitude_of_exp (hcls : p.cls = .normal) {k : ℤ} (hk : p.exp.toInt = 126 - k) :
    magnitude p = p.frac.toNat / 2 ^ k := by
  rw [magnitude_of_normal hcls, hk, div_eq_mul_inv, ← zpow_neg]
  congr 2
  ring

/-- The rounded magnitude in each range of the exponent. -/
theorem floatToUint128_cases (rm : RoundMode) (hcls : p.cls = .normal) (hb : Bounded p) :
    p.exp.toInt ≤ -2 ∧ floatToUint128 p rm = (0, p.frac != 0) ∨ (-2 < p.exp.toInt ∧ p.exp.toInt < 126 ∧
      (floatToUint128 p rm).1.toNat = roundInt (direction rm p.sign) (magnitude p) ∧
      (floatToUint128 p rm).2 = decide ((roundInt (direction rm p.sign) (magnitude p) : ℚ) ≠ magnitude p)) ∨
    (126 ≤ p.exp.toInt ∧ p.exp.toInt < 254 ∧
      (floatToUint128 p rm).1.toNat = p.frac.toNat * 2 ^ (p.exp.toInt - 126).toNat % 2 ^ 128 ∧
      (floatToUint128 p rm).2 = false) ∨ 254 ≤ p.exp.toInt ∧ floatToUint128 p rm = (BitVec.allOnes 128, false) := by
  obtain ⟨hlo, hhi, hfrac⟩ := hb
  have hshift : (BitVec.ofNat 32 intBit - p.exp).toInt = 126 - p.exp.toInt := by
    rw [BitVec.toInt_sub, show (BitVec.ofNat 32 intBit).toInt = 126 by decide]
    simp only [Int.bmod_def]
    omega
  unfold floatToUint128
  generalize BitVec.ofNat 32 intBit - p.exp = s at *
  have hnat := BitVec.toInt_eq_toNat_cond s
  have hneg : (-s).toNat = (2 ^ 32 - s.toNat) % 2 ^ 32 := BitVec.toNat_neg s
  dsimp only
  by_cases h1 : p.exp.toInt ≤ -2
  · exact Or.inl ⟨h1, if_pos (by omega)⟩
  rw [if_neg (by omega)]
  by_cases h2 : p.exp.toInt < 126
  · rw [if_pos (by omega)]
    have hk0 : 0 < s.toNat := by omega
    have hk : s.toNat < 128 := by omega
    have hrem : (p.frac &&& ((1#128 <<< s.toNat) - 1)).toNat = _ := toNat_and_low p.frac hk
    have hhalf : (1#128 <<< (s.toNat - 1)).toNat = 2 ^ (s.toNat - 1) := toNat_one_shiftLeft (by omega)
    have hquot : (p.frac >>> s.toNat).toNat = p.frac.toNat / 2 ^ s.toNat := by
      rw [BitVec.toNat_ushiftRight, Nat.shiftRight_eq_div_pow]
    have hodd : (p.frac >>> s.toNat &&& 1).toNat = p.frac.toNat / 2 ^ s.toNat % 2 := by
      simp [BitVec.toNat_and, hquot]
    rw [magnitude_of_exp hcls (k := s.toNat) (by omega), zpow_natCast]
    refine Or.inr (Or.inl ⟨by omega, h2, ?_, ?_⟩)
    · have hlt : p.frac.toNat / 2 ^ s.toNat < 2 ^ 127 := (Nat.div_le_self _ _).trans_lt hfrac
      rw [roundInt_div _ _ hk0, shouldRoundUpInt_eq _ _ (by rw [hhalf]; positivity), hrem, hhalf, hodd, roundShift]
      cases Rounding.increments _ _ _
      · exact hquot
      · rw [if_pos rfl, BitVec.toNat_add, hquot]
        exact Nat.mod_eq_of_lt (by simp; omega)
    · rw [Bool.eq_iff_iff, toNat_ne_zero_iff, hrem, decide_eq_true_iff, ne_eq, ne_eq, roundInt_div_exact_iff]
  rw [if_neg (by omega)]
  by_cases h3 : p.exp.toInt < 254
  · refine Or.inr (Or.inr (Or.inl ⟨by omega, h3, ?_⟩))
    by_cases h4 : p.exp.toInt = 126
    · rw [if_pos (by omega), h4]
      exact ⟨by simp; omega, rfl⟩
    rw [if_neg (by omega), if_neg (by omega)]
    refine ⟨?_, rfl⟩
    rw [BitVec.toNat_shiftLeft, Nat.shiftLeft_eq]
    congr 3
    omega
  · rw [if_neg (by omega), if_pos (by omega)]
    exact Or.inr (Or.inr (Or.inr ⟨by omega, rfl⟩))

theorem limit_lt (t : IntType) (sign : Bool) : limit t sign < 2 ^ 128 - 1 := by
  cases t <;> cases sign <;> decide

theorem saturate_high (mag : ℕ) {sign : Bool} (inexact : Bool) (h : limit t sign < mag) :
    saturate t sign mag inexact = (if sign then t.min else t.max, ExcFlags.invalid) := if_pos h

theorem saturate_low {mag : ℕ} {sign : Bool} (h : ¬limit t sign < mag) :
    (saturate t sign mag false).2 = ExcFlags.none := by
  simp [saturate, h]

variable (t : IntType)

theorem saturate_zero (sign : Bool) : saturate t sign 0 false = (0, ExcFlags.none) := by
  cases t <;> cases sign <;> rfl

/-- Rounding to one instead of zero shows in the result or in the flags. -/
theorem saturate_zero_one (sign : Bool) :
    ¬(BitVec.ofInt t.width (saturate t sign 0 true).1 = BitVec.ofInt t.width (saturate t sign 1 true).1 ∧
      (saturate t sign 0 true).2 = (saturate t sign 1 true).2) := by
  cases t <;> cases sign <;> decide

theorem magnitude_lt (hcls : p.cls = .normal) (hb : Bounded p) : magnitude p < 2 ^ (p.exp.toInt + 1) := by
  have hfrac : (p.frac.toNat : ℚ) < 2 ^ (127 : ℤ) := by exact_mod_cast hb.2.2
  rw [magnitude_of_normal hcls, show p.exp.toInt + 1 = 127 + (p.exp.toInt - 126) by ring,
    zpow_add₀ two_ne_zero]
  exact mul_lt_mul_of_pos_right hfrac (by positivity)

theorem magnitude_of_large (hcls : p.cls = .normal) (h : 126 ≤ p.exp.toInt) :
    magnitude p = (p.frac.toNat * 2 ^ (p.exp.toInt - 126).toNat : ℕ) := by
  obtain ⟨k, hk⟩ := Int.eq_ofNat_of_zero_le (sub_nonneg.mpr h)
  rw [magnitude_of_normal hcls, hk]
  simp

/-- The two results for a number of class normal: from the computed magnitude and from the exact one. -/
def Agrees (p : FloatParts) (rm : RoundMode) : Prop :=
  let code := saturate t p.sign (floatToUint128 p rm).1.toNat (floatToUint128 p rm).2
  let r := roundInt (direction rm p.sign) (magnitude p)
  let exact := saturate t p.sign r (r ≠ magnitude p)
  BitVec.ofInt t.width code.1 = BitVec.ofInt t.width exact.1 ∧ code.2 = exact.2

theorem le_magnitude (hcls : p.cls = .normal) (hnorm : 2 ^ 126 ≤ p.frac.toNat) : 2 ^ p.exp.toInt ≤ magnitude p := by
  have hfrac : (2 : ℚ) ^ (126 : ℤ) ≤ p.frac.toNat := by exact_mod_cast hnorm
  rw [magnitude_of_normal hcls, show p.exp.toInt = 126 + (p.exp.toInt - 126) by ring,
    zpow_add₀ two_ne_zero, show 126 + (p.exp.toInt - 126) - 126 = p.exp.toInt - 126 by ring]
  exact mul_le_mul_of_nonneg_right hfrac (by positivity)

/-- With a normalised significand the two results differ in two cases. -/
theorem agrees_iff (rm : RoundMode) (hcls : p.cls = .normal) (hb : Bounded p) (hnorm : 2 ^ 126 ≤ p.frac.toNat) :
    Agrees t p rm ↔ ¬TinyAway rm p.sign (magnitude p) ∧ ¬Wraps t p.sign (magnitude p) := by
  have hlimit := limit_lt t p.sign
  have hhigh := magnitude_lt hcls hb
  have hlow := le_magnitude hcls hnorm
  have hflags : ExcFlags.none ≠ ExcFlags.invalid := by decide
  have hmono {i j : ℤ} (h : i ≤ j) : (2 : ℚ) ^ i ≤ 2 ^ j := zpow_le_zpow_right₀ one_le_two h
  have hhalf : (2 : ℚ) ^ (-1 : ℤ) = 1 / 2 := by norm_num
  simp only [Agrees]
  rcases floatToUint128_cases rm hcls hb with ⟨he, hres⟩ | ⟨he0, he1, hval, hin⟩ | ⟨he0, he1, hval, hin⟩ | ⟨he, hres⟩
  · have hsmall : magnitude p < 1 / 2 := hhigh.trans_le ((hmono (by omega)).trans_eq hhalf)
    have hpos : 0 < magnitude p := (zpow_pos two_pos _).trans_le hlow
    have hwraps : ¬Wraps t p.sign (magnitude p) := fun h => absurd (h.1.trans_lt hsmall) (by norm_num)
    have hbit : (p.frac != 0) = true := (toNat_ne_zero_iff _).mpr (by omega)
    rw [hres, roundInt_tiny _ hpos hsmall, hbit]
    by_cases haway : direction rm p.sign = .up ∨ direction rm p.sign = .odd
    · have hone : ((1 : ℕ) : ℚ) ≠ magnitude p := by push_cast; linarith
      rw [if_pos haway, decide_eq_true hone]
      exact iff_of_false (saturate_zero_one t p.sign) fun h => h.1 ⟨hpos, hsmall, haway⟩
    have hzero : ((0 : ℕ) : ℚ) ≠ magnitude p := by push_cast; exact hpos.ne
    rw [if_neg haway, decide_eq_true hzero]
    exact iff_of_true ⟨rfl, rfl⟩ ⟨fun h => haway h.2.2, hwraps⟩
  · have hge : 1 / 2 ≤ magnitude p := (hhalf.symm.trans_le (hmono (by omega))).trans hlow
    have hsmall : magnitude p < 2 ^ 128 :=
      hhigh.trans_le ((hmono (show _ ≤ (128 : ℤ) by omega)).trans_eq (by norm_cast))
    rw [hval, hin]
    exact iff_of_true ⟨rfl, rfl⟩ ⟨fun h => h.2.1.not_ge hge, fun h => h.1.not_gt hsmall⟩
  · have hge : 1 / 2 ≤ magnitude p := (hhalf.symm.trans_le (hmono (by omega))).trans hlow
    have htiny : ¬TinyAway rm p.sign (magnitude p) := fun h => h.2.1.not_ge hge
    have hlt : magnitude p < 2 ^ 254 :=
      hhigh.trans_le ((hmono (show _ ≤ (254 : ℤ) by omega)).trans_eq (by norm_cast))
    rw [hval, hin, and_iff_right htiny, Wraps, and_iff_right hlt, magnitude_of_large hcls he0, roundInt_natCast,
      decide_eq_false (by simp), Nat.floor_natCast]
    generalize p.frac.toNat * 2 ^ (p.exp.toInt - 126).toNat = n
    by_cases hn : 2 ^ 128 ≤ n
    · rw [saturate_high n _ (by omega)]
      by_cases hbound : limit t p.sign < (n % 2 ^ 128 : ℕ)
      · rw [saturate_high _ _ hbound]
        exact iff_of_true ⟨rfl, rfl⟩ fun h => h.2.not_gt hbound
      · rw [saturate_low hbound]
        exact iff_of_false (fun h => hflags h.2) fun h => h ⟨by exact_mod_cast hn, not_lt.mp hbound⟩
    · rw [Nat.mod_eq_of_lt (not_le.mp hn)]
      exact iff_of_true ⟨rfl, rfl⟩ fun h => hn (by exact_mod_cast h.1)
  · have hge : (2 : ℚ) ^ 254 ≤ magnitude p :=
      (show (2 : ℚ) ^ 254 = 2 ^ (254 : ℤ) by norm_cast).trans_le ((hmono he).trans hlow)
    have hbig : 2 ^ 254 ≤ p.frac.toNat * 2 ^ (p.exp.toInt - 126).toNat := by
      rw [magnitude_of_large hcls (by omega)] at hge
      exact_mod_cast hge
    have hlt : limit t p.sign < ((BitVec.allOnes 128).toNat : ℕ) := hlimit
    rw [hres, saturate_high _ _ hlt, magnitude_of_large hcls (by omega), roundInt_natCast,
      saturate_high _ _ (by omega), ← magnitude_of_large hcls (by omega)]
    refine iff_of_true ⟨rfl, rfl⟩ ⟨fun h => h.2.1.not_ge (le_trans (by norm_num) hge), fun h => h.2.1.not_ge hge⟩

/-- Only a positive magnitude that is too large gives the result of a NaN. -/
theorem saturate_eq_nan_iff (sign : Bool) (mag : ℕ) (inexact : Bool) :
    (BitVec.ofInt t.width (saturate t sign mag inexact).1 = BitVec.ofInt t.width t.max ∧
      (saturate t sign mag inexact).2 = ExcFlags.invalid) ↔ sign = false ∧ limit t sign < mag := by
  by_cases h : limit t sign < mag
  · rw [saturate_high _ _ h, and_iff_left h]
    cases t <;> cases sign <;> decide
  · have hflags : (saturate t sign mag inexact).2 ≠ ExcFlags.invalid := by
      cases inexact <;> simp [saturate, h] <;> decide
    exact iff_of_false (fun h' => hflags h'.2) fun h' => h h'.2

variable {f : FloatFormat} {a : BitVec f.totalBits}

/-! ### Unpacked parts and the meaning of the encoding -/

/-- A fraction raised to the integer bit keeps its number. -/
theorem raised_zpow (f : FloatFormat) (x : ℚ) (k : ℤ) :
    x * 2 ^ (intBit - f.fracBits) * 2 ^ (k - 126) = x * 2 ^ (k - f.fracBits) := by
  have hle := fracBits_le f
  rw [mul_assoc, ← zpow_natCast, ← zpow_add₀ two_ne_zero]
  congr 2
  simp only [intBit]
  omega

theorem value_unpackSpecial (sign : Bool) {x : BitVec 128} (hx : x.toNat < 2 ^ f.fracTotal) :
    value (unpackSpecial f sign x) =
      if x.toNat = (if f.hasExplicitInt then 2 ^ f.fracBits else 0) then .inf sign else .nan := by
  have hle := fracBits_le f
  have hzero (y : BitVec 128) : y = 0 ↔ y.toNat = 0 := BitVec.toNat_inj.symm
  have hbit : (x >>> f.fracBits &&& 1).toNat = x.toNat / 2 ^ f.fracBits % 2 := by
    simp [BitVec.toNat_and, BitVec.toNat_ushiftRight, Nat.shiftRight_eq_div_pow]
  have hlow : (x &&& ((1#128 <<< f.fracBits) - 1)).toNat = x.toNat % 2 ^ f.fracBits := toNat_and_low x (by omega)
  unfold unpackSpecial
  rcases fracTotal_cases f with ⟨hint, htotal⟩ | ⟨hint, htotal⟩
  · rw [htotal, pow_succ] at hx
    have hdiv := Nat.div_add_mod x.toNat (2 ^ f.fracBits)
    have hquot : x.toNat / 2 ^ f.fracBits < 2 := Nat.div_lt_of_lt_mul hx
    simp only [hint, if_true, Bool.true_and, beq_iff_eq, hzero, hbit, hlow]
    generalize x.toNat / 2 ^ f.fracBits = q at *
    interval_cases q
    · have hne : x.toNat ≠ 2 ^ f.fracBits := by
        have := Nat.mod_lt x.toNat (Nat.two_pow_pos f.fracBits)
        omega
      simp only [hne, if_false, Nat.zero_mod, if_true]
      split_ifs <;> simp_all [value]
    · simp only [show (x.toNat = 2 ^ f.fracBits) = (x.toNat % 2 ^ f.fracBits = 0) by rw [eq_iff_iff]; omega]
      split_ifs <;> simp_all [value]
  · simp only [hint, Bool.false_eq_true, if_false, Bool.false_and, hzero]
    split_ifs <;> simp_all [value]

theorem unpackSpecial_cls (sign : Bool) (x : BitVec 128) : (unpackSpecial f sign x).cls ≠ .normal := by
  unfold unpackSpecial
  grind

/-- Of an encoding that is not unnormal the parts have its meaning, and a normalised significand. -/
theorem value_unpack (h : ¬Unnormal f a) :
    value (unpack f a) = decode f a ∧ ((unpack f a).cls = .normal → 2 ^ 126 ≤ (unpack f a).frac.toNat) := by
  obtain ⟨e, x, he, hx, helt, hxlt, heq⟩ := unpack_eq f a
  change _ = decodeFields f (encSign f a) (encExp f a) (encFrac f a) ∧ _
  rw [heq, decodeFields]
  by_cases hmax : encExp f a = 2 ^ f.expBits - 1
  · rw [if_pos hmax, if_pos hmax, ← hx]
    exact ⟨value_unpackSpecial _ hxlt, fun hcls => absurd hcls (unpackSpecial_cls _ _)⟩
  rw [if_neg hmax, if_neg hmax]
  by_cases hzero : encExp f a = 0
  · rw [if_pos hzero, if_pos hzero]
    by_cases hfrac : encFrac f a = 0
    · rw [if_pos hfrac, hfrac]
      simp [value, magnitude]
    · rw [if_neg hfrac]
      obtain ⟨s, -, hexp, hval, -, hnorm⟩ := unpackSubnormal_spec (encSign f a) hxlt
      refine ⟨?_, fun _ => hnorm (hx ▸ hfrac)⟩
      change Datum.finite _ (magnitude _) = _
      rw [magnitude, if_neg (by simp [unpackSubnormal]), hexp, hval, ← hx, emin, ← raised_zpow]
      push_cast
      rw [mul_assoc _ ((2 : ℚ) ^ s), ← zpow_natCast 2 s, ← zpow_add₀ two_ne_zero]
      congr 3
      ring
  rw [if_neg hzero, if_neg hzero]
  have hexp := toInt_sub_bias (f := f) helt
  have hsig := toNat_significand hxlt
  have hleading : 2 ^ f.fracBits ≤ if f.hasExplicitInt then x.toNat else 2 ^ f.fracBits + x.toNat := by
    split
    · rename_i hint
      by_contra hlt
      exact h ⟨hint, hzero, hmax, hx ▸ not_le.mp hlt⟩
    · exact Nat.le_add_right _ _
  constructor
  · rw [← hx, ← he]
    split_ifs at hleading hsig ⊢ with hint hlt
    · exact absurd hleading (not_le.mpr hlt)
    all_goals
      simp only [value, magnitude, reduceCtorEq, if_false, hexp, hsig]
      push_cast
      rw [raised_zpow]
  · intro _
    calc 2 ^ 126 = 2 ^ f.fracBits * 2 ^ (intBit - f.fracBits) := two_pow_intBit f
      _ ≤ _ := Nat.mul_le_mul_right _ hleading
      _ = _ := hsig.symm

/-- An unnormal encoding is unpacked as a number all the same. -/
theorem unpack_unnormal (h : Unnormal f a) : decode f a = .nan ∧ (unpack f a).cls = .normal ∧
    (unpack f a).sign = encSign f a ∧ (unpack f a).exp.toInt = faceExp f a ∧
    magnitude (unpack f a) = faceValue f a := by
  obtain ⟨hint, hzero, hmax, hlow⟩ := h
  obtain ⟨e, x, he, hx, helt, hxlt, heq⟩ := unpack_eq f a
  have hexp := toInt_sub_bias (f := f) helt
  refine ⟨?_, ?_⟩
  · change decodeFields f (encSign f a) (encExp f a) (encFrac f a) = _
    simp [decodeFields, hmax, hzero, hint, hlow]
  rw [heq, if_neg hmax, if_neg hzero]
  simp only [hint, if_true, magnitude, reduceCtorEq, if_false, hexp, he, faceValue, faceExp, true_and,
    toNat_raised hxlt, hx]
  push_cast
  exact raised_zpow f _ _

theorem none_or (v : ExcFlags) : ExcFlags.none ||| v = v := BitVec.zero_or

/-- The face value is judged by the exponent it comes with. -/
theorem faceTooLarge_iff (h : Unnormal f a) (rm : RoundMode) : FaceTooLarge f t a rm ↔
    (unpack f a).sign = false ∧ limit t (unpack f a).sign < (floatToUint128 (unpack f a) rm).1.toNat := by
  obtain ⟨-, hcls, hsign, hexp, hmag⟩ := unpack_unnormal h
  rw [FaceTooLarge, hsign, ← hexp, ← hmag]
  refine and_congr_right fun hpos => ?_
  rw [hpos]
  have hlimit := limit_lt t false
  have hmin : 0 ≤ limit t false := by cases t <;> decide
  have hones : (BitVec.allOnes 128).toNat = 2 ^ 128 - 1 := BitVec.toNat_allOnes
  rcases floatToUint128_cases rm hcls (unpack_bounded hcls) with
    ⟨he, hres⟩ | ⟨he0, he1, hval, -⟩ | ⟨he0, he1, hval, -⟩ | ⟨he, hres⟩
  · rw [hres]
    exact iff_of_false (by omega) (by simpa using hmin)
  · rw [hval, hsign, hpos]
    omega
  · rw [hval, magnitude_of_large hcls he0, Nat.floor_natCast]
    omega
  · rw [hres, hones]
    exact iff_of_true (by omega) (by omega)

theorem convertsRight_normal_iff (env : FloatEnv) (hun : ¬Unnormal f a) (hcls : (unpack f a).cls = .normal) :
    ConvertsRight f t a env ↔ ¬TinyAway env.roundMode (unpack f a).sign (magnitude (unpack f a)) ∧
      ¬Wraps t (unpack f a).sign (magnitude (unpack f a)) := by
  obtain ⟨hval, hnorm⟩ := value_unpack hun
  rw [← agrees_iff t env.roundMode hcls (unpack_bounded hcls) (hnorm hcls)]
  simp [ConvertsRight, ← hval, value, toInt, Agrees, hcls, isNan, nearestInt_finite, FloatEnv.raise, none_or]

end MachinaFloatToInt
