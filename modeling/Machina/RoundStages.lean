import Machina.SoftfloatWords

/-!
# The stages of packing

Normalisation brings the leading bit to its position up to a sticky bit, the
subnormal path aligns the fraction to the smallest normal binade, and the
rounding stage returns the rounded integer at the exponent it was given.
-/
namespace MachinaRoundStages

open MachinaBits
open MachinaFloatRound
open MachinaSoftfloat
open MachinaSoftfloatSpec
open MachinaSoftfloatWords

/-- The number's leading bits with the integer bit in place, the rest in the sticky bit. -/
structure Leading (x : ℚ) (n : ℕ) : Prop where
  le : 2 ^ 126 ≤ n
  lt : n < 2 ^ 127
  sticky : Sticky (x / 2 ^ (Int.log 2 x - 126)) n

section Normalize

variable {p : FloatParts}

theorem clz_bounds (hfrac : p.frac ≠ 0) : p.frac.clz.toNat ≤ 127 ∧ 2 ^ (127 - p.frac.clz.toNat) ≤ p.frac.toNat ∧
      p.frac.toNat < 2 ^ (128 - p.frac.clz.toNat) := by
  have hlt := BitVec.clz_lt_iff_ne_zero.mpr hfrac
  rw [BitVec.lt_def] at hlt
  have hle := BitVec.two_pow_sub_clz_le_toNat_of_ne_zero (by decide) hfrac
  refine ⟨by simp at hlt; omega, ?_, BitVec.toNat_lt_two_pow_sub_clz⟩
  rwa [show 127 - p.frac.clz.toNat = 128 - 1 - p.frac.clz.toNat by omega]

theorem magnitude_of_normal (hcls : p.cls = .normal) : magnitude p = p.frac.toNat * 2 ^ (p.exp.toInt - 126) := by
  rw [magnitude, hcls, if_neg (by decide)]

theorem log_magnitude (hcls : p.cls = .normal) (hfrac : p.frac ≠ 0) :
    Int.log 2 (magnitude p) = p.exp.toInt + 1 - p.frac.clz.toNat := by
  obtain ⟨hlz, hlo, hhi⟩ := clz_bounds hfrac
  have hpow : (0 : ℚ) < 2 ^ (p.exp.toInt - 126) := by positivity
  have hscale (k : ℕ) (hk : k ≤ 128) (hk' : p.frac.clz.toNat ≤ k) :
      (2 : ℚ) ^ (p.exp.toInt + 1 - p.frac.clz.toNat + (k - 127)) =
        ((2 ^ (k - p.frac.clz.toNat) : ℕ) : ℚ) * 2 ^ (p.exp.toInt - 126) := by
    rw [Nat.cast_pow, Nat.cast_ofNat, ← zpow_natCast, ← zpow_add₀ two_ne_zero]
    congr 1
    push_cast [hk']
    ring
  rw [magnitude_of_normal hcls]
  apply log_eq_of_binade
  · have h := hscale 127 (by omega) hlz
    norm_num at h
    rw [h]
    exact mul_le_mul_of_nonneg_right (by exact_mod_cast hlo) hpow.le
  · have h := hscale 128 le_rfl (by omega)
    norm_num at h
    rw [h]
    exact mul_lt_mul_of_pos_right (by exact_mod_cast hhi) hpow

/-- The fraction before normalisation, scaled to the position of the integer bit. -/
theorem magnitude_div_log (hcls : p.cls = .normal) (hfrac : p.frac ≠ 0) :
    magnitude p / 2 ^ (Int.log 2 (magnitude p) - 126) = p.frac.toNat * 2 ^ ((p.frac.clz.toNat : ℤ) - 1) := by
  rw [log_magnitude hcls hfrac, magnitude_of_normal hcls, mul_div_assoc, ← zpow_sub₀ two_ne_zero]
  congr 2
  ring

theorem normalizeParts_left (h : 1 < p.frac.clz.toNat) : normalizeParts p = { p with
    frac := p.frac <<< (p.frac.clz.toNat - 1), exp := p.exp - BitVec.ofNat 32 (p.frac.clz.toNat - 1) } :=
  if_pos h

theorem normalizeParts_right (h : p.frac.clz.toNat = 0) :
    normalizeParts p = { p with frac := shiftRightSticky p.frac 1, exp := p.exp + 1#32 } := by
  rw [normalizeParts, h]
  rfl

theorem normalizeParts_id (h : p.frac.clz.toNat = 1) : normalizeParts p = p := by
  rw [normalizeParts, h]
  rfl

theorem normalizeParts_leading (hcls : p.cls = .normal) (hfrac : p.frac ≠ 0) :
    Leading (magnitude p) (normalizeParts p).frac.toNat := by
  obtain ⟨hlz, hlo, hhi⟩ := clz_bounds hfrac
  have hval := magnitude_div_log hcls hfrac
  rcases Nat.lt_trichotomy p.frac.clz.toNat 1 with hlt | hone | hgt
  · have hzero : p.frac.clz.toNat = 0 := by omega
    rw [normalizeParts_right hzero, toNat_shiftRightSticky p.frac (by decide)]
    rw [hzero] at hlo hhi hval
    refine ⟨le_trans ?_ (le_jam _ _), jam_lt hhi (by decide), ?_⟩
    · omega
    · have hs : Sticky (p.frac.toNat : ℚ) p.frac.toNat := .inl rfl
      rw [hval, show (2 : ℚ) ^ (((0 : ℕ) : ℤ) - 1) = (2 ^ 1)⁻¹ by norm_num, ← div_eq_mul_inv]
      exact hs.jam 1
  · rw [normalizeParts_id hone]
    rw [hone] at hlo hhi hval
    refine ⟨hlo, hhi, .inl ?_⟩
    rw [hval]
    norm_num
  · have hpow : 2 ^ (128 - p.frac.clz.toNat) * 2 ^ (p.frac.clz.toNat - 1) = 2 ^ 127 := by
      rw [← pow_add]
      congr 1
      omega
    have hlt := Nat.mul_lt_mul_of_pos_right hhi (Nat.two_pow_pos (p.frac.clz.toNat - 1))
    rw [normalizeParts_left hgt, BitVec.toNat_shiftLeft, Nat.shiftLeft_eq, Nat.mod_eq_of_lt (by omega)]
    refine ⟨?_, by omega, .inl ?_⟩
    · calc 2 ^ 126 = 2 ^ (127 - p.frac.clz.toNat) * 2 ^ (p.frac.clz.toNat - 1) := by
            rw [← pow_add]
            congr 1
            omega
        _ ≤ p.frac.toNat * 2 ^ (p.frac.clz.toNat - 1) := Nat.mul_le_mul_right _ hlo
    · rw [hval, show (p.frac.clz.toNat : ℤ) - 1 = ((p.frac.clz.toNat - 1 : ℕ) : ℤ) by omega, zpow_natCast]
      push_cast
      rfl

theorem normalizeParts_exp (f : FloatFormat) (hcls : p.cls = .normal) (hfrac : p.frac ≠ 0) :
    ((normalizeParts p).exp + BitVec.ofNat 32 f.bias).toInt = (biasedLog f (magnitude p)).bmod (2 ^ 32) := by
  rw [biasedLog, log_magnitude hcls hfrac]
  rcases Nat.lt_trichotomy p.frac.clz.toNat 1 with hlt | hone | hgt
  · have hzero : p.frac.clz.toNat = 0 := by omega
    rw [normalizeParts_right hzero, hzero]
    simp [BitVec.toInt_ofNat']
  · rw [normalizeParts_id hone, hone]
    simp [BitVec.toInt_ofNat']
  · rw [normalizeParts_left hgt]
    simp only [BitVec.toInt_add, BitVec.toInt_sub, BitVec.toInt_ofNat', Int.bmod_add_bmod, Int.add_bmod_bmod,
      Int.sub_bmod_bmod]
    congr 1
    omega

@[simp] theorem normalizeParts_sign : (normalizeParts p).sign = p.sign := by
  simp only [normalizeParts]
  split_ifs <;> rfl

@[simp] theorem normalizeParts_cls : (normalizeParts p).cls = p.cls := by
  simp only [normalizeParts]
  split_ifs <;> rfl

end Normalize

/-! ## The rounding stage -/

section

variable (f : FloatFormat) (sign : Bool) (x : BitVec 128) (b : BitVec 32) (env : FloatEnv)

/-- The integer kept by rounding at the format's position. -/
def kept : ℕ := roundShift (direction env.roundMode sign) x.toNat (roundPos f)

theorem kept_raise (fl : ExcFlags) : kept f sign x (env.raise fl) = kept f sign x env := rfl

def carriedExp : BitVec 32 := if kept f sign x env = 2 ^ (f.fracBits + 1) then b + 1 else b

def carriedFrac : ℕ := if kept f sign x env = 2 ^ (f.fracBits + 1) then 2 ^ f.fracBits else kept f sign x env

variable {x} (hx : x.toNat < 2 ^ 127)
include hx

theorem kept_le : kept f sign x env ≤ 2 ^ (f.fracBits + 1) :=
  roundShift_le _ (by have := roundPos_add_fracBits f; rwa [show roundPos f + (f.fracBits + 1) = 127 by omega])

theorem carriedFrac_lt : carriedFrac f sign x env < 2 ^ (f.fracBits + 1) := by
  have hle := kept_le f sign env hx
  have hpow : 2 ^ f.fracBits < 2 ^ (f.fracBits + 1) := Nat.pow_lt_pow_right (by decide) (by omega)
  rw [carriedFrac]
  split_ifs <;> omega

theorem carry_iff : (roundFrac f x env.roundMode sign >>> (intBit + 1) != 0) = true ↔
    kept f sign x env = 2 ^ (f.fracBits + 1) := by
  have hle := kept_le f sign env hx
  have hpow : 2 ^ (intBit + 1) = 2 ^ (f.fracBits + 1) * 2 ^ roundPos f := by
    rw [← pow_add]
    congr 1
    have := roundPos_add_fracBits f
    rw [intBit]
    omega
  rw [toNat_ne_zero_iff, BitVec.toNat_ushiftRight, Nat.shiftRight_eq_div_pow, toNat_roundFrac f x hx, hpow,
    Nat.mul_div_mul_right _ _ (Nat.two_pow_pos _), ← kept, Nat.div_ne_zero_iff]
  exact ⟨fun h => hle.antisymm h.2, fun h => ⟨(Nat.two_pow_pos _).ne', h.ge⟩⟩

theorem toNat_carried : (if kept f sign x env = 2 ^ (f.fracBits + 1) then roundFrac f x env.roundMode sign >>> 1
      else roundFrac f x env.roundMode sign).toNat = carriedFrac f sign x env * 2 ^ roundPos f := by
  rw [carriedFrac]
  split_ifs with h
  · rw [BitVec.toNat_ushiftRight, Nat.shiftRight_eq_div_pow, toNat_roundFrac f x hx, ← kept, h, pow_succ,
      mul_right_comm, pow_one, Nat.mul_div_cancel _ two_pos]
  · rw [toNat_roundFrac f x hx, ← kept]

omit hx in
theorem toInt_maxExp : ((1#32 <<< f.expBits) - 1#32).toInt = 2 ^ f.expBits - 1 := by
  have hle := f.expBits_le
  have hpow : 2 ^ f.expBits ≤ 2 ^ 15 := Nat.pow_le_pow_right (by decide) hle
  have hnat := toNat_shiftLeft_sub_one (w := 32) (k := f.expBits) (by omega)
  have hpos := Nat.two_pow_pos f.expBits
  rw [BitVec.toInt_eq_toNat_of_lt (by rw [hnat]; omega), hnat]
  push_cast [Nat.one_le_two_pow]
  rfl

omit hx in
theorem toNat_fracField {fr : BitVec 128} {r : ℕ} (hfr : fr.toNat = r * 2 ^ roundPos f)
    (hr : r < 2 ^ (f.fracBits + 1)) :
    (fracField f fr b).toNat = if b ≠ 0 ∧ f.hasExplicitInt then r else r % 2 ^ f.fracBits := by
  have hle := fracBits_le f
  have hshift : (fr >>> roundPos f).toNat = r := by
    rw [BitVec.toNat_ushiftRight, Nat.shiftRight_eq_div_pow, hfr, Nat.mul_div_cancel _ (Nat.two_pow_pos _)]
  have hlow : ((fr >>> roundPos f) &&& ((1#128 <<< f.fracBits) - 1#128)).toNat = r % 2 ^ f.fracBits := by
    rw [toNat_and_low _ (by omega), hshift]
  have hall : ((fr >>> roundPos f) &&& ((1#128 <<< (f.fracBits + 1)) - 1#128)).toNat = r := by
    rw [toNat_and_low _ (by omega), hshift, Nat.mod_eq_of_lt hr]
  rw [fracField]
  by_cases hb : b = 0
  · rw [if_pos hb, if_neg (by simp [hb])]
    exact hlow
  by_cases he : f.hasExplicitInt = true
  · rw [if_neg hb, if_pos he, if_pos ⟨hb, he⟩]
    exact hall
  · rw [if_neg hb, if_neg he, if_neg (by simp [he])]
    exact hlow

theorem roundAssemble_overflow (h : 2 ^ f.expBits - 1 ≤ (carriedExp f sign x b env).toInt) :
    roundAssemble f sign x b env =
      (overflowResult f sign env.roundMode, env.raise (ExcFlags.overflow ||| ExcFlags.inexact)) := by
  simp only [roundAssemble, carry_iff f sign env hx]
  exact if_pos (by rw [← carriedExp]; exact (toInt_maxExp f).trans_le h)

/-- Otherwise the kept integer is stored at the exponent reached. -/
theorem roundAssemble_finite {e : ℕ} (h : (carriedExp f sign x b env).toInt < 2 ^ f.expBits - 1)
    (he : (carriedExp f sign x b env).toNat % 2 ^ (f.expBits + 1) = e) (hlt : e < 2 ^ f.expBits) :
    decode f (roundAssemble f sign x b env).1 = decodeFields f sign e
        (if carriedExp f sign x b env ≠ 0 ∧ f.hasExplicitInt then carriedFrac f sign x env
          else carriedFrac f sign x env % 2 ^ f.fracBits) ∧ (roundAssemble f sign x b env).2 =
        if x.toNat % 2 ^ roundPos f = 0 then env else env.raise ExcFlags.inexact := by
  have hinexact : (x &&& roundMask f != 0) = true ↔ x.toNat % 2 ^ roundPos f ≠ 0 := by
    rw [toNat_ne_zero_iff, toNat_and_roundMask]
  have hfrac := toNat_carried f sign env hx
  have hfield := toNat_fracField f (carriedExp f sign x b env) hfrac (carriedFrac_lt f sign env hx)
  have hnot : ¬((1#32 <<< f.expBits) - 1#32).toInt ≤ (carriedExp f sign x b env).toInt := by
    rw [toInt_maxExp]
    omega
  have heq : roundAssemble f sign x b env =
      (assemble f sign (carriedExp f sign x b env) (fracField f (if kept f sign x env = 2 ^ (f.fracBits + 1) then
        roundFrac f x env.roundMode sign >>> 1 else roundFrac f x env.roundMode sign) (carriedExp f sign x b env)),
      if x.toNat % 2 ^ roundPos f ≠ 0 then env.raise ExcFlags.inexact else env) := by
    simp only [roundAssemble, carry_iff f sign env hx, hinexact]
    exact if_neg hnot
  rw [heq]
  refine ⟨?_, by simp⟩
  rw [decode_assemble f sign hlt he, hfield]
  rw [hfield]
  have hlow := Nat.mod_lt (carriedFrac f sign x env) (Nat.two_pow_pos f.fracBits)
  have hall := carriedFrac_lt f sign env hx
  rcases fracTotal_cases f with ⟨hexp, hft⟩ | ⟨hexp, hft⟩ <;> rw [hft, hexp]
  · split_ifs
    · exact hall
    · exact hlow.trans (Nat.pow_lt_pow_right (by decide) (by omega))
  · simpa using hlow

theorem detectTininess_eq (hx' : x.toNat < 2 ^ 126) : detectTininess f x sign env =
    if x.toNat % 2 ^ roundPos f ≠ 0 ∧ (env.tininess = .beforeRounding ∨ kept f sign x env < 2 ^ f.fracBits) then
      env.raise ExcFlags.underflow
    else env := by
  have hrem : (x &&& roundMask f != 0) = true ↔ x.toNat % 2 ^ roundPos f ≠ 0 := by
    rw [toNat_ne_zero_iff, toNat_and_roundMask]
  have hle : kept f sign x env ≤ 2 ^ f.fracBits := roundShift_le _ (by rwa [roundPos_add_fracBits])
  have htiny : ((roundFrac f x env.roundMode sign >>> intBit) &&& 1 == 0) = true ↔
      kept f sign x env < 2 ^ f.fracBits := by
    have hpow : 2 ^ intBit = 2 ^ f.fracBits * 2 ^ roundPos f := by
      rw [← pow_add, add_comm, roundPos_add_fracBits, intBit]
    have hbit : (roundFrac f x env.roundMode sign >>> intBit).toNat = kept f sign x env / 2 ^ f.fracBits := by
      rw [BitVec.toNat_ushiftRight, Nat.shiftRight_eq_div_pow, toNat_roundFrac f x hx, hpow,
        Nat.mul_div_mul_right _ _ (Nat.two_pow_pos _), kept]
    rw [beq_iff_eq, ← BitVec.toNat_inj, BitVec.toNat_and, hbit]
    rcases hle.lt_or_eq with hlt | heq
    · simp [Nat.div_eq_of_lt hlt, hlt]
    · simp [heq]
  simp only [detectTininess, hrem]
  cases ht : env.tininess with
  | beforeRounding => simp
  | afterRounding =>
    simp only [htiny, reduceCtorEq, false_or]
    split_ifs <;> simp_all

omit hx in
theorem toNat_one_sub (hb : b.toInt < 1) : (1#32 - b).toNat = (1 - b.toInt).toNat := by
  have hlo := BitVec.le_toInt b
  have hlt := b.isLt
  rw [BitVec.toInt_eq_toNat_cond] at hb hlo ⊢
  rw [BitVec.toNat_sub]
  simp only [BitVec.reduceToNat]
  split_ifs at hb hlo ⊢ <;> omega

omit hx in
theorem denormalize_far (hne : x ≠ 0) (hb : b.toInt < -126) : denormalize x b = 1#128 := by
  have hshift : (1#32 - b).toNat ≥ 128 := by
    rw [toNat_one_sub b (by omega)]
    omega
  simp only [denormalize, if_pos hshift]
  exact if_pos (by simpa using hne)

/-- The subnormal path divides by the missing power of two, up to the sticky bit. -/
theorem denormalize_sticky (hne : x ≠ 0) {y : ℚ} (hs : Sticky y x.toNat) (hy : 0 < y) (hy' : y < 2 ^ 127)
    (hb : b.toInt < 1) :
    Sticky (y / 2 ^ (1 - b.toInt)) (denormalize x b).toNat ∧ (denormalize x b).toNat < 2 ^ 126 := by
  obtain ⟨s, hsb⟩ : ∃ s : ℕ, 1 - b.toInt = s := ⟨(1 - b.toInt).toNat, by omega⟩
  have hshift : (1#32 - b).toNat = s := by
    rw [toNat_one_sub b hb]
    omega
  rw [hsb, zpow_natCast]
  by_cases hge : s ≥ 128
  · rw [denormalize_far b hne (by omega)]
    have hpos : 0 < y / 2 ^ s := div_pos hy (by positivity)
    refine ⟨.inr ⟨rfl, ?_, ?_⟩, by decide⟩
    · simp only [BitVec.reduceToNat]
      push_cast
      linarith
    · have hle : (2 : ℚ) ^ 127 ≤ 2 ^ s := pow_le_pow_right₀ one_le_two (by omega)
      have hone : y / 2 ^ s < 1 := (div_lt_one (by positivity)).mpr (hy'.trans_le hle)
      simp only [BitVec.reduceToNat]
      push_cast
      linarith
  · simp only [denormalize, hshift, if_neg hge]
    rw [toNat_shiftRightSticky x (by omega)]
    have hpow : 2 ^ 127 ≤ 2 ^ (s + 126) := Nat.pow_le_pow_right (by decide) (by omega)
    exact ⟨hs.jam s, jam_lt (by omega) (by decide)⟩

end
end MachinaRoundStages
