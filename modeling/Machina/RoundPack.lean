import Machina.RoundStages

/-!
# Packing rounds to the format

The result of packing, range by range of the biased exponent of the leading
bit: the normal range with its carries and overflow, the subnormal range, and
the exponents that wrap around a signed 32-bit word.
-/
namespace MachinaRoundPack

open MachinaFloatRound
open MachinaSoftfloat
open MachinaSoftfloatSpec
open MachinaSoftfloatWords
open MachinaRoundStages

section Grid

variable (f : FloatFormat)

theorem decodeFields_normal (sign : Bool) {e r : ℕ} (he : 1 ≤ e) (he' : e < 2 ^ f.expBits - 1)
    (hr : 2 ^ f.fracBits ≤ r) (hr' : r < 2 ^ (f.fracBits + 1)) :
    decodeFields f sign e (if f.hasExplicitInt then r else r % 2 ^ f.fracBits) =
      .finite sign (r * 2 ^ ((e : ℤ) - f.bias - f.fracBits)) := by
  rw [decodeFields, if_neg he'.ne, if_neg (by omega)]
  cases f.hasExplicitInt
  · have hmod : r % 2 ^ f.fracBits = r - 2 ^ f.fracBits := by
      rw [Nat.mod_eq_sub_mod hr, Nat.mod_eq_of_lt (by rw [pow_succ] at hr'; omega)]
    simp only [Bool.false_eq_true, if_false, hmod]
    push_cast [hr]
    ring_nf
  · simp [if_neg hr.not_gt]

theorem decodeFields_subnormal (sign : Bool) (r : ℕ) :
    decodeFields f sign 0 r = .finite sign (r * 2 ^ (emin f - f.fracBits)) := by
  have hne : (0 : ℕ) ≠ 2 ^ f.expBits - 1 := by
    have := two_pow_expBits f
    omega
  rw [decodeFields, if_neg hne, if_pos rfl]

/-- At exponent zero the kept integer loses the bit that would make it normal. -/
theorem roundAssemble_zero (sign : Bool) {x : BitVec 128} (env : FloatEnv) (hx : x.toNat < 2 ^ 126) :
    decode f (roundAssemble f sign x 0 env).1 =
        .finite sign ((kept f sign x env % 2 ^ f.fracBits : ℕ) * 2 ^ (emin f - f.fracBits)) ∧
      (roundAssemble f sign x 0 env).2 = if x.toNat % 2 ^ roundPos f = 0 then env else env.raise ExcFlags.inexact := by
  have hle : kept f sign x env ≤ 2 ^ f.fracBits := roundShift_le _ (by rwa [roundPos_add_fracBits])
  have hpow : 2 ^ f.fracBits < 2 ^ (f.fracBits + 1) := Nat.pow_lt_pow_right (by decide) (by omega)
  have hexp : carriedExp f sign x 0 env = 0 := if_neg (by omega)
  have hfr : carriedFrac f sign x env = kept f sign x env := if_neg (by omega)
  have hmax := two_pow_expBits f
  have hcast : (2 : ℤ) ^ f.expBits = ((2 ^ f.expBits : ℕ) : ℤ) := by push_cast; rfl
  obtain ⟨hdec, henv⟩ := roundAssemble_finite f sign 0 env (x := x) (e := 0) (by omega)
    (by rw [hexp, hcast]; simp; omega) (by rw [hexp]; simp) (Nat.two_pow_pos _)
  rw [hdec, henv, hexp, hfr]
  exact ⟨by simp [decodeFields_subnormal], rfl⟩

/-- A significand of full precision exceeds the largest finite number exactly
when its exponent does. -/
theorem maxFinite_lt_iff {r : ℕ} (t : ℤ) (hr : 2 ^ f.fracBits ≤ r) (hr' : r < 2 ^ (f.fracBits + 1)) :
    maxFinite f < r * 2 ^ (t - f.fracBits) ↔ emax f < t := by
  have hlow : (2 : ℚ) ^ f.fracBits ≤ r := by exact_mod_cast hr
  have hhigh : (r : ℚ) ≤ 2 ^ (f.fracBits + 1) - 1 := by
    have : (r : ℚ) + 1 ≤ 2 ^ (f.fracBits + 1) := by exact_mod_cast hr'
    linarith
  constructor
  · intro h
    by_contra hle
    have hpow : (2 : ℚ) ^ (t - f.fracBits) ≤ 2 ^ (emax f - f.fracBits) :=
      zpow_le_zpow_right₀ one_le_two (by omega)
    have hmul : (r : ℚ) * 2 ^ (t - f.fracBits) ≤ maxFinite f :=
      mul_le_mul hhigh hpow (by positivity) ((Nat.cast_nonneg r).trans hhigh)
    exact hmul.not_gt h
  · intro h
    have hpow : (2 : ℚ) ^ (emax f - f.fracBits) * 2 ≤ 2 ^ (t - f.fracBits) := by
      rw [← zpow_add_one₀ two_ne_zero]
      exact zpow_le_zpow_right₀ one_le_two (by omega)
    have hunit : (0 : ℚ) < 2 ^ (emax f - f.fracBits) := by positivity
    calc maxFinite f < 2 ^ (f.fracBits + 1) * 2 ^ (emax f - f.fracBits) := by
          rw [maxFinite]
          linarith
      _ = 2 ^ f.fracBits * (2 ^ (emax f - f.fracBits) * 2) := by ring
      _ ≤ r * 2 ^ (t - f.fracBits) := mul_le_mul hlow hpow (by positivity) (Nat.cast_nonneg r)

/-- Subnormal numbers, the smallest normal one included, are below the largest finite number. -/
theorem subnormal_lt_maxFinite {r : ℕ} (hr : r ≤ 2 ^ f.fracBits) :
    (r : ℚ) * 2 ^ (emin f - f.fracBits) < maxFinite f := by
  have hb := bias_bounds f
  have hle : (r : ℚ) ≤ 2 ^ f.fracBits := by exact_mod_cast hr
  have hone : (1 : ℚ) ≤ 2 ^ f.fracBits := one_le_pow₀ one_le_two
  have hpow : (2 : ℚ) ^ (emin f - f.fracBits) < 2 ^ (emax f - f.fracBits) :=
    zpow_lt_zpow_right₀ one_lt_two (by rw [emin, emax]; omega)
  calc (r : ℚ) * 2 ^ (emin f - f.fracBits) ≤ 2 ^ f.fracBits * 2 ^ (emin f - f.fracBits) :=
        mul_le_mul_of_nonneg_right hle (by positivity)
    _ < 2 ^ f.fracBits * 2 ^ (emax f - f.fracBits) := mul_lt_mul_of_pos_left hpow (by positivity)
    _ ≤ maxFinite f := mul_le_mul_of_nonneg_right (by rw [pow_succ]; linarith) (by positivity)

theorem overflowDatum_ne_subnormal (d : Rounding) (sign : Bool) {r : ℕ} (hr : r ≤ 2 ^ f.fracBits) :
    overflowDatum f d sign ≠ .finite sign (r * 2 ^ (emin f - f.fracBits)) := by
  have hne := (subnormal_lt_maxFinite f hr).ne'
  cases d <;> simp [overflowDatum, hne]

end Grid

section Ranges

theorem toNat_of_toInt {w : BitVec 32} {e : ℕ} (h : w.toInt = e) : w.toNat = e := by
  rw [BitVec.toInt_eq_toNat_cond] at h
  have := w.isLt
  split_ifs at h <;> omega

variable (f : FloatFormat) {p : FloatParts} (env : FloatEnv)

/-- The biased exponent as the code computes it. -/
def biasedWord (p : FloatParts) : BitVec 32 := (normalizeParts p).exp + BitVec.ofNat 32 f.bias

variable (hcls : p.cls = .normal) (hfrac : p.frac ≠ 0)
include hcls hfrac

theorem normalizeParts_frac_ne_zero : (normalizeParts p).frac ≠ 0 := by
  intro h
  have := (normalizeParts_leading hcls hfrac).le
  rw [h] at this
  exact absurd this (by decide)

theorem roundPack_normal_path (h : 1 ≤ (biasedWord f p).toInt) :
    roundPack f p env = roundAssemble f p.sign (normalizeParts p).frac (biasedWord f p) env := by
  have hne := normalizeParts_frac_ne_zero hcls hfrac
  rw [roundPack, hcls]
  simp only [if_neg hfrac, pack, normalizeParts_cls, normalizeParts_sign, hcls, if_neg hne]
  exact if_neg (by rw [← biasedWord]; omega)

theorem roundPack_subnormal_path (h : (biasedWord f p).toInt < 1) :
    roundPack f p env = roundAssemble f p.sign (denormalize (normalizeParts p).frac (biasedWord f p)) 0
      (detectTininess f (denormalize (normalizeParts p).frac (biasedWord f p)) p.sign env) := by
  have hne := normalizeParts_frac_ne_zero hcls hfrac
  rw [roundPack, hcls]
  simp only [if_neg hfrac, pack, normalizeParts_cls, normalizeParts_sign, hcls, if_neg hne]
  exact if_pos h

theorem magnitude_pos : 0 < magnitude p := by
  have hpos : 0 < p.frac.toNat := by
    obtain ⟨-, hlo, -⟩ := clz_bounds hfrac
    exact (Nat.two_pow_pos _).trans_le hlo
  rw [magnitude_of_normal hcls]
  positivity

/-- The range of the true biased exponent: normalisation moves it by at most
126 down or one up. -/
theorem biasedLog_bounds : -2 ^ 31 - 126 + f.bias ≤ biasedLog f (magnitude p) ∧
    biasedLog f (magnitude p) ≤ 2 ^ 31 + f.bias := by
  obtain ⟨hlz, -, -⟩ := clz_bounds hfrac
  have hlo := BitVec.le_toInt p.exp
  have hhi := BitVec.toInt_lt (x := p.exp)
  rw [biasedLog, log_magnitude hcls hfrac]
  simp only [Nat.reduceSub] at hlo hhi
  omega

theorem biasedWord_of_fits (h0 : -2 ^ 31 ≤ biasedLog f (magnitude p)) (h1 : biasedLog f (magnitude p) < 2 ^ 31) :
    (biasedWord f p).toInt = biasedLog f (magnitude p) := by
  rw [biasedWord, normalizeParts_exp f hcls hfrac, Int.bmod_def]
  split_ifs <;> omega

theorem biasedWord_of_high (h : 2 ^ 31 ≤ biasedLog f (magnitude p)) :
    (biasedWord f p).toInt = biasedLog f (magnitude p) - 2 ^ 32 := by
  have hb := biasedLog_bounds f hcls hfrac
  have hbias := bias_bounds f
  rw [biasedWord, normalizeParts_exp f hcls hfrac, Int.bmod_def]
  split_ifs <;> omega

theorem biasedWord_of_low (h : biasedLog f (magnitude p) < -2 ^ 31) :
    (biasedWord f p).toInt = biasedLog f (magnitude p) + 2 ^ 32 := by
  have hb := biasedLog_bounds f hcls hfrac
  have hbias := bias_bounds f
  rw [biasedWord, normalizeParts_exp f hcls hfrac, Int.bmod_def]
  split_ifs <;> omega

/-- The scaled magnitude of which the normalised fraction is the leading part. -/
theorem scaled_bounds : 2 ^ 126 ≤ magnitude p / 2 ^ (Int.log 2 (magnitude p) - 126) ∧
    magnitude p / 2 ^ (Int.log 2 (magnitude p) - 126) < 2 ^ 127 := by
  have hpos := magnitude_pos hcls hfrac
  have hlo := Int.zpow_log_le_self (R := ℚ) one_lt_two hpos
  have hhi := Int.lt_zpow_succ_log_self (R := ℚ) one_lt_two (magnitude p)
  push_cast at hlo hhi
  have hunit : (0 : ℚ) < 2 ^ (Int.log 2 (magnitude p) - 126) := by positivity
  constructor
  · rw [le_div_iff₀ hunit, ← zpow_natCast, ← zpow_add₀ two_ne_zero]
    simpa using hlo
  · rw [div_lt_iff₀ hunit, ← zpow_natCast, ← zpow_add₀ two_ne_zero]
    convert hhi using 2
    push_cast
    ring

/-- In the normal path the kept integer is the magnitude rounded to the format's precision. -/
theorem kept_normal : kept f p.sign (normalizeParts p).frac env =
    roundInt (direction env.roundMode p.sign) (magnitude p / 2 ^ (Int.log 2 (magnitude p) - f.fracBits)) := by
  have hs := (normalizeParts_leading hcls hfrac).sticky
  rw [kept, ← hs.roundInt_div _ (two_le_roundPos f), div_div, ← zpow_natCast, ← zpow_add₀ two_ne_zero]
  congr 3
  have := roundPos_add_fracBits f
  omega

theorem kept_normal_ge : 2 ^ f.fracBits ≤ kept f p.sign (normalizeParts p).frac env := by
  have hle := (normalizeParts_leading hcls hfrac).le
  exact le_roundShift _ (by rwa [roundPos_add_fracBits])

theorem unbounded_eq : unbounded f (direction env.roundMode p.sign) (magnitude p) =
    kept f p.sign (normalizeParts p).frac env * 2 ^ (Int.log 2 (magnitude p) - f.fracBits) := by
  rw [unbounded, roundAt, ← kept_normal f env hcls hfrac]

/-- The carry of the code is the carry into the next binade. -/
theorem kept_normal_eq_top_iff : kept f p.sign (normalizeParts p).frac env = 2 ^ (f.fracBits + 1) ↔
    Carries f (direction env.roundMode p.sign) (magnitude p) := by
  have hpos := magnitude_pos hcls hfrac
  have hunit : (0 : ℚ) < 2 ^ (Int.log 2 (magnitude p) - f.fracBits) := by positivity
  have hhi := Int.lt_zpow_succ_log_self (R := ℚ) one_lt_two (magnitude p)
  push_cast at hhi
  have htop : ((2 ^ (f.fracBits + 1) : ℕ) : ℚ) * 2 ^ (Int.log 2 (magnitude p) - f.fracBits) =
      2 ^ (Int.log 2 (magnitude p) + 1) := by
    rw [Nat.cast_pow, Nat.cast_ofNat, ← zpow_natCast, ← zpow_add₀ two_ne_zero]
    congr 1
    push_cast
    ring
  have hlt : magnitude p / 2 ^ (Int.log 2 (magnitude p) - f.fracBits) < ((2 ^ (f.fracBits + 1) : ℕ) : ℚ) := by
    rwa [div_lt_iff₀ hunit, htop]
  have heven : 2 ^ (f.fracBits + 1) % 2 = 0 := by
    rw [pow_succ]
    exact Nat.mul_mod_left _ _
  rw [kept_normal f env hcls hfrac, roundInt_eq_top_iff _ heven (by positivity) hlt, reaches_scale _ hunit, htop,
    Carries]

/-- Nothing was lost exactly when rounding to the format's precision is exact. -/
theorem unbounded_exact_iff : unbounded f (direction env.roundMode p.sign) (magnitude p) = magnitude p ↔
    (normalizeParts p).frac.toNat % 2 ^ roundPos f = 0 := by
  have hpos := magnitude_pos hcls hfrac
  have hs := (normalizeParts_leading hcls hfrac).sticky
  have hunit : (0 : ℚ) < 2 ^ (Int.log 2 (magnitude p) - f.fracBits) := by positivity
  have hdiv : magnitude p / 2 ^ (Int.log 2 (magnitude p) - 126) / 2 ^ roundPos f =
      magnitude p / 2 ^ (Int.log 2 (magnitude p) - f.fracBits) := by
    rw [div_div, ← zpow_natCast, ← zpow_add₀ two_ne_zero]
    congr 2
    have := roundPos_add_fracBits f
    omega
  rw [← hs.exact_iff (direction env.roundMode p.sign) (two_le_roundPos f) (by positivity), hdiv, eq_div_iff hunit.ne',
    unbounded_eq f env hcls hfrac, kept]

/-- The number of places the carry moves the exponent. -/
def carryStep (env : FloatEnv) (p : FloatParts) : ℤ :=
  if kept f p.sign (normalizeParts p).frac env = 2 ^ (f.fracBits + 1) then 1 else 0

omit hcls hfrac in
theorem carryStep_bounds : 0 ≤ carryStep f env p ∧ carryStep f env p ≤ 1 := by
  rw [carryStep]
  split_ifs <;> omega

theorem carriedFrac_ge : 2 ^ f.fracBits ≤ carriedFrac f p.sign (normalizeParts p).frac env := by
  have hge := kept_normal_ge f env hcls hfrac
  rw [carriedFrac]
  split_ifs
  · exact le_rfl
  · exact hge

/-- The rounded number in terms of the significand and exponent after the carry. -/
theorem unbounded_eq_carried : unbounded f (direction env.roundMode p.sign) (magnitude p) =
    carriedFrac f p.sign (normalizeParts p).frac env *
      2 ^ (Int.log 2 (magnitude p) + carryStep f env p - f.fracBits) := by
  rw [unbounded_eq f env hcls hfrac, carriedFrac, carryStep]
  split_ifs with h
  · rw [h, show Int.log 2 (magnitude p) + 1 - f.fracBits = Int.log 2 (magnitude p) - f.fracBits + 1 by ring,
      zpow_add_one₀ two_ne_zero]
    push_cast
    ring
  · rw [add_zero]

theorem maxFinite_lt_unbounded_iff : maxFinite f < unbounded f (direction env.roundMode p.sign) (magnitude p) ↔
    2 ^ f.expBits - 1 ≤ biasedLog f (magnitude p) + carryStep f env p := by
  have hx := (normalizeParts_leading hcls hfrac).lt
  have hpow : ((2 ^ f.expBits : ℕ) : ℤ) = 2 * (f.bias + 1) := by exact_mod_cast two_pow_expBits f
  push_cast at hpow
  rw [unbounded_eq_carried f env hcls hfrac, maxFinite_lt_iff f _ (carriedFrac_ge f env hcls hfrac)
    (carriedFrac_lt f p.sign env hx), emax, biasedLog, hpow]
  omega

omit hcls hfrac in
theorem carriedExp_toInt {t : ℤ} (hw : (biasedWord f p).toInt = t) (hlt : t + carryStep f env p < 2 ^ 31) :
    (carriedExp f p.sign (normalizeParts p).frac (biasedWord f p) env).toInt = t + carryStep f env p := by
  have hlo := BitVec.le_toInt (biasedWord f p)
  simp only [Nat.reduceSub] at hlo
  rw [carryStep] at hlt ⊢
  rw [carriedExp]
  split_ifs at hlt ⊢
  · rw [BitVec.toInt_add, hw, Int.bmod_def]
    simp only [BitVec.reduceToInt]
    split_ifs <;> omega
  · rw [hw, add_zero]

omit hcls hfrac in
/-- In the normal range the format's grid is that of the precision alone. -/
theorem ieeeRound_normal (h : 1 ≤ biasedLog f (magnitude p)) :
    ieeeRound f (direction env.roundMode p.sign) p.sign (magnitude p) =
      if maxFinite f < unbounded f (direction env.roundMode p.sign) (magnitude p) then
        overflowDatum f (direction env.roundMode p.sign) p.sign
      else .finite p.sign (unbounded f (direction env.roundMode p.sign) (magnitude p)) := by
  have hle : emin f ≤ Int.log 2 (magnitude p) := by
    rw [biasedLog] at h
    rw [emin]
    omega
  rw [ieeeRound, max_eq_left hle, ← unbounded]

/-- In the normal range packing rounds to the format and raises what it should. -/
theorem roundPack_normal (h1 : 1 ≤ biasedLog f (magnitude p))
    (hfit : ExpFits f (direction env.roundMode p.sign) (magnitude p)) :
    decode f (roundPack f p env).1 = ieeeRound f (direction env.roundMode p.sign) p.sign (magnitude p) ∧
      (roundPack f p env).2 = if maxFinite f < unbounded f (direction env.roundMode p.sign) (magnitude p) then
          env.raise (ExcFlags.overflow ||| ExcFlags.inexact)
        else if unbounded f (direction env.roundMode p.sign) (magnitude p) = magnitude p then env
        else env.raise ExcFlags.inexact := by
  have hx := (normalizeParts_leading hcls hfrac).lt
  obtain ⟨hlo, hhi, hcarry⟩ := hfit
  have hword := biasedWord_of_fits f hcls hfrac hlo hhi
  have hstep := carryStep_bounds f env (p := p)
  have hnowrap : biasedLog f (magnitude p) + carryStep f env p < 2 ^ 31 := by
    rw [← kept_normal_eq_top_iff f env hcls hfrac] at hcarry
    rw [carryStep]
    split_ifs with hk
    · have hne : biasedLog f (magnitude p) ≠ 2 ^ 31 - 1 := fun h => hcarry ⟨h, hk⟩
      omega
    · omega
  have hexp := carriedExp_toInt f env hword hnowrap
  rw [roundPack_normal_path f env hcls hfrac (by omega), ieeeRound_normal f env h1]
  by_cases hov : 2 ^ f.expBits - 1 ≤ biasedLog f (magnitude p) + carryStep f env p
  · have hmax := (maxFinite_lt_unbounded_iff f env hcls hfrac).mpr hov
    rw [roundAssemble_overflow f p.sign _ env hx (by rw [hexp]; exact hov), if_pos hmax, if_pos hmax]
    exact ⟨decode_overflowResult f env.roundMode p.sign, rfl⟩
  have hmax := mt (maxFinite_lt_unbounded_iff f env hcls hfrac).mp hov
  have hpow : (2 : ℤ) ^ f.expBits = ((2 ^ f.expBits : ℕ) : ℤ) := by push_cast; rfl
  rw [hpow] at hov
  obtain ⟨e, he⟩ : ∃ e : ℕ, biasedLog f (magnitude p) + carryStep f env p = e :=
    ⟨_, (Int.toNat_of_nonneg (by omega)).symm⟩
  rw [he] at hexp hov
  have hword' := toNat_of_toInt hexp
  have hne : carriedExp f p.sign (normalizeParts p).frac (biasedWord f p) env ≠ 0 := by
    intro h
    rw [h] at hexp
    simp at hexp
    omega
  have hmod : (carriedExp f p.sign (normalizeParts p).frac (biasedWord f p) env).toNat % 2 ^ (f.expBits + 1) = e := by
    rw [hword', pow_succ]
    exact Nat.mod_eq_of_lt (by omega)
  obtain ⟨hdec, henv⟩ := roundAssemble_finite f p.sign (biasedWord f p) env hx (by rw [hexp, hpow]; omega)
    hmod (by omega)
  rw [hdec, henv, if_neg hmax, if_neg hmax]
  refine ⟨?_, ?_⟩
  · simp only [ne_eq, hne, not_false_eq_true, true_and]
    rw [decodeFields_normal f p.sign (by omega) (by omega) (carriedFrac_ge f env hcls hfrac)
      (carriedFrac_lt f p.sign env hx), unbounded_eq_carried f env hcls hfrac, ← he, biasedLog]
    congr 3
    ring
  · simp [unbounded_exact_iff f env hcls hfrac]

/-! ## The subnormal range -/

/-- The integer a magnitude below the normal range is rounded to, in units of
the smallest subnormal number. -/
def subnormalInt (d : Rounding) (x : ℚ) : ℕ := roundInt d (x / 2 ^ (emin f - f.fracBits))

omit hcls hfrac in
theorem lt_two_pow_emin_iff (hx : 0 < magnitude p) : magnitude p < 2 ^ emin f ↔ biasedLog f (magnitude p) < 1 := by
  have h := Int.lt_zpow_iff_log_lt (R := ℚ) one_lt_two hx (x := emin f)
  push_cast at h
  rw [h, biasedLog, emin]
  omega

omit hcls hfrac in
theorem emin_unit : ((2 ^ f.fracBits : ℕ) : ℚ) * 2 ^ (emin f - f.fracBits) = 2 ^ emin f := by
  rw [Nat.cast_pow, Nat.cast_ofNat, ← zpow_natCast, ← zpow_add₀ two_ne_zero]
  congr 1
  ring

theorem subnormalInt_le (d : Rounding) (h : biasedLog f (magnitude p) < 1) :
    subnormalInt f d (magnitude p) ≤ 2 ^ f.fracBits := by
  have hpos := magnitude_pos hcls hfrac
  refine roundInt_le d (by positivity) ?_
  rw [div_lt_iff₀ (by positivity), emin_unit]
  exact (lt_two_pow_emin_iff f hpos).mpr h

theorem subnormalInt_eq_top_iff (d : Rounding) (h : biasedLog f (magnitude p) < 1) :
    subnormalInt f d (magnitude p) = 2 ^ f.fracBits ↔ RoundsToNormal f d (magnitude p) := by
  have hpos := magnitude_pos hcls hfrac
  have hlt := (lt_two_pow_emin_iff f hpos).mpr h
  have heven : 2 ^ f.fracBits % 2 = 0 := by
    obtain ⟨k, hk⟩ := Nat.exists_eq_succ_of_ne_zero f.fracBits_pos.ne'
    rw [hk, pow_succ]
    exact Nat.mul_mod_left _ _
  have hbelow : magnitude p / 2 ^ (emin f - f.fracBits) < ((2 ^ f.fracBits : ℕ) : ℚ) := by
    rwa [div_lt_iff₀ (by positivity), emin_unit]
  rw [subnormalInt, roundInt_eq_top_iff d heven (by positivity) hbelow, reaches_scale d (by positivity), emin_unit,
    RoundsToNormal, and_iff_right hlt]

/-- The aligned fraction keeps the integer of the subnormal grid. -/
theorem kept_subnormal (h0 : -2 ^ 31 ≤ biasedLog f (magnitude p)) (h1 : biasedLog f (magnitude p) < 1) :
    (denormalize (normalizeParts p).frac (biasedWord f p)).toNat < 2 ^ 126 ∧
      kept f p.sign (denormalize (normalizeParts p).frac (biasedWord f p)) env =
        subnormalInt f (direction env.roundMode p.sign) (magnitude p) ∧
      ((subnormalInt f (direction env.roundMode p.sign) (magnitude p) : ℚ) * 2 ^ (emin f - f.fracBits) = magnitude p ↔
        (denormalize (normalizeParts p).frac (biasedWord f p)).toNat % 2 ^ roundPos f = 0) := by
  have hpos := magnitude_pos hcls hfrac
  have hlead := normalizeParts_leading hcls hfrac
  have hword := biasedWord_of_fits f hcls hfrac h0 (by omega)
  obtain ⟨hylo, hyhi⟩ := scaled_bounds hcls hfrac
  obtain ⟨hs, hlt⟩ := denormalize_sticky (biasedWord f p) hlead.lt (normalizeParts_frac_ne_zero hcls hfrac)
    hlead.sticky (by positivity) hyhi (by omega)
  have hdiv : magnitude p / 2 ^ (Int.log 2 (magnitude p) - 126) / 2 ^ (1 - (biasedWord f p).toInt) / 2 ^ roundPos f =
      magnitude p / 2 ^ (emin f - f.fracBits) := by
    rw [div_div, div_div, ← zpow_natCast, ← zpow_add₀ two_ne_zero, ← zpow_add₀ two_ne_zero]
    congr 2
    have := roundPos_add_fracBits f
    rw [hword, biasedLog, emin]
    omega
  have hkept : kept f p.sign (denormalize (normalizeParts p).frac (biasedWord f p)) env =
      subnormalInt f (direction env.roundMode p.sign) (magnitude p) := by
    rw [kept, ← hs.roundInt_div _ (two_le_roundPos f), hdiv, subnormalInt]
  have hunit : (0 : ℚ) < 2 ^ (emin f - f.fracBits) := by positivity
  refine ⟨hlt, hkept, ?_⟩
  rw [← hs.exact_iff (direction env.roundMode p.sign) (two_le_roundPos f) (by positivity), hdiv, eq_div_iff hunit.ne',
    ← hkept, kept]

theorem ieeeRound_subnormal (h : biasedLog f (magnitude p) < 1) :
    ieeeRound f (direction env.roundMode p.sign) p.sign (magnitude p) =
      .finite p.sign (subnormalInt f (direction env.roundMode p.sign) (magnitude p) * 2 ^ (emin f - f.fracBits)) := by
  have hle : Int.log 2 (magnitude p) ≤ emin f := by
    rw [biasedLog] at h
    rw [emin]
    omega
  have hmax := subnormal_lt_maxFinite f (subnormalInt_le f hcls hfrac (direction env.roundMode p.sign) h)
  rw [ieeeRound, max_eq_right hle, roundAt, ← subnormalInt, if_neg hmax.le.not_gt]

/-- In the subnormal range packing stores the rounded integer without the bit
that would make it the smallest normal number. -/
theorem roundPack_subnormal (h0 : -2 ^ 31 ≤ biasedLog f (magnitude p)) (h1 : biasedLog f (magnitude p) < 1) :
    decode f (roundPack f p env).1 = .finite p.sign
        ((subnormalInt f (direction env.roundMode p.sign) (magnitude p) % 2 ^ f.fracBits : ℕ) *
          2 ^ (emin f - f.fracBits)) ∧
      (roundPack f p env).2 =
        if (subnormalInt f (direction env.roundMode p.sign) (magnitude p) : ℚ) * 2 ^ (emin f - f.fracBits) =
            magnitude p then env
        else if env.tininess = .beforeRounding ∨
            subnormalInt f (direction env.roundMode p.sign) (magnitude p) < 2 ^ f.fracBits then
          (env.raise ExcFlags.underflow).raise ExcFlags.inexact
        else env.raise ExcFlags.inexact := by
  obtain ⟨hlt, hkept, hexact⟩ := kept_subnormal f env hcls hfrac h0 h1
  have hword := biasedWord_of_fits f hcls hfrac h0 (by omega)
  rw [roundPack_subnormal_path f env hcls hfrac (by omega), detectTininess_eq f p.sign env (by omega) hlt, hkept]
  set fr := denormalize (normalizeParts p).frac (biasedWord f p) with hfr
  set r := subnormalInt f (direction env.roundMode p.sign) (magnitude p) with hr
  by_cases hrem : fr.toNat % 2 ^ roundPos f = 0
  · rw [if_neg (fun h => h.1 hrem), if_pos (hexact.mpr hrem)]
    obtain ⟨hdec, henv⟩ := roundAssemble_zero f p.sign env hlt
    rw [hdec, henv, hkept, if_pos hrem]
    exact ⟨rfl, rfl⟩
  · rw [if_neg (mt hexact.mp hrem)]
    by_cases htiny : env.tininess = .beforeRounding ∨ r < 2 ^ f.fracBits
    · rw [if_pos ⟨hrem, htiny⟩, if_pos htiny]
      obtain ⟨hdec, henv⟩ := roundAssemble_zero f p.sign (env.raise ExcFlags.underflow) hlt
      rw [hdec, henv, if_neg hrem, kept_raise, hkept]
      exact ⟨rfl, rfl⟩
    · rw [if_neg (fun h => htiny h.2), if_neg htiny]
      obtain ⟨hdec, henv⟩ := roundAssemble_zero f p.sign env hlt
      rw [hdec, henv, if_neg hrem, hkept]
      exact ⟨rfl, rfl⟩

/-! ## Exponents that wrap around -/

/-- An exponent past the top of the word comes back far below the subnormal
range: the result is zero or the smallest subnormal number. -/
theorem roundPack_wrapped_high (h : 2 ^ 31 ≤ biasedLog f (magnitude p)) :
    (∃ r ≤ 2 ^ f.fracBits, decode f (roundPack f p env).1 = .finite p.sign ((r : ℕ) * 2 ^ (emin f - f.fracBits))) ∧
      ((roundPack f p env).2 = (env.raise ExcFlags.underflow).raise ExcFlags.inexact ∨
        (roundPack f p env).2 = env.raise ExcFlags.inexact) := by
  have hb := biasedLog_bounds f hcls hfrac
  have hbias := bias_bounds f
  have hword := biasedWord_of_high f hcls hfrac h
  have hden : denormalize (normalizeParts p).frac (biasedWord f p) = 1#128 :=
    denormalize_far _ (normalizeParts_frac_ne_zero hcls hfrac) (by omega)
  have hrem : (1#128).toNat % 2 ^ roundPos f ≠ 0 := by
    have := two_le_roundPos f
    rw [show (1#128).toNat = 1 from rfl, Nat.mod_eq_of_lt (Nat.one_lt_two_pow (by omega))]
    decide
  have hmod (r : ℕ) : r % 2 ^ f.fracBits ≤ 2 ^ f.fracBits := (Nat.mod_lt _ (Nat.two_pow_pos _)).le
  rw [roundPack_subnormal_path f env hcls hfrac (by omega), hden,
    detectTininess_eq f p.sign env (by decide) (by decide)]
  split_ifs with htiny
  · obtain ⟨hdec, henv⟩ := roundAssemble_zero f p.sign (env.raise ExcFlags.underflow) (x := 1#128) (by decide)
    exact ⟨⟨_, hmod _, hdec⟩, .inl (by rw [henv, if_neg hrem])⟩
  · obtain ⟨hdec, henv⟩ := roundAssemble_zero f p.sign env (x := 1#128) (by decide)
    exact ⟨⟨_, hmod _, hdec⟩, .inr (by rw [henv, if_neg hrem])⟩

/-- A carry out of the largest word leaves the smallest one, of which the
exponent field keeps no bit. -/
theorem roundPack_carry_wraps (hw : (biasedWord f p).toInt = 2 ^ 31 - 1)
    (hc : Carries f (direction env.roundMode p.sign) (magnitude p)) : decode f (roundPack f p env).1 = .finite p.sign
        ((if f.hasExplicitInt then 2 ^ f.fracBits else 0 : ℕ) * 2 ^ (emin f - f.fracBits)) ∧
      (roundPack f p env).2 = env.raise ExcFlags.inexact := by
  have hx := (normalizeParts_leading hcls hfrac).lt
  have hk := (kept_normal_eq_top_iff f env hcls hfrac).mpr hc
  have hw' : biasedWord f p = 2147483647#32 := BitVec.eq_of_toInt_eq (by rw [hw]; decide)
  have hexp : carriedExp f p.sign (normalizeParts p).frac (biasedWord f p) env = 2147483648#32 := by
    rw [carriedExp, if_pos hk, hw']
    decide
  have hfr : carriedFrac f p.sign (normalizeParts p).frac env = 2 ^ f.fracBits := if_pos hk
  have hmod : (2147483648#32).toNat % 2 ^ (f.expBits + 1) = 0 := by
    have hle := f.expBits_le
    obtain ⟨j, hj⟩ : ∃ j, 31 = f.expBits + 1 + j := ⟨31 - (f.expBits + 1), by omega⟩
    rw [show (2147483648#32).toNat = 2 ^ 31 from rfl, hj, pow_add]
    exact Nat.mul_mod_right _ _
  have hrem : (normalizeParts p).frac.toNat % 2 ^ roundPos f ≠ 0 := by
    intro hz
    have hdiv : (normalizeParts p).frac.toNat / 2 ^ roundPos f < 2 ^ (f.fracBits + 1) := by
      refine Nat.div_lt_of_lt_mul ?_
      have := roundPos_add_fracBits f
      rwa [← pow_add, show roundPos f + (f.fracBits + 1) = 127 by omega]
    rw [kept, roundShift, hz, remPlace, if_pos rfl, increments_exact] at hk
    simp only [Bool.toNat_false, add_zero] at hk
    omega
  have hpow : (0 : ℤ) < 2 ^ f.expBits := by positivity
  obtain ⟨hdec, henv⟩ := roundAssemble_finite f p.sign (biasedWord f p) env hx (e := 0)
    (by rw [hexp, show (2147483648#32).toInt = -2147483648 from rfl]; omega) (by rw [hexp, hmod]) (Nat.two_pow_pos _)
  rw [roundPack_normal_path f env hcls hfrac (by omega), hdec, henv, hexp, hfr, if_neg hrem]
  refine ⟨?_, rfl⟩
  rw [decodeFields_subnormal]
  cases f.hasExplicitInt <;> simp

/-- An exponent below the bottom of the word comes back past the largest one. -/
theorem roundPack_wrapped_low (h : biasedLog f (magnitude p) < -2 ^ 31)
    (hc : ¬(biasedLog f (magnitude p) = -2 ^ 31 - 1 ∧ Carries f (direction env.roundMode p.sign) (magnitude p))) :
    roundPack f p env =
      (overflowResult f p.sign env.roundMode, env.raise (ExcFlags.overflow ||| ExcFlags.inexact)) := by
  have hx := (normalizeParts_leading hcls hfrac).lt
  have hb := biasedLog_bounds f hcls hfrac
  have hbias := bias_bounds f
  have hword := biasedWord_of_low f hcls hfrac h
  have hstep := carryStep_bounds f env (p := p)
  have hnowrap : biasedLog f (magnitude p) + 2 ^ 32 + carryStep f env p < 2 ^ 31 := by
    rw [← kept_normal_eq_top_iff f env hcls hfrac] at hc
    rw [carryStep]
    split_ifs with hk
    · have hne : biasedLog f (magnitude p) ≠ -2 ^ 31 - 1 := fun h => hc ⟨h, hk⟩
      omega
    · omega
  have hexp := carriedExp_toInt f env hword hnowrap
  have hmax := two_pow_expBits_le f
  rw [roundPack_normal_path f env hcls hfrac (by omega),
    roundAssemble_overflow f p.sign _ env hx (by rw [hexp]; omega)]

end Ranges
end MachinaRoundPack
