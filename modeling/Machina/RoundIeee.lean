import Machina.RoundPack

/-!
# When packing returns the rounded number

Packing agrees with the rounding of the exact value except where a subnormal
number rounds up to the smallest normal one and where the biased exponent
leaves the range of a signed 32-bit word.
-/
namespace MachinaRoundIeee

open MachinaFloatRound
open MachinaSoftfloat
open MachinaSoftfloatSpec
open MachinaSoftfloatWords
open MachinaRoundPack

/-- Two wrap-arounds cancel: the exponent is just below the word's range, the
carry brings it back, and the exact result is zero. -/
def WrapsTwice (f : FloatFormat) (d : Rounding) (x : ℚ) : Prop :=
  biasedLog f x = -2 ^ 31 - 1 ∧ Carries f d x ∧ d ≠ .up ∧ f.hasExplicitInt = false

section

variable (f : FloatFormat) {p : FloatParts} (env : FloatEnv) (hcls : p.cls = .normal) (hfrac : p.frac ≠ 0)
include hcls hfrac

/-- Far below the subnormal range only the modes that never round to zero give a nonzero result. -/
theorem subnormalInt_far (d : Rounding) (h : biasedLog f (magnitude p) < -2 ^ 31) :
    subnormalInt f d (magnitude p) = if d = .up ∨ d = .odd then 1 else 0 := by
  have hpos := magnitude_pos hcls hfrac
  have hunit : (0 : ℚ) < 2 ^ (emin f - f.fracBits) := by positivity
  refine roundInt_tiny d (div_pos hpos hunit) ?_
  have hhi := Int.lt_zpow_succ_log_self (R := ℚ) one_lt_two (magnitude p)
  push_cast at hhi
  have hle : (2 : ℚ) ^ (Int.log 2 (magnitude p) + 1) ≤ 2 ^ (emin f - f.fracBits - 1) := by
    have hfb := fracBits_le f
    refine zpow_le_zpow_right₀ one_le_two ?_
    rw [biasedLog] at h
    rw [emin]
    omega
  rw [div_lt_iff₀ hunit]
  calc magnitude p < 2 ^ (emin f - f.fracBits - 1) := hhi.trans_le hle
    _ = 1 / 2 * 2 ^ (emin f - f.fracBits) := by rw [zpow_sub_one₀ two_ne_zero]; ring

/-- Past the top of the word a small number comes back instead of the overflow result. -/
theorem decode_ne_of_high (h : 2 ^ 31 ≤ biasedLog f (magnitude p) ∨ biasedLog f (magnitude p) = 2 ^ 31 - 1 ∧
    Carries f (direction env.roundMode p.sign) (magnitude p)) :
    decode f (roundPack f p env).1 ≠ ieeeRound f (direction env.roundMode p.sign) p.sign (magnitude p) := by
  have hpow := two_pow_expBits_le f
  have hstep := carryStep_bounds f env (p := p)
  have hmax := (maxFinite_lt_unbounded_iff f env hcls hfrac).mpr (by omega)
  rw [ieeeRound_normal f env (by omega), if_pos hmax]
  rcases h with h | ⟨h, hc⟩
  · obtain ⟨⟨r, hr, hdec⟩, -⟩ := roundPack_wrapped_high f env hcls hfrac h
    rw [hdec]
    exact (overflowDatum_ne_subnormal f _ _ hr).symm
  have hword := biasedWord_of_fits f hcls hfrac (by omega) (by omega)
  rw [(roundPack_carry_wraps f env hcls hfrac (by omega) hc).1]
  refine (overflowDatum_ne_subnormal f _ _ ?_).symm
  split_ifs
  · exact le_rfl
  · exact Nat.zero_le _

theorem decode_eq_iff_of_subnormal (h0 : -2 ^ 31 ≤ biasedLog f (magnitude p)) (h1 : biasedLog f (magnitude p) < 1) :
    decode f (roundPack f p env).1 = ieeeRound f (direction env.roundMode p.sign) p.sign (magnitude p) ↔
      ¬RoundsToNormal f (direction env.roundMode p.sign) (magnitude p) := by
  have hle := subnormalInt_le f hcls hfrac (direction env.roundMode p.sign) h1
  have hunit : (2 : ℚ) ^ (emin f - f.fracBits) ≠ 0 := by positivity
  rw [(roundPack_subnormal f env hcls hfrac h0 h1).1, ieeeRound_subnormal f env hcls hfrac h1,
    ← subnormalInt_eq_top_iff f hcls hfrac _ h1]
  simp only [Datum.finite.injEq, true_and, mul_left_inj' hunit, Nat.cast_inj]
  constructor
  · intro heq htop
    rw [htop, Nat.mod_self] at heq
    exact (Nat.two_pow_pos f.fracBits).ne heq
  · intro hne
    exact Nat.mod_eq_of_lt (hle.lt_of_ne hne)

theorem decode_eq_iff_of_low (h : biasedLog f (magnitude p) < -2 ^ 31) :
    decode f (roundPack f p env).1 = ieeeRound f (direction env.roundMode p.sign) p.sign (magnitude p) ↔
      WrapsTwice f (direction env.roundMode p.sign) (magnitude p) := by
  have hint := subnormalInt_far f hcls hfrac (direction env.roundMode p.sign) h
  have hunit : (2 : ℚ) ^ (emin f - f.fracBits) ≠ 0 := by positivity
  rw [ieeeRound_subnormal f env hcls hfrac (by omega)]
  by_cases hc : biasedLog f (magnitude p) = -2 ^ 31 - 1 ∧ Carries f (direction env.roundMode p.sign) (magnitude p)
  · have hword := biasedWord_of_low f hcls hfrac h
    rw [(roundPack_carry_wraps f env hcls hfrac (by omega) hc.2).1]
    simp only [Datum.finite.injEq, true_and, mul_left_inj' hunit, Nat.cast_inj, hint, WrapsTwice, hc.1, hc.2]
    have hodd : direction env.roundMode p.sign ≠ .odd := by
      intro hodd
      have := hc.2
      rw [hodd] at this
      exact this
    have hpow : 2 ^ 1 ≤ 2 ^ f.fracBits := Nat.pow_le_pow_right (by decide) f.fracBits_pos
    cases f.hasExplicitInt
    · by_cases hup : direction env.roundMode p.sign = .up <;> simp [hup, hodd]
    · simp only [if_true, Bool.true_eq_false, and_false, iff_false]
      split_ifs <;> omega
  · rw [roundPack_wrapped_low f env hcls hfrac h hc, decode_overflowResult]
    refine iff_of_false ?_ (fun hw => hc ⟨hw.1, hw.2.1⟩)
    exact overflowDatum_ne_subnormal f _ _ (subnormalInt_le f hcls hfrac _ (by omega))

end

/-- Packing a finite nonzero number returns its rounding to the format exactly
when the biased exponent fits its word and no subnormal number rounds up to the
smallest normal one, or when two wrap-arounds of the exponent cancel. -/
theorem roundPack_rounds_iff (f : FloatFormat) (p : FloatParts) (env : FloatEnv) (hcls : p.cls = .normal)
    (hfrac : p.frac ≠ 0) :
    decode f (roundPack f p env).1 = ieeeRound f (direction env.roundMode p.sign) p.sign (magnitude p) ↔
      ExpFits f (direction env.roundMode p.sign) (magnitude p) ∧
          ¬RoundsToNormal f (direction env.roundMode p.sign) (magnitude p) ∨
        WrapsTwice f (direction env.roundMode p.sign) (magnitude p) := by
  have hpos := magnitude_pos hcls hfrac
  by_cases hhigh : 2 ^ 31 ≤ biasedLog f (magnitude p) ∨ biasedLog f (magnitude p) = 2 ^ 31 - 1 ∧
      Carries f (direction env.roundMode p.sign) (magnitude p)
  · refine iff_of_false (decode_ne_of_high f env hcls hfrac hhigh) ?_
    rintro (⟨⟨-, hlt, hc⟩, -⟩ | ⟨hlow, -⟩)
    · exact hhigh.elim (fun h => by omega) hc
    · omega
  have hwrap (h : -2 ^ 31 ≤ biasedLog f (magnitude p)) :
      ¬WrapsTwice f (direction env.roundMode p.sign) (magnitude p) := by
    rintro ⟨hlow, -⟩
    omega
  obtain ⟨hlt, hc⟩ := not_or.mp hhigh
  rcases lt_or_ge (biasedLog f (magnitude p)) (-2 ^ 31) with hlow | hlow
  · rw [decode_eq_iff_of_low f env hcls hfrac hlow]
    refine ⟨.inr, ?_⟩
    rintro (⟨⟨hge, -⟩, -⟩ | hw)
    · omega
    · exact hw
  have hfits : ExpFits f (direction env.roundMode p.sign) (magnitude p) := ⟨hlow, by omega, hc⟩
  rw [or_iff_left (hwrap hlow), and_iff_right hfits]
  rcases lt_or_ge (biasedLog f (magnitude p)) 1 with hsub | hnormal
  · exact decode_eq_iff_of_subnormal f env hcls hfrac hlow hsub
  refine iff_of_true (roundPack_normal f env hcls hfrac hnormal hfits).1 ?_
  rintro ⟨hlt, -⟩
  have := (lt_two_pow_emin_iff f hpos).mp hlt
  omega

/-- A little over one, between two single-precision numbers. -/
def overOne : FloatParts := ⟨false, 0#32, (1#128 <<< 126) + (1#128 <<< 96), .normal⟩

theorem magnitude_overOne : magnitude overOne = 1 + 2 ^ (-30 : ℤ) := by
  rw [magnitude, if_neg (by decide), show overOne.exp.toInt = 0 by decide,
    show overOne.frac.toNat = 2 ^ 126 + 2 ^ 96 by decide]
  norm_num

theorem expFits_overOne (d : Rounding) : ExpFits .float32 d (magnitude overOne) := by
  have hlog : biasedLog .float32 (magnitude overOne) = 127 := by
    rw [magnitude_overOne, biasedLog, log_eq_of_binade (e := 0) (by norm_num) (by norm_num)]
    rfl
  refine ⟨?_, ?_, ?_⟩ <;> rw [hlog] <;> norm_num

theorem not_roundsToNormal_overOne (d : Rounding) : ¬RoundsToNormal .float32 d (magnitude overOne) := by
  rintro ⟨hlt, -⟩
  rw [magnitude_overOne, show emin .float32 = -126 from rfl] at hlt
  norm_num at hlt

theorem roundPack_rounds_overOne : overOne.cls = .normal ∧ overOne.frac ≠ 0 ∧
    decode .float32 (roundPack .float32 overOne ⟨.nearEven, 0#8, .afterRounding, false⟩).1 =
      ieeeRound .float32 (direction .nearEven overOne.sign) overOne.sign (magnitude overOne) :=
  ⟨rfl, by decide,
    (roundPack_rounds_iff .float32 overOne ⟨.nearEven, 0#8, .afterRounding, false⟩ rfl (by decide)).mpr
      (.inl ⟨expFits_overOne _, not_roundsToNormal_overOne _⟩)⟩

/-- A quarter of the smallest subnormal number below the smallest normal half-precision number. -/
def belowNormal : FloatParts := ⟨false, -15#32, 4095#128 <<< 115, .normal⟩

theorem magnitude_belowNormal : magnitude belowNormal = 4095 / 2 ^ 26 := by
  rw [magnitude, if_neg (by decide), show belowNormal.exp.toInt = -15 by decide,
    show belowNormal.frac.toNat = 4095 * 2 ^ 115 by decide]
  norm_num

theorem log_belowNormal : Int.log 2 (magnitude belowNormal) = -15 := by
  refine log_eq_of_binade ?_ ?_ <;> rw [magnitude_belowNormal] <;> norm_num

theorem subnormalInt_belowNormal : subnormalInt .float16 .nearestEven (magnitude belowNormal) = 1024 := by
  have hplace : fractPlace ((4095 / 2 ^ 26 / 2 ^ (-24 : ℤ) : ℚ) - (1023 : ℕ)) = .above := by norm_num [fractPlace]
  rw [subnormalInt, magnitude_belowNormal, show emin .float16 - (FloatFormat.float16.fracBits : ℤ) = -24 from rfl,
    roundInt_eq .nearestEven (a := 1023) (by norm_num) (by norm_num), hplace]
  rfl

/-- It rounds to the smallest normal number, and packing returns zero. -/
theorem belowNormal_packs_to_zero : belowNormal.cls = .normal ∧ belowNormal.frac ≠ 0 ∧
    decode .float16 (roundPack .float16 belowNormal ⟨.nearEven, 0#8, .afterRounding, false⟩).1 = .finite false 0 ∧
    ieeeRound .float16 (direction .nearEven belowNormal.sign) belowNormal.sign (magnitude belowNormal) =
      .finite false (2 ^ (-14 : ℤ)) := by
  have hbits : (roundPack .float16 belowNormal ⟨.nearEven, 0#8, .afterRounding, false⟩).1.toNat =
      (packZero .float16 false).toNat := by decide
  refine ⟨rfl, by decide, ?_, ?_⟩
  · rw [BitVec.eq_of_toNat_eq hbits, decode_packZero]
  · refine (ieeeRound_subnormal .float16 ⟨.nearEven, 0#8, .afterRounding, false⟩ rfl (by decide) ?_).trans ?_
    · rw [biasedLog, log_belowNormal]
      decide
    · rw [show direction .nearEven belowNormal.sign = .nearestEven from rfl, subnormalInt_belowNormal,
        show emin .float16 - (FloatFormat.float16.fracBits : ℤ) = -24 from rfl]
      norm_num
      decide

end MachinaRoundIeee
