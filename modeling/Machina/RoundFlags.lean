import Machina.RoundIeee

/-!
# When packing signals the right exceptions

The flags packing adds are those of the rounding except where the exponent
wraps around and in the band just below the smallest normal number that rounds
up on the subnormal grid but not on the finer grid of unbounded exponents.
-/
namespace MachinaRoundFlags

open MachinaFloatRound
open MachinaSoftfloat
open MachinaSoftfloatSpec
open MachinaSoftfloatWords
open MachinaRoundStages
open MachinaRoundPack
open MachinaRoundIeee (overOne expFits_overOne not_roundsToNormal_overOne)

/-! ## Packing only adds flags -/

section

variable (f : FloatFormat)

@[simp] theorem raise_none (env : FloatEnv) : env.raise ExcFlags.none = env := by
  simp [FloatEnv.raise, ExcFlags.none]

theorem detectTininess_raise (x : BitVec 128) (sign : Bool) (env : FloatEnv) : detectTininess f x sign env =
    env.raise (detectTininess f x sign { env with flags := ExcFlags.none }).flags := by
  simp only [detectTininess, FloatEnv.raise, ExcFlags.none]
  split_ifs <;> simp

theorem roundAssemble_raise (sign : Bool) (x : BitVec 128) (b : BitVec 32) (env : FloatEnv) :
    (roundAssemble f sign x b env).2 =
      env.raise (roundAssemble f sign x b { env with flags := ExcFlags.none }).2.flags := by
  simp only [roundAssemble, FloatEnv.raise, ExcFlags.none]
  split_ifs <;> simp

theorem raise_raise (env : FloatEnv) (a b : ExcFlags) : (env.raise a).raise b = env.raise (a ||| b) := by
  simp [FloatEnv.raise, BitVec.or_assoc]

theorem detectTininess_clear (x : BitVec 128) (sign : Bool) (env : FloatEnv) :
    { detectTininess f x sign env with flags := ExcFlags.none } = { env with flags := ExcFlags.none } := by
  rw [detectTininess_raise]
  rfl

theorem raised_of_eq {p : FloatParts} {env : FloatEnv} {fl : ExcFlags}
    (h : (roundPack f p { env with flags := ExcFlags.none }).2 = { env with flags := ExcFlags.none }.raise fl) :
    raised f p env = fl := by
  rw [raised, h]
  simp [FloatEnv.raise, ExcFlags.none]

/-- Packing changes nothing in the environment but its flags, and those only by raising. -/
theorem roundPack_raise (p : FloatParts) (env : FloatEnv) : (roundPack f p env).2 = env.raise (raised f p env) := by
  have hsub (s : Bool) (x : BitVec 128) : (roundAssemble f s x 0 (detectTininess f x s env)).2 =
      env.raise (roundAssemble f s x 0 (detectTininess f x s { env with flags := ExcFlags.none })).2.flags := by
    rw [roundAssemble_raise, roundAssemble_raise _ _ _ _ (detectTininess f x s { env with flags := ExcFlags.none }),
      detectTininess_clear, detectTininess_clear, detectTininess_raise f x s env]
    simp [FloatEnv.raise, BitVec.or_assoc]
  have hpack (q : FloatParts) : (pack f q env).2 =
      env.raise (pack f q { env with flags := ExcFlags.none }).2.flags := by
    simp only [pack]
    cases q.cls <;> simp
    split_ifs
    · simp
    · exact hsub _ _
    · exact roundAssemble_raise _ _ _ _ _
  rw [raised, roundPack, roundPack]
  cases p.cls <;> simp
  split_ifs
  · simp
  · exact hpack _

end

/-! ## The rounded number against the bounds of the format -/

section

variable (f : FloatFormat) {p : FloatParts} (env : FloatEnv) (hcls : p.cls = .normal) (hfrac : p.frac ≠ 0)
include hcls hfrac

theorem le_unbounded : 2 ^ Int.log 2 (magnitude p) ≤ unbounded f (direction env.roundMode p.sign) (magnitude p) := by
  have hge : ((2 ^ f.fracBits : ℕ) : ℚ) ≤ kept f p.sign (normalizeParts p).frac env := by
    exact_mod_cast kept_normal_ge f env hcls hfrac
  rw [unbounded_eq f env hcls hfrac]
  refine le_trans (le_of_eq ?_) (mul_le_mul_of_nonneg_right hge (by positivity))
  rw [Nat.cast_pow, Nat.cast_ofNat, ← zpow_natCast, ← zpow_add₀ two_ne_zero]
  congr 1
  ring

theorem unbounded_le :
    unbounded f (direction env.roundMode p.sign) (magnitude p) ≤ 2 ^ (Int.log 2 (magnitude p) + 1) := by
  have hle : (kept f p.sign (normalizeParts p).frac env : ℚ) ≤ ((2 ^ (f.fracBits + 1) : ℕ) : ℚ) := by
    exact_mod_cast kept_le f p.sign env (normalizeParts_leading hcls hfrac).lt
  rw [unbounded_eq f env hcls hfrac]
  refine (mul_le_mul_of_nonneg_right hle (by positivity)).trans (le_of_eq ?_)
  rw [Nat.cast_pow, Nat.cast_ofNat, ← zpow_natCast, ← zpow_add₀ two_ne_zero]
  congr 1
  push_cast
  ring

theorem unbounded_le_emin (h : biasedLog f (magnitude p) < 1) :
    unbounded f (direction env.roundMode p.sign) (magnitude p) ≤ 2 ^ emin f := by
  refine (unbounded_le f env hcls hfrac).trans (zpow_le_zpow_right₀ one_le_two ?_)
  rw [biasedLog] at h
  rw [emin]
  omega

theorem not_maxFinite_lt_of_subnormal (h : biasedLog f (magnitude p) < 1) :
    ¬maxFinite f < unbounded f (direction env.roundMode p.sign) (magnitude p) := by
  have hlt := subnormal_lt_maxFinite f (r := 2 ^ f.fracBits) le_rfl
  rw [emin_unit] at hlt
  exact ((unbounded_le_emin f env hcls hfrac h).trans hlt.le).not_gt

theorem not_tiny_of_normal (t : Tininess) (h : 1 ≤ biasedLog f (magnitude p)) :
    ¬Tiny f t (direction env.roundMode p.sign) (magnitude p) := by
  have hpos := magnitude_pos hcls hfrac
  cases t with
  | beforeRounding =>
    intro hlt
    have := (lt_two_pow_emin_iff f hpos).mp hlt
    omega
  | afterRounding =>
    have hle : (2 : ℚ) ^ emin f ≤ 2 ^ Int.log 2 (magnitude p) := by
      refine zpow_le_zpow_right₀ one_le_two ?_
      rw [biasedLog] at h
      rw [emin]
      omega
    exact (hle.trans (le_unbounded f env hcls hfrac)).not_gt

/-- Below the normal range, rounding with unbounded exponents stays below it
exactly when the number does not reach the smallest normal one on the finer grid. -/
theorem unbounded_lt_emin_iff (h : biasedLog f (magnitude p) < 1) :
    unbounded f (direction env.roundMode p.sign) (magnitude p) < 2 ^ emin f ↔
      ¬Reaches (direction env.roundMode p.sign) (2 ^ emin f) (2 ^ (emin f - f.fracBits - 1)) (magnitude p) := by
  have hle := unbounded_le_emin f env hcls hfrac h
  have hF := f.fracBits_pos
  rcases eq_or_ne (Int.log 2 (magnitude p) + 1) (emin f) with heq | hne
  · have hunit : emin f - f.fracBits - 1 = Int.log 2 (magnitude p) - f.fracBits := by omega
    have hpos : (0 : ℚ) < 2 ^ (Int.log 2 (magnitude p) - f.fracBits) := by positivity
    have htop : unbounded f (direction env.roundMode p.sign) (magnitude p) = 2 ^ emin f ↔
        kept f p.sign (normalizeParts p).frac env = 2 ^ (f.fracBits + 1) := by
      rw [unbounded_eq f env hcls hfrac, ← eq_div_iff hpos.ne', ← heq, ← zpow_sub₀ two_ne_zero,
        show Int.log 2 (magnitude p) + 1 - (Int.log 2 (magnitude p) - f.fracBits) = ((f.fracBits + 1 : ℕ) : ℤ) by
          push_cast; ring, zpow_natCast]
      exact_mod_cast Iff.rfl
    rw [hunit, ← heq, ← Carries, ← kept_normal_eq_top_iff f env hcls hfrac, ← htop, heq]
    exact ⟨fun hlt => hlt.ne, fun hn => hle.lt_of_ne hn⟩
  · have hlog : Int.log 2 (magnitude p) + 1 ≤ emin f - 1 := by
      rw [biasedLog] at h
      rw [emin] at hne ⊢
      omega
    have hlow : (2 : ℚ) ^ (Int.log 2 (magnitude p) + 1) ≤ 2 ^ (emin f - 1) := zpow_le_zpow_right₀ one_le_two hlog
    have hhalf : (2 : ℚ) ^ emin f = 2 * 2 ^ (emin f - 1) := by
      rw [← zpow_one_add₀ two_ne_zero]
      congr 1
      ring
    have hpos : (0 : ℚ) < 2 ^ (emin f - 1) := by positivity
    refine iff_of_true ?_ ?_
    · have := unbounded_le f env hcls hfrac
      linarith
    intro hr
    have hfine : (2 : ℚ) ^ (emin f - f.fracBits - 1) ≤ 2 ^ (emin f - 1) :=
      zpow_le_zpow_right₀ one_le_two (by omega)
    have hgt := (hr.coarsen hfine).lt hpos
    have hhi := Int.lt_zpow_succ_log_self (R := ℚ) one_lt_two (magnitude p)
    push_cast at hhi
    linarith

end

/-! ## The flags range by range -/

/-- A number below the normal range that rounds up to the smallest normal one
on the subnormal grid but not on the grid of unbounded exponents. -/
def TininessBand (f : FloatFormat) (d : Rounding) (x : ℚ) : Prop :=
  RoundsToNormal f d x ∧ ¬Reaches d (2 ^ emin f) (2 ^ (emin f - f.fracBits - 1)) x

section Ranges

variable (f : FloatFormat) {p : FloatParts} (env : FloatEnv)

theorem signalsRight_of_zero (hpack : ∀ e, roundPack f p e = (packZero f p.sign, e)) (hz : magnitude p = 0) :
    SignalsRight f p env := by
  have hraised : raised f p env = ExcFlags.none := by rw [raised, hpack]
  have hres : decode f (roundPack f p env).1 = .finite p.sign (magnitude p) := by
    rw [hpack, decode_packZero, hz]
  have hunb : unbounded f (direction env.roundMode p.sign) (magnitude p) = 0 := by
    rw [hz, unbounded, roundAt, zero_div, roundInt_eq _ (a := 0) (by simp) (by simp)]
    simp [fractPlace]
  have hmax := subnormal_lt_maxFinite f (r := 0) (Nat.zero_le _)
  rw [Nat.cast_zero, zero_mul] at hmax
  refine ⟨?_, ?_, ?_⟩ <;> rw [hraised]
  · exact iff_of_false (by decide) (fun h => h hres)
  · exact iff_of_false (by decide) (by rw [hunb]; exact hmax.not_gt)
  · exact iff_of_false (by decide) (fun h => h.1 hres)

variable (hcls : p.cls = .normal) (hfrac : p.frac ≠ 0)
include hcls hfrac

/-- The overflow result is never the exact value: rounding modes that keep the
largest finite number overflow only on larger ones. -/
theorem overflowDatum_ne_exact (h : maxFinite f < unbounded f (direction env.roundMode p.sign) (magnitude p)) :
    overflowDatum f (direction env.roundMode p.sign) p.sign ≠ .finite p.sign (magnitude p) := by
  have hpos := magnitude_pos hcls hfrac
  have hlarge (hc : ¬Carries f (direction env.roundMode p.sign) (magnitude p)) : maxFinite f ≠ magnitude p := by
    rw [maxFinite_lt_unbounded_iff f env hcls hfrac, carryStep,
      if_neg (mt (kept_normal_eq_top_iff f env hcls hfrac).mp hc), add_zero] at h
    have hpow : ((2 ^ f.expBits : ℕ) : ℤ) = 2 * (f.bias + 1) := by exact_mod_cast two_pow_expBits f
    push_cast at hpow
    have hlt := (maxFinite_lt_iff f (Int.log 2 (magnitude p)) le_rfl
      (Nat.pow_lt_pow_right (by decide) (by omega))).mpr (by rw [biasedLog] at h; rw [emax]; omega)
    have hle := Int.zpow_log_le_self (R := ℚ) one_lt_two hpos
    rw [Nat.cast_pow, Nat.cast_ofNat, ← zpow_natCast, ← zpow_add₀ two_ne_zero, add_sub_cancel] at hlt
    push_cast at hle
    exact (hlt.trans_le hle).ne
  cases hd : direction env.roundMode p.sign with
  | up | nearestEven | nearestAway => simp [overflowDatum]
  | down | odd =>
    have := hlarge (by rw [hd]; exact id)
    simpa [overflowDatum] using this

theorem signalsRight_of_normal (h₁ : 1 ≤ biasedLog f (magnitude p))
    (hfit : ExpFits f (direction env.roundMode p.sign) (magnitude p)) : SignalsRight f p env := by
  have htiny := not_tiny_of_normal f env hcls hfrac env.tininess h₁
  have hres := (roundPack_normal f env hcls hfrac h₁ hfit).1
  have hflags := (roundPack_normal f { env with flags := ExcFlags.none } hcls hfrac h₁ hfit).2
  rw [ieeeRound_normal f env h₁] at hres
  by_cases hmax : maxFinite f < unbounded f (direction env.roundMode p.sign) (magnitude p)
  · rw [if_pos hmax] at hres hflags
    have hraised := raised_of_eq f hflags
    refine ⟨?_, ?_, ?_⟩ <;> rw [hraised]
    · exact iff_of_true (by decide) (by rw [hres]; exact overflowDatum_ne_exact f env hcls hfrac hmax)
    · exact iff_of_true (by decide) hmax
    · exact iff_of_false (by decide) (fun h => htiny h.2)
  · rw [if_neg hmax] at hres hflags
    by_cases hexact : unbounded f (direction env.roundMode p.sign) (magnitude p) = magnitude p
    · rw [if_pos hexact] at hflags
      rw [hexact] at hres
      have hraised : raised f p env = ExcFlags.none := by rw [raised, hflags]
      refine ⟨?_, ?_, ?_⟩ <;> rw [hraised]
      · exact iff_of_false (by decide) (fun h => h hres)
      · exact iff_of_false (by decide) hmax
      · exact iff_of_false (by decide) (fun h => htiny h.2)
    · rw [if_neg hexact] at hflags
      have hraised := raised_of_eq f hflags
      refine ⟨?_, ?_, ?_⟩ <;> rw [hraised]
      · refine iff_of_true (by decide) ?_
        rw [hres]
        simpa using hexact
      · exact iff_of_false (by decide) hmax
      · exact iff_of_false (by decide) (fun h => htiny h.2)

section

variable (h₀ : -2 ^ 31 ≤ biasedLog f (magnitude p)) (h₁ : biasedLog f (magnitude p) < 1)
include h₀ h₁

/-- Whether the subnormal result differs from the exact value. -/
theorem decode_ne_exact_iff : decode f (roundPack f p env).1 ≠ .finite p.sign (magnitude p) ↔
      ¬(subnormalInt f (direction env.roundMode p.sign) (magnitude p) : ℚ) * 2 ^ (emin f - f.fracBits) =
      magnitude p := by
  have hpos := magnitude_pos hcls hfrac
  have hlt := (lt_two_pow_emin_iff f hpos).mpr h₁
  have hle := subnormalInt_le f hcls hfrac (direction env.roundMode p.sign) h₁
  rw [(roundPack_subnormal f env hcls hfrac h₀ h₁).1]
  simp only [ne_eq, Datum.finite.injEq, true_and]
  rcases hle.lt_or_eq with hr | hr
  · rw [Nat.mod_eq_of_lt hr]
  · rw [hr, Nat.mod_self, emin_unit, Nat.cast_zero, zero_mul]
    exact iff_of_true hpos.ne hlt.ne'

theorem signalsRight_iff_of_subnormal : SignalsRight f p env ↔
      ¬(env.tininess = .afterRounding ∧ TininessBand f (direction env.roundMode p.sign) (magnitude p)) := by
  have hpos := magnitude_pos hcls hfrac
  have hmax := not_maxFinite_lt_of_subnormal f env hcls hfrac h₁
  have hflags := (roundPack_subnormal f { env with flags := ExcFlags.none } hcls hfrac h₀ h₁).2
  have hdiff := decode_ne_exact_iff f env hcls hfrac h₀ h₁
  have htop := subnormalInt_eq_top_iff f hcls hfrac (direction env.roundMode p.sign) h₁
  have hle := subnormalInt_le f hcls hfrac (direction env.roundMode p.sign) h₁
  have hunb := unbounded_lt_emin_iff f env hcls hfrac h₁
  have hbefore := (lt_two_pow_emin_iff f hpos).mpr h₁
  have hfine (h : Reaches (direction env.roundMode p.sign) (2 ^ emin f) (2 ^ (emin f - f.fracBits - 1))
    (magnitude p)) :
      RoundsToNormal f (direction env.roundMode p.sign) (magnitude p) :=
    ⟨hbefore, h.coarsen (zpow_le_zpow_right₀ one_le_two (by omega))⟩
  by_cases hexact : (subnormalInt f (direction env.roundMode p.sign) (magnitude p) : ℚ) * 2 ^ (emin f - f.fracBits) =
      magnitude p
  · rw [if_pos hexact] at hflags
    have hraised : raised f p env = ExcFlags.none := by rw [raised, hflags]
    have hsame := not_not.mp (mt hdiff.mp (not_not.mpr hexact))
    have hnot : ¬RoundsToNormal f (direction env.roundMode p.sign) (magnitude p) := by
      intro hr
      rw [htop.mpr hr, emin_unit] at hexact
      exact hbefore.ne' hexact
    refine iff_of_true ⟨?_, ?_, ?_⟩ (fun h => hnot h.2.1) <;> rw [hraised]
    · exact iff_of_false (by decide) (fun h => h hsame)
    · exact iff_of_false (by decide) hmax
    · exact iff_of_false (by decide) (fun h => h.1 hsame)
  have hne := hdiff.mpr hexact
  rw [if_neg hexact] at hflags
  by_cases htiny : env.tininess = .beforeRounding ∨
      subnormalInt f (direction env.roundMode p.sign) (magnitude p) < 2 ^ f.fracBits
  · rw [if_pos htiny, raise_raise] at hflags
    have hraised := raised_of_eq f hflags
    have hnot (hr : RoundsToNormal f (direction env.roundMode p.sign) (magnitude p)) :
        env.tininess = .beforeRounding := htiny.resolve_right (htop.mpr hr).not_lt
    have htiny' : Tiny f env.tininess (direction env.roundMode p.sign) (magnitude p) := by
      cases ht : env.tininess with
      | beforeRounding => exact hbefore
      | afterRounding =>
        refine hunb.mpr (fun hr => ?_)
        have := hnot (hfine hr)
        rw [ht] at this
        cases this
    refine iff_of_true ⟨?_, ?_, ?_⟩ ?_
    · rw [hraised]
      exact iff_of_true (by decide) hne
    · rw [hraised]
      exact iff_of_false (by decide) hmax
    · rw [hraised]
      exact iff_of_true (by decide) ⟨hne, htiny'⟩
    rintro ⟨hafter, hband, -⟩
    rw [hnot hband] at hafter
    cases hafter
  · rw [if_neg htiny] at hflags
    have hraised := raised_of_eq f hflags
    obtain ⟨hb, hr⟩ := not_or.mp htiny
    have hafter : env.tininess = .afterRounding := by
      cases ht : env.tininess with
      | beforeRounding => exact absurd ht hb
      | afterRounding => rfl
    have hnormal := htop.mp (hle.antisymm (not_lt.mp hr))
    have hkey : SignalsRight f p env ↔ ¬Tiny f env.tininess (direction env.roundMode p.sign) (magnitude p) := by
      constructor
      · intro hs ht
        have := hs.underflow.mpr ⟨hne, ht⟩
        rw [hraised] at this
        exact absurd this (by decide)
      · intro ht
        refine ⟨?_, ?_, ?_⟩ <;> rw [hraised]
        · exact iff_of_true (by decide) hne
        · exact iff_of_false (by decide) hmax
        · exact iff_of_false (by decide) (fun h => ht h.2)
    rw [hkey, hafter, TininessBand, and_iff_right rfl, and_iff_right hnormal, not_iff_not]
    exact hunb

end

/-- An exponent that wraps around raises the wrong flags. -/
theorem not_signalsRight_of_not_fits (h : ¬ExpFits f (direction env.roundMode p.sign) (magnitude p)) :
    ¬SignalsRight f p env := by
  intro hs
  have hpos := magnitude_pos hcls hfrac
  have hpow := two_pow_expBits_le f
  have hstep := carryStep_bounds f env (p := p)
  rcases lt_or_ge (biasedLog f (magnitude p)) (-2 ^ 31) with hlow | hlow
  · have hmax := not_maxFinite_lt_of_subnormal f env hcls hfrac (by omega)
    by_cases hc : biasedLog f (magnitude p) = -2 ^ 31 - 1 ∧ Carries f (direction env.roundMode p.sign) (magnitude p)
    · -- two wrap-arounds: the result is exact in neither sense, but underflow is not raised
      have hword := biasedWord_of_low f hcls hfrac hlow
      have hres := (roundPack_carry_wraps f env hcls hfrac (by omega) hc.2).1
      have hraised := raised_of_eq f
        (roundPack_carry_wraps f { env with flags := ExcFlags.none } hcls hfrac (by omega) hc.2).2
      have hbefore := (lt_two_pow_emin_iff f hpos).mpr (by omega : biasedLog f (magnitude p) < 1)
      have hne : decode f (roundPack f p env).1 ≠ .finite p.sign (magnitude p) := by
        rw [hres]
        simp only [ne_eq, Datum.finite.injEq, true_and]
        cases f.hasExplicitInt
        · simpa using hpos.ne
        · rw [if_pos rfl, emin_unit]
          exact hbefore.ne'
      have htiny : Tiny f env.tininess (direction env.roundMode p.sign) (magnitude p) := by
        cases env.tininess with
        | beforeRounding => exact hbefore
        | afterRounding =>
          refine (unbounded_le f env hcls hfrac).trans_lt (zpow_lt_zpow_right₀ one_lt_two ?_)
          rw [biasedLog] at hlow
          rw [emin]
          omega
      have := hs.underflow.mpr ⟨hne, htiny⟩
      rw [hraised] at this
      exact absurd this (by decide)
    · have hflags := roundPack_wrapped_low f { env with flags := ExcFlags.none } hcls hfrac hlow hc
      have hraised := raised_of_eq f (congrArg Prod.snd hflags)
      have := hs.overflow.mp (by rw [hraised]; decide)
      exact hmax this
  · have hhigh : 2 ^ 31 ≤ biasedLog f (magnitude p) ∨ biasedLog f (magnitude p) = 2 ^ 31 - 1 ∧
        Carries f (direction env.roundMode p.sign) (magnitude p) := by
      by_contra hn
      obtain ⟨hlt, hc⟩ := not_or.mp hn
      exact h ⟨hlow, by omega, hc⟩
    have hover := hs.overflow.mpr ((maxFinite_lt_unbounded_iff f env hcls hfrac).mpr (by omega))
    rcases hhigh with hhigh | ⟨htop, hc⟩
    · rcases (roundPack_wrapped_high f { env with flags := ExcFlags.none } hcls hfrac hhigh).2 with hflags | hflags
      · rw [raise_raise] at hflags
        rw [raised_of_eq f hflags] at hover
        exact absurd hover (by decide)
      · rw [raised_of_eq f hflags] at hover
        exact absurd hover (by decide)
    · have hword := biasedWord_of_fits f hcls hfrac hlow (by omega)
      rw [raised_of_eq f (roundPack_carry_wraps f { env with flags := ExcFlags.none } hcls hfrac (by omega) hc).2]
        at hover
      exact absurd hover (by decide)

end Ranges

/-- Packing a finite number adds flags and nothing else to the environment, and
they are the right ones exactly when the number is zero, or its biased exponent
fits its word and, with tininess detected after rounding, it lies outside the
band just below the smallest normal number. -/
theorem roundPack_signals_iff (f : FloatFormat) (p : FloatParts) (env : FloatEnv)
    (hcls : p.cls = .normal ∨ p.cls = .zero) : (roundPack f p env).2 = env.raise (raised f p env) ∧
      (SignalsRight f p env ↔ magnitude p = 0 ∨ ExpFits f (direction env.roundMode p.sign) (magnitude p) ∧
        ¬(env.tininess = .afterRounding ∧ TininessBand f (direction env.roundMode p.sign) (magnitude p))) := by
  refine ⟨roundPack_raise f p env, ?_⟩
  by_cases hzero : p.cls = .zero ∨ p.frac = 0
  · have hmag : magnitude p = 0 := by
      rw [magnitude]
      rcases hzero with h | h
      · rw [if_pos h]
      · rw [h]
        simp
    have hpack (e : FloatEnv) : roundPack f p e = (packZero f p.sign, e) := by
      rw [roundPack]
      rcases hcls with h | h <;> rw [h]
      rw [h] at hzero
      exact if_pos (hzero.resolve_left (by decide))
    exact iff_of_true (signalsRight_of_zero f env hpack hmag) (.inl hmag)
  obtain ⟨hnz, hfrac⟩ := not_or.mp hzero
  have hnormal := hcls.resolve_right hnz
  have hpos := magnitude_pos hnormal hfrac
  rw [or_iff_right hpos.ne']
  by_cases hfit : ExpFits f (direction env.roundMode p.sign) (magnitude p)
  · rw [and_iff_right hfit]
    rcases lt_or_ge (biasedLog f (magnitude p)) 1 with hsub | hge
    · exact signalsRight_iff_of_subnormal f env hnormal hfrac hfit.1 hsub
    refine iff_of_true (signalsRight_of_normal f env hnormal hfrac hge hfit) ?_
    rintro ⟨-, ⟨hlt, -⟩, -⟩
    have := (lt_two_pow_emin_iff f hpos).mp hlt
    omega
  · exact iff_of_false (not_signalsRight_of_not_fits f env hnormal hfrac hfit) (fun h => hfit h.1)

theorem roundPack_signals_overOne :
    overOne.cls = .normal ∧ SignalsRight .float32 overOne ⟨.nearEven, 0#8, .afterRounding, false⟩ :=
  ⟨rfl, (roundPack_signals_iff .float32 overOne ⟨.nearEven, 0#8, .afterRounding, false⟩ (.inl rfl)).2.mpr
    (.inr ⟨expFits_overOne _, fun h => not_roundsToNormal_overOne _ h.2.1⟩)⟩

/-- Three eighths of the smallest subnormal number below the smallest normal half-precision number. -/
def inBand : FloatParts := ⟨false, -15#32, 8189#128 <<< 114, .normal⟩

theorem magnitude_inBand : magnitude inBand = 8189 / 2 ^ 27 := by
  rw [magnitude, if_neg (by decide), show inBand.exp.toInt = -15 by decide,
    show inBand.frac.toNat = 8189 * 2 ^ 114 by decide]
  norm_num

theorem unbounded_inBand : unbounded .float16 .nearestEven (magnitude inBand) = 2047 / 2 ^ 25 := by
  have hlog : Int.log 2 (magnitude inBand) = -15 := by
    refine log_eq_of_binade ?_ ?_ <;> rw [magnitude_inBand] <;> norm_num
  have hplace : fractPlace ((8189 / 2 ^ 27 / 2 ^ (-25 : ℤ) : ℚ) - (2047 : ℕ)) = .below := by norm_num [fractPlace]
  rw [unbounded, hlog, magnitude_inBand, show (-15 : ℤ) - (FloatFormat.float16.fracBits : ℤ) = -25 from rfl, roundAt,
    roundInt_eq .nearestEven (a := 2047) (by norm_num) (by norm_num), hplace]
  norm_num [Rounding.increments]

/-- Its rounding with unbounded exponents is tiny and the result is inexact,
but underflow is not raised. -/
theorem inBand_raises_no_underflow : raised .float16 inBand ⟨.nearEven, 0#8, .afterRounding, false⟩ =
    ExcFlags.inexact ∧
      ¬SignalsRight .float16 inBand ⟨.nearEven, 0#8, .afterRounding, false⟩ := by
  have hraised : raised .float16 inBand ⟨.nearEven, 0#8, .afterRounding, false⟩ = ExcFlags.inexact := by decide
  have hbits : (roundPack .float16 inBand ⟨.nearEven, 0#8, .afterRounding, false⟩).1.toNat =
      (packZero .float16 false).toNat := by decide
  refine ⟨hraised, fun hs => ?_⟩
  have htiny : Tiny .float16 .afterRounding .nearestEven (magnitude inBand) := by
    rw [Tiny, unbounded_inBand, show emin .float16 = -14 from rfl]
    norm_num
  have hne : decode .float16 (roundPack .float16 inBand ⟨.nearEven, 0#8, .afterRounding, false⟩).1 ≠
      .finite false (magnitude inBand) := by
    rw [BitVec.eq_of_toNat_eq hbits, decode_packZero, magnitude_inBand]
    norm_num
  have := hs.underflow.mpr ⟨hne, htiny⟩
  rw [hraised] at this
  exact absurd this (by decide)

end MachinaRoundFlags
