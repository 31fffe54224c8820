import Machina.SoftfloatWords

/-!
# Unpacking and NaN propagation

An encoding is split into parts whose fraction has its integer bit at position
126; zeros, infinities and NaNs have exponent zero.
-/
namespace MachinaFloatUnpack

open MachinaBits MachinaSoftfloat MachinaSoftfloatWords

def unpackSubnormal (f : FloatFormat) (sign : Bool) (rawFrac : BitVec 128) : FloatParts :=
  let frac := rawFrac <<< (intBit - f.fracBits)
  let shift := frac.clz.toNat - (127 - intBit)
  ⟨sign, BitVec.ofInt 32 (1 - f.bias) - BitVec.ofNat 32 shift, frac <<< shift, .normal⟩

/-- The parts of an encoding whose exponent field is all ones. -/
def unpackSpecial (f : FloatFormat) (sign : Bool) (rawFrac : BitVec 128) : FloatParts :=
  let payload := if f.hasExplicitInt then rawFrac &&& ((1#128 <<< f.fracBits) - 1) else rawFrac
  if payload = 0 then
    -- an x80 infinity without its integer bit is a NaN
    if f.hasExplicitInt && (rawFrac >>> f.fracBits) &&& 1 == 0 then ⟨sign, 0, 1#128 <<< (intBit - 1), .qNaN⟩
    else ⟨sign, 0, 0, .inf⟩
  else
    let isQuiet := (rawFrac >>> (f.fracBits - 1)) &&& 1 != 0
    ⟨sign, 0, payload <<< (intBit - f.fracBits), if isQuiet then .qNaN else .sNaN⟩

def unpack (f : FloatFormat) (val : BitVec f.totalBits) : FloatParts :=
  let bits := val.setWidth 128
  let rawFrac := bits &&& ((1#128 <<< f.fracTotal) - 1)
  let rawExp := ((bits >>> f.fracTotal) &&& ((1#128 <<< f.expBits) - 1)).setWidth 32
  let sign := (bits >>> (f.fracTotal + f.expBits)) &&& 1 != 0
  if rawExp = (1#32 <<< f.expBits) - 1 then unpackSpecial f sign rawFrac
  else if rawExp = 0 then
    if rawFrac = 0 then ⟨sign, 0, 0, .zero⟩ else unpackSubnormal f sign rawFrac
  else
    let frac := rawFrac <<< (intBit - f.fracBits)
    ⟨sign, rawExp - BitVec.ofNat 32 f.bias, if f.hasExplicitInt then frac else (1#128 <<< intBit) ||| frac, .normal⟩

def isNan (p : FloatParts) : Bool := p.cls = .qNaN || p.cls = .sNaN

def quieten (p : FloatParts) : FloatParts :=
  if p.cls = .sNaN then { p with cls := .qNaN, frac := p.frac ||| (1#128 <<< (intBit - 1)) } else p

def nanPropagate (a b : FloatParts) (env : FloatEnv) : FloatParts × FloatEnv :=
  let env := if a.cls = .sNaN || b.cls = .sNaN then env.raise ExcFlags.invalid else env
  let pick := if a.cls = .sNaN then a else if b.cls = .sNaN then b else if a.cls = .qNaN then a else b
  (if env.defaultNan then FloatParts.defaultNan else quieten pick, env)

variable {f : FloatFormat}

theorem unpack_zero {val : BitVec f.totalBits} (h : (unpack f val).cls = .zero) :
    (unpack f val).exp = 0 ∧ (unpack f val).frac = 0 := by
  revert h
  unfold unpack unpackSpecial unpackSubnormal
  grind

/-- The exponent and the fraction of a number stay well inside their words. -/
def Bounded (p : FloatParts) : Prop := -2 ^ 16 < p.exp.toInt ∧ p.exp.toInt < 2 ^ 16 ∧ p.frac.toNat < 2 ^ 127

theorem toInt_sub_small {b : ℤ} {x : BitVec 32} (hx : x.toNat < 2 ^ 15) (hb0 : -2 ^ 15 < b) (hb1 : b < 2 ^ 15) :
    (BitVec.ofInt 32 b - x).toInt = b - x.toNat := by
  rw [BitVec.toInt_sub, BitVec.toInt_ofInt, BitVec.toInt_eq_toNat_of_lt (by omega)]
  simp only [Int.bmod_def]
  omega

theorem toInt_sub_bias {e : BitVec 32} (he : e.toNat < 2 ^ 15) :
    (e - BitVec.ofNat 32 f.bias).toInt = e.toNat - f.bias := by
  have hbias := bias_bounds f
  rw [BitVec.toInt_sub, BitVec.toInt_eq_toNat_of_lt (by omega), BitVec.toInt_eq_toNat_of_lt (by simp; omega)]
  simp only [Int.bmod_def, BitVec.toNat_ofNat]
  omega

theorem raised_lt {n : ℕ} (h : n < 2 ^ f.fracTotal) : n * 2 ^ (intBit - f.fracBits) < 2 ^ 127 := by
  have hle := fracBits_le f
  have hcases := fracTotal_cases f
  calc n * 2 ^ (intBit - f.fracBits)
      < 2 ^ f.fracTotal * 2 ^ (intBit - f.fracBits) := Nat.mul_lt_mul_of_pos_right h (Nat.two_pow_pos _)
    _ ≤ 2 ^ 127 := by
      rw [← pow_add, intBit]
      exact Nat.pow_le_pow_right (by decide) (by omega)

theorem toNat_raised {x : BitVec 128} (h : x.toNat < 2 ^ f.fracTotal) :
    (x <<< (intBit - f.fracBits)).toNat = x.toNat * 2 ^ (intBit - f.fracBits) := by
  rw [BitVec.toNat_shiftLeft, Nat.shiftLeft_eq]
  exact Nat.mod_eq_of_lt ((raised_lt h).trans (by decide))

theorem two_pow_intBit (f : FloatFormat) : 2 ^ intBit = 2 ^ f.fracBits * 2 ^ (intBit - f.fracBits) := by
  have hle := fracBits_le f
  rw [← pow_add, Nat.add_sub_cancel' (by rw [intBit]; omega)]

/-- The significand with its integer bit, stored or implied. -/
theorem toNat_significand {x : BitVec 128} (h : x.toNat < 2 ^ f.fracTotal) :
    (if f.hasExplicitInt then x <<< (intBit - f.fracBits)
      else (1#128 <<< intBit) ||| x <<< (intBit - f.fracBits)).toNat =
      (if f.hasExplicitInt then x.toNat else 2 ^ f.fracBits + x.toNat) * 2 ^ (intBit - f.fracBits) := by
  have hraised := toNat_raised h
  rcases fracTotal_cases f with ⟨hint, htotal⟩ | ⟨hint, htotal⟩
  · rw [if_pos hint, if_pos hint, hraised]
  · have hlow : x.toNat * 2 ^ (intBit - f.fracBits) < 2 ^ intBit := by
      rw [two_pow_intBit f]
      exact Nat.mul_lt_mul_of_pos_right (htotal ▸ h) (Nat.two_pow_pos _)
    rw [if_neg (by simp [hint]), if_neg (by simp [hint]), BitVec.toNat_or, toNat_one_shiftLeft (by decide), hraised,
      ← Nat.one_shiftLeft, ← Nat.shiftLeft_add_eq_or_of_lt hlow, Nat.one_shiftLeft, two_pow_intBit f, add_mul]

/-- A subnormal number is shifted until its leading bit is the integer bit, and its exponent is lowered as far. -/
theorem unpackSubnormal_spec (sign : Bool) {x : BitVec 128} (h : x.toNat < 2 ^ f.fracTotal) : ∃ s ≤ 127,
    (unpackSubnormal f sign x).exp.toInt = 1 - f.bias - (s : ℕ) ∧
      (unpackSubnormal f sign x).frac.toNat = x.toNat * 2 ^ (intBit - f.fracBits) * 2 ^ s ∧
      (unpackSubnormal f sign x).frac.toNat < 2 ^ 127 ∧
      (x.toNat ≠ 0 → 2 ^ 126 ≤ (unpackSubnormal f sign x).frac.toNat) := by
  have hraised := toNat_raised h
  have hlt := hraised ▸ raised_lt h
  have hbias := bias_bounds f
  simp only [unpackSubnormal]
  generalize x <<< (intBit - f.fracBits) = y at *
  have hc : y.clz.toNat ≤ 128 := BitVec.clz_le (x := y)
  have hpos : y.clz.toNat ≠ 0 := fun h0 => by
    have := (BitVec.clz_eq_zero_iff (x := y) (by decide)).mp h0
    omega
  have hbit : 127 - intBit = 1 := rfl
  have htop : y.toNat * 2 ^ (y.clz.toNat - 1) < 2 ^ 127 := by
    calc y.toNat * 2 ^ (y.clz.toNat - 1)
        < 2 ^ (128 - y.clz.toNat) * 2 ^ (y.clz.toNat - 1) :=
          Nat.mul_lt_mul_of_pos_right BitVec.toNat_lt_two_pow_sub_clz (Nat.two_pow_pos _)
      _ = 2 ^ 127 := by rw [← pow_add]; congr 1; omega
  have hfrac : (y <<< (y.clz.toNat - 1)).toNat = y.toNat * 2 ^ (y.clz.toNat - 1) := by
    rw [BitVec.toNat_shiftLeft, Nat.shiftLeft_eq]
    exact Nat.mod_eq_of_lt (by omega)
  rw [hbit, toInt_sub_small (by simp; omega) (by omega) (by omega), hfrac, hraised.symm]
  refine ⟨y.clz.toNat - 1, by omega, by simp; omega, rfl, htop, fun hne => ?_⟩
  have hy : y ≠ 0#128 := by
    rintro rfl
    exact (Nat.mul_ne_zero hne (Nat.two_pow_pos _).ne') (hraised.symm.trans (by simp))
  have hclz : y.clz.toNat < 128 := by
    by_contra hge
    have hlow := BitVec.toNat_lt_two_pow_sub_clz (x := y)
    rw [show 128 - y.clz.toNat = 0 by omega] at hlow
    exact hy (BitVec.eq_of_toNat_eq (by simpa using hlow))
  calc 2 ^ 126 = 2 ^ (128 - 1 - y.clz.toNat) * 2 ^ (y.clz.toNat - 1) := by rw [← pow_add]; congr 1; omega
    _ ≤ y.toNat * 2 ^ (y.clz.toNat - 1) :=
      Nat.mul_le_mul_right _ (BitVec.two_pow_sub_clz_le_toNat_of_ne_zero (by decide) hy)

/-! ### The fields of an encoding -/

section

variable (f : FloatFormat) (val : BitVec f.totalBits)

def encSign : Bool := val.getLsbD (f.fracTotal + f.expBits)
def encExp : ℕ := val.toNat / 2 ^ f.fracTotal % 2 ^ f.expBits
def encFrac : ℕ := val.toNat % 2 ^ f.fracTotal

theorem encExp_lt : encExp f val < 2 ^ f.expBits := Nat.mod_lt _ (Nat.two_pow_pos _)
theorem encFrac_lt : encFrac f val < 2 ^ f.fracTotal := Nat.mod_lt _ (Nat.two_pow_pos _)

theorem unpack_eq : ∃ (e : BitVec 32) (x : BitVec 128), e.toNat = encExp f val ∧ x.toNat = encFrac f val ∧
    e.toNat < 2 ^ 15 ∧ x.toNat < 2 ^ f.fracTotal ∧ unpack f val =
      if encExp f val = 2 ^ f.expBits - 1 then unpackSpecial f (encSign f val) x
      else if encExp f val = 0 then
        if encFrac f val = 0 then ⟨encSign f val, 0, 0, .zero⟩ else unpackSubnormal f (encSign f val) x
      else
        let frac := x <<< (intBit - f.fracBits)
        ⟨encSign f val, e - BitVec.ofNat 32 f.bias,
          if f.hasExplicitInt then frac else (1#128 <<< intBit) ||| frac, .normal⟩ := by
  have htotal := expBits_add_fracTotal_lt f
  have hexpBits := f.expBits_le
  have hsmall : encExp f val < 2 ^ 15 := (encExp_lt f val).trans_le (Nat.pow_le_pow_right (by decide) hexpBits)
  have hbits : (val.setWidth 128).toNat = val.toNat :=
    BitVec.toNat_setWidth_of_le (by rw [FloatFormat.totalBits]; omega)
  have hshift (k : ℕ) : (val.setWidth 128 >>> k).toNat = val.toNat / 2 ^ k := by
    rw [BitVec.toNat_ushiftRight, hbits, Nat.shiftRight_eq_div_pow]
  have hsign : (val.setWidth 128 >>> (f.fracTotal + f.expBits) &&& 1 != 0) = encSign f val := by
    have hlow : (val.setWidth 128 >>> (f.fracTotal + f.expBits) &&& 1).toNat =
        val.toNat / 2 ^ (f.fracTotal + f.expBits) % 2 := by
      simp [BitVec.toNat_and, hshift]
    rw [Bool.eq_iff_iff, toNat_ne_zero_iff, hlow, encSign, BitVec.getLsbD, Nat.testBit_eq_decide_div_mod_eq,
      decide_eq_true_iff]
    omega
  have hfrac : (val.setWidth 128 &&& ((1#128 <<< f.fracTotal) - 1)).toNat = encFrac f val :=
    (toNat_and_low _ (by omega)).trans (by rw [hbits, encFrac])
  have hexp : ((val.setWidth 128 >>> f.fracTotal &&& ((1#128 <<< f.expBits) - 1)).setWidth 32).toNat =
    encExp f val := by
    rw [BitVec.toNat_setWidth]
    refine (congrArg (· % 2 ^ 32) ((toNat_and_low _ (expBits_lt f)).trans (by rw [hshift]))).trans ?_
    exact Nat.mod_eq_of_lt (hsmall.trans (by decide))
  have hmax : ((1#32 <<< f.expBits) - 1).toNat = 2 ^ f.expBits - 1 := toNat_shiftLeft_sub_one (by omega)
  refine ⟨_, _, hexp, hfrac, hexp ▸ hsmall, hfrac ▸ encFrac_lt f val, ?_⟩
  unfold unpack
  dsimp only
  rw [hsign]
  simp only [← BitVec.toNat_inj, hexp, hfrac, hmax]
  rfl

end

theorem unpack_bounded {val : BitVec f.totalBits} (h : (unpack f val).cls = .normal) : Bounded (unpack f val) := by
  obtain ⟨e, x, -, -, helt, hxlt, heq⟩ := unpack_eq f val
  have hbias := bias_bounds f
  have hlt := toNat_raised hxlt ▸ raised_lt hxlt
  have hsub := toInt_sub_bias (f := f) helt
  revert h
  rw [heq]
  dsimp only
  split_ifs with hmax hzero hfrac hint
  · unfold unpackSpecial
    grind
  · exact nofun
  · intro _
    obtain ⟨s, hs, hexp, -, hfrac, -⟩ := unpackSubnormal_spec (encSign f val) hxlt
    exact ⟨by omega, by omega, hfrac⟩
  · exact fun _ => ⟨by dsimp only; omega, by dsimp only; omega, hlt⟩
  intro _
  refine ⟨by dsimp only; omega, by dsimp only; omega, ?_⟩
  rw [BitVec.toNat_or, toNat_one_shiftLeft (by decide)]
  exact Nat.or_lt_two_pow (by decide) hlt

end MachinaFloatUnpack
