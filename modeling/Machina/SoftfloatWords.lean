import Machina.Bits
import Machina.SoftfloatSpec

/-!
# The packing code read as arithmetic on numbers

Each word operation of the packing code is the matching operation on natural
numbers: shifting with a sticky bit is jamming, rounding at the format's
position is integer rounding there, and assembling adds up the three fields.
-/
namespace MachinaSoftfloatWords

open MachinaBits
open MachinaFloatRound
open MachinaSoftfloat
open MachinaSoftfloatSpec

section Words

variable (x : BitVec 128)

theorem toNat_ne_zero_iff : (x != 0) = true ↔ x.toNat ≠ 0 := by
  rw [bne_iff_ne, ne_eq, ← BitVec.toNat_inj]
  rfl

theorem toNat_shiftRightSticky {k : ℕ} (hk : k < 128) : (shiftRightSticky x k).toNat = jam x.toNat k := by
  rw [shiftRightSticky, BitVec.toNat_or, BitVec.toNat_ushiftRight, Nat.shiftRight_eq_div_pow, jam]
  congr 1
  by_cases h : x.toNat % 2 ^ k = 0
  · have hz : ¬(x &&& ((1#128 <<< k) - 1) != 0) = true := by
      rw [toNat_ne_zero_iff]
      exact fun hne => hne (by rw [show (1 : BitVec 128) = 1#128 from rfl, toNat_and_low x hk, h])
    rw [if_neg hz, if_pos h]
    rfl
  · have hnz : (x &&& ((1#128 <<< k) - 1) != 0) = true := by
      rw [toNat_ne_zero_iff, show (1 : BitVec 128) = 1#128 from rfl, toNat_and_low x hk]
      exact h
    rw [if_pos hnz, if_neg h]
    rfl

end Words

section Format

variable (f : FloatFormat)

theorem fracBits_le : f.fracBits ≤ 124 := by
  have h1 := f.total_le
  have h2 := f.three_le_expBits
  omega

theorem roundPos_eq : roundPos f = 126 - f.fracBits := rfl

theorem two_le_roundPos : 2 ≤ roundPos f := by
  have := fracBits_le f
  rw [roundPos_eq]
  omega

theorem roundPos_lt : roundPos f < 126 := by
  have := f.fracBits_pos
  rw [roundPos_eq]
  omega

theorem roundPos_add_fracBits : roundPos f + f.fracBits = 126 := by
  have := fracBits_le f
  rw [roundPos_eq]
  omega

variable (x : BitVec 128)

theorem toNat_and_roundMask : (x &&& roundMask f).toNat = x.toNat % 2 ^ roundPos f :=
  toNat_and_low x (by have := roundPos_lt f; omega)

theorem toNat_half : (half f).toNat = 2 ^ (roundPos f - 1) :=
  toNat_one_shiftLeft (by have := roundPos_lt f; omega)

theorem toNat_truncated : (x &&& ~~~roundMask f).toNat = x.toNat / 2 ^ roundPos f * 2 ^ roundPos f :=
  toNat_clear_low x (by have := roundPos_lt f; omega)

theorem roundMask_add_one : roundMask f + 1 = 1#128 <<< roundPos f := BitVec.sub_add_cancel _ _

/-- Rounding up moves to the next multiple: the fraction's top bit is free for the carry. -/
theorem toNat_truncated_add (hx : x.toNat < 2 ^ 127) :
    ((x &&& ~~~roundMask f) + (roundMask f + 1)).toNat = (x.toNat / 2 ^ roundPos f + 1) * 2 ^ roundPos f := by
  have hlt := roundPos_lt f
  have hle := Nat.div_mul_le_self x.toNat (2 ^ roundPos f)
  have hpow : 2 ^ roundPos f ≤ 2 ^ 126 := Nat.pow_le_pow_right (by decide) (by omega)
  rw [BitVec.toNat_add, toNat_truncated, roundMask_add_one, toNat_one_shiftLeft (by omega), add_mul, one_mul,
    Nat.mod_eq_of_lt (by omega)]

/-- Setting the lowest kept bit moves an even multiple to the next one. -/
theorem toNat_truncated_or : ((x &&& ~~~roundMask f) ||| (roundMask f + 1)).toNat =
      (x.toNat / 2 ^ roundPos f + (!(x.toNat / 2 ^ roundPos f % 2 == 1)).toNat) * 2 ^ roundPos f := by
  set a := x.toNat / 2 ^ roundPos f with ha
  have hor : a * 2 ^ roundPos f ||| 2 ^ roundPos f = (a ||| 1) * 2 ^ roundPos f := by
    rw [← Nat.shiftLeft_eq, ← Nat.shiftLeft_eq, Nat.shiftLeft_or_distrib, Nat.one_shiftLeft]
  rw [BitVec.toNat_or, toNat_truncated, roundMask_add_one, toNat_one_shiftLeft (by have := roundPos_lt f; omega),
    hor, or_one]
  by_cases hodd : a % 2 = 1 <;> simp [hodd, beq_eq_decide]

theorem lsbSet_eq : ((x >>> (roundMask f).cpop.toNat) &&& 1 != 0) = (x.toNat / 2 ^ roundPos f % 2 == 1) := by
  have hpos : (roundMask f).cpop.toNat = roundPos f := toNat_cpop_low (by have := roundPos_lt f; omega)
  have hval : ((x >>> roundPos f) &&& 1).toNat = x.toNat / 2 ^ roundPos f % 2 := by
    simp [BitVec.toNat_and, BitVec.toNat_ushiftRight, Nat.shiftRight_eq_div_pow]
  rw [hpos, Bool.eq_iff_iff, toNat_ne_zero_iff, hval, beq_iff_eq]
  omega

/-- The place of a remainder against one half decides the rounding as the comparisons of the code do. -/
theorem increments_remPlace (r : BitVec 128) {h : BitVec 128} (hh : h.toNat ≠ 0) (isOdd : Bool) (rm : RoundMode)
    (sign : Bool) : (direction rm sign).increments isOdd (remPlace r.toNat h.toNat) =
      match rm with
      | .nearEven => if h < r then true else if r = h then isOdd else false
      | .nearMaxMag => decide (h ≤ r)
      | .toZero => false
      | .down => sign && r != 0
      | .up => !sign && r != 0
      | .odd => r != 0 && !isOdd := by
  cases rm <;> cases sign <;>
    rcases remPlace_cases r.toNat h.toNat with ⟨h0, hp⟩ | ⟨h0, hc, hp⟩ | ⟨h0, hc, hp⟩ | ⟨h0, hc, hp⟩ <;>
    simp [direction, Rounding.increments, hp, BitVec.lt_def, BitVec.le_def, ← BitVec.toNat_inj] <;>
    grind

/-- Rounding at the format's position is integer rounding of the kept bits. -/
theorem toNat_roundFrac (hx : x.toNat < 2 ^ 127) (rm : RoundMode) (sign : Bool) :
    (roundFrac f x rm sign).toNat = roundShift (direction rm sign) x.toNat (roundPos f) * 2 ^ roundPos f := by
  have hup := toNat_truncated_add f x hx
  have htr := toNat_truncated f x
  have hstep (b : Bool) : (if b then (x &&& ~~~roundMask f) + (roundMask f + 1) else x &&& ~~~roundMask f).toNat =
      (x.toNat / 2 ^ roundPos f + b.toNat) * 2 ^ roundPos f := by
    cases b
    · exact htr
    · exact hup
  have hhalf : (half f).toNat ≠ 0 := toNat_half f ▸ (Nat.two_pow_pos _).ne'
  rw [roundFrac, roundShift, ← toNat_and_roundMask, ← toNat_half, increments_remPlace _ hhalf]
  cases rm with
  | nearEven =>
    simp only [applyRounding, lsbSet_eq]
    by_cases h1 : half f < x &&& roundMask f
    · simpa [h1] using hup
    by_cases h2 : x &&& roundMask f = half f
    · simpa [h1, h2] using hstep (x.toNat / 2 ^ roundPos f % 2 == 1)
    · simpa [h1, h2] using htr
  | nearMaxMag => simpa [applyRounding] using hstep (decide (half f ≤ x &&& roundMask f))
  | toZero => exact hstep false
  | down | up => exact hstep _
  | odd =>
    simp only [applyRounding]
    split_ifs with h
    · rw [toNat_truncated_or, h, Bool.true_and]
    · rw [Bool.eq_false_of_not_eq_true h]
      exact hstep false

/-! ## Assembled words -/

theorem expBits_add_fracTotal_lt : f.fracTotal + f.expBits < 128 := by
  have := f.total_le
  rw [FloatFormat.fracTotal]
  omega

variable (sign : Bool)

theorem toNat_signBit :
    (signBit sign (f.fracTotal + f.expBits)).toNat = (sign.toNat * 2 ^ f.expBits) * 2 ^ f.fracTotal := by
  cases sign
  · simp [signBit]
  · rw [signBit, if_pos rfl, toNat_one_shiftLeft (expBits_add_fracTotal_lt f), pow_add]
    simp [mul_comm]

/-- Three fields side by side: of the exponent word only the field's bits and
the one above it, which shares the sign's position, are kept. -/
theorem toNat_fromBits {ew field : BitVec 128} {e : ℕ} (he : e < 2 ^ f.expBits)
    (hew : ew.toNat % 2 ^ (f.expBits + 1) = e) (hfield : field.toNat < 2 ^ f.fracTotal) :
    (f.fromBits (signBit sign (f.fracTotal + f.expBits) ||| (ew <<< f.fracTotal) ||| field)).toNat =
      (sign.toNat * 2 ^ f.expBits + e) * 2 ^ f.fracTotal + field.toNat := by
  have htotal : f.totalBits = f.expBits + 1 + f.fracTotal := by rw [FloatFormat.totalBits, add_comm 1]
  have hle : f.totalBits ≤ 128 := by
    have := expBits_add_fracTotal_lt f
    omega
  have hshift : (ew <<< f.fracTotal).toNat % 2 ^ f.totalBits = e * 2 ^ f.fracTotal := by
    rw [BitVec.toNat_shiftLeft, Nat.mod_mod_of_dvd _ (Nat.pow_dvd_pow 2 hle), Nat.shiftLeft_eq, htotal, pow_add,
      Nat.mul_mod_mul_right, hew]
  have hsign : (signBit sign (f.fracTotal + f.expBits)).toNat % 2 ^ f.totalBits =
      (sign.toNat * 2 ^ f.expBits) * 2 ^ f.fracTotal := by
    rw [toNat_signBit, Nat.mod_eq_of_lt]
    rw [htotal, pow_add, pow_succ, mul_comm (2 ^ f.expBits) 2]
    refine Nat.mul_lt_mul_of_pos_right (Nat.mul_lt_mul_of_pos_right ?_ (by positivity)) (by positivity)
    have := Bool.toNat_le sign
    omega
  have hlow : field.toNat % 2 ^ f.totalBits = field.toNat := by
    refine Nat.mod_eq_of_lt (hfield.trans_le (Nat.pow_le_pow_right (by decide) ?_))
    omega
  rw [FloatFormat.fromBits, BitVec.toNat_setWidth, BitVec.toNat_or, BitVec.toNat_or, Nat.or_mod_two_pow,
    Nat.or_mod_two_pow, hshift, hsign, hlow, ← Nat.shiftLeft_eq _ f.fracTotal, ← Nat.shiftLeft_eq _ f.fracTotal,
    ← Nat.shiftLeft_or_distrib, ← Nat.shiftLeft_eq _ f.expBits, ← Nat.shiftLeft_add_eq_or_of_lt he,
    ← Nat.shiftLeft_add_eq_or_of_lt hfield, Nat.shiftLeft_eq, Nat.shiftLeft_eq]

theorem decode_of_toNat {bits : BitVec f.totalBits} {e fr : ℕ} (he : e < 2 ^ f.expBits)
    (hfr : fr < 2 ^ f.fracTotal) (h : bits.toNat = (sign.toNat * 2 ^ f.expBits + e) * 2 ^ f.fracTotal + fr) :
    decode f bits = decodeFields f sign e fr := by
  have hmod : bits.toNat % 2 ^ f.fracTotal = fr := by
    rw [h, Nat.mul_add_mod_of_lt hfr]
  have hdiv : bits.toNat / 2 ^ f.fracTotal = sign.toNat * 2 ^ f.expBits + e := by
    rw [h, Nat.mul_comm, Nat.mul_add_div (by positivity), Nat.div_eq_of_lt hfr, Nat.add_zero]
  have hexp : bits.toNat / 2 ^ f.fracTotal % 2 ^ f.expBits = e := by
    rw [hdiv, Nat.mul_add_mod_of_lt he]
  have hsign : bits.getLsbD (f.fracTotal + f.expBits) = sign := by
    rw [BitVec.getLsbD, Nat.testBit_eq_decide_div_mod_eq, pow_add, ← Nat.div_div_eq_div_mul, hdiv, Nat.mul_comm,
      Nat.mul_add_div (by positivity), Nat.div_eq_of_lt he, Nat.add_zero]
    cases sign <;> rfl
  rw [decode, hmod, hexp, hsign]

theorem decode_fromBits (ew field : BitVec 128) {e : ℕ} (he : e < 2 ^ f.expBits)
    (hew : ew.toNat % 2 ^ (f.expBits + 1) = e) (hfield : field.toNat < 2 ^ f.fracTotal) :
    decode f (f.fromBits (signBit sign (f.fracTotal + f.expBits) ||| (ew <<< f.fracTotal) ||| field)) =
      decodeFields f sign e field.toNat :=
  decode_of_toNat f sign he hfield (toNat_fromBits f sign he hew hfield)

theorem two_pow_expBits : 2 ^ f.expBits = 2 * (f.bias + 1) := by
  obtain ⟨k, hk⟩ : ∃ k, f.expBits = k + 1 := ⟨f.expBits - 1, by have := f.three_le_expBits; omega⟩
  have hpos : 0 < 2 ^ k := Nat.two_pow_pos k
  rw [f.bias_eq, hk, Nat.add_sub_cancel, pow_succ]
  omega

theorem two_pow_expBits_le : (2 : ℤ) ^ f.expBits ≤ 2 ^ 15 := by
  exact_mod_cast Nat.pow_le_pow_right (by decide) f.expBits_le

theorem bias_bounds : 3 ≤ f.bias ∧ f.bias ≤ 16383 := by
  have h1 : 2 ^ 3 ≤ 2 ^ f.expBits := Nat.pow_le_pow_right (by decide) f.three_le_expBits
  have h2 : 2 ^ f.expBits ≤ 2 ^ 15 := Nat.pow_le_pow_right (by decide) f.expBits_le
  have h3 := two_pow_expBits f
  omega

theorem decode_packZero : decode f (packZero f sign) = .finite sign 0 := by
  have hword : packZero f sign =
      f.fromBits (signBit sign (f.fracTotal + f.expBits) ||| (0#128 <<< f.fracTotal) ||| 0#128) := by
    simp [packZero]
  have hne : (0 : ℕ) ≠ 2 ^ f.expBits - 1 := by
    have := two_pow_expBits f
    omega
  rw [hword, decode_fromBits f sign 0#128 0#128 (Nat.two_pow_pos _) (by simp) (by simp)]
  simp [decodeFields, hne]

theorem expBits_lt : f.expBits < 128 := by
  have := f.expBits_le
  omega

theorem fracTotal_cases :
    f.hasExplicitInt = true ∧ f.fracTotal = f.fracBits + 1 ∨ f.hasExplicitInt = false ∧ f.fracTotal = f.fracBits := by
  rw [FloatFormat.fracTotal]
  cases f.hasExplicitInt <;> simp

theorem decode_packInf : decode f (packInf f sign) = .inf sign := by
  have htotal := expBits_add_fracTotal_lt f
  have hpow := two_pow_expBits f
  have hmask : ((1#128 <<< f.expBits) - 1#128).toNat % 2 ^ (f.expBits + 1) = 2 ^ f.expBits - 1 := by
    rw [toNat_shiftLeft_sub_one (expBits_lt f), pow_succ]
    exact Nat.mod_eq_of_lt (by omega)
  rcases fracTotal_cases f with ⟨hx, hft⟩ | ⟨hx, hft⟩
  · have hfield : (1#128 <<< f.fracBits).toNat = 2 ^ f.fracBits := toNat_one_shiftLeft (by omega)
    have hword : packInf f sign = f.fromBits (signBit sign (f.fracTotal + f.expBits) |||
        (((1#128 <<< f.expBits) - 1#128) <<< f.fracTotal) ||| (1#128 <<< f.fracBits)) := by
      simp [packInf, hx]
    have hlt : (1#128 <<< f.fracBits).toNat < 2 ^ f.fracTotal := by
      rw [hfield, hft]
      exact Nat.pow_lt_pow_right (by decide) (by omega)
    rw [hword, decode_fromBits f sign _ _ (by omega) hmask hlt, hfield]
    simp [decodeFields, hx]
  · have hword : packInf f sign = f.fromBits (signBit sign (f.fracTotal + f.expBits) |||
        (((1#128 <<< f.expBits) - 1#128) <<< f.fracTotal) ||| 0#128) := by
      simp [packInf, hx]
    rw [hword, decode_fromBits f sign _ _ (by omega) hmask (by simp)]
    simp [decodeFields, hx]

theorem decode_packMaxFinite : decode f (packMaxFinite f sign) = .finite sign (maxFinite f) := by
  have htotal := expBits_add_fracTotal_lt f
  have hpow := two_pow_expBits f
  have hbias := bias_bounds f
  have hone := toNat_one_shiftLeft (expBits_lt f)
  have hmask : ((1#128 <<< f.expBits) - 2#128).toNat % 2 ^ (f.expBits + 1) = 2 * f.bias := by
    rw [BitVec.toNat_sub_of_le (by rw [BitVec.le_def, hone]; simp; omega), hone, pow_succ]
    simp only [BitVec.reduceToNat]
    rw [Nat.mod_eq_of_lt (by omega)]
    omega
  have hfield : ((1#128 <<< f.fracTotal) - 1#128).toNat = 2 ^ f.fracTotal - 1 := toNat_shiftLeft_sub_one (by omega)
  have hpos : 0 < 2 ^ f.fracBits := Nat.two_pow_pos _
  have hword : packMaxFinite f sign = f.fromBits (signBit sign (f.fracTotal + f.expBits) |||
      (((1#128 <<< f.expBits) - 2#128) <<< f.fracTotal) ||| ((1#128 <<< f.fracTotal) - 1#128)) := rfl
  have hexp : ((2 * f.bias : ℕ) : ℤ) - f.bias - f.fracBits = emax f - f.fracBits := by
    rw [emax]
    push_cast
    ring
  rw [hword, decode_fromBits f sign _ _ (by omega) hmask (by rw [hfield]; have := Nat.two_pow_pos f.fracTotal; omega),
    hfield, decodeFields, if_neg (by omega), if_neg (by omega), hexp]
  rcases fracTotal_cases f with ⟨hx, hft⟩ | ⟨hx, hft⟩
  · rw [if_pos hx, if_neg (by rw [hft, pow_succ]; omega), hft, maxFinite]
    push_cast [Nat.one_le_two_pow]
    rfl
  rw [hx, if_neg (by decide), hft, maxFinite]
  push_cast [Nat.one_le_two_pow]
  ring_nf

/-- The replacement for a result too large for the format is the expected one. -/
theorem decode_overflowResult (rm : RoundMode) (sign : Bool) :
    decode f (overflowResult f sign rm) = overflowDatum f (direction rm sign) sign := by
  cases rm <;> cases sign <;>
    simp [overflowResult, direction, overflowDatum, decode_packInf, decode_packMaxFinite]

theorem toNat_signExtend_mod (b : BitVec 32) :
    (b.signExtend 128).toNat % 2 ^ (f.expBits + 1) = b.toNat % 2 ^ (f.expBits + 1) := by
  have hle := f.expBits_le
  have h32 : (b.signExtend 128).toNat % 2 ^ 32 = b.toNat := by
    rw [BitVec.toNat_signExtend, BitVec.toNat_setWidth]
    have := b.isLt
    split_ifs <;> omega
  rw [← h32, Nat.mod_mod_of_dvd _ (Nat.pow_dvd_pow 2 (by omega))]

theorem decode_assemble {b : BitVec 32} {field : BitVec 128} {e : ℕ} (he : e < 2 ^ f.expBits)
    (hb : b.toNat % 2 ^ (f.expBits + 1) = e) (hfield : field.toNat < 2 ^ f.fracTotal) :
    decode f (assemble f sign b field) = decodeFields f sign e field.toNat :=
  decode_fromBits f sign _ _ he (by rw [toNat_signExtend_mod, hb]) hfield

end Format
end MachinaSoftfloatWords
