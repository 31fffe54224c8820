import Mathlib

/-!
# Bit masks on machine words

The sources test, set and clear flags through one-bit masks and replace whole
fields through wider ones. Everything here is stated for an arbitrary word
width, and reduces mask arithmetic to the truth value of single bits.
-/

namespace MachinaBits

open BitVec (getLsbD_eq_getElem toNat_setWidth toNat_ofNat getLsbD_or getLsbD_and getLsbD_not getLsbD_of_ge
  getLsbD_setWidth getLsbD_allOnes)

variable {w : Nat}

/-- The one-bit mask `1 << k`. -/
def bit (k : Nat) : BitVec w := 1#w <<< k

/-- The test `x & m != 0`. -/
def has (x m : BitVec w) : Bool := x &&& m != 0#w

/-- Replace the field under mask `m` by `v`: `(x & !m) | v`. -/
def put (x m v : BitVec w) : BitVec w := (x &&& ~~~m) ||| v

theorem getLsbD_bit (k i : Nat) : (bit k : BitVec w).getLsbD i = (decide (k < w) && decide (k = i)) := by
  rw [bit, ← BitVec.twoPow_eq, BitVec.getLsbD_twoPow]

@[simp] theorem getElem_bit (k i : Nat) (hi : i < w) : (bit k : BitVec w)[i] = decide (k = i) := by
  rw [← getLsbD_eq_getElem, getLsbD_bit]
  by_cases h : k = i
  · simp [h, hi]
  · simp [h]

theorem has_or (x m n : BitVec w) : has x (m ||| n) = (has x m || has x n) := by
  rw [Bool.eq_iff_iff]
  simp only [has, bne_iff_ne, Bool.or_eq_true, ne_eq, BitVec.and_or_distrib_left]
  rw [← not_and_or, not_iff_not]
  exact BitVec.or_eq_zero_iff

theorem setWidth_inj {m n : Nat} (h : m ≤ n) {x y : BitVec m} : x.setWidth n = y.setWidth n ↔ x = y := by
  constructor
  · intro heq
    have hback := congrArg (BitVec.setWidth m) heq
    rwa [BitVec.setWidth_setWidth_of_le _ h, BitVec.setWidth_setWidth_of_le _ h, BitVec.setWidth_eq,
      BitVec.setWidth_eq] at hback
  · rintro rfl
    rfl

theorem eq_low_half_iff (x : BitVec 64) : x = (x.setWidth 32).setWidth 64 ↔ x >>> 32 = 0#64 := by
  rw [← BitVec.toNat_inj, ← BitVec.toNat_inj, toNat_setWidth, toNat_setWidth, BitVec.toNat_ushiftRight,
    Nat.shiftRight_eq_div_pow, toNat_ofNat]
  omega

section

variable (x : BitVec w)

theorem has_bit {k : Nat} (hk : k < w) : has x (bit k) = x.getLsbD k := by
  have hand : x &&& bit k = if x.getLsbD k then BitVec.twoPow w k else 0#w := by
    rw [bit, ← BitVec.twoPow_eq, BitVec.and_twoPow]
  have hne : BitVec.twoPow w k ≠ 0#w := by
    intro h
    have hb := congrArg (fun y => y.getLsbD k) h
    simp [hk] at hb
  cases hx : x.getLsbD k <;> simp [has, hand, hx, hne]

theorem getLsbD_put_of_not (x m v : BitVec w) {i : Nat} (hi : i < w)
    (hm : m.getLsbD i = false) (hv : v.getLsbD i = false) : (put x m v).getLsbD i = x.getLsbD i := by
  simp only [put, getLsbD_or, getLsbD_and, getLsbD_not, hm, hv, hi, decide_true,
    Bool.not_false, Bool.and_true, Bool.or_false]

theorem getLsbD_put_of_mem (x m v : BitVec w) {i : Nat} (hm : m.getLsbD i = true) :
    (put x m v).getLsbD i = v.getLsbD i := by
  simp [put, hm]

theorem put_and_mask (x m v : BitVec w) (hv : v &&& m = v) : put x m v &&& m = v := by
  ext i hi
  have hb : (v.getLsbD i && m.getLsbD i) = v.getLsbD i := by rw [← getLsbD_and, hv]
  simp only [← getLsbD_eq_getElem] at *
  cases hm : m.getLsbD i <;> cases hx : v.getLsbD i <;> simp_all [put]

/-- Setting or clearing bit `k` according to a flag, as the trap code does. -/
def assign (k : Nat) (b : Bool) : BitVec w :=
  if b then x ||| bit k else x &&& ~~~bit k

@[simp] theorem getElem_assign (k i : Nat) (b : Bool) (hi : i < w) :
    (assign x k b)[i] = if k = i then b else x[i] := by
  cases b <;> by_cases h : k = i <;> simp [assign, h]

theorem getLsbD_assign {k : Nat} (hk : k < w) (b : Bool) (i : Nat) :
    (assign x k b).getLsbD i = if i = k then b else x.getLsbD i := by
  by_cases hi : i < w
  · rw [getLsbD_eq_getElem hi, getLsbD_eq_getElem hi, getElem_assign]
    simp [eq_comm]
  · have hne : i ≠ k := by omega
    rw [if_neg hne, getLsbD_of_ge _ _ (Nat.le_of_not_lt hi), getLsbD_of_ge _ _ (Nat.le_of_not_lt hi)]

theorem toNat_one_shiftLeft {k : Nat} (hk : k < w) : (1#w <<< k).toNat = 2 ^ k := by
  rw [BitVec.toNat_shiftLeft, toNat_ofNat, Nat.shiftLeft_eq, Nat.mod_eq_of_lt (Nat.one_lt_two_pow (by omega)),
    one_mul, Nat.mod_eq_of_lt (Nat.pow_lt_pow_right (by decide) hk)]

theorem toNat_shiftLeft_sub_one {k : Nat} (hk : k < w) : ((1#w <<< k) - 1#w).toNat = 2 ^ k - 1 := by
  have hone : (1#w).toNat = 1 := by
    rw [toNat_ofNat, Nat.mod_eq_of_lt (Nat.one_lt_two_pow (by omega))]
  have hle : 1#w ≤ 1#w <<< k := by
    rw [BitVec.le_def, toNat_one_shiftLeft hk, hone]
    exact Nat.one_le_two_pow
  rw [BitVec.toNat_sub_of_le hle, toNat_one_shiftLeft hk, hone]

theorem shiftLeft_sub_one {k : Nat} (hk : k < w) : (1#w <<< k) - 1#w = (BitVec.allOnes k).setWidth w := by
  apply BitVec.eq_of_toNat_eq
  have hpow : 2 ^ k < 2 ^ w := Nat.pow_lt_pow_right (by decide) hk
  rw [toNat_shiftLeft_sub_one hk, toNat_setWidth, BitVec.toNat_allOnes,
    Nat.mod_eq_of_lt (lt_of_le_of_lt (Nat.sub_le _ _) hpow)]

theorem toNat_and_low {k : Nat} (hk : k < w) : (x &&& ((1#w <<< k) - 1#w)).toNat = x.toNat % 2 ^ k := by
  rw [BitVec.toNat_and, toNat_shiftLeft_sub_one hk, Nat.and_two_pow_sub_one_eq_mod]

theorem toNat_cpop_low {k : Nat} (hk : k < w) : ((1#w <<< k) - 1#w).cpop.toNat = k := by
  have hbits (n : Nat) (hn : n ≤ w) : ((1#w <<< k) - 1#w).cpopNatRec n 0 = min n k := by
    induction n with
    | zero => simp
    | succ n ih =>
      rw [BitVec.cpopNatRec_succ, BitVec.cpopNatRec_eq, ih (by omega), shiftLeft_sub_one hk,
        getLsbD_setWidth, getLsbD_allOnes]
      have hnw : n < w := hn
      by_cases hnk : n < k
      · simp only [hnw, hnk, decide_true, Bool.and_self, Bool.toNat_true]
        omega
      · simp only [hnw, hnk, decide_true, decide_false, Bool.and_false, Bool.toNat_false]
        omega
  have hlt : w < 2 ^ w := Nat.lt_two_pow_self
  rw [BitVec.cpop, toNat_ofNat, hbits w le_rfl, Nat.min_eq_right hk.le, Nat.mod_eq_of_lt (by omega)]

theorem clear_low_eq {k : Nat} (hk : k < w) : x &&& ~~~((1#w <<< k) - 1#w) = (x >>> k) <<< k := by
  rw [shiftLeft_sub_one hk]
  ext i hi
  simp only [← getLsbD_eq_getElem, getLsbD_and, getLsbD_not, getLsbD_setWidth,
    getLsbD_allOnes, BitVec.getLsbD_shiftLeft, BitVec.getLsbD_ushiftRight, hi, decide_true, Bool.true_and]
  by_cases h : i < k
  · simp [h]
  · simp [h, Nat.add_sub_cancel' (Nat.le_of_not_lt h)]

/-- Clearing the low `k` bits rounds down to a multiple of `2 ^ k`. -/
theorem toNat_clear_low {k : Nat} (hk : k < w) : (x &&& ~~~((1#w <<< k) - 1#w)).toNat = x.toNat / 2 ^ k * 2 ^ k := by
  rw [clear_low_eq x hk, BitVec.toNat_shiftLeft, BitVec.toNat_ushiftRight, Nat.shiftLeft_eq, Nat.shiftRight_eq_div_pow]
  exact Nat.mod_eq_of_lt (lt_of_le_of_lt (Nat.div_mul_le_self _ _) x.isLt)

/-- Two words joined along a mask. -/
theorem and_or_and_not (x y m : BitVec w) : (x &&& m) ||| (y &&& ~~~m) = (x &&& m) + (y &&& ~~~m) := by
  rw [BitVec.add_eq_or_of_and_eq_zero]
  ext i hi
  simp only [BitVec.getElem_and, BitVec.getElem_not, BitVec.getElem_zero]
  cases m[i] <;> simp

theorem and_add_and_not (x m : BitVec w) : (x &&& m) + (x &&& ~~~m) = x := by
  rw [← and_or_and_not]
  ext i hi
  simp only [BitVec.getElem_or, BitVec.getElem_and, BitVec.getElem_not]
  cases m[i] <;> simp

/-! ## Words that agree from some bit upwards -/

/-- The two words agree in every bit from `n` upwards: they name the same block of `2 ^ n` addresses. -/
def AgreeFrom (n : Nat) (x y : BitVec w) : Prop := ∀ i, n ≤ i → x.getLsbD i = y.getLsbD i

end

namespace AgreeFrom

variable {n : Nat} {x y : BitVec w}

variable (h : AgreeFrom n x y)
include h

theorem and (m : BitVec w) : AgreeFrom n (x &&& m) (y &&& m) := by
  intro i hi
  rw [getLsbD_and, getLsbD_and, h i hi]

theorem or (z : BitVec w) : AgreeFrom n (z ||| x) (z ||| y) := by
  intro i hi
  rw [getLsbD_or, getLsbD_or, h i hi]

theorem ushiftRight {k : Nat} (hk : n ≤ k) : x >>> k = y >>> k := by
  ext i hi
  simp only [← getLsbD_eq_getElem, BitVec.getLsbD_ushiftRight]
  exact h (k + i) (by omega)

/-- A mask that clears the low bits cannot tell the words apart. -/
theorem and_clear_low {k : Nat} (hn : n ≤ k) (hk : k < w) :
    x &&& ~~~((1#w <<< k) - 1#w) = y &&& ~~~((1#w <<< k) - 1#w) := by
  rw [shiftLeft_sub_one hk]
  ext i hi
  simp only [← getLsbD_eq_getElem, getLsbD_and, getLsbD_not, getLsbD_setWidth,
    getLsbD_allOnes, hi, decide_true, Bool.true_and]
  by_cases hik : i < k
  · simp [hik]
  · rw [h i (by omega)]

end AgreeFrom

theorem and_setWidth {n : Nat} (x : BitVec w) (m : BitVec n) :
    x &&& m.setWidth w = (x.setWidth n &&& m).setWidth w := by
  apply BitVec.eq_of_getLsbD_eq
  intro i hi
  by_cases hn : i < n
  · simp [hn, hi]
  · simp [BitVec.getLsbD_of_ge m i (Nat.le_of_not_lt hn)]

theorem agreeFrom_iff {n : Nat} (hn : n < w) (x y : BitVec w) :
    AgreeFrom n x y ↔ x &&& ~~~((1#w <<< n) - 1#w) = y &&& ~~~((1#w <<< n) - 1#w) := by
  refine ⟨fun h => h.and_clear_low le_rfl hn, fun h i hi => ?_⟩
  rw [shiftLeft_sub_one hn] at h
  by_cases hiw : i < w
  · have hbit := congrArg (fun z => z.getLsbD i) h
    simpa [hiw, Nat.not_lt.mpr hi] using hbit
  · rw [getLsbD_of_ge _ _ (Nat.le_of_not_lt hiw), getLsbD_of_ge _ _ (Nat.le_of_not_lt hiw)]

end MachinaBits
