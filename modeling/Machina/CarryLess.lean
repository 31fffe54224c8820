import Mathlib

/-!
# Words as polynomials over two elements

The bits of a machine word are the coefficients of a polynomial over `ZMod 2`.
Exclusive or is addition, so a loop that accumulates shifted words by exclusive or
adds up coefficients, and reversing a word reflects its polynomial.
-/

namespace MachinaCarryLess

open Polynomial

variable {w v : Nat}

/-- A bit as an element of the field of two elements. -/
def bitValue (b : Bool) : ZMod 2 := if b then 1 else 0

@[simp] theorem bitValue_false : bitValue false = 0 := rfl
@[simp] theorem bitValue_true : bitValue true = 1 := rfl

@[simp] theorem bitValue_eq_one_iff (b : Bool) : bitValue b = 1 ↔ b = true := by cases b <;> decide

theorem bitValue_xor (a b : Bool) : bitValue (a ^^ b) = bitValue a + bitValue b := by
  cases a <;> cases b <;> decide

variable (x : BitVec w)

/-- The polynomial whose coefficients are the bits of a word. -/
noncomputable def toPoly : (ZMod 2)[X] := ∑ i ∈ Finset.range w, C (bitValue (x.getLsbD i)) * X ^ i

@[simp] theorem coeff_toPoly (n : Nat) : (toPoly x).coeff n = bitValue (x.getLsbD n) := by
  simp only [toPoly, finsetSum_coeff, coeff_C_mul, coeff_X_pow, mul_ite, mul_one, mul_zero]
  rw [Finset.sum_ite_eq]
  by_cases h : n < w
  · rw [if_pos (Finset.mem_range.mpr h)]
  · rw [if_neg (by simpa using h), BitVec.getLsbD_of_ge _ _ (Nat.le_of_not_lt h), bitValue_false]

/-- The word of the low `w` coefficients of a polynomial. -/
noncomputable def ofPoly (w : Nat) (p : (ZMod 2)[X]) : BitVec w :=
  BitVec.ofFnLE fun i : Fin w => decide (p.coeff i = 1)

theorem getLsbD_ofPoly (w : Nat) (p : (ZMod 2)[X]) (n : Nat) :
    (ofPoly w p).getLsbD n = (decide (n < w) && decide (p.coeff n = 1)) := by
  by_cases h : n < w
  · simp [ofPoly, h]
  · rw [BitVec.getLsbD_of_ge _ _ (Nat.le_of_not_lt h), decide_eq_false h, Bool.false_and]

theorem natDegree_toPoly_le : (toPoly x).natDegree ≤ w - 1 := by
  apply natDegree_le_iff_coeff_eq_zero.mpr
  intro n hn
  rw [coeff_toPoly, BitVec.getLsbD_of_ge _ _ (by omega), bitValue_false]

/-- A word with room for all coefficients carries the whole polynomial. -/
theorem toPoly_ofPoly {w : Nat} {p : (ZMod 2)[X]} (h : p.natDegree < w) : toPoly (ofPoly w p) = p := by
  ext n
  rw [coeff_toPoly, getLsbD_ofPoly]
  by_cases hn : n < w
  · rw [decide_eq_true hn, Bool.true_and]
    have htwo : ∀ z : ZMod 2, bitValue (decide (z = 1)) = z := by decide
    exact htwo _
  · rw [decide_eq_false hn, Bool.false_and, bitValue_false, coeff_eq_zero_of_natDegree_lt (by omega)]

variable (y : BitVec v)

/-- The carry-less product of two words, which never needs more than `w + v - 1` bits. -/
noncomputable def product : BitVec (w + v - 1) :=
  ofPoly (w + v - 1) (toPoly x * toPoly y)

theorem product_comm (x y : BitVec w) : product x y = product y x := by
  rw [product, product, mul_comm]

theorem natDegree_mul_le : (toPoly x * toPoly y).natDegree ≤ (w - 1) + (v - 1) :=
  natDegree_mul_le_of_le (natDegree_toPoly_le x) (natDegree_toPoly_le y)

theorem toPoly_product (hw : 0 < w) (hv : 0 < v) : toPoly (product x y) = toPoly x * toPoly y := by
  have hdeg := natDegree_mul_le x y
  exact toPoly_ofPoly (by omega)

/-- A coefficient of the product, summed over the bits of the second factor. -/
theorem coeff_mul_toPoly (n : Nat) : (toPoly x * toPoly y).coeff n =
      ∑ i ∈ Finset.range v, bitValue (y.getLsbD i) * (if i ≤ n then bitValue (x.getLsbD (n - i)) else 0) := by
  rw [mul_comm, toPoly, Finset.sum_mul, finsetSum_coeff]
  apply Finset.sum_congr rfl
  intro i _
  rw [mul_assoc, coeff_C_mul, coeff_X_pow_mul', coeff_toPoly]

/-- A loop that adds `term i` for every set bit of `y` sums up coefficients. -/
theorem bitValue_foldl (term : Nat → BitVec w) (l : List Nat) (acc : BitVec w) (k : Nat) :
    bitValue ((l.foldl (fun r i => if y.getLsbD i then r ^^^ term i else r) acc).getLsbD k) =
    bitValue (acc.getLsbD k) +
        (l.map fun i => bitValue (y.getLsbD i) * bitValue ((term i).getLsbD k)).sum := by
  induction l generalizing acc with
  | nil => simp
  | cons i l ih =>
    rw [List.foldl_cons, ih, List.map_cons, List.sum_cons, ← add_assoc]
    congr 1
    by_cases hbit : y.getLsbD i = true
    · rw [if_pos hbit, BitVec.getLsbD_xor, bitValue_xor, hbit, bitValue_true, one_mul]
    · rw [if_neg hbit, Bool.not_eq_true _ |>.mp hbit, bitValue_false, zero_mul, add_zero]

theorem toPoly_reverse : toPoly x.reverse = (toPoly x).reflect (w - 1) := by
  ext n
  rw [coeff_reflect, coeff_toPoly, coeff_toPoly, BitVec.getLsbD_reverse, BitVec.getMsbD_eq_getLsbD]
  by_cases hn : n < w
  · rw [decide_eq_true hn, Bool.true_and, revAt_le (by omega)]
  rw [decide_eq_false hn, Bool.false_and]
  by_cases hw : n ≤ w - 1
  · have hzero : w = 0 := by omega
    subst hzero
    simp
  · rw [revAt_eq_self_of_lt (by omega), BitVec.getLsbD_of_ge _ _ (by omega)]

theorem coeff_mul_reverse (x y : BitVec w) {n : Nat} (hn : n ≤ (w - 1) + (w - 1)) :
    (toPoly x.reverse * toPoly y.reverse).coeff n = (toPoly x * toPoly y).coeff ((w - 1) + (w - 1) - n) := by
  rw [toPoly_reverse, toPoly_reverse, ← reflect_mul _ _ (natDegree_toPoly_le x) (natDegree_toPoly_le y),
    coeff_reflect, revAt_le hn]

end MachinaCarryLess
