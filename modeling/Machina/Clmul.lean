import Machina.CarryLess

/-!
# Carry-less multiplication helpers

The three helpers of the carry-less multiplication instructions run the same loop
over the bits of one operand and differ in how far they shift the other. All three
read a window of one product of polynomials over two elements.
-/

namespace MachinaClmul

open MachinaCarryLess

/-- The loop of the helpers: every set bit `i` of `rs2` with `first ≤ i < 64` adds its term. -/
def clmulLoop (first : Nat) (term : Nat → BitVec 64) (rs2 : BitVec 64) : BitVec 64 :=
  (List.range' first (64 - first)).foldl
    (fun result i => if (rs2 >>> i) &&& 1#64 ≠ 0#64 then result ^^^ term i else result) 0#64

variable (rs1 rs2 : BitVec 64)

/-- Carry-less multiply (low half). -/
def helperClmul : BitVec 64 := clmulLoop 0 (fun i => rs1 <<< i) rs2

/-- Carry-less multiply (high half). -/
def helperClmulh : BitVec 64 := clmulLoop 1 (fun i => rs1 >>> (64 - i)) rs2

/-- Carry-less multiply (reversed). -/
def helperClmulr : BitVec 64 := clmulLoop 0 (fun i => rs1 >>> (63 - i)) rs2

theorem shifted_bit_ne_zero_iff (x : BitVec 64) (i : Nat) : (x >>> i) &&& 1#64 ≠ 0#64 ↔ x.getLsbD i = true := by
  rw [BitVec.and_one_eq_setWidth_ofBool_getLsbD, BitVec.getLsbD_ushiftRight, Nat.add_zero]
  cases x.getLsbD i <;> decide

/-- A bit of the loop's result is a sum over the bits of `rs2`; the bits below `first` may be
counted when their terms are zero there. -/
theorem bitValue_clmulLoop {first : Nat} (hfirst : first ≤ 64) (term : Nat → BitVec 64) (rs2 : BitVec 64) (k : Nat)
    (hskip : ∀ i < first, (term i).getLsbD k = false) : bitValue ((clmulLoop first term rs2).getLsbD k) =
      ∑ i ∈ Finset.range 64, bitValue (rs2.getLsbD i) * bitValue ((term i).getLsbD k) := by
  simp only [clmulLoop, shifted_bit_ne_zero_iff]
  rw [bitValue_foldl, BitVec.getLsbD_zero, bitValue_false, zero_add]
  have hsplit : List.range 64 = List.range first ++ List.range' first (64 - first) := by
    have happend : List.range' 0 first ++ List.range' (0 + first) (64 - first) =
      List.range' 0 (first + (64 - first)) :=
      List.range'_append_1
    rw [Nat.zero_add, Nat.add_sub_cancel' hfirst] at happend
    rw [List.range_eq_range', List.range_eq_range', ← happend]
  have hskipped : ((List.range first).map fun i =>
      bitValue (rs2.getLsbD i) * bitValue ((term i).getLsbD k)).sum = 0 := by
    apply List.sum_eq_zero
    intro z hz
    obtain ⟨i, hi, rfl⟩ := List.mem_map.mp hz
    rw [hskip i (List.mem_range.mp hi), bitValue_false, mul_zero]
  rw [Finset.sum_range, ← List.sum_ofFn, List.ofFn_eq_map]
  have hrange : (List.finRange 64).map (fun i : Fin 64 =>
      bitValue (rs2.getLsbD i) * bitValue ((term i).getLsbD k)) =
      (List.range 64).map fun i => bitValue (rs2.getLsbD i) * bitValue ((term i).getLsbD k) := by
    rw [← List.map_coe_finRange_eq_range, List.map_map]
    rfl
  rw [hrange, hsplit, List.map_append, List.sum_append, hskipped, zero_add]

/-- A loop whose terms are the bits of `rs1` moved so that bit `k` meets coefficient `k + shift`
reads the product from that coefficient on. -/
theorem clmulLoop_eq_window {first shift : Nat} (hfirst : first ≤ 64) (term : Nat → BitVec 64) (rs1 rs2 : BitVec 64)
    (hterm : ∀ i < 64, ∀ k < 64, (term i).getLsbD k = (decide (i ≤ k + shift) && rs1.getLsbD (k + shift - i)))
    (hskip : ∀ i < first, ∀ k < 64, (term i).getLsbD k = false) :
    clmulLoop first term rs2 = (product rs1 rs2).extractLsb' shift 64 := by
  apply BitVec.eq_of_getLsbD_eq
  intro k hk
  have hsum := bitValue_clmulLoop hfirst term rs2 k fun i hi => hskip i hi k hk
  have hcoeff := coeff_mul_toPoly rs1 rs2 (k + shift)
  have hsame : bitValue ((clmulLoop first term rs2).getLsbD k) = (toPoly rs1 * toPoly rs2).coeff (k + shift) := by
    rw [hsum, hcoeff]
    apply Finset.sum_congr rfl
    intro i hi
    rw [hterm i (Finset.mem_range.mp hi) k hk]
    by_cases hle : i ≤ k + shift
    · rw [if_pos hle, decide_eq_true hle, Bool.true_and]
    · rw [if_neg hle, decide_eq_false hle, Bool.false_and, bitValue_false]
  have hroom : k + shift < 127 ∨ (toPoly rs1 * toPoly rs2).coeff (k + shift) = 0 := by
    by_cases hlt : k + shift < 127
    · exact Or.inl hlt
    · have hdeg := natDegree_mul_le rs1 rs2
      exact Or.inr (Polynomial.coeff_eq_zero_of_natDegree_lt (by omega))
  have hbit : (clmulLoop first term rs2).getLsbD k = decide ((toPoly rs1 * toPoly rs2).coeff (k + shift) = 1) := by
    rw [← hsame, Bool.eq_iff_iff, decide_eq_true_iff, bitValue_eq_one_iff]
  rw [hbit, BitVec.getLsbD_extractLsb', decide_eq_true hk, Bool.true_and, product, getLsbD_ofPoly, Nat.add_comm shift]
  rcases hroom with hlt | hzero
  · rw [decide_eq_true hlt, Bool.true_and]
  · rw [hzero]
    simp

theorem helperClmul_eq : helperClmul rs1 rs2 = (product rs1 rs2).extractLsb' 0 64 := by
  apply clmulLoop_eq_window (by omega)
  · intro i _ k hk
    rw [BitVec.getLsbD_shiftLeft, decide_eq_true hk, Bool.true_and, Nat.add_zero]
    simp [← decide_not]
  · intro i hi
    omega

theorem helperClmulh_eq : helperClmulh rs1 rs2 = (product rs1 rs2).extractLsb' 64 64 := by
  apply clmulLoop_eq_window (by omega)
  · intro i hi k _
    rw [BitVec.getLsbD_ushiftRight, decide_eq_true (by omega), Bool.true_and]
    congr 1
    omega
  · intro i hi k _
    rw [BitVec.getLsbD_ushiftRight, BitVec.getLsbD_of_ge _ _ (by omega)]

theorem helperClmulr_eq : helperClmulr rs1 rs2 = (product rs1 rs2).extractLsb' 63 64 := by
  apply clmulLoop_eq_window (by omega)
  · intro i hi k _
    rw [BitVec.getLsbD_ushiftRight, decide_eq_true (by omega), Bool.true_and]
    congr 1
    omega
  · intro i hi
    omega

/-- Reversing the operands reads the product from its other end. -/
theorem helperClmulr_eq_reverse : helperClmulr rs1 rs2 = (helperClmul rs1.reverse rs2.reverse).reverse := by
  rw [helperClmul_eq, helperClmulr_eq]
  apply BitVec.eq_of_getLsbD_eq
  intro k hk
  rw [BitVec.getLsbD_reverse, BitVec.getMsbD_eq_getLsbD, BitVec.getLsbD_extractLsb', BitVec.getLsbD_extractLsb',
    product, product, getLsbD_ofPoly, getLsbD_ofPoly, coeff_mul_reverse rs1 rs2 (by omega)]
  have hindex : 64 - 1 + (64 - 1) - (0 + (64 - 1 - k)) = 63 + k := by omega
  have hlow : 0 + (64 - 1 - k) < 64 + 64 - 1 := by omega
  have hhigh : 63 + k < 64 + 64 - 1 := by omega
  have hbit : 64 - 1 - k < 64 := by omega
  rw [hindex, decide_eq_true hk, decide_eq_true hlow, decide_eq_true hhigh, decide_eq_true hbit]
  simp

/-- The helpers return the low half, the high half and the middle window of the exact
product; so the low half and the window do not depend on the order of the operands,
and reversing all words exchanges them. -/
theorem clmul_helpers_read_product (a b : BitVec 64) : toPoly (product a b) = toPoly a * toPoly b ∧
      helperClmul a b = (product a b).extractLsb' 0 64 ∧ helperClmulh a b = (product a b).extractLsb' 64 64 ∧
      helperClmulr a b = (product a b).extractLsb' 63 64 ∧ helperClmul a b = helperClmul b a ∧
      helperClmulr a b = helperClmulr b a ∧ helperClmulr a b = (helperClmul a.reverse b.reverse).reverse := by
  refine ⟨toPoly_product a b (by decide) (by decide), helperClmul_eq a b, helperClmulh_eq a b, helperClmulr_eq a b,
    ?_, ?_, helperClmulr_eq_reverse a b⟩
  · rw [helperClmul_eq, helperClmul_eq, product_comm]
  · rw [helperClmulr_eq, helperClmulr_eq, product_comm]

end MachinaClmul
