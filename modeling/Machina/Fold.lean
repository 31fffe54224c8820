import Machina.IrSem
import Machina.Optimize

/-!
# Folding computes what the operations mean

The pass computes with masked 64-bit words; the meaning of an operation is stated
at its own width. Both agree, and so do the algebraic simplifications.
-/

namespace MachinaFold

open MachinaIr MachinaIrSem MachinaOptimize
open BitVec (eq_of_getLsbD_eq getLsbD_setWidth)
open Option (map_some)

variable {ty : IrType} {w : Nat} {opc : Opcode} {a b : TempIdx}

section

variable (ty : IrType)

theorem width_le : width ty ≤ 64 := by
  cases ty <;> decide

theorem getLsbD_typeMask (i : Nat) : (typeMask ty).getLsbD i = decide (i < width ty) := by
  have h32 (h : i < 64) : (0xFFFFFFFF#64).getLsbD i = decide (i < 32) := by
    revert h
    revert i
    decide
  by_cases h : i < 64
  · cases ty with
    | i32 => exact h32 h
    | _ => exact BitVec.getLsbD_allOnes
  · have hw := width_le ty
    rw [BitVec.getLsbD_of_ge _ _ (by omega), decide_eq_false (by omega)]

theorem and_typeMask (v : BitVec 64) : v &&& typeMask ty = (low ty v).setWidth 64 := by
  apply eq_of_getLsbD_eq
  intro i hi
  rw [BitVec.getLsbD_and, getLsbD_typeMask, getLsbD_setWidth, low, getLsbD_setWidth]
  simp [hi, Bool.and_comm]

@[simp] theorem low_setWidth (r : BitVec (width ty)) : low ty (r.setWidth 64) = r := by
  rw [low, BitVec.setWidth_setWidth_of_le _ (width_le ty), BitVec.setWidth_eq]

@[simp] theorem low_and_typeMask (v : BitVec 64) : low ty (v &&& typeMask ty) = low ty v := by
  rw [and_typeMask, low_setWidth]

theorem low_sub (x y : BitVec 64) : low ty (x - y) = low ty x - low ty y := by
  have hw := width_le ty
  rw [BitVec.sub_eq_add_neg, BitVec.sub_eq_add_neg, low, BitVec.setWidth_add _ _ hw, BitVec.setWidth_neg_of_le hw]
  rfl

theorem low_ushiftRight (x : BitVec 64) (n : Nat) : low ty ((x &&& typeMask ty) >>> n) = low ty x >>> n := by
  apply eq_of_getLsbD_eq
  intro i hi
  simp only [low, getLsbD_setWidth, BitVec.getLsbD_ushiftRight, BitVec.getLsbD_and, getLsbD_typeMask, hi,
    decide_true, Bool.true_and]
  rw [Bool.and_comm]

end

theorem shiftAmount_eq (hty : ty.sizeBits = width ty) (y : BitVec 64) :
    shiftAmount (y &&& typeMask ty) ty = (low ty y).toNat % width ty := by
  have hdvd : width ty ∣ 2 ^ 32 := by cases ty <;> decide
  have hlow : (y &&& typeMask ty).toNat = (low ty y).toNat := by
    rw [and_typeMask, BitVec.toNat_setWidth, Nat.mod_eq_of_lt]
    exact lt_of_lt_of_le (low ty y).isLt (Nat.pow_le_pow_right (by decide) (width_le ty))
  rw [shiftAmount, hty, BitVec.toNat_setWidth, hlow, Nat.mod_mod_of_dvd _ hdvd]

theorem shift_lt (y : BitVec (width ty)) : y.toNat % width ty % 64 = y.toNat % width ty := by
  have hpos : 0 < width ty := by cases ty <;> decide
  exact Nat.mod_eq_of_lt (lt_of_lt_of_le (Nat.mod_lt _ hpos) (width_le ty))

theorem low_signExtend (r : BitVec 32) : low .i32 (r.signExtend 64) = r := by
  apply eq_of_getLsbD_eq
  intro i hi
  have hi' : i < 32 := hi
  rw [low, getLsbD_setWidth, BitVec.getLsbD_signExtend]
  simp [hi', show i < 64 by omega, width]

theorem low_setWidth_i32 (r : BitVec 32) : low .i32 (r.setWidth 64) = r := low_setWidth .i32 r

/-- The operations the pass computes separately at 32 bits. -/
theorem fold_by_width (f : (w : Nat) → BitVec w → BitVec w) {ext : BitVec 32 → BitVec 64}
    (hext : ∀ r, low .i32 (ext r) = r) (ty : IrType) (x : BitVec 64) :
    (if ty = IrType.i32 then some (ext (f 32 ((x &&& typeMask ty).setWidth 32)))
      else some (f 64 (x &&& typeMask ty))).map (· &&& typeMask ty) =
        some ((f (width ty) (low ty x)).setWidth 64) := by
  cases ty with
  | i32 =>
    rw [if_pos rfl, show (x &&& typeMask .i32).setWidth 32 = low .i32 x from low_and_typeMask .i32 x,
      map_some, and_typeMask .i32 (ext _), hext]
    rfl
  | _ => simp only [typeMask, low, width, reduceCtorEq, if_false, map_some, BitVec.and_allOnes, BitVec.setWidth_eq]

theorem evalBinary_eq (hty : ty.sizeBits = width ty) (opc : Opcode) (x y : BitVec 64) :
    evalBinary opc (x &&& typeMask ty) (y &&& typeMask ty) ty =
      (binOp opc (low ty x) (low ty y)).map fun r => r.setWidth 64 := by
  have hw := width_le ty
  have hx : (x &&& typeMask ty).setWidth (width ty) = low ty x := low_and_typeMask ty x
  have hy : (y &&& typeMask ty).setWidth (width ty) = low ty y := low_and_typeMask ty y
  have hsh := shiftAmount_eq hty y
  unfold evalBinary
  rw [hsh]
  cases opc with
  | add => simp [binOp, and_typeMask _ (_ + _), low, BitVec.setWidth_add _ _ hw, hx, hy]
  | sub =>
    simp [binOp, and_typeMask _ (_ - _), low_sub]
  | mul => simp [binOp, and_typeMask _ (_ * _), low, BitVec.setWidth_mul _ _ hw, hx, hy]
  | and => simp [binOp, and_typeMask _ (_ &&& _), low, hx, hy]
  | or => simp [binOp, and_typeMask _ (_ ||| _), low, hx, hy]
  | xor => simp [binOp, and_typeMask _ (_ ^^^ _), low, hx, hy]
  | andC =>
    simp [binOp, and_typeMask _ (_ &&& _), low, BitVec.setWidth_not hw, hx, hy]
  | shl =>
    simp only [binOp, map_some, shift_lt]
    rw [and_typeMask ty (_ <<< _), low, BitVec.setWidth_shiftLeft_of_le hw, hx]
  | shr =>
    simp only [binOp, map_some, shift_lt, BitVec.and_assoc, BitVec.and_self]
    rw [and_typeMask ty (_ >>> _), low_ushiftRight]
  | sar =>
    simp only [binOp, shift_lt, map_some]
    exact fold_by_width (fun _ v => v.sshiftRight _) low_signExtend ty x
  | rotL =>
    simp only [binOp, map_some]
    exact fold_by_width (fun _ v => v.rotateLeft _) low_setWidth_i32 ty x
  | rotR =>
    simp only [binOp, map_some]
    exact fold_by_width (fun _ v => v.rotateRight _) low_setWidth_i32 ty x
  | _ => simp [binOp]

theorem foldUnary_eq (ty : IrType) (hopc : isUnary opc = true) (x : BitVec 64) :
    unOp opc (low ty x) = some (low ty (if opc = .neg then 0#64 - x else ~~~x)) := by
  have hw := width_le ty
  rcases (by simpa [isUnary] using hopc : opc = .neg ∨ opc = .not) with rfl | rfl
  · rw [if_pos rfl, low_sub]
    simp [unOp, low]
  · rw [if_neg (by decide), unOp, low, low, BitVec.setWidth_not hw]

theorem and_low32 (v : BitVec 64) : v &&& 0xFFFFFFFF#64 = (v.setWidth 32).setWidth 64 := and_typeMask .i32 v

theorem extOp_eq (hopc : isExt opc = true) (v : BitVec 64) : extOp opc v = some (extValue opc v) := by
  cases opc <;> first | exact absurd hopc (by decide) | simp [extOp, extValue, and_low32]

theorem unOp_of_isExt (hopc : isExt opc = true) (x : BitVec w) : unOp opc x = none := by
  cases opc <;> first | exact absurd hopc (by decide) | rfl

/-- What a replacement of a binary operation computes. -/
def Rewrite.meaning (ty : IrType) (val : TempIdx → BitVec 64) : Rewrite → BitVec (width ty)
  | .const v => low ty v
  | .mov src => low ty (val src)
  | .neg src => -low ty (val src)

section

variable {ty : IrType} {opc : Opcode} {r : Rewrite} (val : TempIdx → BitVec 64)

theorem low_eq_of_and {y b : BitVec 64} (h : y &&& typeMask ty = b) : low ty y = low ty b := by
  rw [← h, low_and_typeMask]

theorem low_typeMask (ty : IrType) : low ty (typeMask ty) = BitVec.allOnes (width ty) := by
  cases ty <;> rfl

theorem low_zero (ty : IrType) : low ty 0#64 = 0#(width ty) := by
  cases ty <;> rfl

theorem low_one (ty : IrType) : low ty 1#64 = 1#(width ty) := by
  cases ty <;> rfl

theorem rotateLeft_zero (v : BitVec w) : v.rotateLeft 0 = v := by
  apply eq_of_getLsbD_eq
  intro i hi
  simp [hi]

theorem rotateRight_zero (v : BitVec w) : v.rotateRight 0 = v := by
  apply eq_of_getLsbD_eq
  intro i hi
  simp [hi]

theorem simplifyRight_sound {y : BitVec 64} (h : simplifyRight opc a (y &&& typeMask ty) (typeMask ty) = some r) :
    binOp opc (low ty (val a)) (low ty y) = some (Rewrite.meaning ty val r) := by
  have hzero (h0 : y &&& typeMask ty = 0#64) : low ty y = 0#(width ty) := by rw [low_eq_of_and h0, low_zero]
  have hone (h1 : y &&& typeMask ty = 1#64) : low ty y = 1#(width ty) := by rw [low_eq_of_and h1, low_one]
  have hones (h1 : y &&& typeMask ty = typeMask ty) : low ty y = BitVec.allOnes (width ty) := by
    rw [low_eq_of_and h1, low_typeMask]
  unfold simplifyRight at h
  split at h <;> (try split_ifs at h) <;> cases h <;>
    simp_all [binOp, Rewrite.meaning, low_zero, low_typeMask, rotateLeft_zero, rotateRight_zero]

theorem simplifyLeft_sound {x : BitVec 64} (h : simplifyLeft opc (x &&& typeMask ty) b (typeMask ty) = some r) :
    binOp opc (low ty x) (low ty (val b)) = some (Rewrite.meaning ty val r) := by
  have hzero (h0 : x &&& typeMask ty = 0#64) : low ty x = 0#(width ty) := by rw [low_eq_of_and h0, low_zero]
  have hones (h1 : x &&& typeMask ty = typeMask ty) : low ty x = BitVec.allOnes (width ty) := by
    rw [low_eq_of_and h1, low_typeMask]
  unfold simplifyLeft at h
  split at h <;> (try split_ifs at h) <;> cases h <;>
    simp_all [binOp, Rewrite.meaning, low_zero, low_typeMask]

theorem sameOperand_sound (h : sameOperand opc a = some r) :
    binOp opc (low ty (val a)) (low ty (val a)) = some (Rewrite.meaning ty val r) := by
  unfold sameOperand at h
  split at h <;> cases h <;> simp [binOp, Rewrite.meaning, low_zero]

end

/-- Every replacement of a binary operation computes what the operation means. -/
theorem binaryRewrite_sound {info : Info} {r : Rewrite} {val : TempIdx → BitVec 64} (hty : ty.sizeBits = width ty)
    (hconst : ∀ t, (info t).isConst = true → val t = (info t).val) (h : binaryRewrite info opc a b ty = some r) :
    binOp opc (low ty (val a)) (low ty (val b)) = some (Rewrite.meaning ty val r) := by
  simp only [binaryRewrite, trySimplify, Option.or_eq_some_iff, Option.ite_none_right_eq_some, Bool.and_eq_true] at h
  rcases h with (⟨⟨ha, hb⟩, hfold⟩ | ⟨-, ⟨hb, hright⟩ | ⟨-, ha, hleft⟩⟩) | ⟨-, rfl, hsame⟩
  · rw [← hconst a ha, ← hconst b hb, evalBinary_eq hty, Option.map_map, Option.map_eq_some_iff] at hfold
    obtain ⟨w, hw, rfl⟩ := hfold
    rw [hw]
    simp [Rewrite.meaning]
  · rw [← hconst b hb] at hright
    exact simplifyRight_sound val hright
  · rw [← hconst a ha] at hleft
    exact simplifyLeft_sound val hleft
  · exact sameOperand_sound val hsame

/-- A replacement reads one of the operands or none. -/
def Rewrite.Reads (a b : TempIdx) : Rewrite → Prop
  | .const _ => True
  | .mov src => src = a ∨ src = b
  | .neg src => src = a ∨ src = b

theorem binaryRewrite_operand {info : Info} {r : Rewrite}
    (h : binaryRewrite info opc a b ty = some r) : Rewrite.Reads a b r := by
  simp only [binaryRewrite, trySimplify, Option.or_eq_some_iff, Option.ite_none_right_eq_some, Bool.and_eq_true] at h
  rcases h with (⟨-, hfold⟩ | ⟨-, ⟨-, hright⟩ | ⟨-, -, hleft⟩⟩) | ⟨-, rfl, hsame⟩
  · obtain ⟨w, -, rfl⟩ := Option.map_eq_some_iff.mp hfold
    trivial
  · unfold simplifyRight at hright
    split at hright <;> (try split_ifs at hright) <;> cases hright <;> simp [Rewrite.Reads]
  · unfold simplifyLeft at hleft
    split at hleft <;> (try split_ifs at hleft) <;> cases hleft <;> simp [Rewrite.Reads]
  · unfold sameOperand at hsame
    split at hsame <;> cases hsame <;> simp [Rewrite.Reads]

end MachinaFold
