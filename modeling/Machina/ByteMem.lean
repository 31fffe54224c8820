import Mathlib

/-!
# Byte-addressed memory with little-endian words

A memory is a total map from 64-bit addresses to bytes. Words of up to eight
bytes are read and written in little-endian order, at any alignment, and
addresses wrap.
-/

namespace MachinaByteMem

open BitVec (getLsbD_setWidth toNat_sub toNat_add toNat_ofNat)

abbrev Mem := BitVec 64 → BitVec 8

/-- The `n` bytes from `a` on, zero extended. -/
def read (mem : Mem) (a : BitVec 64) : Nat → BitVec 64
  | 0 => 0#64
  | n + 1 => read mem a n ||| ((mem (a + BitVec.ofNat 64 n)).setWidth 64 <<< (8 * n))

variable (mem : Mem)

/-- Store the low `n` bytes of `v` from `a` on. -/
def write (a : BitVec 64) (n : Nat) (v : BitVec 64) : Mem := fun x =>
  if (x - a).toNat < n then (v >>> (8 * (x - a).toNat)).setWidth 8 else mem x

theorem getLsbD_read (a : BitVec 64) (n j : Nat) (hn : n ≤ 8) : (read mem a n).getLsbD j =
      (decide (j < 8 * n) && (mem (a + BitVec.ofNat 64 (j / 8))).getLsbD (j % 8)) := by
  induction n with
  | zero => simp [read]
  | succ n ih =>
    rw [read, BitVec.getLsbD_or, ih (by omega), BitVec.getLsbD_shiftLeft, getLsbD_setWidth]
    by_cases hlo : j < 8 * n
    · simp [hlo, show j < 8 * (n + 1) by omega]
    by_cases hhi : j < 8 * (n + 1)
    · have hdiv : j / 8 = n := by omega
      have hmod : j - 8 * n = j % 8 := by omega
      simp [hlo, hhi, hdiv, hmod, show j < 64 by omega, show j % 8 < 64 by omega]
    · have hout : (mem (a + BitVec.ofNat 64 n)).getLsbD (j - 8 * n) = false :=
        BitVec.getLsbD_of_ge _ _ (by omega)
      simp [hlo, hhi, hout]

theorem read_congr {mem mem' : Mem} {a : BitVec 64} {n : Nat}
    (h : ∀ i, i < n → mem' (a + BitVec.ofNat 64 i) = mem (a + BitVec.ofNat 64 i)) : read mem' a n = read mem a n := by
  induction n with
  | zero => rfl
  | succ n ih =>
    rw [read, read, ih fun i hi => h i (by omega), h n (by omega)]

theorem write_of_ge {mem : Mem} {a x : BitVec 64} {n : Nat} {v : BitVec 64} (h : n ≤ (x - a).toNat) :
    write mem a n v x = mem x := by
  rw [write, if_neg (by omega)]

theorem read_write_word (a v : BitVec 64) : read (write mem a 8 v) a 8 = v := by
  apply BitVec.eq_of_getLsbD_eq
  intro j hj
  have hoff : (a + BitVec.ofNat 64 (j / 8) - a).toNat = j / 8 := by
    have hbound := a.isLt
    rw [toNat_sub, toNat_add, toNat_ofNat]
    omega
  rw [getLsbD_read _ _ _ _ (by omega), write, hoff, if_pos (by omega), getLsbD_setWidth,
    BitVec.getLsbD_ushiftRight, show 8 * (j / 8) + j % 8 = j by omega]
  simp [show j < 8 * 8 by omega, show j % 8 < 8 by omega]

theorem read_write_other {a b : BitVec 64} (v : BitVec 64) (ha : a.toNat % 8 = 0)
    (hb : b.toNat % 8 = 0) (hne : b ≠ a) : read (write mem a 8 v) b 8 = read mem b 8 := by
  refine read_congr fun i hi => write_of_ge ?_
  have hval : b.toNat ≠ a.toNat := fun h => hne (BitVec.eq_of_toNat_eq h)
  rw [toNat_sub, toNat_add, toNat_ofNat]
  omega

theorem read_write_same (a v : BitVec 64) {n : Nat} (hn : n ≤ 8) :
    (read (write mem a n v) a n).setWidth (8 * n) = v.setWidth (8 * n) := by
  apply BitVec.eq_of_getLsbD_eq
  intro j hj
  have hoff : (a + BitVec.ofNat 64 (j / 8) - a).toNat = j / 8 := by
    have hbound := a.isLt
    rw [toNat_sub, toNat_add, toNat_ofNat]
    omega
  rw [getLsbD_setWidth, getLsbD_setWidth, getLsbD_read _ _ _ _ hn, write, hoff, if_pos (by omega),
    getLsbD_setWidth, BitVec.getLsbD_ushiftRight, show 8 * (j / 8) + j % 8 = j by omega]
  simp [show j % 8 < 8 by omega]

/-- The `n` bytes from `a` on and the `m` bytes from `b` on do not overlap. -/
def Apart (a : BitVec 64) (n : Nat) (b : BitVec 64) (m : Nat) : Prop := n ≤ (b - a).toNat ∧ m ≤ (a - b).toNat

theorem Apart.symm {a b : BitVec 64} {n m : Nat} (h : Apart a n b m) : Apart b m a n := ⟨h.2, h.1⟩

theorem read_write_apart {a b : BitVec 64} {n m : Nat} (v : BitVec 64) (h : Apart a n b m) :
    read (write mem a n v) b m = read mem b m := by
  refine read_congr fun i hi => write_of_ge ?_
  have hba := h.1
  have hab := h.2
  rw [toNat_sub] at hba hab ⊢
  rw [toNat_add, toNat_ofNat]
  omega

/-- Ranges at offsets from one address, without going round. -/
theorem apart_of_offset (a : BitVec 64) {i j : Int} {n m : Nat} (hij : i + n ≤ j) (hround : j + m ≤ i + 2 ^ 64)
    (hn : 0 < n) (hm : 0 < m) : Apart (a + BitVec.ofInt 64 i) n (a + BitVec.ofInt 64 j) m := by
  have hdiff (x y : Int) : a + BitVec.ofInt 64 x - (a + BitVec.ofInt 64 y) = BitVec.ofInt 64 (x - y) := by
    rw [BitVec.sub_eq_iff_eq_add, ← add_assoc, add_comm _ a, add_assoc, ← BitVec.ofInt_add, Int.sub_add_cancel]
  constructor
  · rw [hdiff, BitVec.toNat_ofInt, Int.emod_eq_of_lt (by omega) (by omega)]
    omega
  · rw [hdiff, BitVec.toNat_ofInt, ← Int.add_emod_right, Int.emod_eq_of_lt (by omega) (by omega)]
    omega

end MachinaByteMem
