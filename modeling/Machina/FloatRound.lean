import Mathlib

/-!
# Rounding magnitudes on a binary grid

A nonnegative number is rounded to an integer by its floor and its place
between the floor and the next integer. Rounding to a grid of powers of two
scales to that case, and a number known only up to a sticky bit rounds as the
integer that carries the sticky bit.
-/
namespace MachinaFloatRound

/-- Rules that round a magnitude to one of its two integer neighbours. -/
inductive Rounding where
  | down
  | up
  | nearestEven
  | nearestAway
  | odd
  deriving DecidableEq, Repr

/-- Where a number lies between two neighbouring integers. -/
inductive Place where
  | exact
  | below
  | middle
  | above
  deriving DecidableEq, Repr

/-- Whether a rule takes the upper neighbour, given the parity of the lower one. -/
def Rounding.increments : Rounding → (isOdd : Bool) → Place → Bool
  | _, _, .exact => false
  | .down, _, _ => false
  | .up, _, _ => true
  | .nearestEven, _, .below => false
  | .nearestEven, isOdd, .middle => isOdd
  | .nearestEven, _, .above => true
  | .nearestAway, _, .below => false
  | .nearestAway, _, _ => true
  | .odd, isOdd, _ => !isOdd

@[simp] theorem increments_exact (m : Rounding) (b : Bool) : m.increments b .exact = false := by
  cases m <;> rfl

section

variable {K : Type*} [Field K] [LinearOrder K]

def fractPlace (t : K) : Place :=
  if t = 0 then .exact else if t < 1 / 2 then .below else if t = 1 / 2 then .middle else .above

theorem fractPlace_exact_iff (t : K) : fractPlace t = .exact ↔ t = 0 := by
  unfold fractPlace
  split_ifs with h0 <;> simp [h0]

variable [FloorSemiring K]

/-- Rounding of a nonnegative number to an integer. -/
def roundInt (m : Rounding) (y : K) : ℕ :=
  ⌊y⌋₊ + (m.increments (⌊y⌋₊ % 2 == 1) (fractPlace (y - ⌊y⌋₊))).toNat

/-- Rounding of a nonnegative number to a multiple of a power of two. -/
def roundAt (m : Rounding) (q : ℤ) (x : K) : K :=
  roundInt m (x / 2 ^ q) * 2 ^ q

/-- Whether a number just below an even multiple of the grid's unit is rounded
up to that multiple. -/
def Reaches (m : Rounding) (top unit x : K) : Prop :=
  match m with
  | .nearestEven | .nearestAway => top - unit / 2 ≤ x
  | .up => top - unit < x
  | .down | .odd => False

instance (top unit x : K) : (m : Rounding) → Decidable (Reaches m top unit x)
  | .nearestEven | .nearestAway => inferInstanceAs (Decidable (_ ≤ _))
  | .up => inferInstanceAs (Decidable (_ < _))
  | .down | .odd => inferInstanceAs (Decidable False)

theorem roundInt_le_floor_add_one (m : Rounding) (y : K) : roundInt m y ≤ ⌊y⌋₊ + 1 :=
  Nat.add_le_add_left (Bool.toNat_le _) _

theorem roundInt_le (m : Rounding) {y : K} {n : ℕ} (h0 : 0 ≤ y) (h : y < n) : roundInt m y ≤ n :=
  (roundInt_le_floor_add_one m y).trans ((Nat.floor_lt h0).mpr h)

variable [IsStrictOrderedRing K] (m : Rounding)

/-- Rounding by a floor and a fractional part known from elsewhere. -/
theorem roundInt_eq {y : K} {a : ℕ} (h0 : (a : K) ≤ y) (h1 : y < a + 1) :
    roundInt m y = a + (m.increments (a % 2 == 1) (fractPlace (y - a))).toNat := by
  have ha : ⌊y⌋₊ = a := (Nat.floor_eq_iff ((Nat.cast_nonneg a).trans h0)).mpr ⟨h0, h1⟩
  rw [roundInt, ha]

/-- Between an odd integer and the next one, the upper neighbour is taken
exactly from the rule's threshold on. -/
theorem increments_iff_reaches {y : K} {a : ℕ} (ha : a % 2 = 1) (h0 : (a : K) ≤ y) (h1 : y < a + 1) :
    m.increments (a % 2 == 1) (fractPlace (y - a)) = true ↔ Reaches m ((a + 1 : ℕ) : K) 1 y := by
  have hodd : (a % 2 == 1) = true := by simp [ha]
  rw [hodd]
  push_cast
  by_cases he : y - a = 0
  · rw [(fractPlace_exact_iff _).mpr he, increments_exact]
    cases m <;> simp [Reaches] <;> linarith
  by_cases hlt : y - a < 1 / 2
  · have hp : fractPlace (y - a) = .below := by rw [fractPlace, if_neg he, if_pos hlt]
    have hpos : 0 < y - a := lt_of_le_of_ne (by linarith) (Ne.symm he)
    rw [hp]
    cases m <;> simp [Rounding.increments, Reaches] <;> linarith
  · have hp : fractPlace (y - a) = .middle ∨ fractPlace (y - a) = .above := by
      rw [fractPlace, if_neg he, if_neg hlt]
      split_ifs <;> simp
    have hpos : 0 < y - a := lt_of_le_of_ne (by linarith) (Ne.symm he)
    rcases hp with hp | hp <;> rw [hp] <;>
      cases m <;> simp [Rounding.increments, Reaches] <;> linarith

/-- Below an even integer, a number is rounded up to it exactly when it reaches it. -/
theorem roundInt_eq_top_iff {y : K} {n : ℕ} (hn : n % 2 = 0) (h0 : 0 ≤ y) (h : y < n) :
    roundInt m y = n ↔ Reaches m (n : K) 1 y := by
  obtain ⟨a, rfl⟩ : ∃ a, n = a + 1 := ⟨n - 1, by have := h0.trans_lt h; rw [Nat.cast_pos] at this; omega⟩
  push_cast at h
  rcases le_or_gt (a : K) y with ha | ha
  · rw [← increments_iff_reaches m (by omega) ha h, roundInt_eq m ha h]
    cases m.increments (a % 2 == 1) (fractPlace (y - a)) <;> simp
  have hle := roundInt_le m h0 ha
  have hnot : ¬Reaches m ((a + 1 : ℕ) : K) 1 y := by
    push_cast
    cases m <;> simp [Reaches] <;> linarith
  exact iff_of_false (by omega) hnot

theorem reaches_scale {n x u : K} (hu : 0 < u) : Reaches m n 1 (x / u) ↔ Reaches m (n * u) u x := by
  have hhalf : n - 1 / 2 ≤ x / u ↔ n * u - u / 2 ≤ x := by
    rw [le_div_iff₀ hu]
    ring_nf
  have hone : n - 1 < x / u ↔ n * u - u < x := by
    rw [lt_div_iff₀ hu]
    ring_nf
  cases m <;> simp only [Reaches, hhalf, hone]

theorem Reaches.coarsen {m : Rounding} {top u v x : K} (h : Reaches m top u x) (huv : u ≤ v) : Reaches m top v x := by
  cases m <;> simp only [Reaches] at h ⊢ <;> linarith

theorem Reaches.lt {m : Rounding} {top u x : K} (hu : 0 < u) (h : Reaches m top u x) : top - u < x := by
  cases m <;> simp only [Reaches] at h <;> linarith

theorem roundInt_eq_self_iff {y : K} (h0 : 0 ≤ y) : (roundInt m y : K) = y ↔ (⌊y⌋₊ : K) = y := by
  have hle := Nat.floor_le h0
  have hlt := Nat.lt_floor_add_one y
  constructor
  · intro h
    have h1 : roundInt m y = ⌊y⌋₊ := by rw [← h, Nat.floor_natCast, h]
    rwa [h1] at h
  · intro h
    rw [roundInt_eq m hle hlt, (fractPlace_exact_iff _).mpr (sub_eq_zero.mpr h.symm), increments_exact]
    simpa using h

/-- The place of a remainder, given half the divisor. -/
def remPlace (r half : ℕ) : Place :=
  if r = 0 then .exact else if r < half then .below else if r = half then .middle else .above

theorem remPlace_cases (r half : ℕ) : r = 0 ∧ remPlace r half = .exact ∨ r ≠ 0 ∧ r < half ∧ remPlace r half = .below ∨
      r ≠ 0 ∧ r = half ∧ remPlace r half = .middle ∨ r ≠ 0 ∧ half < r ∧ remPlace r half = .above := by
  unfold remPlace
  split_ifs with h0 h1 h2
  · exact .inl ⟨h0, rfl⟩
  · exact .inr (.inl ⟨h0, h1, rfl⟩)
  · exact .inr (.inr (.inl ⟨h0, h2, rfl⟩))
  · exact .inr (.inr (.inr ⟨h0, by omega, rfl⟩))

/-- Rounding of an integer at a bit position. -/
def roundShift (n k : ℕ) : ℕ :=
  n / 2 ^ k + (m.increments (n / 2 ^ k % 2 == 1) (remPlace (n % 2 ^ k) (2 ^ (k - 1)))).toNat

/-- Right shift that keeps a lost bit as a sticky bit. -/
def jam (n j : ℕ) : ℕ :=
  n / 2 ^ j ||| (if n % 2 ^ j = 0 then 0 else 1)

/-- The integer is the number itself, or an odd integer next to it: its lowest
bit tells that something below was lost. -/
def Sticky (y : K) (n : ℕ) : Prop :=
  y = n ∨ n % 2 = 1 ∧ (n : K) - 1 < y ∧ y < n + 1

theorem fractPlace_div {t h : K} (hh : 0 < h) : fractPlace (t / (2 * h)) =
    if t = 0 then .exact else if t < h then .below else if t = h then .middle else .above := by
  have h2 : 0 < 2 * h := by linarith
  have hlt : t / (2 * h) < 1 / 2 ↔ t < h := by
    rw [div_lt_iff₀ h2]
    ring_nf
  have heq : t / (2 * h) = 1 / 2 ↔ t = h := by
    rw [div_eq_iff h2.ne']
    ring_nf
  simp only [fractPlace, div_eq_zero_iff, h2.ne', or_false, hlt, heq]

/-- What the bits above the sticky bit tell about the number: its quotient and
the place of its remainder. -/
theorem Sticky.quotient {y : K} {n : ℕ} (hs : Sticky y n) {k : ℕ} (hk : 2 ≤ k) :
    ((n / 2 ^ k : ℕ) : K) ≤ y / 2 ^ k ∧ y / 2 ^ k < ((n / 2 ^ k : ℕ) : K) + 1 ∧
      fractPlace (y / 2 ^ k - ((n / 2 ^ k : ℕ) : K)) = remPlace (n % 2 ^ k) (2 ^ (k - 1)) := by
  obtain ⟨j, rfl⟩ : ∃ j, k = j + 2 := ⟨k - 2, by omega⟩
  set a := n / 2 ^ (j + 2) with ha
  set r := n % 2 ^ (j + 2) with hr
  have hsplit : n = 2 ^ (j + 2) * a + r := (Nat.div_add_mod n _).symm
  have hrlt : r < 2 ^ (j + 2) := Nat.mod_lt _ (by positivity)
  have hhalf : (2 : ℕ) ^ (j + 2) = 2 * 2 ^ (j + 1) := by ring
  have hN : (0 : K) < 2 ^ (j + 1) := by positivity
  have hNK : (2 : K) ^ (j + 2) = 2 * 2 ^ (j + 1) := by ring
  have hnK : (n : K) = 2 ^ (j + 2) * a + r := by rw [hsplit]; push_cast; rfl
  -- the remainder of the number itself
  set t := y - 2 ^ (j + 2) * (a : K) with ht
  have hy : y / 2 ^ (j + 2) = a + t / 2 ^ (j + 2) := by
    rw [ht]
    field_simp
    ring
  have hbounds : 0 ≤ t ∧ t < 2 ^ (j + 2) ∧ (t = 0 ↔ r = 0) ∧ (t < 2 ^ (j + 1) ↔ r < 2 ^ (j + 1)) ∧
      (t = 2 ^ (j + 1) ↔ r = 2 ^ (j + 1)) := by
    rcases hs with hs | ⟨hodd, hlo, hhi⟩
    · have htr : t = r := by rw [ht, hs, hnK]; ring
      rw [htr]
      refine ⟨Nat.cast_nonneg r, by exact_mod_cast hrlt, Nat.cast_eq_zero, by norm_cast, by norm_cast⟩
    have hlo' : (r : K) - 1 < t := by rw [ht]; linarith
    have hhi' : t < r + 1 := by rw [ht]; linarith
    have hrodd : r % 2 = 1 := by
      have : 2 ^ (j + 2) * a % 2 = 0 := by rw [hhalf, mul_assoc]; exact Nat.mul_mod_right 2 _
      omega
    have hpow : (2 : ℕ) ^ (j + 1) % 2 = 0 := by rw [pow_succ]; exact Nat.mul_mod_left _ 2
    have hr1 : (1 : K) ≤ r := by exact_mod_cast (by omega : 1 ≤ r)
    have hrN : (r : K) + 1 ≤ 2 ^ (j + 2) := by exact_mod_cast (by omega : r + 1 ≤ 2 ^ (j + 2))
    have htop : t < 2 ^ (j + 2) := by linarith
    have hpos : 0 < t := by linarith
    rcases lt_or_ge r (2 ^ (j + 1)) with hcase | hcase
    · have hc : (r : K) + 1 ≤ 2 ^ (j + 1) := by exact_mod_cast hcase
      have hth : t < 2 ^ (j + 1) := by linarith
      exact ⟨hpos.le, htop, iff_of_false hpos.ne' (by omega), iff_of_true hth hcase,
        iff_of_false hth.ne (by omega)⟩
    · have hc : (2 : K) ^ (j + 1) + 1 ≤ r := by exact_mod_cast (by omega : 2 ^ (j + 1) + 1 ≤ r)
      have hth : 2 ^ (j + 1) < t := by linarith
      exact ⟨hpos.le, htop, iff_of_false hpos.ne' (by omega), iff_of_false hth.not_gt (by omega),
        iff_of_false hth.ne' (by omega)⟩
  obtain ⟨h0, h1, hz, hl, he⟩ := hbounds
  have hpow : (0 : K) < 2 ^ (j + 2) := by positivity
  refine ⟨?_, ?_, ?_⟩
  · rw [hy]
    have := div_nonneg h0 hpow.le
    linarith
  · rw [hy]
    have := (div_lt_one hpow).mpr h1
    linarith
  · rw [hy, add_sub_cancel_left, hNK, fractPlace_div hN, remPlace]
    simp [hz, hl, he]

/-- A sticky integer rounds at a position above its two lowest bits as the
number it stands for. -/
theorem Sticky.roundInt_div {y : K} {n : ℕ} (hs : Sticky y n) (m : Rounding) {k : ℕ} (hk : 2 ≤ k) :
    roundInt m (y / 2 ^ k) = roundShift m n k := by
  obtain ⟨h0, h1, hp⟩ := hs.quotient hk
  rw [roundInt_eq m h0 h1, hp, roundShift]

/-- A sticky integer has no bits below a position exactly when the number it
stands for is a multiple of it. -/
theorem Sticky.exact_iff {y : K} {n : ℕ} (hs : Sticky y n) (m : Rounding) {k : ℕ} (hk : 2 ≤ k) (hy : 0 ≤ y) :
    (roundShift m n k : K) = y / 2 ^ k ↔ n % 2 ^ k = 0 := by
  obtain ⟨h0, h1, hp⟩ := hs.quotient hk
  have hy' : 0 ≤ y / 2 ^ k := by positivity
  have hfloor : ⌊y / 2 ^ k⌋₊ = n / 2 ^ k := (Nat.floor_eq_iff hy').mpr ⟨h0, h1⟩
  rw [← hs.roundInt_div m hk, roundInt_eq_self_iff m hy', hfloor, eq_comm, ← sub_eq_zero,
    ← fractPlace_exact_iff, hp, remPlace]
  split_ifs with h <;> simp [h]

theorem roundInt_natCast (n : ℕ) : roundInt m (n : K) = n := by
  rw [roundInt_eq m le_rfl (lt_add_one _)]
  simp [fractPlace]

theorem floor_div_two_pow (n k : ℕ) : ⌊(n : K) / 2 ^ k⌋₊ = n / 2 ^ k := by
  exact_mod_cast Nat.floor_div_eq_div (K := K) n (2 ^ k)

theorem roundInt_zero : roundInt m (0 : K) = 0 := by
  simpa using roundInt_natCast (K := K) m 0

theorem roundInt_div (n : ℕ) {k : ℕ} (hk : 0 < k) : roundInt m ((n : K) / 2 ^ k) = roundShift m n k := by
  obtain ⟨k, rfl⟩ : ∃ j, k = j + 1 := ⟨k - 1, by omega⟩
  have hrem : (n : K) / 2 ^ (k + 1) - (n / 2 ^ (k + 1) : ℕ) = (n % 2 ^ (k + 1) : ℕ) / (2 * 2 ^ k) := by
    have hn : ((2 ^ (k + 1) * (n / 2 ^ (k + 1)) + n % 2 ^ (k + 1) : ℕ) : K) = n := by rw [Nat.div_add_mod]
    push_cast at hn
    rw [← pow_succ', eq_div_iff (by positivity), sub_mul, div_mul_cancel₀ _ (by positivity)]
    linarith
  rw [roundInt, floor_div_two_pow, hrem, fractPlace_div (by positivity), roundShift, remPlace, Nat.add_sub_cancel]
  norm_cast

theorem roundInt_div_exact_iff (n k : ℕ) : (roundInt m ((n : K) / 2 ^ k) : K) = (n : K) / 2 ^ k ↔ n % 2 ^ k = 0 := by
  rw [roundInt_eq_self_iff m (by positivity), floor_div_two_pow, eq_div_iff (by positivity), ← Nat.dvd_iff_mod_eq_zero,
    Nat.dvd_iff_div_mul_eq]
  norm_cast

theorem roundInt_tiny {x : K} (h0 : 0 < x) (h1 : x < 1 / 2) : roundInt m x = if m = .up ∨ m = .odd then 1 else 0 := by
  have hplace : fractPlace (x - (0 : ℕ)) = .below := by
    rw [Nat.cast_zero, sub_zero, fractPlace, if_neg h0.ne', if_pos h1]
  rw [roundInt_eq m (a := 0) (by simpa using h0.le) (by push_cast; linarith), hplace]
  cases m <;> rfl

theorem or_one (a : ℕ) : a ||| 1 = if a % 2 = 1 then a else a + 1 := by
  have hmod : (a ||| 1) % 2 = 1 := by simp [Nat.or_mod_two_eq_one]
  have hdiv : (a ||| 1) / 2 = a / 2 := by simp [Nat.or_div_two]
  split_ifs <;> omega

/-- Jamming keeps a sticky integer sticky. -/
theorem Sticky.jam {y : K} {n : ℕ} (hs : Sticky y n) (j : ℕ) : Sticky (y / 2 ^ j) (jam n j) := by
  set a := n / 2 ^ j with ha
  set r := n % 2 ^ j with hr
  have hpow : (0 : K) < 2 ^ j := by positivity
  have hsplit : n = 2 ^ j * a + r := (Nat.div_add_mod n _).symm
  have hnK : (n : K) = 2 ^ j * a + r := by rw [hsplit]; push_cast; rfl
  by_cases hz : r = 0
  · have hjam : MachinaFloatRound.jam n j = a := by rw [MachinaFloatRound.jam, ← hr, if_pos hz, Nat.or_zero]
    rw [hjam]
    rw [hz, Nat.cast_zero, add_zero] at hnK
    rcases hs with hs | ⟨hodd, hlo, hhi⟩
    · refine .inl ?_
      rw [hs, hnK, mul_div_cancel_left₀ _ hpow.ne']
    -- an odd multiple of the divisor: nothing was shifted out
    have hj : j = 0 := by
      by_contra hj
      obtain ⟨i, rfl⟩ := Nat.exists_eq_succ_of_ne_zero hj
      rw [hsplit, hz, add_zero, pow_succ, mul_comm _ 2, mul_assoc, Nat.mul_mod_right] at hodd
      omega
    subst hj
    simp only [pow_zero, Nat.div_one] at ha
    rw [pow_zero, div_one, ha]
    exact .inr ⟨hodd, hlo, hhi⟩
  · have hrlt : r < 2 ^ j := Nat.mod_lt _ (by positivity)
    have hr1 : (1 : K) ≤ r := by exact_mod_cast Nat.one_le_iff_ne_zero.mpr hz
    have hrN : (r : K) + 1 ≤ 2 ^ j := by exact_mod_cast hrlt
    have hy : (n : K) - 1 < y ∧ y < n + 1 := by
      rcases hs with hs | ⟨-, hlo, hhi⟩
      · rw [hs]
        exact ⟨by linarith, by linarith⟩
      · exact ⟨hlo, hhi⟩
    have hlo : (a : K) < y / 2 ^ j := by
      rw [lt_div_iff₀ hpow]
      linarith [hy.1]
    have hhi : y / 2 ^ j < a + 1 := by
      rw [div_lt_iff₀ hpow]
      linarith [hy.2]
    have hjam : MachinaFloatRound.jam n j = if a % 2 = 1 then a else a + 1 := by
      rw [MachinaFloatRound.jam, ← hr, if_neg hz, or_one]
    rw [hjam]
    split_ifs with hodd
    · exact .inr ⟨hodd, by linarith, by linarith⟩
    · refine .inr ⟨by omega, ?_, ?_⟩ <;> push_cast <;> linarith

theorem jam_lt {n j k : ℕ} (hn : n < 2 ^ (j + k)) (hk : 0 < k) : MachinaFloatRound.jam n j < 2 ^ k := by
  refine Nat.or_lt_two_pow ?_ ?_
  · exact Nat.div_lt_of_lt_mul (by rwa [← pow_add])
  split_ifs
  · positivity
  · exact Nat.one_lt_two_pow hk.ne'

theorem le_jam (n j : ℕ) : n / 2 ^ j ≤ MachinaFloatRound.jam n j := Nat.left_le_or

theorem roundShift_le {n k t : ℕ} (hn : n < 2 ^ (k + t)) : roundShift m n k ≤ 2 ^ t := by
  have hdiv : n / 2 ^ k < 2 ^ t := Nat.div_lt_of_lt_mul (by rwa [← pow_add])
  have hinc := Bool.toNat_le (m.increments (n / 2 ^ k % 2 == 1) (remPlace (n % 2 ^ k) (2 ^ (k - 1))))
  rw [roundShift]
  omega

theorem le_roundShift {n k t : ℕ} (hn : 2 ^ (k + t) ≤ n) : 2 ^ t ≤ roundShift m n k := by
  have hdiv : 2 ^ t ≤ n / 2 ^ k := (Nat.le_div_iff_mul_le (Nat.two_pow_pos k)).mpr (by rwa [← pow_add, add_comm t])
  exact hdiv.trans (Nat.le_add_right _ _)

theorem log_eq_of_binade {x : K} {e : ℤ} (h0 : 2 ^ e ≤ x) (h1 : x < 2 ^ (e + 1)) : Int.log 2 x = e := by
  have hpos : 0 < x := (zpow_pos two_pos e).trans_le h0
  have hle := (Int.zpow_le_iff_le_log (R := K) one_lt_two hpos).mp (by exact_mod_cast h0)
  have hlt := (Int.lt_zpow_iff_log_lt (R := K) one_lt_two hpos).mp (by exact_mod_cast h1)
  omega

end
end MachinaFloatRound
