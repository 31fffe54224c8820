import Machina.FloatUnpack

/-!
# Minimum and maximum against the comparison

Comparison orders zeros, finite numbers and infinities by class first. Minimum
and maximum compare exponents and fractions alone, where a zero has exponent
zero, so a zero and a nonzero number below one are taken in the wrong order.
-/
namespace MachinaMinMax

open MachinaSoftfloat MachinaFloatUnpack

/-- The order of two numbers of class normal, by exponent and then by fraction. -/
def magCmp (a b : FloatParts) : Ordering :=
  (Ord.compare a.exp.toInt b.exp.toInt).then (Ord.compare a.frac.toNat b.frac.toNat)

def compareOrdered (a b : FloatParts) : Ordering :=
  if a.cls = .zero ∧ b.cls = .zero then .eq
  else if a.sign ≠ b.sign then if a.sign then .lt else .gt
  else
    let rawOrd :=
      if a.cls = .inf ∧ b.cls = .inf then .eq
      else if a.cls = .inf then .gt
      else if b.cls = .inf then .lt
      else if a.cls = .zero then .lt
      else if b.cls = .zero then .gt
      else magCmp a b
    if a.sign then rawOrd.swap else rawOrd

/-- Smaller in exponent, or in fraction where the exponents agree. -/
def magLess (p q : FloatParts) : Bool :=
  if p.exp ≠ q.exp then p.exp.toInt < q.exp.toInt else p.frac.toNat < q.frac.toNat

/-- Whether the first of two numbers is taken, as the smaller or as the larger one. -/
def takesFirst (smaller : Bool) (pa pb : FloatParts) : Bool :=
  if pa.cls = .inf then pa.sign == smaller
  else if pb.cls = .inf then pb.sign != smaller
  else if pa.cls = .zero ∧ pb.cls = .zero then !(if smaller then pb.sign else pa.sign)
  else if pa.sign ≠ pb.sign then if smaller then pa.sign else pb.sign
  else if pa.sign == smaller then magLess pb pa
  else magLess pa pb

section

variable (f : FloatFormat) (a b : BitVec f.totalBits) (env : FloatEnv)

def compare : Option Ordering × FloatEnv :=
  let pa := unpack f a
  let pb := unpack f b
  if isNan pa || isNan pb then (none, env.raise ExcFlags.invalid) else (some (compareOrdered pa pb), env)

def minMax (smaller : Bool) : BitVec f.totalBits × FloatEnv :=
  let pa := unpack f a
  let pb := unpack f b
  let env := if pa.cls = .sNaN || pb.cls = .sNaN then env.raise ExcFlags.invalid else env
  if isNan pa && isNan pb then
    let (r, env) := nanPropagate pa pb env
    roundPack f r env
  else if isNan pa then (b, env)
  else if isNan pb then (a, env)
  else (if takesFirst smaller pa pb then a else b, env)

def min : BitVec f.totalBits × FloatEnv := minMax f a b env true
def max : BitVec f.totalBits × FloatEnv := minMax f a b env false

/-- Not greater by the comparison, and not a positive zero beside a negative one. -/
def NotAbove : Prop :=
  (compare f a b env).1 = some .lt ∨
    (compare f a b env).1 = some .eq ∧ ¬((unpack f a).sign = false ∧ (unpack f b).sign = true)

def SameValue : Prop := NotAbove f a b env ∧ NotAbove f b a env

/-- Minimum and maximum select the lower and the upper operand. -/
structure SelectsRight : Prop where
  min_mem : (min f a b env).1 = a ∨ (min f a b env).1 = b
  max_mem : (max f a b env).1 = a ∨ (max f a b env).1 = b
  min_low : NotAbove f (min f a b env).1 a env ∧ NotAbove f (min f a b env).1 b env
  max_high : NotAbove f a (max f a b env).1 env ∧ NotAbove f b (max f a b env).1 env
  min_comm : SameValue f (min f a b env).1 (min f b a env).1 env
  max_comm : SameValue f (max f a b env).1 (max f b a env).1 env
  both : SameValue f (min f a b env).1 a env ∧ SameValue f (max f a b env).1 b env ∨
    SameValue f (min f a b env).1 b env ∧ SameValue f (max f a b env).1 a env

end

/-- A nonzero number whose exponent and fraction do not exceed those of a zero
of the same sign. -/
def BesideZero (z p : FloatParts) : Prop :=
  z.cls = .zero ∧ p.cls = .normal ∧ z.sign = p.sign ∧ (p.exp.toInt < 0 ∨ p.exp = 0 ∧ p.frac = 0)

/-- The same order on parts. -/
def notAbove (p q : FloatParts) : Prop :=
  compareOrdered p q = .lt ∨ compareOrdered p q = .eq ∧ ¬(p.sign = false ∧ q.sign = true)

variable {p q : FloatParts}

theorem magLess_eq (p q : FloatParts) : magLess p q = (magCmp p q == .lt) := by
  have hexp : p.exp = q.exp ↔ p.exp.toInt = q.exp.toInt := BitVec.toInt_inj.symm
  rw [Bool.eq_iff_iff, beq_iff_eq]
  simp only [magLess, magCmp, Ordering.then_eq_lt, Int.compare_eq_lt, Int.compare_eq_eq, Nat.compare_eq_lt]
  grind

theorem magCmp_swap (p q : FloatParts) : (magCmp p q).swap = magCmp q p := by
  simp [magCmp, Ordering.swap_then, Int.compare_swap, Nat.compare_swap]

/-- Against a zero's exponent and fraction. -/
theorem magCmp_zero (hexp : p.exp = 0) (hfrac : p.frac = 0) :
    magCmp p q = .lt ↔ ¬(q.exp.toInt < 0 ∨ q.exp = 0 ∧ q.frac = 0) := by
  have hq : q.frac = 0 ↔ q.frac.toNat = 0 := BitVec.toNat_inj.symm
  have he : q.exp = 0 ↔ q.exp.toInt = 0 := BitVec.toInt_inj.symm
  simp only [magCmp, Ordering.then_eq_lt, Int.compare_eq_lt, Int.compare_eq_eq, Nat.compare_eq_lt, hexp, hfrac, hq, he]
  simp
  grind

theorem notAbove_refl (p : FloatParts) : notAbove p p := by
  have h : magCmp p p = .eq := by simp [magCmp]
  cases hs : p.sign <;> cases hc : p.cls <;> simp [notAbove, compareOrdered, hs, hc, h]

/-- Not above the other as the smaller one, not below it as the larger one. -/
def Outer (smaller : Bool) (p q : FloatParts) : Prop :=
  if smaller then notAbove p q else notAbove q p

theorem takesFirst_iff (ha : isNan p = false) (hb : isNan q = false)
    (hza : p.cls = .zero → p.exp = 0 ∧ p.frac = 0) (hzb : q.cls = .zero → q.exp = 0 ∧ q.frac = 0) :
    (∀ smaller, if takesFirst smaller p q then Outer smaller p q else Outer smaller q p) ↔
      ¬BesideZero p q ∧ ¬BesideZero q p := by
  have hswap := magCmp_swap p q
  have hpq : p.cls = .zero → (magCmp p q = .lt ↔ _) := fun h => magCmp_zero (q := q) (hza h).1 (hza h).2
  have hqp : q.cls = .zero → (magCmp q p = .lt ↔ _) := fun h => magCmp_zero (q := p) (hzb h).1 (hzb h).2
  simp only [isNan] at ha hb
  simp only [Bool.forall_bool, Outer, takesFirst, magLess_eq, notAbove, compareOrdered, BesideZero]
  rw [← hswap] at hqp ⊢
  generalize magCmp p q = o at hpq hqp ⊢
  cases hp : p.cls <;> cases hq : q.cls <;> simp [hp, hq] at ha hb hpq hqp ⊢ <;>
    cases hs : p.sign <;> cases ht : q.sign <;> cases o <;> simp at hpq hqp ⊢ <;> grind
variable {f : FloatFormat} {a b : BitVec f.totalBits} (env : FloatEnv)

section

variable (ha : isNan (unpack f a) = false) (hb : isNan (unpack f b) = false)
include ha hb

theorem notAbove_unpack : NotAbove f a b env ↔ notAbove (unpack f a) (unpack f b) := by
  simp [NotAbove, compare, ha, hb, notAbove]

theorem minMax_ordered (smaller : Bool) :
    (minMax f a b env smaller).1 = if takesFirst smaller (unpack f a) (unpack f b) then a else b := by
  simp [minMax, ha, hb]

theorem minMax_mem (smaller : Bool) : (minMax f a b env smaller).1 = a ∨ (minMax f a b env smaller).1 = b := by
  rw [minMax_ordered env ha hb]
  split <;> simp

theorem minMax_outer_iff (smaller : Bool) :
    (if takesFirst smaller (unpack f a) (unpack f b) then Outer smaller (unpack f a) (unpack f b)
      else Outer smaller (unpack f b) (unpack f a)) ↔
      Outer smaller (unpack f (minMax f a b env smaller).1) (unpack f a) ∧
        Outer smaller (unpack f (minMax f a b env smaller).1) (unpack f b) := by
  have hrefl : ∀ p, Outer smaller p p := fun p => by cases smaller <;> exact notAbove_refl p
  rw [minMax_ordered env ha hb]
  cases takesFirst smaller (unpack f a) (unpack f b) <;> simp [hrefl]

end

/-- Minimum and maximum agree with the comparison unless a zero stands beside a
nonzero number of its sign below one. -/
theorem selectsRight_iff (f : FloatFormat) (a b : BitVec f.totalBits) (env : FloatEnv)
    (ha : isNan (unpack f a) = false) (hb : isNan (unpack f b) = false) : SelectsRight f a b env ↔
      ¬BesideZero (unpack f a) (unpack f b) ∧ ¬BesideZero (unpack f b) (unpack f a) := by
  have horder : ∀ x y, x = a ∨ x = b → y = a ∨ y = b →
      (NotAbove f x y env ↔ notAbove (unpack f x) (unpack f y)) := by
    rintro x y (rfl | rfl) (rfl | rfl) <;> exact notAbove_unpack env ‹_› ‹_›
  have hmem := minMax_mem env ha hb
  have hmem' := fun s => (minMax_mem env hb ha s).symm
  have hab := takesFirst_iff ha hb unpack_zero unpack_zero
  have hba := takesFirst_iff hb ha unpack_zero unpack_zero
  rw [forall_congr' (minMax_outer_iff env ha hb)] at hab
  rw [forall_congr' (minMax_outer_iff env hb ha)] at hba
  simp only [Bool.forall_bool, Outer, Bool.false_eq_true, if_true, if_false] at hab hba
  constructor
  · intro h
    have hmin := h.min_low
    have hmax := h.max_high
    rw [← hab]
    simp only [min, max] at hmin hmax
    grind
  · intro h
    obtain ⟨⟨hmaxa, hmaxb⟩, hmina, hminb⟩ := hab.mpr h
    obtain ⟨⟨hmaxb', hmaxa'⟩, hminb', hmina'⟩ := hba.mpr h.symm
    constructor <;> simp only [min, max, SameValue] <;> grind

def nearEven : FloatEnv := ⟨.nearEven, ExcFlags.none, .afterRounding, false⟩

theorem selectsRight_one_two : SelectsRight .float32 0x3F800000 0x40000000 nearEven :=
  (selectsRight_iff .float32 0x3F800000 0x40000000 nearEven (by decide) (by decide)).mpr
    ⟨fun h => absurd h.1 (by decide), fun h => absurd h.1 (by decide)⟩

/-- The minimum of zero and one half is one half. -/
theorem min_zero_half_wrong : ¬SelectsRight .float32 0 0x3F000000 nearEven := fun h =>
  absurd h.min_low.1 (by unfold NotAbove; decide)

end MachinaMinMax
