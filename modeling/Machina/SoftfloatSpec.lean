import Machina.FloatRound
import Machina.Softfloat

/-!
# What packing should return and raise

The exact value of the parts, the meaning of an encoding, the rounding of a
rational number to a format and the exceptions that rounding should signal.
-/
namespace MachinaSoftfloatSpec

open MachinaFloatRound
open MachinaSoftfloat

/-- What an encoding denotes; zeros keep their sign. -/
inductive Datum where
  | finite (sign : Bool) (mag : ℚ)
  | inf (sign : Bool)
  | nan
  deriving DecidableEq

def magnitude (p : FloatParts) : ℚ :=
  if p.cls = .zero then 0 else p.frac.toNat * 2 ^ (p.exp.toInt - 126)

/-- The mode's effect on the magnitude of a number of the given sign. -/
def direction : RoundMode → (sign : Bool) → Rounding
  | .nearEven, _ => .nearestEven
  | .nearMaxMag, _ => .nearestAway
  | .toZero, _ => .down
  | .down, sign => if sign then .up else .down
  | .up, sign => if sign then .down else .up
  | .odd, _ => .odd

section

variable (f : FloatFormat)

def emin : ℤ := 1 - f.bias
def emax : ℤ := f.bias

def maxFinite : ℚ := (2 ^ (f.fracBits + 1) - 1) * 2 ^ (emax f - f.fracBits)

/-- The meaning of an exponent field and a fraction field. A normal number
whose explicit integer bit is clear is an invalid encoding. -/
def decodeFields (sign : Bool) (exp frac : ℕ) : Datum :=
  if exp = 2 ^ f.expBits - 1 then
    if frac = (if f.hasExplicitInt then 2 ^ f.fracBits else 0) then .inf sign else .nan
  else if exp = 0 then
    .finite sign (frac * 2 ^ (emin f - f.fracBits))
  else if f.hasExplicitInt then
    if frac < 2 ^ f.fracBits then .nan else .finite sign (frac * 2 ^ ((exp : ℤ) - f.bias - f.fracBits))
  else
    .finite sign ((2 ^ f.fracBits + frac) * 2 ^ ((exp : ℤ) - f.bias - f.fracBits))

def decode (bits : BitVec f.totalBits) : Datum :=
  decodeFields f (bits.getLsbD (f.fracTotal + f.expBits)) (bits.toNat / 2 ^ f.fracTotal % 2 ^ f.expBits)
    (bits.toNat % 2 ^ f.fracTotal)

variable (d : Rounding)

/-- Rounding to the format's precision as if the exponent had no bounds. -/
def unbounded (x : ℚ) : ℚ :=
  roundAt d (Int.log 2 x - f.fracBits) x

/-- The number that replaces a result too large for the format. -/
def overflowDatum (sign : Bool) : Datum :=
  match d with
  | .up | .nearestEven | .nearestAway => .inf sign
  | .down | .odd => .finite sign (maxFinite f)

/-- Rounding to the format: below the normal range the grid is that of the
smallest normal binade. -/
def ieeeRound (sign : Bool) (x : ℚ) : Datum :=
  let v := roundAt d (max (Int.log 2 x) (emin f) - f.fracBits) x
  if maxFinite f < v then overflowDatum f d sign else .finite sign v

/-- Whether a magnitude counts as tiny. -/
def Tiny (t : Tininess) (d : Rounding) (x : ℚ) : Prop :=
  match t with
  | .beforeRounding => x < 2 ^ emin f
  | .afterRounding => unbounded f d x < 2 ^ emin f

/-- The flags that packing adds to an environment without any. -/
def raised (p : FloatParts) (env : FloatEnv) : ExcFlags :=
  (roundPack f p { env with flags := ExcFlags.none }).2.flags

/-- Each exception is signalled exactly in its own case. -/
structure SignalsRight (p : FloatParts) (env : FloatEnv) : Prop where
  inexact : (raised f p env).contains ExcFlags.inexact ↔
    decode f (roundPack f p env).1 ≠ .finite p.sign (magnitude p)
  overflow : (raised f p env).contains ExcFlags.overflow ↔
    maxFinite f < unbounded f (direction env.roundMode p.sign) (magnitude p)
  underflow : (raised f p env).contains ExcFlags.underflow ↔
    decode f (roundPack f p env).1 ≠ .finite p.sign (magnitude p) ∧
      Tiny f env.tininess (direction env.roundMode p.sign) (magnitude p)

/-- The biased exponent of the leading bit, without bounds. -/
def biasedLog (x : ℚ) : ℤ := Int.log 2 x + f.bias

/-- Rounding to the format's precision carries into the next binade. -/
def Carries (x : ℚ) : Prop :=
  Reaches d (2 ^ (Int.log 2 x + 1)) (2 ^ (Int.log 2 x - f.fracBits)) x

/-- The biased exponent stays within a signed 32-bit word, the carry included. -/
def ExpFits (x : ℚ) : Prop :=
  -2 ^ 31 ≤ biasedLog f x ∧ biasedLog f x < 2 ^ 31 ∧ ¬(biasedLog f x = 2 ^ 31 - 1 ∧ Carries f d x)

/-- A number below the normal range that rounds up to the smallest normal number. -/
def RoundsToNormal (x : ℚ) : Prop :=
  x < 2 ^ emin f ∧ Reaches d (2 ^ emin f) (2 ^ (emin f - f.fracBits)) x

end
end MachinaSoftfloatSpec
