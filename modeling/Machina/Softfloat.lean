import Mathlib

/-!
# Rounding and packing of decomposed floating-point numbers

A number is held as a sign, an unbiased exponent and a 128-bit fraction whose
integer bit sits at position 126. Packing rounds it at a position that depends
on the target format and assembles the encoding. Exponents are 32-bit words
with wrapping arithmetic, as in the release build.
-/
namespace MachinaSoftfloat

inductive RoundMode where
  | nearEven
  | toZero
  | down
  | up
  | nearMaxMag
  | odd
  deriving DecidableEq, Repr

abbrev ExcFlags := BitVec 8

namespace ExcFlags

def none : ExcFlags := 0#8
def invalid : ExcFlags := 1#8
def divbyzero : ExcFlags := 2#8
def overflow : ExcFlags := 4#8
def underflow : ExcFlags := 8#8
def inexact : ExcFlags := 16#8

/-- Whether two flag sets have a flag in common. -/
def contains (self other : ExcFlags) : Bool := self &&& other != 0#8

end ExcFlags

inductive Tininess where
  | beforeRounding
  | afterRounding
  deriving DecidableEq, Repr

structure FloatEnv where
  roundMode : RoundMode
  flags : ExcFlags
  tininess : Tininess
  defaultNan : Bool
  deriving DecidableEq, Repr

def FloatEnv.raise (env : FloatEnv) (f : ExcFlags) : FloatEnv :=
  { env with flags := env.flags ||| f }

inductive FloatClass where
  | normal
  | zero
  | inf
  | qNaN
  | sNaN
  deriving DecidableEq, Repr

structure FloatParts where
  sign : Bool
  exp : BitVec 32
  frac : BitVec 128
  cls : FloatClass
  deriving DecidableEq, Repr

/-- A target format. Its stored word has exactly the sign, the exponent field
and the fraction field, with the integer bit only where it is explicit. -/
structure FloatFormat where
  expBits : ℕ
  fracBits : ℕ
  bias : ℕ
  hasExplicitInt : Bool
  three_le_expBits : 3 ≤ expBits
  expBits_le : expBits ≤ 15
  fracBits_pos : 0 < fracBits
  bias_eq : bias = 2 ^ (expBits - 1) - 1
  total_le : 1 + expBits + (fracBits + if hasExplicitInt then 1 else 0) ≤ 128

namespace FloatFormat

def float16 : FloatFormat := ⟨5, 10, 15, false, by decide, by decide, by decide, by decide, by decide⟩
def bFloat16 : FloatFormat := ⟨8, 7, 127, false, by decide, by decide, by decide, by decide, by decide⟩
def float32 : FloatFormat := ⟨8, 23, 127, false, by decide, by decide, by decide, by decide, by decide⟩
def float64 : FloatFormat := ⟨11, 52, 1023, false, by decide, by decide, by decide, by decide, by decide⟩
def float128 : FloatFormat := ⟨15, 112, 16383, false, by decide, by decide, by decide, by decide, by decide⟩
def floatX80 : FloatFormat := ⟨15, 63, 16383, true, by decide, by decide, by decide, by decide, by decide⟩

variable (f : FloatFormat)

/-- Width of the fraction field, the explicit integer bit included. -/
def fracTotal : ℕ := f.fracBits + if f.hasExplicitInt then 1 else 0

def totalBits : ℕ := 1 + f.expBits + f.fracTotal

/-- The storage type keeps the low bits of the assembled word. -/
def fromBits (bits : BitVec 128) : BitVec f.totalBits := bits.setWidth f.totalBits

end FloatFormat

def intBit : ℕ := 126

/-- The sign bit moved above a field of the given width. -/
def signBit (sign : Bool) (width : ℕ) : BitVec 128 :=
  (if sign then 1#128 else 0#128) <<< width

section Special

variable (f : FloatFormat)

def packZero (sign : Bool) : BitVec f.totalBits :=
  f.fromBits (signBit sign (f.fracTotal + f.expBits))

def packInf (sign : Bool) : BitVec f.totalBits :=
  let maxExp := (1#128 <<< f.expBits) - 1
  let bits := signBit sign (f.fracTotal + f.expBits) ||| (maxExp <<< f.fracTotal)
  f.fromBits (if f.hasExplicitInt then bits ||| (1#128 <<< f.fracBits) else bits)

def packMaxFinite (sign : Bool) : BitVec f.totalBits :=
  let maxExp := (1#128 <<< f.expBits) - 2
  let fracAllOnes := (1#128 <<< f.fracTotal) - 1
  f.fromBits (signBit sign (f.fracTotal + f.expBits) ||| (maxExp <<< f.fracTotal) ||| fracAllOnes)

def encodeNan (parts : FloatParts) : BitVec f.totalBits :=
  let maxExp := (1#128 <<< f.expBits) - 1
  let payload := (parts.frac >>> (intBit - f.fracBits)) &&& ((1#128 <<< f.fracBits) - 1)
  let quietBit := 1#128 <<< (f.fracBits - 1)
  let payload := if parts.cls = .qNaN then payload ||| quietBit else payload &&& ~~~quietBit
  let payload := if payload = 0 then quietBit else payload
  let bits := signBit parts.sign (f.fracTotal + f.expBits) ||| (maxExp <<< f.fracTotal) ||| payload
  f.fromBits (if f.hasExplicitInt then bits ||| (1#128 <<< f.fracBits) else bits)

def FloatParts.defaultNan : FloatParts := ⟨false, 0#32, 1#128 <<< (intBit - 1), .qNaN⟩

def packNan (parts : FloatParts) (env : FloatEnv) : BitVec f.totalBits :=
  if env.defaultNan then
    encodeNan f FloatParts.defaultNan
  else if parts.cls = .sNaN then
    encodeNan f { parts with cls := .qNaN, frac := parts.frac ||| (1#128 <<< (intBit - 1)) }
  else
    encodeNan f parts

def overflowResult (sign : Bool) : RoundMode → BitVec f.totalBits
  | .nearEven | .nearMaxMag => packInf f sign
  | .toZero => packMaxFinite f sign
  | .down => if sign then packInf f true else packMaxFinite f false
  | .up => if sign then packMaxFinite f true else packInf f false
  | .odd => packMaxFinite f sign

end Special

def applyRounding (frac remainder half roundMask : BitVec 128) (rm : RoundMode) (sign : Bool) : BitVec 128 :=
  let truncated := frac &&& ~~~roundMask
  let lsbSet := (frac >>> roundMask.cpop.toNat) &&& 1 != 0
  match rm with
  | .nearEven =>
    if half < remainder then truncated + (roundMask + 1)
    else if remainder = half then
      if lsbSet then truncated + (roundMask + 1) else truncated
    else truncated
  | .nearMaxMag => if half ≤ remainder then truncated + (roundMask + 1) else truncated
  | .toZero => truncated
  | .down => if sign && remainder != 0 then truncated + (roundMask + 1) else truncated
  | .up => if !sign && remainder != 0 then truncated + (roundMask + 1) else truncated
  | .odd => if remainder != 0 then truncated ||| (roundMask + 1) else truncated

/-- Right shift with a sticky bit, as both normalisation and the subnormal
path write it. -/
def shiftRightSticky (frac : BitVec 128) (shift : ℕ) : BitVec 128 :=
  let sticky := if frac &&& ((1#128 <<< shift) - 1) != 0 then 1#128 else 0
  (frac >>> shift) ||| sticky

/-- The fraction of a result below the normal range, aligned to biased exponent zero. -/
def denormalize (frac : BitVec 128) (biasedExp : BitVec 32) : BitVec 128 :=
  let shift := (1#32 - biasedExp).toNat
  if shift ≥ 128 then
    if frac != 0 then 1#128 else 0
  else
    shiftRightSticky frac shift

section Pack

variable (f : FloatFormat)

def roundPos : ℕ := intBit - f.fracBits
def roundMask : BitVec 128 := (1#128 <<< roundPos f) - 1
def half : BitVec 128 := 1#128 <<< (roundPos f - 1)

def roundFrac (frac : BitVec 128) (rm : RoundMode) (sign : Bool) : BitVec 128 :=
  applyRounding frac (frac &&& roundMask f) (half f) (roundMask f) rm sign

/-- The underflow flag, raised on the aligned fraction before it is rounded. -/
def detectTininess (frac : BitVec 128) (sign : Bool) (env : FloatEnv) : FloatEnv :=
  if frac &&& roundMask f != 0 then
    let isTiny := match env.tininess with
      | .beforeRounding => true
      | .afterRounding => (roundFrac f frac env.roundMode sign >>> intBit) &&& 1 == 0
    if isTiny then env.raise ExcFlags.underflow else env
  else env

def fracField (frac : BitVec 128) (biasedExp : BitVec 32) : BitVec 128 :=
  if biasedExp = 0 then
    (frac >>> roundPos f) &&& ((1#128 <<< f.fracBits) - 1)
  else if f.hasExplicitInt then
    (frac >>> (intBit - f.fracBits)) &&& ((1#128 <<< (f.fracBits + 1)) - 1)
  else
    (frac >>> roundPos f) &&& ((1#128 <<< f.fracBits) - 1)

def assemble (sign : Bool) (biasedExp : BitVec 32) (fracField : BitVec 128) : BitVec f.totalBits :=
  f.fromBits (signBit sign (f.fracTotal + f.expBits) ||| (biasedExp.signExtend 128 <<< f.fracTotal) ||| fracField)

/-- The rounding stage: round, renormalise after a carry, check for overflow, assemble. -/
def roundAssemble (sign : Bool) (frac : BitVec 128) (biasedExp : BitVec 32) (env : FloatEnv) :
    BitVec f.totalBits × FloatEnv :=
  let maxExp : BitVec 32 := (1#32 <<< f.expBits) - 1
  let inexact := frac &&& roundMask f != 0
  let rounded := roundFrac f frac env.roundMode sign
  let carry := rounded >>> (intBit + 1) != 0
  let frac := if carry then rounded >>> 1 else rounded
  let biasedExp := if carry then biasedExp + 1 else biasedExp
  if maxExp.toInt ≤ biasedExp.toInt then
    (overflowResult f sign env.roundMode, env.raise (ExcFlags.overflow ||| ExcFlags.inexact))
  else
    let env := if inexact then env.raise ExcFlags.inexact else env
    (assemble f sign biasedExp (fracField f frac biasedExp), env)

/-- Packing of parts whose integer bit is at its position. -/
def pack (parts : FloatParts) (env : FloatEnv) : BitVec f.totalBits × FloatEnv :=
  match parts.cls with
  | .zero => (packZero f parts.sign, env)
  | .inf => (packInf f parts.sign, env)
  | .qNaN | .sNaN => (packNan f parts env, env)
  | .normal =>
    if parts.frac = 0 then
      (packZero f parts.sign, env)
    else
      let biasedExp := parts.exp + BitVec.ofNat 32 f.bias
      if biasedExp.toInt < 1 then
        let frac := denormalize parts.frac biasedExp
        roundAssemble f parts.sign frac 0 (detectTininess f frac parts.sign env)
      else
        roundAssemble f parts.sign parts.frac biasedExp env

/-- Moves the leading bit of a nonzero fraction to the integer bit. -/
def normalizeParts (parts : FloatParts) : FloatParts :=
  let lz := parts.frac.clz.toNat
  let targetLz := 127 - intBit
  if lz > targetLz then
    let shift := lz - targetLz
    { parts with frac := parts.frac <<< shift, exp := parts.exp - BitVec.ofNat 32 shift }
  else if lz < targetLz then
    let shift := targetLz - lz
    { parts with frac := shiftRightSticky parts.frac shift, exp := parts.exp + BitVec.ofNat 32 shift }
  else
    parts

/-- Rounding, overflow and underflow handling and packing into the target
format. The parts written back are read by no caller. -/
def roundPack (parts : FloatParts) (env : FloatEnv) : BitVec f.totalBits × FloatEnv :=
  match parts.cls with
  | .zero => (packZero f parts.sign, env)
  | .inf => (packInf f parts.sign, env)
  | .qNaN | .sNaN => (packNan f parts env, env)
  | .normal =>
    if parts.frac = 0 then (packZero f parts.sign, env)
    else pack f (normalizeParts parts) env

end Pack
end MachinaSoftfloat
