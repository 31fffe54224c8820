import Mathlib

/-!
# Numbers and bytes in packets of the remote serial protocol

Texts are lists of characters. Numbers are read the way the code reads them: prefixes and
a sign are accepted, and what cannot be read is 0. Hex data is read strictly.
-/

namespace MachinaGdbProtocol

abbrev Text := List Char

def asBytes (s : Text) : List UInt8 := s.flatMap String.utf8EncodeChar

/-- The value of a digit in a base up to 16. -/
def toDigit (radix : Nat) (c : Char) : Option Nat :=
  let d :=
    if '0' ≤ c ∧ c ≤ '9' then some (c.toNat - '0'.toNat)
    else if 'a' ≤ c ∧ c ≤ 'f' then some (c.toNat - 'a'.toNat + 10)
    else if 'A' ≤ c ∧ c ≤ 'F' then some (c.toNat - 'A'.toNat + 10)
    else none
  d.filter (· < radix)

/-- Digits, with a check of the range after each. -/
def readDigits (radix bound : Nat) : Nat → Text → Option Nat
  | acc, [] => some acc
  | acc, c :: rest => do
    let d ← toDigit radix c
    if acc * radix + d < bound then readDigits radix bound (acc * radix + d) rest else none

/-- `from_str_radix` of an unsigned type with values below `bound`. -/
def fromStrRadix (radix bound : Nat) : Text → Option Nat
  | [] => none
  | ['+'] => none
  | '+' :: rest => readDigits radix bound 0 rest
  | s => readDigits radix bound 0 s

/-- `trim_start_matches` for a pattern of two characters. -/
def trimStartPair (a b : Char) : Text → Text
  | x :: y :: rest => if x = a ∧ y = b then trimStartPair a b rest else x :: y :: rest
  | s => s

/-- `trim_start_matches` for a character. -/
def trimStart (a : Char) (s : Text) : Text := s.dropWhile (· == a)

def parseHex (s : Text) : Nat :=
  (fromStrRadix 16 (2 ^ 64) (trimStartPair '0' 'X' (trimStartPair '0' 'x' s))).getD 0

def hexVal (b : UInt8) : Option UInt8 :=
  if 48 ≤ b ∧ b ≤ 57 then some (b - 48)
  else if 97 ≤ b ∧ b ≤ 102 then some (b - 97 + 10)
  else if 65 ≤ b ∧ b ≤ 70 then some (b - 65 + 10)
  else none

def hexPairs : List UInt8 → Option (List UInt8)
  | [] => some []
  | [_] => none
  | hi :: lo :: rest => do
    let hi ← hexVal hi
    let lo ← hexVal lo
    let out ← hexPairs rest
    return ((hi <<< 4) ||| lo) :: out

def decodeHexBytes (hex : Text) : Option (List UInt8) :=
  if (asBytes hex).length % 2 ≠ 0 then none else hexPairs (asBytes hex)

/-- A number in lower-case hex digits. -/
def hexText (n : Nat) : Text := Nat.toDigits 16 n

def hexText2 (n : Nat) : Text := if n < 16 then '0' :: hexText n else hexText n

def encodeHexBytes (data : List UInt8) : Text := data.flatMap fun b => hexText2 b.toNat

/-- The text before and after the first `c`. -/
def splitOnce (c : Char) : Text → Option (Text × Text)
  | [] => none
  | x :: rest => if x = c then some ([], rest) else (splitOnce c rest).map fun (a, b) => (x :: a, b)

/-- Undo the escaping of binary data: an escape character is dropped and the byte after it has a bit flipped. -/
def unescapeBinary : List UInt8 → List UInt8
  | [] => []
  | [b] => [b]
  | b :: b' :: rest => if b = 125 then (b' ^^^ 0x20) :: unescapeBinary rest else b :: unescapeBinary (b' :: rest)

end MachinaGdbProtocol
