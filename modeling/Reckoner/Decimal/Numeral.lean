/-!
Reading numerals.

A whole numeral is an optional sign and digits. A decimal numeral is an optional sign, digits with
at most one point among or around them, and an optional exponent; instead of digits it may be one
of the words `inf`, `infinity` and `nan` in any case. A decimal numeral denotes the double nearest
to its value.
-/
namespace Reckoner

namespace Decimal

/-- The sign ahead of a numeral, and what follows it. -/
def splitSign : List Char → Bool × List Char
  | '-' :: rest => (true, rest)
  | '+' :: rest => (false, rest)
  | text => (false, text)

/-- The number that a list of digits writes. -/
def ofDigits (digits : List Char) : Nat :=
  Nat.ofDigitChars 10 digits 0

/-- The integer that a whole numeral denotes. -/
def readInt? (text : List Char) : Option Int :=
  let (negative, digits) := splitSign text
  if digits ≠ [] && digits.all Char.isDigit then
    some (if negative then -ofDigits digits else ofDigits digits)
  else
    none

/-- The signed word of width `w` that a whole numeral denotes, if the number fits. -/
def readWord? (w : Nat) (text : List Char) : Option (BitVec w) :=
  match readInt? text with
  | none => none
  | some n => if (BitVec.ofInt w n).toInt = n then some (BitVec.ofInt w n) else none

/-- A decimal numeral without its sign: `digits · 10^exponent`, or one of the words. -/
inductive Magnitude where
  | scaled (digits : Nat) (exponent : Int)
  | infinity
  | nan
deriving DecidableEq, Repr

/-- The exponent that ends a decimal numeral; nothing stands for zero. -/
def readExponent? : List Char → Option Int
  | [] => some 0
  | c :: rest => if c = 'e' ∨ c = 'E' then readInt? rest else none

/-- Read digits with an optional point and an optional exponent. -/
def readScaled? (text : List Char) : Option Magnitude :=
  let whole := text.takeWhile Char.isDigit
  let afterWhole := text.dropWhile Char.isDigit
  let (places, tail) :=
    match afterWhole with
    | '.' :: rest => (rest.takeWhile Char.isDigit, rest.dropWhile Char.isDigit)
    | rest => ([], rest)
  if whole = [] ∧ places = [] then
    none
  else
    (readExponent? tail).map fun e => .scaled (ofDigits (whole ++ places)) (e - places.length)

/-- Read a decimal numeral without a sign. -/
def readMagnitude? (text : List Char) : Option Magnitude :=
  let lower := text.map Char.toLower
  if lower = "inf".toList ∨ lower = "infinity".toList then
    some .infinity
  else if lower = "nan".toList then
    some .nan
  else
    readScaled? text

/--
The double nearest to `digits · 10^exponent`. A number of `n` digits is below `10^(n + exponent)`
and not below a tenth of that, so beyond the two limits it is infinite or zero.
-/
def nearestFloat (digits : Nat) (exponent : Int) : Float :=
  let order := ((toString digits).length : Int) + exponent
  if digits = 0 ∨ order < -330 then
    0
  else if 310 < order then
    1 / 0
  else
    Float.ofScientific digits (decide (exponent < 0)) exponent.natAbs

/-- The double that a numeral without sign denotes. -/
def Magnitude.toFloat : Magnitude → Float
  | .scaled digits exponent => nearestFloat digits exponent
  | .infinity => 1 / 0
  | .nan => 0 / 0

/-- The double that a decimal numeral denotes. -/
def readFloat? (text : List Char) : Option Float :=
  let (negative, rest) := splitSign text
  (readMagnitude? rest).map fun m => if negative then -m.toFloat else m.toFloat

end Decimal

end Reckoner
